import SearchPipeline.Proofs.Inventory.Walk

namespace SearchPipeline

mutual

-- The second stage is the first without one of its subqueries, at any depth.
inductive Stage.Without (removed : Subquery) : Stage → Stage → Prop where
  | here {piped : Bool} {command : Option Command} {operations : List Operation} {span : Span} :
      Stage.Without removed (.mk piped command operations (some removed) span)
        (.mk piped command operations none span)
  | inside {piped : Bool} {command : Option Command} {operations : List Operation} {span : Span}
      {inner rest : Subquery} :
      Pipeline.Without removed inner.pipeline rest.pipeline →
      Stage.Without removed (.mk piped command operations (some inner) span)
        (.mk piped command operations (some rest) span)

inductive Pipeline.Without (removed : Subquery) : Pipeline → Pipeline → Prop where
  | at {pipeline rest : Pipeline} {before behind : List Stage} {whole part : Stage} :
      pipeline.stages = before ++ whole :: behind → rest.stages = before ++ part :: behind →
      Stage.Without removed whole part → Pipeline.Without removed pipeline rest

end

namespace Query

variable {query : Query} {removed : Subquery}

mutual

-- What a query reads depends on its tokens and its stages.
theorem stageFindings_update (pipeline : Pipeline) (derived : List String) : (s : Stage) →
    stageFindings { query with pipeline } derived s = query.stageFindings derived s
  | .mk _ _ _ subquery _ => by
      rw [stageFindings_mk, stageFindings_mk, bracketFindings_update pipeline subquery]
      rfl

theorem bracketFindings_update (pipeline : Pipeline) : (subquery : Option Subquery) →
    bracketFindings { query with pipeline } subquery = query.bracketFindings subquery
  | none => rfl
  | some (.mk opening later _) => by
      rw [bracketFindings, bracketFindings, subqueryFindings, subqueryFindings,
        stageFindings_update pipeline [] opening]
      exact congrArg _ (stagesFindings_update pipeline _ later)

theorem stagesFindings_update (pipeline : Pipeline) (derived : List String) :
    (stages : List Stage) →
    stagesFindings { query with pipeline } derived stages = query.stagesFindings derived stages
  | [] => by rw [stagesFindings, stagesFindings]
  | first :: rest => by
      rw [stagesFindings, stagesFindings, stageFindings_update pipeline derived first]
      exact congrArg _ (stagesFindings_update pipeline _ rest)

end

-- A stage that reads more than another, but derives the same, reads as much more among others.
theorem mem_stagesFindings_replace {whole part : Stage}
    (hderived : ∀ derived, (query.stageFindings derived whole).2 = (query.stageFindings derived part).2)
    {more : List Finding} (hmore : ∀ derived finding, finding ∈ (query.stageFindings derived whole).1 ↔
      finding ∈ (query.stageFindings derived part).1 ∨ finding ∈ more)
    (derived : List String) (before behind : List Stage) (finding : Finding) :
    finding ∈ query.stagesFindings derived (before ++ whole :: behind) ↔
      finding ∈ query.stagesFindings derived (before ++ part :: behind) ∨ finding ∈ more := by
  simp only [stagesFindings_append, stagesFindings_cons, List.mem_append, hmore, hderived]
  grind

mutual

-- Without the subquery a stage derives the same.
theorem stageFindings_without : {whole part : Stage} → whole.Without removed part →
    ∀ derived, (query.stageFindings derived whole).2 = (query.stageFindings derived part).2 ∧
      ∀ finding, finding ∈ (query.stageFindings derived whole).1 ↔
        finding ∈ (query.stageFindings derived part).1 ∨
          finding ∈ query.stagesFindings [] removed.pipeline.stages
  | _, _, .here => by
      intro derived
      simp only [stageFindings_mk, true_and]
      intro finding
      simp [bracketFindings, subqueryFindings_eq]
  | _, _, .inside hinner => by
      have hwithin := stagesFindings_without hinner
      intro derived
      simp only [stageFindings_mk, true_and]
      intro finding
      simp only [bracketFindings, subqueryFindings_eq, List.mem_append, hwithin, or_assoc]

theorem stagesFindings_without : {pipeline rest : Pipeline} → pipeline.Without removed rest →
    ∀ finding, finding ∈ query.stagesFindings [] pipeline.stages ↔
      finding ∈ query.stagesFindings [] rest.stages ∨
        finding ∈ query.stagesFindings [] removed.pipeline.stages
  | _, _, .at hpipeline hrest hstage => by
      have hwithin := stageFindings_without hstage
      intro finding
      rw [hpipeline, hrest]
      exact mem_stagesFindings_replace (fun derived => (hwithin derived).1)
        (fun derived => (hwithin derived).2) [] _ _ finding

end

-- Each list of the inventory holds what it holds without the subquery, and what it holds for the
-- subquery as a query of its own. The walk that fills the lists has its scopes back behind the
-- subquery, whatever they were.
theorem inventory_without (source : String) (query : Query) (rest : Pipeline)
    (hparse : Query.parse source = .ok query) (hwithout : query.pipeline.Without removed rest) :
    (∀ category text, text ∈ query.inventory.listed category ↔
      text ∈ (inventory { query with pipeline := rest }).listed category ∨
        text ∈ (inventory { query with pipeline := removed.pipeline }).listed category) ∧
    query.walk.inventory = query.inventory ∧
    ∀ walker, (query.visitSubquery walker removed).scopes = walker.scopes := by
  refine ⟨fun category text => ?_, walk_inventory hparse,
    fun walker => visitSubquery_scopes query walker removed⟩
  simp only [mem_inventory, stagesFindings_update, stagesFindings_without hwithout]
  exact and_or_left

-- `x` is derived inside the brackets and outside, and read on both sides.
theorem inventory_without_nested : ∃ query inner rest,
    Query.parse "search x=1 [search y=2 | eval x=5 | where z=x] | eval y=3 | stats count by x" =
      .ok query ∧ query.pipeline.Without inner rest ∧
    (∀ category text, text ∈ query.inventory.listed category ↔
      text ∈ (inventory { query with pipeline := rest }).listed category ∨
        text ∈ (inventory { query with pipeline := inner.pipeline }).listed category) ∧
    query.walk.inventory = query.inventory ∧
    ∀ walker, (query.visitSubquery walker inner).scopes = walker.scopes := by
  have hread : (Query.parse
      "search x=1 [search y=2 | eval x=5 | where z=x] | eval y=3 | stats count by x").toOption.any
        (·.pipeline.opening.subquery.isSome) = true := by decide +kernel
  obtain ⟨query, hparse, hinner⟩ := parse_of_any hread
  obtain ⟨source, tokens, opening, later, span⟩ := query
  obtain ⟨piped, command, operations, _ | inner, within⟩ := opening
  · cases hinner
  · have hwithout : Pipeline.Without inner
        ⟨.mk piped command operations (some inner) within, later, span⟩
        ⟨.mk piped command operations none within, later, span⟩ :=
      .at (List.nil_append _).symm (List.nil_append _).symm .here
    exact ⟨_, inner, _, hparse, hwithout, inventory_without _ _ _ hparse hwithout⟩

end Query

end SearchPipeline
