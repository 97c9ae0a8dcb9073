import SearchPipeline.Proofs.Inventory.Evaluated
import SearchPipeline.Proofs.Inventory.Subqueries

namespace SearchPipeline

namespace Inventory

variable {found texts : List String} {text : String}

theorem prefix_addNew (found : List String) (text : String) : found <+: addNew found text := by
  unfold addNew
  split
  · exact List.prefix_refl found
  · exact List.prefix_append found [text]

theorem prefix_foldl_addNew (found texts : List String) : found <+: texts.foldl addNew found := by
  induction texts generalizing found with
  | nil => exact List.prefix_refl found
  | cons text texts ih => exact (prefix_addNew found text).trans (ih (addNew found text))

-- Later findings add at the end.
theorem collect_prefix (first second : List Finding) (category : Category) :
    collect first category <+: collect (first ++ second) category := by
  rw [collect, collect, distinct, distinct, List.filter_append, List.map_append, List.foldl_append]
  exact prefix_foldl_addNew _ _

end Inventory

theorem Operation.mem_of_derives {command : Option String} {table : Option Span}
    {operation leaf : Operation} {field : String} (hleaf : leaf ∈ operation.leaves)
    (h : Step.Derives ⟨command, leaf⟩ field) : .derives field ∈ operation.mentions command table := by
  rw [mentions_leaves, List.mem_flatMap]
  refine ⟨leaf, hleaf, ?_⟩
  cases h with
  | assigned heval => simp [mentions, heval]
  | aliased => simp [mentions]
  | output hmem =>
      simp only [mentions, List.mem_append, List.mem_map]
      exact .inl (.inr ⟨_, hmem, rfl⟩)

namespace Query

variable {query : Query} {derived : List String} {field : String} {stage : Stage}
  {stages : List Stage}

theorem stageFindings_derived_mono (h : field ∈ derived) :
    field ∈ (query.stageFindings derived stage).2 := by
  obtain ⟨piped, command, operations, subquery, span⟩ := stage
  rw [stageFindings_mk]
  dsimp only
  split
  · exact h
  · exact Mention.mem_settle_derived.2 (.inl h)

-- What a step derives is derived behind its stage, unless the stage is a branch.
theorem mem_derived_of_step (hbranch : opensBranch stage.commandName? = false) {step : Step}
    (hstep : step ∈ stage.steps) (h : step.Derives field) :
    field ∈ (query.stageFindings derived stage).2 := by
  obtain ⟨piped, command, operations, subquery, span⟩ := stage
  obtain ⟨leaf, hleaf, rfl⟩ := List.mem_map.1 hstep
  obtain ⟨operation, hmem, hleaf⟩ := List.mem_flatMap.1 hleaf
  change opensBranch (command.map (·.name)) = false at hbranch
  rw [stageFindings_mk]
  dsimp only
  rw [if_neg (by simp [hbranch]), if_neg (by simp [hbranch]), Mention.mem_settle_derived]
  exact .inr (List.mem_append_right _
    (List.mem_flatMap.2 ⟨operation, hmem, Operation.mem_of_derives hleaf h⟩))

theorem derivedBehind_mono (h : field ∈ derived) : field ∈ query.derivedBehind derived stages := by
  induction stages generalizing derived with
  | nil => exact h
  | cons first stages ih => exact ih (stageFindings_derived_mono h)

theorem mem_derivedBehind (hstage : stage ∈ stages)
    (hbranch : opensBranch stage.commandName? = false) {step : Step} (hstep : step ∈ stage.steps)
    (h : step.Derives field) : field ∈ query.derivedBehind derived stages := by
  induction stages generalizing derived with
  | nil => cases hstage
  | cons first stages ih =>
      rw [derivedBehind]
      rcases List.mem_cons.1 hstage with rfl | hstage
      · exact derivedBehind_mono (mem_derived_of_step hbranch hstep h)
      · exact ih hstage

-- The query with its opening stage and some of the stages behind it.
def upTo (query : Query) (count : Nat) : Query :=
  { query with
    pipeline := { query.pipeline with later := query.pipeline.later.take count } }

-- A field that a stage reads out of reach of the stages before it.
inductive ReadApart (query : Query) (stage : Stage) (field : String) : Prop where
  | brackets {subquery : Subquery} : stage.subquery = some subquery →
      field ∈ (inventory { query with pipeline := subquery.pipeline }).inputFields →
      ReadApart query stage field
  | branch : opensBranch stage.commandName? = true →
      field ∈ (inventory { query with pipeline := ⟨stage, [], stage.span⟩ }).inputFields →
      ReadApart query stage field

-- A stage that reads a derived field as an input reads it apart.
theorem readApart_of_stage (hne : field ≠ "") (hderived : field ∈ derived)
    (h : ⟨.inputField, field⟩ ∈ (query.stageFindings derived stage).1) :
    query.ReadApart stage field := by
  by_cases hbranch : opensBranch stage.commandName? = true
  · refine .branch hbranch (mem_inputFields.2 ⟨hne, ?_⟩)
    obtain ⟨piped, command, operations, subquery, span⟩ := stage
    change opensBranch (command.map (·.name)) = true at hbranch
    rw [Pipeline.stages, stagesFindings_update, stagesFindings_cons, List.mem_append]
    rw [stageFindings_mk, hbranch] at h
    rw [stageFindings_mk, hbranch]
    exact .inl h
  · obtain ⟨piped, command, operations, subquery, span⟩ := stage
    change ¬ opensBranch (command.map (·.name)) = true at hbranch
    rw [stageFindings_mk] at h
    dsimp only at h
    rw [if_neg hbranch, List.mem_append] at h
    rcases h with h | h
    · -- what the operands read is derived
      rcases Mention.mem_settle h with hfound | ⟨other, hsame, -, hnew, -⟩
      · exact absurd hfound ((query.paired_stage _ operations).field field)
      · cases hsame
        exact absurd hderived hnew
    · cases subquery with
      | none => cases h
      | some subquery =>
          rw [bracketFindings, subqueryFindings_eq] at h
          refine .brackets rfl (mem_inputFields.2 ⟨hne, ?_⟩)
          rwa [stagesFindings_update]

theorem readApart_of_stages (hne : field ≠ "") (hderived : field ∈ derived)
    (h : ⟨.inputField, field⟩ ∈ query.stagesFindings derived stages) :
    ∃ stage ∈ stages, query.ReadApart stage field := by
  induction stages generalizing derived with
  | nil => simp [stagesFindings] at h
  | cons first stages ih =>
      rw [stagesFindings_cons, List.mem_append] at h
      rcases h with h | h
      · exact ⟨first, List.mem_cons_self, readApart_of_stage hne hderived h⟩
      · obtain ⟨stage, hmem, hread⟩ := ih (stageFindings_derived_mono hderived) h
        exact ⟨stage, List.mem_cons_of_mem first hmem, hread⟩

theorem findings_split (query : Query) (count : Nat) :
    query.findings = (query.upTo count).findings ++ query.stagesFindings
      (query.derivedBehind [] (query.upTo count).pipeline.stages)
      (query.pipeline.later.drop count) := by
  have hstages : query.pipeline.stages =
      (query.upTo count).pipeline.stages ++ query.pipeline.later.drop count := by
    rw [Pipeline.stages, Pipeline.stages, List.cons_append]
    exact congrArg _ (List.take_append_drop _ _).symm
  have hupTo : (query.upTo count).findings =
      query.stagesFindings [] (query.upTo count).pipeline.stages :=
    stagesFindings_update _ _ _
  rw [hupTo, findings, hstages, stagesFindings_append]

-- Taking more stages of a pipeline only adds to each list of its inventory, at the end. A field that
-- a stage derives and that is no input so far becomes one only where a later stage reads it apart.
-- The walk over the first stages lists their inventory.
theorem inventory_extended (source : String) (query : Query) (count : Nat)
    (hparse : Query.parse source = .ok query) :
    (∀ category, (query.upTo count).inventory.listed category <+:
      query.inventory.listed category) ∧
    (∀ field, ∀ stage ∈ (query.upTo count).pipeline.stages,
      opensBranch stage.commandName? = false → (∃ step ∈ stage.steps, step.Derives field) →
      field ∉ (query.upTo count).inventory.inputFields → field ∈ query.inventory.inputFields →
      ∃ later ∈ query.pipeline.later.drop count, query.ReadApart later field) ∧
    (query.upTo count).walk.inventory = (query.upTo count).inventory ∧
    query.walk.inventory = query.inventory := by
  refine ⟨fun category => ?_, ?_, ?_, walk_inventory hparse⟩
  · rw [inventory, inventory, Inventory.listed_ofFindings, Inventory.listed_ofFindings,
      findings_split query count]
    exact Inventory.collect_prefix _ _ category
  · rintro field stage hstage hbranch ⟨step, hstep, hderives⟩ hbefore hfield
    obtain ⟨hne, hfinding⟩ := mem_inputFields.1 hfield
    rw [← findings, findings_split query count, List.mem_append] at hfinding
    rcases hfinding with hfinding | hfinding
    · exact absurd (mem_inputFields.2 ⟨hne, hfinding⟩) hbefore
    · exact readApart_of_stages hne (mem_derivedBehind hstage hbranch hstep hderives) hfinding
  · exact walk_of_has (fun _ => opening_ne_lookup hparse) (has_opening query.pipeline)
      fun _ hmem => has_later (List.mem_of_mem_take hmem)

-- `x` is derived and read in the same scope, and read again in a branch and in brackets.
theorem inventory_extended_branch : ∃ query,
    Query.parse "search a=1 | eval x=a | where x>1 | append x=2 [search b=x]" = .ok query ∧
    (query.upTo 2).inventory.inputFields = ["a"] ∧ query.inventory.inputFields = ["a", "x", "b"] ∧
    (∀ category, (query.upTo 2).inventory.listed category <+: query.inventory.listed category) ∧
    (∃ later ∈ query.pipeline.later.drop 2, query.ReadApart later "x") ∧
    (query.upTo 2).walk.inventory = (query.upTo 2).inventory := by
  have hread : (Query.parse
      "search a=1 | eval x=a | where x>1 | append x=2 [search b=x]").toOption.any (fun query =>
        (query.upTo 2).inventory.inputFields == ["a"] &&
          query.inventory.inputFields == ["a", "x", "b"] &&
          (query.upTo 2).pipeline.later[0]?.any fun stage =>
            !opensBranch stage.commandName? && stage.steps.any fun step =>
              decide (step.Derives "x")) = true := by decide +kernel
  obtain ⟨query, hparse, hcheck⟩ := parse_of_any hread
  simp only [Bool.and_eq_true, beq_iff_eq, Option.any_eq_true, Bool.not_eq_true', List.any_eq_true,
    decide_eq_true_eq] at hcheck
  obtain ⟨⟨hfirst, hall⟩, stage, hget, hbranch, hstep⟩ := hcheck
  have hstage : stage ∈ (query.upTo 2).pipeline.stages :=
    List.mem_cons_of_mem _ (List.mem_of_getElem? hget)
  obtain ⟨hfront, hapart, hwalk, -⟩ := inventory_extended _ query 2 hparse
  exact ⟨query, hparse, hfirst, hall, hfront,
    hapart "x" stage hstage hbranch hstep (by simp [hfirst]) (by simp [hall]), hwalk⟩

end Query

end SearchPipeline
