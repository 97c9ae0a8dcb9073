import SearchPipeline.Proofs.Grammar.Relabel
import SearchPipeline.Proofs.Inventory.Findings

namespace SearchPipeline

open Grammar

section Names

variable {r : Relabel} (htext : ∀ name, r.text name = name.text)

theorem Expr.asValue?_relabel (r : Relabel) (expr : Expr) :
    (expr.relabel r).asValue? = expr.asValue?.map (·.relabel r) := by
  cases expr <;> simp only [Expr.relabel] <;> rfl

theorem Expr.asName?_relabel (r : Relabel) (expr : Expr) :
    (expr.relabel r).asName? = expr.asName?.map (·.relabel r) := by
  cases expr with
  | value v => cases v <;> simp only [Expr.relabel, Value.relabel] <;> rfl
  | _ =>
      simp only [Expr.relabel]
      rfl

theorem Operation.asBare?_relabel (r : Relabel) (operation : Operation) :
    (operation.relabel r).asBare?.isSome = operation.asBare?.isSome := by
  cases operation <;> rfl

theorem exprsReferences_eq (exprs : List Expr) :
    exprsReferences exprs = exprs.flatMap Expr.references := by
  induction exprs with
  | nil => simp only [exprsReferences, List.flatMap_nil]
  | cons first rest ih => simp only [exprsReferences, List.flatMap_cons, ih]

theorem exprsCallReads_eq (exprs : List Expr) :
    exprsCallReads exprs = exprs.flatMap Expr.callReads := by
  induction exprs with
  | nil => simp only [exprsCallReads, List.flatMap_nil]
  | cons first rest ih => simp only [exprsCallReads, List.flatMap_cons, ih]

include htext

theorem Name.text_relabel (name : Name) : (name.relabel r).text = name.text := htext name

theorem Value.text_relabel (value : Value) : (value.relabel r).text = value.text := by
  cases value with
  | name n => exact htext n
  | _ => rfl

theorem Expr.references_relabel : ∀ expr : Expr, (expr.relabel r).references = expr.references
  | .binary _ lhs rhs => by
      simp only [Expr.relabel, references, Expr.references_relabel lhs, Expr.references_relabel rhs]
  | .paren inner _ | .contains inner _ | .endsWith inner _ | .startsWith inner _ => by
      simp only [Expr.relabel, references, Expr.references_relabel inner]
  | .call function args span => by
      have hargs : args.flatMap (fun arg => (arg.relabel r).references) =
          args.flatMap Expr.references :=
        List.flatMap_congr fun arg _ => Expr.references_relabel arg
      simp only [Expr.relabel, references, relabelExprs_eq, exprsReferences_eq, List.flatMap_map,
        hargs]
  | .value (.name n) => by simp only [Expr.relabel, Value.relabel, references, Name.relabel, htext]
  | .value (.time _ _) | .value (.string _ _) | .value (.number _ _) | .wildcard _ | .path _ _ => by
      simp only [Expr.relabel, Value.relabel, references]

theorem exprsReferences_relabel (exprs : List Expr) :
    exprsReferences (exprs.map (·.relabel r)) = exprsReferences exprs := by
  rw [exprsReferences_eq, exprsReferences_eq, List.flatMap_map]
  exact List.flatMap_congr fun expr _ => expr.references_relabel htext

theorem Expr.callReads_relabel : ∀ expr : Expr, (expr.relabel r).callReads = expr.callReads
  | .binary _ lhs rhs => by
      simp only [Expr.relabel, callReads, Expr.callReads_relabel lhs, Expr.callReads_relabel rhs]
  | .paren inner _ | .contains inner _ | .endsWith inner _ | .startsWith inner _ => by
      simp only [Expr.relabel, callReads, Expr.callReads_relabel inner]
  | .call function args span => by
      have hargs : args.flatMap (fun arg => (arg.relabel r).callReads) =
          args.flatMap Expr.callReads :=
        List.flatMap_congr fun arg _ => Expr.callReads_relabel arg
      simp only [Expr.relabel, callReads, relabelExprs_eq, exprsReferences_relabel htext,
        exprsCallReads_eq, List.flatMap_map, hargs]
  | .value _ | .wildcard _ | .path _ _ => by simp only [Expr.relabel, callReads]

theorem exprsCallReads_relabel (exprs : List Expr) :
    exprsCallReads (exprs.map (·.relabel r)) = exprsCallReads exprs := by
  rw [exprsCallReads_eq, exprsCallReads_eq, List.flatMap_map]
  exact List.flatMap_congr fun expr _ => expr.callReads_relabel htext

theorem Operation.comparisonMentions_relabel (field : Name) (value : Expr) :
    comparisonMentions (field.relabel r) (value.relabel r) = comparisonMentions field value := by
  have hvalue : (value.relabel r).asValue?.map (fun value => Text.strip '"' value.text.toList) =
      value.asValue?.map fun value => Text.strip '"' value.text.toList := by
    rw [Expr.asValue?_relabel, Option.map_map]
    exact congrArg (Option.map · _) (funext fun v => by
      rw [Function.comp_apply, Value.text_relabel htext])
  simp only [comparisonMentions, hvalue, Name.text_relabel htext]

end Names

section Pipelines

variable {r : Relabel} {pipeline : Pipeline} (htext : ∀ name, r.text name = name.text)
  (hjoins : r.Joins)
  (hplaces : ∀ node node', pipeline.Has node → pipeline.Has node' →
    r.place node.span = r.place node'.span → node.span = node'.span)

-- The table of a stage is where one of its nodes is.
theorem lookupTable?_span {operations : List Operation}
    (h : ∀ operation ∈ operations, pipeline.Has (.operation operation)) {span : Span}
    (hspan : lookupTable? operations = some span) :
    ∃ node, pipeline.Has node ∧ node.span = span := by
  cases operations with
  | nil => cases hspan
  | cons first rest =>
      have hfirst := h first List.mem_cons_self
      cases first with
      | output inputs mode outputs inside =>
          obtain ⟨input, hinput, rfl⟩ := Option.map_eq_some_iff.1 hspan
          have hmem := List.mem_of_mem_head? hinput
          exact ⟨.expr input, hfirst.inside (by simp [Node.children_operation, hmem]), rfl⟩
      | _ => exact ⟨_, hfirst, Option.some.inj hspan⟩

include htext hjoins hplaces

theorem Operation.mentions_relabel (command : Option String) {table : Option Span}
    (htable : ∀ span, table = some span → ∃ node, pipeline.Has node ∧ node.span = span)
    (operation : Operation) (h : pipeline.Has (.operation operation)) :
    (operation.relabel r).mentions command (table.map r.place) =
      operation.mentions command table := by
  induction operation with
  | compare field op value span =>
      simp only [Operation.relabel, mentions, Expr.references_relabel htext,
        Expr.callReads_relabel htext, comparisonMentions_relabel htext, Name.text_relabel htext]
  | grouping names span =>
      simp only [Operation.relabel, mentions, List.map_map, Function.comp_def, Name.text_relabel htext]
  | rename expr target span =>
      simp only [Operation.relabel, mentions, Expr.asName?_relabel, Expr.callReads_relabel htext,
        Option.toList_map, List.map_map, Function.comp_def, Name.text_relabel htext]
  | output inputs mode outputs span =>
      have hfilter : (inputs.map (·.relabel r)).filter (fun input =>
          some input.span ≠ table.map r.place) =
            (inputs.filter fun input => some input.span ≠ table).map (·.relabel r) := by
        rw [List.filter_map]
        refine congrArg (List.map _) (List.filter_congr fun input hinput => ?_)
        have hinside : pipeline.Has (.expr input) :=
          h.inside (by simp [Node.children_operation, hinput])
        rw [Function.comp_apply, decide_eq_decide, Expr.span_relabel hjoins, not_iff_not]
        constructor
        · intro hsame
          obtain ⟨place, hplace, heq⟩ := Option.map_eq_some_iff.1 hsame.symm
          obtain ⟨node, hnode, rfl⟩ := htable place hplace
          rw [hplace, hplaces node (.expr input) hnode hinside heq]
          rfl
        · intro hsame
          rw [← hsame]
          rfl
      simp only [Operation.relabel, mentions, hfilter, exprsCallReads_relabel htext,
        List.filterMap_map, List.map_map, Function.comp_def, Expr.asName?_relabel,
        Name.text_relabel htext, List.map_filterMap, Option.map_map]
  | not inner span ih | paren inner span ih =>
      simp only [Operation.relabel, mentions, ih (h.inside (by simp [Node.children_operation]))]
  | and lhs rhs ihl ihr | or lhs rhs ihl ihr =>
      simp only [Operation.relabel, mentions, ihl (h.inside (by simp [Node.children_operation])),
        ihr (h.inside (by simp [Node.children_operation]))]
  | like expr pattern span | bare expr span =>
      simp only [Operation.relabel, mentions, Expr.callReads_relabel htext]
  | within expr items span =>
      simp only [Operation.relabel, mentions]
      exact exprsCallReads_relabel htext (expr :: items)

theorem stageTable?_mentions_relabel (command : Option String) {operations : List Operation}
    (h : ∀ operation ∈ operations, pipeline.Has (.operation operation)) :
    (operations.map (·.relabel r)).flatMap
        (Operation.mentions command (stageTable? command (operations.map (·.relabel r)))) =
      operations.flatMap (Operation.mentions command (stageTable? command operations)) := by
  rw [stageTable?_relabel hjoins, List.flatMap_map]
  refine List.flatMap_congr fun operation hoperation => ?_
  refine Operation.mentions_relabel htext hjoins hplaces command (fun span hspan => ?_) operation
    (h operation hoperation)
  unfold stageTable? at hspan
  split at hspan
  · exact lookupTable?_span h hspan
  · cases hspan

end Pipelines

namespace Query

theorem stagesFindings_congr {query other : Query} {r : Relabel} {stages : List Stage}
    (h : ∀ s ∈ stages, ∀ derived, other.stageFindings derived (s.relabel r) =
      query.stageFindings derived s) (derived : List String) :
    other.stagesFindings derived (stages.map (·.relabel r)) = query.stagesFindings derived stages := by
  induction stages generalizing derived with
  | nil => rfl
  | cons first rest ih =>
      rw [List.map_cons, stagesFindings_cons, stagesFindings_cons, h first List.mem_cons_self,
        ih fun s hs => h s (List.mem_cons_of_mem first hs)]

-- Every node of the pipeline has the text in another query, at its new place, that it has here.
variable {query other : Query} {r : Relabel} {pipeline : Pipeline} (hjoins : r.Joins)
  (hsame : ∀ node, pipeline.Has node →
    other.compactText (r.place node.span) = query.compactText node.span)

include hjoins hsame

theorem operandText_relabel (operation : Operation) (h : pipeline.Has (.operation operation)) :
    other.operandText (operation.relabel r) = query.operandText operation := by
  rw [operandText, operandText, Operation.span_relabel hjoins]
  exact hsame _ h

theorem lookupMentions_relabel {operations : List Operation}
    (h : ∀ operation ∈ operations, pipeline.Has (.operation operation)) :
    other.lookupMentions (operations.map (·.relabel r)) = query.lookupMentions operations := by
  have htable : (lookupTable? (operations.map (·.relabel r))).map other.compactText =
      (lookupTable? operations).map query.compactText := by
    rw [lookupTable?_relabel hjoins, Option.map_map]
    refine Option.map_congr fun span hspan => ?_
    obtain ⟨node, hnode, rfl⟩ := lookupTable?_span h hspan
    exact hsame node hnode
  have hkeys : (((operations.map (·.relabel r)).drop 1).filter (·.asBare?.isSome)).map
      other.operandText = ((operations.drop 1).filter (·.asBare?.isSome)).map query.operandText := by
    rw [← List.map_drop, List.filter_map, List.map_map]
    simp only [Function.comp_def, Operation.asBare?_relabel]
    exact List.map_congr_left fun operation hoperation => operandText_relabel hjoins hsame operation
      (h operation (List.mem_of_mem_drop (List.mem_of_mem_filter hoperation)))
  have hfound := congrArg (fun texts => texts.toList.map fun text => Mention.found ⟨.lookup, text⟩)
    htable
  have hreads := congrArg (List.map Mention.reads) hkeys
  simp only [Option.toList_map, List.map_map, Function.comp_def] at hfound hreads
  rw [lookupMentions, lookupMentions, hfound, hreads]

theorem inputlookupMentions_relabel {operations : List Operation}
    (h : ∀ operation ∈ operations, pipeline.Has (.operation operation)) :
    other.inputlookupMentions (operations.map (·.relabel r)) =
      query.inputlookupMentions operations := by
  have hfile : ((operations.map (·.relabel r)).find? (·.asBare?.isSome)).or
      (operations.map (·.relabel r)).head? =
        ((operations.find? (·.asBare?.isSome)).or operations.head?).map (·.relabel r) := by
    simp only [List.find?_map, Function.comp_def, Operation.asBare?_relabel, List.head?_map,
      Option.map_or]
  have hmem : ∀ operation ∈ (operations.find? (·.asBare?.isSome)).or operations.head?,
      operation ∈ operations := by
    intro operation hoperation
    rcases Option.or_eq_some_iff.1 hoperation with hfind | ⟨-, hhead⟩
    · exact List.mem_of_find?_eq_some hfind
    · exact List.mem_of_mem_head? hhead
  simp only [inputlookupMentions, hfile, Option.toList_map, List.map_map]
  refine List.map_congr_left fun operation hoperation => ?_
  rw [Function.comp_apply, operandText_relabel hjoins hsame operation
    (h operation (hmem operation (Option.mem_toList.1 hoperation)))]

theorem commandMentions_relabel (command : Option String) {operations : List Operation}
    (h : ∀ operation ∈ operations, pipeline.Has (.operation operation)) :
    other.commandMentions command (operations.map (·.relabel r)) =
      query.commandMentions command operations := by
  have htext : ∀ operation ∈ operations,
      other.operandText (operation.relabel r) = query.operandText operation :=
    fun operation hoperation => operandText_relabel hjoins hsame operation (h operation hoperation)
  unfold commandMentions
  split
  · exact lookupMentions_relabel hjoins hsame h
  · rw [List.map_map]
    exact List.map_congr_left fun operation hoperation => by
      rw [Function.comp_apply, htext operation hoperation]
  · exact inputlookupMentions_relabel hjoins hsame h
  · match operations with
    | [] | [_] => rfl
    | model :: object :: rest =>
        have hrest : (rest.map (·.relabel r)).map other.operandText = rest.map query.operandText := by
          rw [List.map_map]
          exact List.map_congr_left fun operation hoperation => htext operation (by simp [hoperation])
        simp only [List.map_cons, datamodelMentions, htext model (by simp), htext object (by simp),
          hrest]
  · rw [tstatsMentions, tstatsMentions, List.flatMap_map]
    exact List.flatMap_congr fun operation hoperation => by rw [htext operation hoperation]
  · rw [List.flatMap_map]
    exact List.flatMap_congr fun operation hoperation => by rw [htext operation hoperation]
  · match operations with
    | [] | [_] => rfl
    | model :: object :: rest =>
        simp only [List.map_cons, pivotMentions, htext model (by simp), htext object (by simp)]
  · rfl

section Findings

variable (htext : ∀ name, r.text name = name.text)
  (hplaces : ∀ node node', pipeline.Has node → pipeline.Has node' →
    r.place node.span = r.place node'.span → node.span = node'.span)

include htext hplaces

theorem stageMentions_relabel (command : Option String) {operations : List Operation}
    (h : ∀ operation ∈ operations, pipeline.Has (.operation operation)) :
    other.stageMentions command (operations.map (·.relabel r)) =
      query.stageMentions command operations := by
  rw [stageMentions, stageMentions, commandMentions_relabel hjoins hsame command h,
    stageTable?_mentions_relabel htext hjoins hplaces command h]

theorem stageFindings_relabel (stage : Stage) (h : ∀ node ∈ stage.nodes, pipeline.Has node)
    (derived : List String) :
    other.stageFindings derived (stage.relabel r) = query.stageFindings derived stage := by
  have hinner : ∀ q, stage.subquery = some q →
      other.subqueryFindings (q.relabel r) = query.subqueryFindings q := by
    intro q hq
    have hhas := h (.subquery q) (by simp [Stage.nodes, hq])
    have hstages : ∀ s ∈ q.opening :: q.later, ∀ derived,
        other.stageFindings derived (s.relabel r) = query.stageFindings derived s := by
      intro s hs derived
      refine stageFindings_relabel s (fun node hnode => ?_) derived
      rcases List.mem_cons.1 hs with rfl | hs
      · have hfirst : pipeline.Has (.opening q.opening) :=
          hhas.inside (by simp [Node.children_subquery])
        exact hfirst.inside (by rwa [Node.children_opening])
      · have hstage : pipeline.Has (.stage s) := hhas.inside (by simp [Node.children_subquery, hs])
        exact hstage.inside (by rwa [Node.children_stage])
    have hfindings := stagesFindings_congr hstages []
    obtain ⟨opening, later, span⟩ := q
    rw [subqueryFindings_eq, subqueryFindings_eq, Subquery.relabel, relabelStages_eq]
    exact hfindings
  have hoperations : ∀ operation ∈ stage.operations, pipeline.Has (.operation operation) :=
    fun operation hoperation => h _ (by simp [Stage.nodes, hoperation])
  have hmentions := stageMentions_relabel hjoins hsame htext hplaces stage.commandName? hoperations
  clear h
  obtain ⟨piped, command, operations, subquery, span⟩ := stage
  have hcommand : (command.map (·.relabel r)).map (·.name) = command.map (·.name) := by
    cases command <;> rfl
  have hbrackets : other.bracketFindings (subquery.map (·.relabel r)) =
      query.bracketFindings subquery := by
    cases subquery with
    | none => rfl
    | some q => exact hinner q rfl
  simp only [Stage.commandName?, Stage.command, Stage.operations] at hmentions
  simp only [Stage.relabel_mk, stageFindings_mk, hcommand, hmentions, hbrackets]
termination_by sizeOf stage
decreasing_by
  exact Stage.sizeOf_inner_lt hq hs

-- The inventory is that of the relabelled pipeline.
theorem inventory_relabel (hpipeline : query.pipeline = pipeline)
    (hopening : other.pipeline.opening = pipeline.opening.relabel r)
    (hlater : other.pipeline.later = pipeline.later.map (·.relabel r)) :
    other.inventory = query.inventory := by
  have hstages : ∀ s ∈ pipeline.stages, ∀ derived,
      other.stageFindings derived (s.relabel r) = query.stageFindings derived s := by
    intro s hs derived
    refine stageFindings_relabel hjoins hsame htext hplaces s (fun node hnode => ?_) derived
    rcases List.mem_cons.1 hs with rfl | hs
    · exact (has_opening pipeline).inside (by rwa [Node.children_opening])
    · exact (has_later hs).inside (by rwa [Node.children_stage])
  have hboth : other.pipeline.stages = pipeline.stages.map (·.relabel r) := by
    rw [Pipeline.stages, hopening, hlater]
    rfl
  rw [inventory, inventory, findings, findings, hboth, hpipeline, stagesFindings_congr hstages]

end Findings

end Query

end SearchPipeline
