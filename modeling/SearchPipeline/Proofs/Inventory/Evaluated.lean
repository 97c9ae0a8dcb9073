import SearchPipeline.Proofs.Grammar.Precedence
import SearchPipeline.Proofs.Inventory.Mentions
import SearchPipeline.Proofs.Inventory.Walk

namespace SearchPipeline

open Grammar

-- An operation that is no combination, with the command it is an operand of.
structure Step where
  command : Option String
  operation : Operation

-- The step makes a field of that name.
inductive Step.Derives : Step → String → Prop where
  | assigned {command : Option String} {field : Name} {op : CompareOp} {value : Expr} {span : Span} :
      command = some "eval" → Derives ⟨command, .compare field op value span⟩ field.text
  | aliased {command : Option String} {expr : Expr} {target : Name} {span : Span} :
      Derives ⟨command, .rename expr target span⟩ target.text
  | output {command : Option String} {inputs : List Expr} {mode : OutputMode} {outputs : List Name}
      {span : Span} {name : Name} : name ∈ outputs →
      Derives ⟨command, .output inputs mode outputs span⟩ name.text

def Step.derived : Step → List String
  | ⟨command, .compare field _ _ _⟩ => if command = some "eval" then [field.text] else []
  | ⟨_, .rename _ target _⟩ => [target.text]
  | ⟨_, .output _ _ outputs _⟩ => outputs.map (·.text)
  | _ => []

theorem Step.derives_iff {step : Step} {field : String} :
    step.Derives field ↔ field ∈ step.derived := by
  constructor
  · intro h
    cases h with
    | assigned heval => simp [derived, heval]
    | aliased => simp [derived]
    | output hmem => exact List.mem_map_of_mem hmem
  · obtain ⟨command, operation⟩ := step
    intro h
    cases operation with
    | compare target op value span =>
        simp only [derived, List.mem_ite_nil_right, List.mem_singleton] at h
        obtain ⟨heval, rfl⟩ := h
        exact .assigned heval
    | rename expr target span =>
        obtain rfl := List.mem_singleton.1 h
        exact .aliased
    | output inputs mode outputs span =>
        obtain ⟨name, hname, rfl⟩ := List.mem_map.1 h
        exact .output hname
    | _ => cases h

instance (step : Step) (field : String) : Decidable (step.Derives field) :=
  decidable_of_iff _ Step.derives_iff.symm

-- The target and the value, if the step is an assignment of an `eval`.
def Step.assignment? : Step → Option (Name × Expr)
  | ⟨command, .compare target _ value _⟩ =>
      if command = some "eval" then some (target, value) else none
  | _ => none

theorem Step.eq_of_assignment? {step : Step} {target : Name} {value : Expr}
    (h : step.assignment? = some (target, value)) :
    ∃ op span, step = ⟨some "eval", .compare target op value span⟩ := by
  obtain ⟨command, operation⟩ := step
  cases operation with
  | compare field op assigned span =>
      simp only [assignment?, Option.ite_none_right_eq_some, Option.some.injEq, Prod.mk.injEq] at h
      obtain ⟨rfl, rfl, rfl⟩ := h
      exact ⟨op, span, rfl⟩
  | _ => cases h

def Stage.steps (stage : Stage) : List Step :=
  (stage.operations.flatMap Operation.leaves).map fun leaf => ⟨stage.commandName?, leaf⟩

-- The steps of the scope that a pipeline opens, in order. Branches have scopes of their own.
def Pipeline.steps (pipeline : Pipeline) : List Step :=
  (pipeline.stages.filter fun stage => !Query.opensBranch stage.commandName?).flatMap Stage.steps

theorem Pipeline.exists_assignment {pipeline : Pipeline} {i : Nat} {check : Name × Expr → Bool}
    (h : (pipeline.steps[i]?.bind Step.assignment?).any check = true) :
    ∃ target op value span, pipeline.steps = pipeline.steps.take i ++
      ⟨some "eval", .compare target op value span⟩ :: pipeline.steps.drop (i + 1) ∧
      check (target, value) = true := by
  obtain ⟨⟨target, value⟩, hread, hcheck⟩ := (Option.any_eq_true _ _).1 h
  obtain ⟨step, hstep, hassigned⟩ := Option.bind_eq_some_iff.1 hread
  obtain ⟨op, span, rfl⟩ := Step.eq_of_assignment? hassigned
  obtain ⟨hlt, hstep⟩ := List.getElem?_eq_some_iff.1 hstep
  refine ⟨target, op, value, span, ?_, hcheck⟩
  rw [← hstep, List.getElem_cons_drop, List.take_append_drop]

-- The pipeline itself and the pipelines of its subqueries, at any depth.
inductive Pipeline.Encloses (pipeline : Pipeline) : Pipeline → Prop where
  | self : Encloses pipeline pipeline
  | inside {outer : Pipeline} {stage : Stage} {subquery : Subquery} : Encloses pipeline outer →
      stage ∈ outer.stages → stage.subquery = some subquery → Encloses pipeline subquery.pipeline

namespace Operation

theorem leaves_of_mem {operation leaf : Operation} (h : leaf ∈ operation.leaves) :
    leaf.leaves = [leaf] := by
  induction operation with
  | not inner span ih | paren inner span ih => exact ih h
  | and lhs rhs ihl ihr | or lhs rhs ihl ihr =>
      rcases List.mem_append.1 h with h | h
      · exact ihl h
      · exact ihr h
  | _ =>
      obtain rfl := List.mem_singleton.1 h
      rfl

-- An operation derives what its steps derive.
theorem derives_of_mem {command : Option String} {table : Option Span} {operation : Operation}
    {field : String} (h : .derives field ∈ operation.mentions command table) :
    ∃ leaf ∈ operation.leaves, Step.Derives ⟨command, leaf⟩ field := by
  have hread : ∀ {mentions : List Mention}, (∀ mention ∈ mentions, mention.IsRead) →
      .derives field ∉ mentions := fun hall hmem => hall _ hmem
  induction operation with
  | not inner span ih | paren inner span ih => exact ih h
  | and lhs rhs ihl ihr | or lhs rhs ihl ihr =>
      rw [mentions, List.mem_append] at h
      rcases h with h | h
      · obtain ⟨leaf, hleaf, hderives⟩ := ihl h
        exact ⟨leaf, List.mem_append_left _ hleaf, hderives⟩
      · obtain ⟨leaf, hleaf, hderives⟩ := ihr h
        exact ⟨leaf, List.mem_append_right _ hleaf, hderives⟩
  | compare target op value span =>
      rw [mentions, List.mem_append] at h
      refine ⟨_, List.mem_singleton_self _, ?_⟩
      rcases h with h | h
      · split at h
        · next heval =>
          rcases List.mem_cons.1 h with hsame | h
          · cases hsame
            exact .assigned heval
          · exact absurd h (hread value.references_isRead)
        · exact absurd h ((special_comparison target value).quiet field)
      · exact absurd h (hread value.callReads_isRead)
  | rename expr target span =>
      simp only [mentions, List.mem_append, List.mem_map, List.mem_singleton] at h
      refine ⟨_, List.mem_singleton_self _, ?_⟩
      rcases h with (⟨name, -, hname⟩ | hsame) | h
      · cases hname
      · cases hsame
        exact .aliased
      · exact absurd h (hread expr.callReads_isRead)
  | output inputs mode outputs span =>
      simp only [mentions, List.mem_append, List.mem_map] at h
      refine ⟨_, List.mem_singleton_self _, ?_⟩
      rcases h with (⟨name, -, hname⟩ | ⟨name, hmem, hname⟩) | h
      · cases hname
      · cases hname
        exact .output hmem
      · exact absurd h (hread (exprsCallReads_isRead inputs))
  | grouping names span => simp [mentions] at h
  | like expr pattern span | bare expr span => exact absurd h (hread expr.callReads_isRead)
  | within expr items span => exact absurd h (hread (exprsCallReads_isRead (expr :: items)))

end Operation

namespace Query

variable {query : Query} {field : String}

-- Derived in a stage is what was derived before it, and what its steps derive.
theorem derives_of_mem_stage {derived : List String} {stage : Stage}
    (h : field ∈ (query.stageFindings derived stage).2) : field ∈ derived ∨
      opensBranch stage.commandName? = false ∧ ∃ step ∈ stage.steps, step.Derives field := by
  obtain ⟨piped, command, operations, subquery, span⟩ := stage
  rw [stageFindings_mk] at h
  dsimp only at h
  by_cases hbranch : opensBranch (command.map (·.name)) = true
  · rw [if_pos hbranch] at h
    exact .inl h
  · rw [if_neg hbranch, Mention.mem_settle_derived, if_neg hbranch, stageMentions, List.mem_append,
      List.mem_flatMap] at h
    rcases h with h | h | ⟨operation, hmem, h⟩
    · exact .inl h
    · exact absurd h ((query.special_command _ _).quiet field)
    · obtain ⟨leaf, hleaf, hderives⟩ := operation.derives_of_mem h
      refine .inr ⟨Bool.eq_false_iff.2 hbranch, _, ?_, hderives⟩
      exact List.mem_map.2 ⟨leaf, List.mem_flatMap.2 ⟨operation, hmem, hleaf⟩, rfl⟩

-- What a stage mentions, operation by operation.
theorem stageMentions_leaves (command : Option String) (operations : List Operation) :
    query.stageMentions command operations = query.commandMentions command operations ++
      (operations.flatMap Operation.leaves).flatMap
        (Operation.mentions command (stageTable? command operations)) := by
  rw [stageMentions, List.flatMap_assoc]
  exact congrArg _ (List.flatMap_congr fun operation _ => Operation.mentions_leaves _ _ operation)

end Query

-- The step reads a field, and derives none of that name before.
def Step.Reads (step : Step) (field : String) : Prop :=
  ∀ table, ∃ read unread, step.operation.mentions step.command table =
    read ++ .reads field :: unread ∧ .derives field ∉ read

theorem Step.reads_of_uses {target name : Name} {op : CompareOp} {value : Expr} {span : Span}
    (huses : value.Uses name) (huse : name.use ≠ .command) (htarget : name.text ≠ target.text) :
    Step.Reads ⟨some "eval", .compare target op value span⟩ name.text := by
  intro table
  obtain ⟨read, unread, hvalue⟩ := List.append_of_mem (huses.mem_references huse)
  refine ⟨.derives target.text :: read, unread ++ value.callReads, ?_, ?_⟩
  · rw [Operation.mentions, if_pos rfl, hvalue]
    simp
  · rw [List.mem_cons, not_or]
    refine ⟨by simpa using htarget, fun hread => ?_⟩
    exact value.references_isRead _ (hvalue ▸ List.mem_append_left _ hread)

namespace Query

section

variable {query : Query} {field : String} {step : Step} {derived : List String}
  {earlier later : List Step} (hreads : step.Reads field)
  (hlikely : FieldName.isLikely field.toList = true)
  (hcommand : (Keyword.classify field).isCommand = false)

include hreads hlikely hcommand

-- What a step of a stage reads is found, if nothing derives it before. A branch begins with nothing
-- derived.
theorem mem_stageFindings_of_reads {stage : Stage}
    (hsteps : stage.steps = earlier ++ step :: later)
    (hderived : opensBranch stage.commandName? = false → field ∉ derived)
    (hearlier : ∀ before ∈ earlier, ¬ before.Derives field) :
    ⟨.inputField, field⟩ ∈ (query.stageFindings derived stage).1 := by
  obtain ⟨piped, command, operations, subquery, within⟩ := stage
  obtain ⟨before, rest, hleaves, rfl, hrest⟩ := List.map_eq_append_iff.1 hsteps
  obtain ⟨leaf, behind, rfl, rfl, -⟩ := List.map_eq_cons_iff.1 hrest
  change operations.flatMap Operation.leaves = _ at hleaves
  change opensBranch (command.map (·.name)) = false → _ at hderived
  change Step.Reads ⟨command.map (·.name), leaf⟩ field at hreads
  change ∀ step ∈ before.map (Step.mk (command.map (·.name))), ¬ Step.Derives step field at hearlier
  rw [stageFindings_mk]
  dsimp only
  generalize command.map (·.name) = name at hderived hreads hearlier ⊢
  obtain ⟨read, unread, hmentions, hread⟩ := hreads (stageTable? name operations)
  dsimp only at hmentions
  -- nothing mentioned before the field derives it
  have hbefore : .derives field ∉ (query.commandMentions name operations ++
      before.flatMap (Operation.mentions name (stageTable? name operations))) ++ read := by
    rw [List.mem_append, List.mem_append, not_or, not_or]
    refine ⟨⟨(query.special_command _ _).quiet field, ?_⟩, hread⟩
    rw [List.mem_flatMap]
    rintro ⟨other, hmem, hmentions⟩
    have hother : other ∈ operations.flatMap Operation.leaves :=
      hleaves ▸ List.mem_append_left _ hmem
    obtain ⟨operation, -, hother⟩ := List.mem_flatMap.1 hother
    obtain ⟨same, hsame, hderives⟩ := other.derives_of_mem hmentions
    rw [Operation.leaves_of_mem hother, List.mem_singleton] at hsame
    subst hsame
    exact hearlier _ (List.mem_map_of_mem hmem) hderives
  have hsplit : query.stageMentions name operations =
      ((query.commandMentions name operations ++
        before.flatMap (Operation.mentions name (stageTable? name operations))) ++ read) ++
        .reads field :: (unread ++
          behind.flatMap (Operation.mentions name (stageTable? name operations))) := by
    rw [stageMentions_leaves, hleaves, List.flatMap_append, List.flatMap_cons, hmentions]
    simp
  rw [hsplit, List.mem_append]
  refine .inl (Mention.mem_settle_of_reads ?_ hbefore hlikely hcommand)
  split
  · exact List.not_mem_nil
  · next hbranch => exact hderived (Bool.eq_false_iff.2 hbranch)

theorem mem_stagesFindings_of_reads {stages : List Stage}
    (hsteps : (stages.filter fun stage => !opensBranch stage.commandName?).flatMap Stage.steps =
      earlier ++ step :: later)
    (hderived : field ∉ derived) (hearlier : ∀ before ∈ earlier, ¬ before.Derives field) :
    ⟨.inputField, field⟩ ∈ query.stagesFindings derived stages := by
  induction stages generalizing derived earlier with
  | nil => simp at hsteps
  | cons first stages ih =>
      rw [stagesFindings_cons, List.mem_append]
      by_cases hbranch : opensBranch first.commandName? = true
      · rw [List.filter_cons_of_neg (by simpa using hbranch)] at hsteps
        refine .inr (ih hsteps ?_ hearlier)
        intro hmem
        rcases derives_of_mem_stage hmem with hmem | ⟨hsame, -⟩
        · exact hderived hmem
        · rw [hbranch] at hsame
          cases hsame
      · rw [List.filter_cons_of_pos (by simpa using hbranch), List.flatMap_cons,
          List.append_eq_append_iff] at hsteps
        have hbehind : ∀ more, earlier = first.steps ++ more →
            field ∉ (query.stageFindings derived first).2 := by
          rintro more rfl hmem
          rcases derives_of_mem_stage hmem with hmem | ⟨-, step, hstep, hderives⟩
          · exact hderived hmem
          · exact hearlier step (List.mem_append_left _ hstep) hderives
        rcases hsteps with ⟨more, rfl, hrest⟩ | ⟨more, hfirst, hrest⟩
        · exact .inr (ih hrest (hbehind more rfl)
            fun step hmem => hearlier step (List.mem_append_right _ hmem))
        · cases more with
          | nil =>
              rw [List.append_nil] at hfirst
              exact .inr (ih (show _ = [] ++ _ from hrest.symm) (hbehind [] (by simp [hfirst]))
                (by simp))
          | cons step more =>
              obtain ⟨rfl, -⟩ := List.cons.inj hrest
              exact .inl (mem_stageFindings_of_reads hreads hlikely hcommand hfirst
                (fun _ => hderived) hearlier)

end

variable {query : Query}

theorem mem_stagesFindings_eval {target name : Name} {op : CompareOp} {value : Expr} {span : Span}
    {derived : List String} {stages : List Stage} {earlier later : List Step}
    (huses : value.Uses name) (huse : name.use ≠ .command)
    (hlikely : FieldName.isLikely name.text.toList = true)
    (hcommand : (Keyword.classify name.text).isCommand = false) (htarget : name.text ≠ target.text)
    (hsteps : (stages.filter fun stage => !opensBranch stage.commandName?).flatMap Stage.steps =
      earlier ++ ⟨some "eval", .compare target op value span⟩ :: later)
    (hderived : name.text ∉ derived) (hearlier : ∀ step ∈ earlier, ¬ step.Derives name.text) :
    ⟨.inputField, name.text⟩ ∈ query.stagesFindings derived stages :=
  mem_stagesFindings_of_reads (Step.reads_of_uses huses huse htarget) hlikely hcommand hsteps
    hderived hearlier

-- What is found in the pipeline of a subquery is found in the whole.
theorem mem_findings_of_encloses {pipeline scope : Pipeline} {finding : Finding}
    (h : pipeline.Encloses scope) (hfinding : finding ∈ query.stagesFindings [] scope.stages) :
    finding ∈ query.stagesFindings [] pipeline.stages := by
  induction h with
  | self => exact hfinding
  | @inside outer stage subquery _ hmem hsubquery ih =>
      refine ih ?_
      obtain ⟨before, behind, hstages⟩ := List.append_of_mem hmem
      obtain ⟨piped, command, operations, _, span⟩ := stage
      obtain rfl : _ = some subquery := hsubquery
      rw [hstages, stagesFindings_append, stagesFindings_cons, stageFindings_mk]
      dsimp only
      rw [bracketFindings, subqueryFindings_eq]
      simp only [List.mem_append]
      exact .inr (.inl (.inr hfinding))

end Query

namespace Pipeline

variable {pipeline scope : Pipeline}

-- The stages of every scope are nodes of the pipeline.
theorem Encloses.has (h : pipeline.Encloses scope) {stage : Stage} (hmem : stage ∈ scope.stages) :
    pipeline.Has (.opening stage) ∨ pipeline.Has (.stage stage) := by
  induction h generalizing stage with
  | self =>
      rcases List.mem_cons.1 hmem with rfl | hmem
      · exact .inl (Query.has_opening pipeline)
      · exact .inr (Query.has_later hmem)
  | @inside outer whole subquery _ hwhole hsubquery ih =>
      have hinner : pipeline.Has (.subquery subquery) := by
        have hchild := Query.mem_children_of_subquery hsubquery
        rcases ih hwhole with hhas | hhas
        · exact .inside hhas hchild.1
        · exact .inside hhas hchild.2
      obtain ⟨opening, later, span⟩ := subquery
      have hchildren := Query.mem_children_of_stage opening later span
      rcases List.mem_cons.1 hmem with rfl | hmem
      · exact .inl (.inside hinner hchildren.1)
      · exact .inr (.inside hinner (hchildren.2 stage hmem))

theorem Has.of_operation {stage : Stage} {operation : Operation}
    (h : pipeline.Has (.opening stage) ∨ pipeline.Has (.stage stage))
    (hmem : operation ∈ stage.operations) : pipeline.Has (.operation operation) := by
  have hbody : .operation operation ∈
      (bodyParts stage.operations stage.subquery).filterMap Part.node? := by
    rw [bodyParts, List.filterMap_append, List.mem_append]
    exact .inl (List.mem_filterMap.2 ⟨.node (.operation operation),
      List.mem_flatMap.2 ⟨operation, hmem, List.mem_cons_self⟩, rfl⟩)
  rcases h with h | h
  · refine .inside h ?_
    rw [Node.children, Node.parts, List.filterMap_append, List.mem_append]
    exact .inr hbody
  · refine .inside h ?_
    rw [Node.children, Node.parts, List.filterMap_append, List.mem_append]
    exact .inr hbody

theorem Has.of_leaf {operation leaf : Operation} (h : pipeline.Has (.operation operation))
    (hleaf : leaf ∈ operation.leaves) : pipeline.Has (.operation leaf) := by
  induction operation with
  | not inner span ih | paren inner span ih =>
      exact ih (.inside h (operation_mem_children (by simp [Operation.children]))) hleaf
  | and lhs rhs ihl ihr | or lhs rhs ihl ihr =>
      rcases List.mem_append.1 hleaf with hleaf | hleaf
      · exact ihl (.inside h (operation_mem_children (by simp [Operation.children]))) hleaf
      · exact ihr (.inside h (operation_mem_children (by simp [Operation.children]))) hleaf
  | _ =>
      obtain rfl := List.mem_singleton.1 hleaf
      exact h

theorem Has.of_uses {expr : Expr} {name : Name} (h : pipeline.Has (.expr expr))
    (huses : expr.Uses name) : pipeline.Has (.name name) := by
  induction huses with
  | @value name =>
      have hvalue : pipeline.Has (.value (.name name)) :=
        .inside h (by simp [Node.children, Node.parts, Node.exprParts, Part.node?])
      exact .inside hvalue (by simp [Node.children, Node.parts, Node.valueParts, Part.node?])
  | argument harg _ ih => exact ih (.inside h (expr_mem_children (by simpa [Expr.children] using harg)))
  | paren _ ih | contains _ ih | endsWith _ ih | startsWith _ ih | left _ ih | right _ ih =>
      exact ih (.inside h (expr_mem_children (by simp [Expr.children])))

end Pipeline

namespace Query

variable {source : String} {query : Query}

-- A name in the place of a command is one.
theorem use_ne_command (hparse : Query.parse source = .ok query) {name : Name}
    (h : query.pipeline.Has (.name name)) (hcommand : (Keyword.classify name.text).isCommand = false) :
    name.use ≠ .command := by
  intro huse
  have hclass := classify_leaf hparse h rfl rfl (by rw [huse]; decide)
  rw [huse] at hclass
  revert hclass hcommand
  generalize Keyword.classify name.text = kind
  cases kind <;> decide

theorem discover_of_parse (hparse : Query.parse source = .ok query) :
    Inventory.discover source =
      .ok { query.inventory with macros := MacroCall.names source } := by
  rw [Inventory.discover, hparse]

-- Whatever an `eval` of a scope reads on the right of an assignment is an input, if it reads like a
-- field and is no command, and neither an earlier step of the scope nor the assignment derives it.
theorem discover_eval (source : String) (query : Query) (scope : Pipeline) (earlier later : List Step)
    (target name : Name) (op : CompareOp) (value : Expr) (span : Span)
    (hparse : Query.parse source = .ok query) (hscope : query.pipeline.Encloses scope)
    (hsteps : scope.steps = earlier ++ ⟨some "eval", .compare target op value span⟩ :: later)
    (huses : value.Uses name) (hcommand : (Keyword.classify name.text).isCommand = false)
    (hlikely : FieldName.isLikely name.text.toList = true)
    (hearlier : ∀ step ∈ earlier, ¬ step.Derives name.text) (htarget : name.text ≠ target.text) :
    ∃ inventory, Inventory.discover source = .ok inventory ∧ name.text ∈ inventory.inputFields := by
  have hvalue : query.pipeline.Has (.expr value) := by
    have hstep : ⟨some "eval", .compare target op value span⟩ ∈ scope.steps := by simp [hsteps]
    obtain ⟨stage, hstage, hstep⟩ := List.mem_flatMap.1 hstep
    obtain ⟨leaf, hleaf, hsame⟩ := List.mem_map.1 hstep
    obtain rfl : leaf = .compare target op value span := congrArg Step.operation hsame
    obtain ⟨operation, hoperation, hleaf⟩ := List.mem_flatMap.1 hleaf
    have hhas := Pipeline.Has.of_operation (hscope.has (List.mem_filter.1 hstage).1) hoperation
    exact .inside (hhas.of_leaf hleaf)
      (by simp [Node.children, Node.parts, Node.operationParts, Part.node?])
  have huse := use_ne_command hparse (hvalue.of_uses huses) hcommand
  have hfinding : ⟨.inputField, name.text⟩ ∈ query.stagesFindings [] scope.stages :=
    mem_stagesFindings_eval huses huse hlikely hcommand htarget hsteps List.not_mem_nil hearlier
  have hfinding := mem_findings_of_encloses hscope hfinding
  have hne : name.text ≠ "" := by
    intro hempty
    rw [hempty] at hlikely
    cases hlikely
  exact ⟨_, discover_of_parse hparse, mem_inventory.2 ⟨hne, hfinding⟩⟩

-- `z` is read inside a call, in brackets, and derived only outside.
theorem discover_eval_nested : ∃ query scope earlier later target name op value span,
    Query.parse "search a=1 [search b=2 | eval y=round(z/2,1)] | eval z=3" = .ok query ∧
    query.pipeline.Encloses scope ∧
    scope.steps = earlier ++ ⟨some "eval", .compare target op value span⟩ :: later ∧
    value.Uses name ∧ name.text = "z" ∧ ∃ inventory,
      Inventory.discover "search a=1 [search b=2 | eval y=round(z/2,1)] | eval z=3" =
        .ok inventory ∧ name.text ∈ inventory.inputFields := by
  have hread : (Query.parse
      "search a=1 [search b=2 | eval y=round(z/2,1)] | eval z=3").toOption.any (fun query =>
        query.pipeline.opening.subquery.any fun inner =>
          (inner.pipeline.steps.take 1).all (fun step => !decide (step.Derives "z")) &&
          (inner.pipeline.steps[1]?.bind Step.assignment?).any fun (target, value) =>
            target.text == "y" && value.children.any fun arg => arg.children.any fun operand =>
              operand.asName?.any (·.text == "z")) = true := by decide +kernel
  obtain ⟨query, hparse, hcheck⟩ := parse_of_any hread
  obtain ⟨inner, hinner, hcheck⟩ := (Option.any_eq_true _ _).1 hcheck
  rw [Bool.and_eq_true, List.all_eq_true] at hcheck
  obtain ⟨hearlier, hcheck⟩ := hcheck
  obtain ⟨target, op, value, span, hsteps, hcheck⟩ := Pipeline.exists_assignment hcheck
  simp only [Bool.and_eq_true, beq_iff_eq, List.any_eq_true] at hcheck
  obtain ⟨htarget, arg, harg, operand, hoperand, hcheck⟩ := hcheck
  obtain ⟨name, hread, hname⟩ := (Option.any_eq_true _ _).1 hcheck
  obtain rfl := Expr.asName?_eq_some.1 hread
  have hname : name.text = "z" := beq_iff_eq.1 hname
  have hscope : query.pipeline.Encloses inner.pipeline := .inside .self List.mem_cons_self hinner
  have huses : value.Uses name := .of_child harg (.of_child hoperand .value)
  refine ⟨query, _, _, _, target, name, op, value, span, hparse, hscope, hsteps, huses, hname,
    discover_eval _ query _ _ _ target name op value span hparse hscope hsteps huses ?_ ?_ ?_ ?_⟩
  · rw [hname]
    decide +kernel
  · rw [hname]
    decide
  · intro step hstep
    rw [hname]
    simpa using hearlier step hstep
  · rw [hname, htarget]
    decide

-- What an assignment reads from the field that it assigns is not found.
theorem discover_eval_own_target : ∃ query scope earlier later target name op value span,
    Query.parse "search a=1 | eval x=x+1" = .ok query ∧ query.pipeline.Encloses scope ∧
    scope.steps = earlier ++ ⟨some "eval", .compare target op value span⟩ :: later ∧
    value.Uses name ∧ (Keyword.classify name.text).isCommand = false ∧
    FieldName.isLikely name.text.toList = true ∧
    (∀ step ∈ earlier, ¬ step.Derives name.text) ∧ name.text = target.text ∧
    ∃ inventory, Inventory.discover "search a=1 | eval x=x+1" = .ok inventory ∧
      inventory.inputFields = ["a"] ∧ name.text ∉ inventory.inputFields := by
  have hread : (Query.parse "search a=1 | eval x=x+1").toOption.any (fun query =>
      query.inventory.inputFields == ["a"] &&
        ((query.pipeline.steps.take 1).all (fun step => !decide (step.Derives "x")) &&
          (query.pipeline.steps[1]?.bind Step.assignment?).any fun (target, value) =>
            target.text == "x" && value.children.any fun operand =>
              operand.asName?.any (·.text == "x"))) = true := by decide +kernel
  obtain ⟨query, hparse, hcheck⟩ := parse_of_any hread
  rw [Bool.and_eq_true, Bool.and_eq_true, beq_iff_eq, List.all_eq_true] at hcheck
  obtain ⟨hfields, hearlier, hcheck⟩ := hcheck
  obtain ⟨target, op, value, span, hsteps, hcheck⟩ := Pipeline.exists_assignment hcheck
  simp only [Bool.and_eq_true, beq_iff_eq, List.any_eq_true] at hcheck
  obtain ⟨htarget, operand, hoperand, hcheck⟩ := hcheck
  obtain ⟨name, hread, hname⟩ := (Option.any_eq_true _ _).1 hcheck
  obtain rfl := Expr.asName?_eq_some.1 hread
  have hname : name.text = "x" := beq_iff_eq.1 hname
  have huses : value.Uses name := .of_child hoperand .value
  refine ⟨query, _, _, _, target, name, op, value, span, hparse, .self, hsteps, huses, ?_, ?_, ?_,
    hname.trans htarget.symm, _, discover_of_parse hparse, hfields, ?_⟩
  · rw [hname]
    decide +kernel
  · rw [hname]
    decide
  · intro step hstep
    rw [hname]
    simpa using hearlier step hstep
  · rw [hname]
    simp [hfields]

end Query

end SearchPipeline
