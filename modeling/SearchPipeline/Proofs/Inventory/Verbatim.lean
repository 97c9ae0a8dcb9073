import SearchPipeline.Proofs.Inventory.Evaluated
import SearchPipeline.Proofs.Inventory.Operands

namespace SearchPipeline

open Grammar

namespace Mention

variable {field : String}

theorem not_reads_model (model object : String) :
    .reads field ∉ datamodel model :: dataset model object := by
  unfold dataset
  split <;> simp [datamodel]

theorem not_reads_modelReference (reference : List Char) :
    .reads field ∉ modelReference reference := by
  unfold modelReference
  split
  · exact not_reads_model _ _
  · simp [datamodel]

theorem not_reads_datasetReference (text : List Char) : .reads field ∉ datasetReference text := by
  unfold datasetReference
  split
  · exact not_reads_model _ _
  · simp

end Mention

namespace Operation

variable {field : String}

theorem eq_of_comparisonMentions {target : Name} {value : Expr}
    (h : .reads field ∈ comparisonMentions target value) : field = target.text := by
  unfold comparisonMentions at h
  dsimp only at h
  split at h
  · simp at h
  · simp at h
  · obtain ⟨text, -, h⟩ := List.mem_flatMap.1 h
    exact absurd h (Mention.not_reads_modelReference text)
  · simpa using h

theorem mem_children_of_expressions {operation : Operation} {expr : Expr}
    (h : expr ∈ operation.expressions) : .expr expr ∈ (Node.operation operation).children := by
  rw [Node.children_operation]
  cases operation with
  | within first items span => exact List.mem_map_of_mem h
  | output inputs mode outputs span => exact List.mem_append_left _ (List.mem_map_of_mem h)
  | like first pattern span | rename first target span | bare first span =>
      obtain rfl := List.mem_singleton.1 h
      exact List.mem_cons_self
  | compare target op value span =>
      obtain rfl := List.mem_singleton.1 h
      exact List.mem_cons_of_mem _ List.mem_cons_self
  | _ => cases h

-- What an operation reads by its form is a name in it.
theorem name_of_reads {pipeline : Pipeline} {command : Option String} {table : Option Span}
    {operation : Operation} (h : pipeline.Has (.operation operation))
    (hreads : .reads field ∈ operation.mentions command table) :
    ∃ name, pipeline.Has (.name name) ∧ name.text = field := by
  -- what is read in an expression of an operation
  have hexpr : ∀ {operation : Operation}, pipeline.Has (.operation operation) →
      ∀ expr ∈ operation.expressions,
      (∃ name, expr.Uses name ∧ Mention.reads field = .reads name.text) →
        ∃ name, pipeline.Has (.name name) ∧ name.text = field := by
    rintro operation h expr hmem ⟨name, huses, hsame⟩
    exact ⟨name, .of_uses (.inside h (mem_children_of_expressions hmem)) huses,
      (Mention.reads.inj hsame).symm⟩
  induction operation with
  | not inner span ih | paren inner span ih =>
      exact ih (.inside h (operation_mem_children List.mem_cons_self)) hreads
  | and lhs rhs ihl ihr | or lhs rhs ihl ihr =>
      rcases List.mem_append.1 hreads with hreads | hreads
      · exact ihl (.inside h (operation_mem_children List.mem_cons_self)) hreads
      · exact ihr (.inside h (operation_mem_children (by simp [children]))) hreads
  | compare target op value span =>
      have hvalue := hexpr h value (by simp [expressions])
      rw [mentions, List.mem_append] at hreads
      rcases hreads with hreads | hreads
      · split at hreads
        · rcases List.mem_cons.1 hreads with hsame | hreads
          · cases hsame
          · exact hvalue (value.references_uses _ hreads)
        · exact ⟨target, .inside h List.mem_cons_self, (eq_of_comparisonMentions hreads).symm⟩
      · exact hvalue (value.callReads_uses _ hreads)
  | grouping names span =>
      obtain ⟨name, hname, hsame⟩ := List.mem_map.1 hreads
      refine ⟨name, .inside h ?_, Mention.reads.inj hsame⟩
      rw [Node.children_operation]
      exact List.mem_map_of_mem hname
  | rename expr target span =>
      have hexpr := hexpr h expr List.mem_cons_self
      simp only [mentions, List.mem_append, List.mem_map, List.mem_singleton, Option.mem_toList,
        Expr.asName?_eq_some] at hreads
      rcases hreads with (⟨name, rfl, hsame⟩ | hsame) | hreads
      · exact hexpr ⟨name, .value, hsame.symm⟩
      · cases hsame
      · exact hexpr (expr.callReads_uses _ hreads)
  | output inputs mode outputs span =>
      simp only [mentions, List.mem_append, List.mem_map, List.mem_filterMap, List.mem_filter,
        Expr.asName?_eq_some] at hreads
      rcases hreads with (⟨name, ⟨input, ⟨hinput, -⟩, rfl⟩, hsame⟩ | ⟨name, -, hsame⟩) | hreads
      · exact hexpr h _ hinput ⟨name, .value, hsame.symm⟩
      · cases hsame
      · obtain ⟨input, hinput, hname⟩ := exprsCallReads_uses inputs _ hreads
        exact hexpr h input hinput hname
  | like expr pattern span | bare expr span =>
      exact hexpr h expr List.mem_cons_self (expr.callReads_uses _ hreads)
  | within expr items span =>
      obtain ⟨item, hitem, hname⟩ := exprsCallReads_uses (expr :: items) _ hreads
      exact hexpr h item hitem hname

end Operation

namespace Query

-- An operand whose whole text the command takes for a field.
inductive TakesWhole (query : Query) (operations : List Operation) :
    Option String → Operation → Prop where
  | lookup {operation : Operation} : operation ∈ operations.drop 1 →
      operation.asBare?.isSome = true → TakesWhole query operations (some "lookup") operation
  | fields {operation : Operation} : operation ∈ operations →
      TakesWhole query operations (some "fields") operation
  | datamodel {operation : Operation} : operation ∈ operations.drop 2 →
      TakesWhole query operations (some "datamodel") operation
  | tstats {operation : Operation} : operation ∈ operations →
      FieldName.isOfModel (query.operandText operation).toList = true →
      TakesWhole query operations (some "tstats") operation

theorem TakesWhole.mem {query : Query} {operations : List Operation} {command : Option String}
    {operation : Operation} (h : query.TakesWhole operations command operation) :
    operation ∈ operations := by
  cases h with
  | lookup hmem | datamodel hmem => exact List.mem_of_mem_drop hmem
  | fields hmem | tstats hmem => exact hmem

section

variable {query : Query} {field : String} {operations : List Operation}

theorem operand_of_lookup (h : .reads field ∈ query.lookupMentions operations) :
    ∃ operation, query.TakesWhole operations (some "lookup") operation ∧
      query.operandText operation = field := by
  simp only [lookupMentions, List.mem_append, List.mem_map, List.mem_filter] at h
  rcases h with ⟨span, -, hsame⟩ | ⟨operation, ⟨hmem, hbare⟩, hsame⟩
  · cases hsame
  · exact ⟨operation, .lookup hmem hbare, Mention.reads.inj hsame⟩

theorem operand_of_datamodel (h : .reads field ∈ query.datamodelMentions operations) :
    ∃ operation, query.TakesWhole operations (some "datamodel") operation ∧
      query.operandText operation = field := by
  unfold datamodelMentions at h
  split at h
  · dsimp only at h
    rw [List.singleton_append, List.mem_append] at h
    rcases h with h | h
    · exact absurd h (Mention.not_reads_model _ _)
    · obtain ⟨text, htext, hsame⟩ := List.mem_map.1 h
      obtain ⟨operation, hmem, rfl⟩ := List.mem_map.1 (List.mem_filter.1 htext).1
      exact ⟨operation, .datamodel hmem, Mention.reads.inj hsame⟩
  · cases h

theorem operand_of_tstats (h : .reads field ∈ query.tstatsMentions operations) :
    (∃ operation, query.TakesWhole operations (some "tstats") operation ∧
      query.operandText operation = field) ∨
    ∃ operation ∈ operations,
      Reference.callArgument? (query.operandText operation).toList = some field.toList := by
  obtain ⟨operation, hmem, h⟩ := List.mem_flatMap.1 h
  simp only [List.mem_append] at h
  rcases h with ((h | h) | h) | h
  · obtain ⟨text, -, h⟩ := List.mem_flatMap.1 h
    exact absurd h (Mention.not_reads_modelReference text)
  · exact absurd h (Mention.not_reads_datasetReference _)
  · rw [List.mem_ite_nil_right, List.mem_singleton, String.ofList_toList] at h
    exact .inl ⟨operation, .tstats hmem h.1, (Mention.reads.inj h.2).symm⟩
  · obtain ⟨argument, hargument, hsame⟩ := List.mem_map.1 h
    refine .inr ⟨operation, hmem, ?_⟩
    rw [← Mention.reads.inj hsame, String.toList_ofList]
    exact Option.mem_toList.1 hargument

-- What a command reads is the text of an operand, or stands between the parentheses of one.
theorem operand_of_reads {command : Option String}
    (h : .reads field ∈ query.commandMentions command operations) :
    (∃ operation, query.TakesWhole operations command operation ∧
      query.operandText operation = field) ∨
    command = some "tstats" ∧ ∃ operation ∈ operations,
      Reference.callArgument? (query.operandText operation).toList = some field.toList := by
  unfold commandMentions at h
  split at h
  · exact .inl (operand_of_lookup h)
  · obtain ⟨operation, hmem, hsame⟩ := List.mem_map.1 h
    exact .inl ⟨operation, .fields hmem, Mention.reads.inj hsame⟩
  · obtain ⟨operation, -, hsame⟩ := List.mem_map.1 h
    cases hsame
  · exact .inl (operand_of_datamodel h)
  · exact (operand_of_tstats h).imp_right fun h => ⟨rfl, h⟩
  · obtain ⟨operation, -, h⟩ := List.mem_flatMap.1 h
    exact absurd h (Mention.not_reads_datasetReference _)
  · unfold pivotMentions at h
    split at h
    · dsimp only at h
      rw [List.singleton_append] at h
      exact absurd h (Mention.not_reads_model _ _)
    · cases h
  · cases h

end

-- A significant token that is an ordinary word, or one that may name a function, has this text.
def Verbatim (query : Query) (field : String) : Prop :=
  ∃ token ∈ query.tokens, token.isTrivia = false ∧ token.text = field ∧
    (token.kind = .word ∨ token.kind.isFunction = true)

-- A command takes for this field the whole text of an operand that is no name, or `tstats` what
-- stands between the parentheses of one that is no call on a name.
inductive Glued (query : Query) (field : String) : Prop where
  | operand {scope : Pipeline} {stage : Stage} {operation : Operation} :
      query.pipeline.Encloses scope → stage ∈ scope.stages →
      query.TakesWhole stage.operations stage.commandName? operation →
      operation.loneName? = none → query.operandText operation = field → Glued query field
  | argument {scope : Pipeline} {stage : Stage} {operation : Operation} :
      query.pipeline.Encloses scope → stage ∈ scope.stages → stage.commandName? = some "tstats" →
      operation ∈ stage.operations → operation.calledOn? = none →
      Reference.callArgument? (query.operandText operation).toList = some field.toList →
      Glued query field

-- A stage of some scope finds this.
def FoundIn (query : Query) (pipeline : Pipeline) (finding : Finding) : Prop :=
  ∃ scope, pipeline.Encloses scope ∧ ∃ stage ∈ scope.stages, ∃ derived, finding ∈
    (Mention.settle derived (query.stageMentions stage.commandName? stage.operations)).1

section

variable {query : Query} {pipeline : Pipeline} {finding : Finding}

mutual

theorem foundIn_of_stage (derived : List String) : (scope : Pipeline) → (stage : Stage) →
    pipeline.Encloses scope → stage ∈ scope.stages →
    finding ∈ (query.stageFindings derived stage).1 → query.FoundIn pipeline finding
  | scope, .mk _ _ _ subquery _, hscope, hstage, h => by
      rw [stageFindings_mk, List.mem_append] at h
      rcases h with h | h
      · exact ⟨scope, hscope, _, hstage, _, h⟩
      · exact foundIn_of_brackets subquery (fun inner hinner => .inside hscope hstage hinner) h

theorem foundIn_of_brackets : (subquery : Option Subquery) →
    (∀ inner ∈ subquery, pipeline.Encloses inner.pipeline) →
    finding ∈ query.bracketFindings subquery → query.FoundIn pipeline finding
  | none, _, h => by cases h
  | some (.mk opening later _), hinner, h => by
      have hscope := hinner _ rfl
      rw [bracketFindings, subqueryFindings, List.mem_append] at h
      rcases h with h | h
      · exact foundIn_of_stage [] _ opening hscope List.mem_cons_self h
      · exact foundIn_of_stages _ _ later hscope (fun _ hmem => List.mem_cons_of_mem _ hmem) h

theorem foundIn_of_stages (derived : List String) : (scope : Pipeline) → (stages : List Stage) →
    pipeline.Encloses scope → (∀ stage ∈ stages, stage ∈ scope.stages) →
    finding ∈ query.stagesFindings derived stages → query.FoundIn pipeline finding
  | _, [], _, _, h => by
      rw [stagesFindings] at h
      cases h
  | scope, first :: rest, hscope, hstages, h => by
      rw [List.forall_mem_cons] at hstages
      rw [stagesFindings_cons, List.mem_append] at h
      rcases h with h | h
      · exact foundIn_of_stage derived scope first hscope hstages.1 h
      · exact foundIn_of_stages _ scope rest hscope hstages.2 h

end

end

section

variable {source field : String} {query : Query} (hparse : Query.parse source = .ok query)
  (hcommand : (Keyword.classify field).isCommand = false)

include hparse hcommand

-- A name that is no command is a word or may name a function.
theorem verbatim_of_name {name : Name} (h : query.pipeline.Has (.name name))
    (hname : name.text = field) : query.Verbatim field := by
  subst hname
  obtain ⟨token, hmem, htrivia, htext, hkind⟩ := token_of_leaf hparse h rfl rfl
  have huse := use_ne_command hparse h hcommand
  refine ⟨token, hmem, htrivia, htext, ?_⟩
  revert hkind huse
  generalize token.kind = kind
  cases name.use <;> cases kind <;> decide

-- The text of an operand is that of a single token if the operand is a name.
theorem listed_of_operand {scope : Pipeline} {stage : Stage} {operation : Operation}
    (hscope : query.pipeline.Encloses scope) (hstage : stage ∈ scope.stages)
    (htakes : query.TakesWhole stage.operations stage.commandName? operation)
    (htext : query.operandText operation = field) : query.Verbatim field ∨ query.Glued field := by
  cases hlone : operation.loneName? with
  | none => exact .inr (.operand hscope hstage htakes hlone htext)
  | some name =>
      obtain ⟨span, rfl⟩ := Operation.loneName?_eq_some hlone
      have hoperation := Pipeline.Has.of_operation (hscope.has hstage) htakes.mem
      have hname := Pipeline.Has.of_uses
        (.inside hoperation (Operation.mem_children_of_expressions List.mem_cons_self)) .value
      rw [operandText_name hparse hoperation] at htext
      exact .inl (verbatim_of_name hparse hcommand hname htext)

-- So is what stands between its parentheses if the operand is a call on a name.
theorem listed_of_argument {scope : Pipeline} {stage : Stage} {operation : Operation}
    (hscope : query.pipeline.Encloses scope) (hstage : stage ∈ scope.stages)
    (htstats : stage.commandName? = some "tstats") (hmem : operation ∈ stage.operations)
    (hargument : Reference.callArgument? (query.operandText operation).toList = some field.toList) :
    query.Verbatim field ∨ query.Glued field := by
  cases hcalled : operation.calledOn? with
  | none => exact .inr (.argument hscope hstage htstats hmem hcalled hargument)
  | some name =>
      have hoperation := Pipeline.Has.of_operation (hscope.has hstage) hmem
      obtain ⟨expr, hexpr, huses⟩ := Operation.uses_of_calledOn? hcalled
      have hname := Pipeline.Has.of_uses
        (.inside hoperation (Operation.mem_children_of_expressions hexpr)) huses
      obtain ⟨head, more, hhead, hmore, htext⟩ := operandText_call hparse hoperation hcalled
      rw [htext] at hargument
      have hsame := Reference.eq_of_callArgument? hhead hmore hargument
      exact .inl (verbatim_of_name hparse hcommand hname (String.toList_inj.1 hsame.symm))

end

-- Every input field is the text of one word of the query, as it stands, unless a command takes it
-- from an operand that is no name and no call on one.
theorem discover_verbatim (source : String) (query : Query) (hparse : Query.parse source = .ok query) :
    ∃ inventory, Inventory.discover source = .ok inventory ∧
      ∀ field ∈ inventory.inputFields, query.Verbatim field ∨ query.Glued field := by
  refine ⟨_, discover_of_parse hparse, fun field hfield => ?_⟩
  have hfinding := (mem_inputFields.1 hfield).2
  obtain ⟨scope, hscope, stage, hstage, derived, hsettled⟩ :=
    foundIn_of_stages [] _ query.pipeline.stages .self (fun _ hmem => hmem) hfinding
  rcases Mention.mem_settle hsettled with hfound | ⟨_, hsame, hreads, -, -, hcommand⟩
  · exact absurd hfound ((query.paired_stage _ _).field field)
  cases hsame
  rcases List.mem_append.1 hreads with hreads | hreads
  · rcases operand_of_reads hreads with ⟨operation, htakes, htext⟩ | ⟨htstats, operation, hmem, harg⟩
    · exact listed_of_operand hparse hcommand hscope hstage htakes htext
    · exact listed_of_argument hparse hcommand hscope hstage htstats hmem harg
  · obtain ⟨operation, hmem, hreads⟩ := List.mem_flatMap.1 hreads
    have hoperation := Pipeline.Has.of_operation (hscope.has hstage) hmem
    obtain ⟨name, hname, htext⟩ := Operation.name_of_reads hoperation hreads
    exact .inl (verbatim_of_name hparse hcommand hname htext)

-- An alias, a call and a clause, and nothing that is glued.
theorem discover_verbatim_tstats : ∃ query,
    Query.parse "| tstats sum(bytes) as total where src=1 by user" = .ok query ∧
    ∃ inventory,
      Inventory.discover "| tstats sum(bytes) as total where src=1 by user" = .ok inventory ∧
      inventory.inputFields = ["bytes", "src", "user"] ∧
      ∀ field ∈ inventory.inputFields, query.Verbatim field ∨ query.Glued field := by
  have hread : (Query.parse "| tstats sum(bytes) as total where src=1 by user").toOption.any
      (fun query => query.inventory.inputFields == ["bytes", "src", "user"]) = true := by
    decide +kernel
  obtain ⟨query, hparse, hfields⟩ := parse_of_any hread
  obtain ⟨inventory, hdiscover, hall⟩ := discover_verbatim _ query hparse
  refine ⟨query, hparse, inventory, hdiscover, ?_, hall⟩
  rw [discover_of_parse hparse] at hdiscover
  cases hdiscover
  exact beq_iff_eq.1 hfields

-- Two words in one operand make a field of `fields`, and a piece of a quoted text one of `tstats`.
theorem discover_glued :
    (∃ query, Query.parse "search a=1 | fields NOT b" = .ok query ∧
      (∃ inventory, Inventory.discover "search a=1 | fields NOT b" = .ok inventory ∧
        inventory.inputFields = ["a", "NOTb"]) ∧ ¬ query.Verbatim "NOTb") ∧
    ∃ query, Query.parse "| tstats count where x=\"(foo)\"" = .ok query ∧
      (∃ inventory, Inventory.discover "| tstats count where x=\"(foo)\"" = .ok inventory ∧
        inventory.inputFields = ["foo", "x"]) ∧ ¬ query.Verbatim "foo" := by
  have hnone : ∀ {query : Query} {field : String},
      query.tokens.all (·.text != field) = true → ¬ query.Verbatim field := by
    rintro query field hall ⟨token, hmem, -, htext, -⟩
    have hother := List.all_eq_true.1 hall token hmem
    exact bne_iff_ne.1 hother htext
  have hglued : (Query.parse "search a=1 | fields NOT b").toOption.any (fun query =>
      query.inventory.inputFields == ["a", "NOTb"] &&
        query.tokens.all (·.text != "NOTb")) = true := by decide +kernel
  have hquoted : (Query.parse "| tstats count where x=\"(foo)\"").toOption.any (fun query =>
      query.inventory.inputFields == ["foo", "x"] &&
        query.tokens.all (·.text != "foo")) = true := by decide +kernel
  obtain ⟨query, hparse, hcheck⟩ := parse_of_any hglued
  obtain ⟨other, hother, hcheck'⟩ := parse_of_any hquoted
  rw [Bool.and_eq_true, beq_iff_eq] at hcheck hcheck'
  exact ⟨⟨query, hparse, ⟨_, discover_of_parse hparse, hcheck.1⟩, hnone hcheck.2⟩,
    other, hother, ⟨_, discover_of_parse hother, hcheck'.1⟩, hnone hcheck'.2⟩

end Query

end SearchPipeline
