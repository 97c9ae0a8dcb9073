import SearchPipeline.Rename.Plan
import SearchPipeline.Proofs.Grammar.Derivation

namespace SearchPipeline

open Grammar

-- The names that an operation of a command reads as fields. The table of a `lookup` is no field.
inductive Operation.Reads (command : Option String) (table : Option Span) :
    Operation → Name → Prop where
  | compared {field : Name} {op : CompareOp} {value : Expr} {span : Span} :
      command ≠ some "eval" → Reads command table (.compare field op value span) field
  | grouped {names : List Name} {name : Name} {span : Span} :
      name ∈ names → Reads command table (.grouping names span) name
  | aliased {name target : Name} {span : Span} :
      Reads command table (.rename (.value (.name name)) target span) name
  | input {inputs : List Expr} {mode : OutputMode} {outputs : List Name} {name : Name} {span : Span} :
      .value (.name name) ∈ inputs → some name.span ≠ table →
      Reads command table (.output inputs mode outputs span) name
  | listed {name : Name} {span : Span} : command = some "fields" → name.use = .field →
      Reads command table (.bare (.value (.name name)) span) name
  | not {inner : Operation} {name : Name} {span : Span} :
      Reads command table inner name → Reads command table (.not inner span) name
  | paren {inner : Operation} {name : Name} {span : Span} :
      Reads command table inner name → Reads command table (.paren inner span) name
  | andLeft {lhs rhs : Operation} {name : Name} :
      Reads command table lhs name → Reads command table (.and lhs rhs) name
  | andRight {lhs rhs : Operation} {name : Name} :
      Reads command table rhs name → Reads command table (.and lhs rhs) name
  | orLeft {lhs rhs : Operation} {name : Name} :
      Reads command table lhs name → Reads command table (.or lhs rhs) name
  | orRight {lhs rhs : Operation} {name : Name} :
      Reads command table rhs name → Reads command table (.or lhs rhs) name

def Stage.Reads (stage : Stage) (name : Name) : Prop :=
  ∃ operation ∈ stage.operations,
    operation.Reads stage.commandName? (stageTable? stage.commandName? stage.operations) name

-- The stages of a pipeline and of the subqueries in it, at any depth.
inductive Pipeline.HasStage (pipeline : Pipeline) : Stage → Prop where
  | own {stage : Stage} : stage ∈ pipeline.stages → HasStage pipeline stage
  | nested {stage inner : Stage} {subquery : Subquery} : HasStage pipeline stage →
      stage.subquery = some subquery → inner ∈ subquery.opening :: subquery.later →
      HasStage pipeline inner

-- The names that a pipeline reads as fields.
def Pipeline.Reads (pipeline : Pipeline) (name : Name) : Prop :=
  ∃ stage, pipeline.HasStage stage ∧ stage.Reads name

section Listing

variable {command : Option String} {table : Option Span} {name : Name}

theorem Operation.reads_of_mem {operation : Operation} {use : FieldUse}
    (h : use ∈ operation.fieldUses command table) : operation.Reads command table use.name := by
  induction operation with
  | compare field op value span =>
      simp only [fieldUses] at h
      split at h
      · cases h
      next heval =>
      cases List.mem_singleton.1 h
      exact .compared heval
  | grouping names span =>
      obtain ⟨name, hname, rfl⟩ := List.mem_map.1 h
      exact .grouped hname
  | rename expr target span =>
      obtain ⟨name, hname, rfl⟩ := List.mem_map.1 h
      rw [Option.mem_toList, Expr.asName?_eq_some] at hname
      subst hname
      exact .aliased
  | output inputs mode outputs span =>
      simp only [fieldUses, List.mem_filterMap, List.mem_filter, Option.map_eq_some_iff,
        decide_eq_true_eq] at h
      obtain ⟨input, ⟨hmem, htable⟩, name, hname, rfl⟩ := h
      rw [Expr.asName?_eq_some] at hname
      subst hname
      exact .input hmem htable
  | bare expr span =>
      simp only [fieldUses] at h
      split at h
      · next hfields =>
        obtain ⟨name, hname, rfl⟩ := List.mem_map.1 h
        rw [Option.mem_toList, Option.filter_eq_some_iff, Expr.asName?_eq_some,
          decide_eq_true_eq] at hname
        obtain ⟨rfl, huse⟩ := hname
        exact .listed hfields huse
      · cases h
  | not inner span ih => exact .not (ih h)
  | paren inner span ih => exact .paren (ih h)
  | and lhs rhs ihl ihr =>
      rcases List.mem_append.1 h with h | h
      · exact .andLeft (ihl h)
      · exact .andRight (ihr h)
  | or lhs rhs ihl ihr =>
      rcases List.mem_append.1 h with h | h
      · exact .orLeft (ihl h)
      · exact .orRight (ihr h)
  | like | within => cases h

theorem Operation.mem_of_reads {operation : Operation} (h : operation.Reads command table name) :
    name ∈ (operation.fieldUses command table).map (·.name) := by
  induction h with
  | compared heval => simp [fieldUses, heval]
  | grouped hname => simpa [fieldUses] using hname
  | aliased => simp [fieldUses, Expr.asName?]
  | @input inputs mode outputs name span hmem htable =>
      simp only [fieldUses, List.mem_map, List.mem_filterMap, List.mem_filter]
      exact ⟨⟨name, .lookupInput⟩, ⟨_, ⟨hmem, decide_eq_true htable⟩, rfl⟩, rfl⟩
  | listed hfields huse => simp [fieldUses, hfields, Expr.asName?, huse]
  | not _ ih => exact ih
  | paren _ ih => exact ih
  | andLeft _ ih | orLeft _ ih =>
      simp only [fieldUses, List.map_append]
      exact List.mem_append_left _ ih
  | andRight _ ih | orRight _ ih =>
      simp only [fieldUses, List.map_append]
      exact List.mem_append_right _ ih

theorem mem_stagesFieldUses {stages : List Stage} {use : FieldUse} :
    use ∈ stagesFieldUses stages ↔ ∃ stage ∈ stages, use ∈ stage.fieldUses := by
  induction stages with
  | nil => simp [stagesFieldUses]
  | cons first rest ih => simp [stagesFieldUses, ih]

theorem Stage.mem_fieldUses {stage : Stage} {use : FieldUse} :
    use ∈ stage.fieldUses ↔
      (∃ operation ∈ stage.operations, use ∈ operation.fieldUses stage.commandName?
        (stageTable? stage.commandName? stage.operations)) ∨
      ∃ subquery, stage.subquery = some subquery ∧
        ∃ inner ∈ subquery.opening :: subquery.later, use ∈ inner.fieldUses := by
  obtain ⟨piped, command, operations, subquery, span⟩ := stage
  cases subquery with
  | none => simp [fieldUses, Stage.operations, Stage.commandName?, Stage.command, Stage.subquery]
  | some subquery =>
      obtain ⟨opening, later, inside⟩ := subquery
      simp [fieldUses, Stage.operations, Stage.commandName?, Stage.command, Stage.subquery,
        Subquery.fieldUses, Subquery.opening, Subquery.later, mem_stagesFieldUses]

theorem Pipeline.reads_of_mem_stage {pipeline : Pipeline} {use : FieldUse} (stage : Stage)
    (hstage : pipeline.HasStage stage) (h : use ∈ stage.fieldUses) : pipeline.Reads use.name := by
  rcases Stage.mem_fieldUses.1 h with ⟨operation, hmem, huse⟩ | ⟨subquery, hsub, inner, hinner, huse⟩
  · exact ⟨stage, hstage, operation, hmem, Operation.reads_of_mem huse⟩
  · exact reads_of_mem_stage inner (.nested hstage hsub hinner) huse
termination_by sizeOf stage
decreasing_by exact Stage.sizeOf_inner_lt hsub hinner

theorem Pipeline.HasStage.fieldUses_subset {pipeline : Pipeline} {stage : Stage}
    (h : pipeline.HasStage stage) : stage.fieldUses ⊆ pipeline.fieldUses := by
  induction h with
  | own hmem =>
      intro use huse
      simp only [Pipeline.fieldUses, List.mem_append, mem_stagesFieldUses]
      rcases List.mem_cons.1 hmem with rfl | hmem
      · exact .inl huse
      · exact .inr ⟨_, hmem, huse⟩
  | nested _ hsub hinner ih =>
      intro use huse
      exact ih (Stage.mem_fieldUses.2 (.inr ⟨_, hsub, _, hinner, huse⟩))

-- The list of field uses holds exactly the names that the pipeline reads as fields.
theorem Pipeline.reads_iff {pipeline : Pipeline} :
    pipeline.Reads name ↔ ∃ use ∈ pipeline.fieldUses, use.name = name := by
  constructor
  · rintro ⟨stage, hstage, operation, hmem, hreads⟩
    obtain ⟨use, huse, rfl⟩ := List.mem_map.1 (Operation.mem_of_reads hreads)
    exact ⟨use, hstage.fieldUses_subset (Stage.mem_fieldUses.2 (.inl ⟨_, hmem, huse⟩)), rfl⟩
  · rintro ⟨use, huse, rfl⟩
    simp only [Pipeline.fieldUses, List.mem_append, mem_stagesFieldUses] at huse
    rcases huse with huse | ⟨stage, hmem, huse⟩
    · exact reads_of_mem_stage _ (.own List.mem_cons_self) huse
    · exact reads_of_mem_stage _ (.own (List.mem_cons_of_mem _ hmem)) huse

end Listing

namespace Grammar

-- Names on single tokens, one behind the other, between two positions.
inductive Located (tape : Tape) : List Name → Nat → Nat → Prop where
  | nil {first stop : Nat} : Located tape [] first stop
  | cons {name : Name} {names : List Name} {first pos stop : Nat} : first ≤ pos → pos < stop →
      Derives tape (.name name) pos (pos + 1) → Located tape names (pos + 1) stop →
      Located tape (name :: names) first stop

namespace Located

variable {tape : Tape} {names others : List Name} {first mid stop : Nat}

theorem widen (h : Located tape names mid stop) (hle : first ≤ mid) :
    Located tape names first stop := by
  cases h with
  | nil => exact .nil
  | cons hpos hlt hname hrest => exact .cons (by omega) hlt hname hrest

theorem append (h : Located tape names first mid) (hothers : Located tape others mid stop)
    (hfirst : first ≤ mid) (hmid : mid ≤ stop) : Located tape (names ++ others) first stop := by
  induction h with
  | nil => exact hothers.widen hfirst
  | cons hpos hlt hname _ ih => exact .cons hpos (by omega) hname (ih hothers (by omega) hmid)

theorem extend (h : Located tape names first mid) (hfirst : first ≤ mid) (hmid : mid ≤ stop) :
    Located tape names first stop := by
  simpa using h.append .nil hfirst hmid

theorem sublist (h : Located tape names first stop) (hsub : others.Sublist names) :
    Located tape others first stop := by
  induction h generalizing others with
  | nil =>
      cases List.sublist_nil.1 hsub
      exact .nil
  | @cons name names first pos stop hpos hlt hname hrest ih =>
      cases hsub with
      | cons _ hsub => exact (ih hsub).widen (by omega)
      | cons_cons _ hsub => exact .cons hpos hlt hname (ih hsub)

theorem name {name : Name} (h : Derives tape (.name name) first stop) :
    Located tape [name] first stop := by
  have hspells := h.spells
  simp only [Node.parts, Spells.token_iff, Spells.nil_iff] at hspells
  obtain ⟨-, rfl⟩ := hspells
  exact .cons (Nat.le_refl _) (Nat.lt_succ_self _) h .nil

theorem expr {expr : Expr} (h : Derives tape (.expr expr) first stop) :
    Located tape expr.asName?.toList first stop := by
  cases hname : expr.asName? with
  | none => exact .nil
  | some name =>
      rw [Expr.asName?_eq_some] at hname
      subst hname
      have hspells := h.spells
      simp only [Node.parts, Node.exprParts, Spells.node_iff, Spells.nil_iff] at hspells
      obtain ⟨mid, hvalue, rfl⟩ := hspells
      have hinner := hvalue.spells
      simp only [Node.parts, Node.valueParts, Spells.node_iff, Spells.nil_iff] at hinner
      obtain ⟨mid, hname, rfl⟩ := hinner
      exact .name hname

theorem exprs {exprs : List Expr} (h : Spells tape (exprs.map (.node ∘ .expr)) first stop) :
    Located tape (exprs.filterMap Expr.asName?) first stop := by
  induction exprs generalizing first with
  | nil => exact .nil
  | cons expr exprs ih =>
      simp only [List.map_cons, Function.comp_apply, Spells.node_iff] at h
      obtain ⟨mid, hexpr, hrest⟩ := h
      have hnames : (expr :: exprs).filterMap Expr.asName? =
          expr.asName?.toList ++ exprs.filterMap Expr.asName? := by
        cases hname : expr.asName? <;> simp [hname]
      rw [hnames]
      exact (Located.expr hexpr).append (ih hrest) hexpr.spells.le hrest.le

-- Names with something between them that may be missing.
theorem separated {kinds : List Kind} (h : Spells tape
    (separated (.optional kinds) (names.map .name)) first stop) : Located tape names first stop := by
  have hlater : ∀ (names : List Name) first, Spells tape ((names.map Node.name).flatMap fun node =>
      [.optional kinds, .node node]) first stop → Located tape names first stop := by
    intro names
    induction names with
    | nil =>
        intro first _
        exact .nil
    | cons name names ih =>
        intro first h
        simp only [List.map_cons, List.flatMap_cons, List.cons_append, List.nil_append,
          Spells.optional_iff, Spells.node_iff] at h
        rcases h with ⟨mid, hname, hrest⟩ | ⟨-, mid, hname, hrest⟩
        · exact (Located.name hname).append (ih mid hrest) hname.spells.le hrest.le
        · exact ((Located.name hname).append (ih mid hrest) hname.spells.le hrest.le).widen
            (Nat.le_succ _)
  cases names with
  | nil => exact .nil
  | cons name names =>
      simp only [List.map_cons, Grammar.separated, Spells.node_iff] at h
      obtain ⟨mid, hname, hrest⟩ := h
      exact (Located.name hname).append (hlater names mid hrest) hname.spells.le hrest.le

section FieldUses

variable {command : Option String} {table : Option Span}

theorem operation {operation : Operation} (h : Derives tape (.operation operation) first stop) :
    Located tape ((operation.fieldUses command table).map (·.name)) first stop := by
  have hspells := h.spells
  simp only [Node.parts] at hspells
  induction operation generalizing first stop with
  | compare field op value span =>
      simp only [Node.operationParts, Spells.node_iff, Spells.token_iff, Spells.nil_iff] at hspells
      obtain ⟨mid, hfield, -, last, hvalue, rfl⟩ := hspells
      simp only [Operation.fieldUses]
      split
      · exact .nil
      · have hle := hvalue.spells.le
        exact (Located.name hfield).extend hfield.spells.le (by omega)
  | grouping names span =>
      simp only [Node.operationParts, Spells.token_iff] at hspells
      simp only [Operation.fieldUses, List.map_map, Function.comp_def, List.map_id']
      exact (Located.separated hspells.2).widen (Nat.le_succ _)
  | rename expr target span =>
      simp only [Node.operationParts, Spells.node_iff, Spells.token_iff, Spells.nil_iff] at hspells
      obtain ⟨mid, hexpr, -, last, htarget, rfl⟩ := hspells
      have hle := htarget.spells.le
      simp only [Operation.fieldUses, List.map_map, Function.comp_def, List.map_id']
      exact (Located.expr hexpr).extend hexpr.spells.le (by omega)
  | output inputs mode outputs span =>
      simp only [Node.operationParts, Spells.append_iff] at hspells
      obtain ⟨last, ⟨mid, hinputs, hmode⟩, houtputs⟩ := hspells
      have hle := hmode.le
      have hend := houtputs.le
      refine ((Located.exprs hinputs).extend hinputs.le (by omega)).sublist ?_
      simp only [Operation.fieldUses, List.map_filterMap, Option.map_map, Function.comp_def,
        Option.map_id']
      exact List.filter_sublist.filterMap Expr.asName?
  | bare expr span =>
      simp only [Node.operationParts, Spells.node_iff, Spells.nil_iff] at hspells
      obtain ⟨mid, hexpr, rfl⟩ := hspells
      simp only [Operation.fieldUses]
      split
      · refine (Located.expr hexpr).sublist ?_
        cases expr.asName? with
        | none => exact List.Sublist.slnil
        | some name =>
            simp only [Option.filter_some]
            split
            · exact List.Sublist.refl _
            · exact List.nil_sublist _
      · exact .nil
  | not inner span ih =>
      simp only [Node.operationParts, Spells.node_iff, Spells.token_iff, Spells.nil_iff] at hspells
      obtain ⟨-, mid, hinner, rfl⟩ := hspells
      exact (ih hinner hinner.spells).widen (Nat.le_succ _)
  | paren inner span ih =>
      simp only [Node.operationParts, Spells.node_iff, Spells.token_iff, Spells.nil_iff] at hspells
      obtain ⟨-, mid, hinner, -, rfl⟩ := hspells
      exact ((ih hinner hinner.spells).widen (Nat.le_succ _)).extend
        (Nat.le_of_succ_le hinner.spells.le) (Nat.le_succ _)
  | and lhs rhs ihl ihr | or lhs rhs ihl ihr =>
      simp only [Node.operationParts, Spells.node_iff, Spells.token_iff, Spells.nil_iff] at hspells
      obtain ⟨mid, hlhs, -, last, hrhs, rfl⟩ := hspells
      simp only [Operation.fieldUses, List.map_append]
      exact (ihl hlhs hlhs.spells).append ((ihr hrhs hrhs.spells).widen (Nat.le_succ _))
        hlhs.spells.le (Nat.le_of_succ_le hrhs.spells.le)
  | like | within => exact .nil

theorem operations {operations : List Operation}
    (h : Spells tape (bodyParts operations none) first stop) :
    Located tape ((operations.flatMap (Operation.fieldUses command table)).map (·.name))
      first stop := by
  simp only [bodyParts, Option.toList_none, List.map_nil, List.append_nil] at h
  induction operations generalizing first with
  | nil => exact .nil
  | cons o rest ih =>
      simp only [List.flatMap_cons, List.cons_append, List.nil_append, Spells.node_iff,
        Spells.optional_iff] at h
      obtain ⟨mid, ho, hrest⟩ := h
      rw [List.flatMap_cons, List.map_append]
      rcases hrest with hrest | ⟨-, hrest⟩
      · exact (Located.operation ho).append (ih hrest) ho.spells.le hrest.le
      · exact (Located.operation ho).append ((ih hrest).widen (Nat.le_succ _)) ho.spells.le
          (Nat.le_of_succ_le hrest.le)

theorem stages {stages : List Stage}
    (hstage : ∀ s ∈ stages, ∀ first stop, Spells tape (bodyParts s.operations s.subquery) first stop →
      Located tape (s.fieldUses.map (·.name)) first stop)
    (h : Spells tape (laterParts stages) first stop) :
    Located tape ((stagesFieldUses stages).map (·.name)) first stop := by
  induction stages generalizing first with
  | nil => exact .nil
  | cons s rest ih =>
      simp only [laterParts, List.flatMap_cons, List.cons_append, List.nil_append, Spells.token_iff,
        Spells.node_iff] at h
      obtain ⟨-, mid, hs, hrest⟩ := h
      have hparts := hs.spells
      simp only [Node.parts, Spells.append_iff] at hparts
      obtain ⟨begin, hcommand, hbody⟩ := hparts
      have hle := hcommand.le
      have hrise := hbody.le
      rw [stagesFieldUses, List.map_append]
      exact ((hstage s List.mem_cons_self _ _ hbody).widen (by omega)).append
        (ih (fun s hs => hstage s (List.mem_cons_of_mem _ hs)) hrest) (by omega) hrest.le

theorem opening {s : Stage} (h : Derives tape (.opening s) first stop)
    (hbody : ∀ first stop, Spells tape (bodyParts s.operations s.subquery) first stop →
      Located tape (s.fieldUses.map (·.name)) first stop) :
    Located tape (s.fieldUses.map (·.name)) first stop := by
  have hparts := h.spells
  simp only [Node.parts, List.append_assoc, Spells.append_iff] at hparts
  obtain ⟨behind, hpipe, begin, hcommand, hspells⟩ := hparts
  have hle := hpipe.le
  have hrise := hcommand.le
  exact (hbody _ _ hspells).widen (by omega)

-- A stage is located if the stages of its subquery are.
theorem stage (s : Stage) {first stop : Nat}
    (h : Spells tape (bodyParts s.operations s.subquery) first stop) :
    Located tape (s.fieldUses.map (·.name)) first stop := by
  have hinner : ∀ q, s.subquery = some q → ∀ inner ∈ q.opening :: q.later, ∀ first stop,
      Spells tape (bodyParts inner.operations inner.subquery) first stop →
        Located tape (inner.fieldUses.map (·.name)) first stop :=
    fun q hq inner hmem first stop hspells => stage inner hspells
  obtain ⟨piped, command, operations, subquery, span⟩ := s
  simp only [Stage.operations, Stage.subquery] at h hinner
  cases subquery with
  | none =>
      simp only [Stage.fieldUses, List.append_nil]
      exact Located.operations h
  | some q =>
      have hsplit : bodyParts operations (some q) =
          bodyParts operations none ++ [.node (.subquery q)] := by
        simp [bodyParts]
      rw [hsplit] at h
      simp only [Spells.append_iff, Spells.node_iff, Spells.nil_iff] at h
      obtain ⟨mid, hoperations, last, hq, rfl⟩ := h
      have hparts := hq.spells
      simp only [Node.parts, Spells.append_iff, Spells.token_iff, Spells.node_iff,
        Spells.nil_iff] at hparts
      obtain ⟨close, ⟨later, ⟨-, begin, hopening, rfl⟩, hlater⟩, -, rfl⟩ := hparts
      have hfirst := Located.opening hopening (hinner q rfl _ List.mem_cons_self)
      have hrest := Located.stages (fun s hs => hinner q rfl s (List.mem_cons_of_mem _ hs)) hlater
      obtain ⟨first, later, inside⟩ := q
      have hle := hopening.spells.le
      have hend := hlater.le
      simp only [Stage.fieldUses, Subquery.fieldUses, List.map_append]
      refine (Located.operations hoperations).append ?_ hoperations.le (by omega)
      exact ((hfirst.append hrest hle hend).widen (Nat.le_succ _)).extend (by omega) (Nat.le_succ _)
termination_by sizeOf s
decreasing_by exact Stage.sizeOf_inner_lt hq hmem

-- The field uses of a pipeline stand on single tokens, in the order of the source.
theorem pipeline {pipeline : Pipeline} (h : Spells tape (rootParts pipeline) first stop) :
    Located tape (pipeline.fieldUses.map (·.name)) first stop := by
  simp only [rootParts, Spells.node_iff] at h
  obtain ⟨mid, hopening, hlater⟩ := h
  rw [Pipeline.fieldUses, List.map_append]
  exact (Located.opening hopening fun _ _ hspells => stage _ hspells).append
    (Located.stages (fun s _ _ _ hspells => stage s hspells) hlater) hopening.spells.le hlater.le

end FieldUses

end Located

end Grammar

end SearchPipeline
