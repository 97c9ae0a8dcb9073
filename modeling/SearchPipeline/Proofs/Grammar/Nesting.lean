import SearchPipeline.Proofs.Grammar.Stages

namespace SearchPipeline

-- The greatest of some measures.
def deepest {α : Type} (measure : α → Nat) : List α → Nat
  | [] => 0
  | first :: rest => max (measure first) (deepest measure rest)

theorem deepest_le_iff {α : Type} {measure : α → Nat} {values : List α} {bound : Nat} :
    deepest measure values ≤ bound ↔ ∀ value ∈ values, measure value ≤ bound := by
  induction values with
  | nil => simp [deepest]
  | cons first rest ih =>
      rw [deepest, Nat.max_le, ih, List.forall_mem_cons]

mutual

-- The longest chain of expressions inside one another. What takes an expression on its left adds
-- `chain` to it, and everything else that holds an expression adds one.
def Expr.nesting (chain : Nat) : Expr → Nat
  | .value _ | .wildcard _ | .path _ _ => 1
  | .call _ args _ => argNesting chain args + 1
  | .paren inner _ | .contains inner _ | .endsWith inner _ => inner.nesting chain + 1
  | .startsWith inner _ => inner.nesting chain + chain
  | .binary _ lhs rhs => max (lhs.nesting chain + chain) (rhs.nesting chain + 1)

def argNesting (chain : Nat) : List Expr → Nat
  | [] => 0
  | first :: rest => max (first.nesting chain) (argNesting chain rest)

end

theorem argNesting_eq (chain : Nat) (args : List Expr) :
    argNesting chain args = deepest (Expr.nesting chain) args := by
  induction args with
  | nil => rfl
  | cons first rest ih => rw [argNesting, ih, deepest]

-- The same for operations, with a measure of the expressions in them.
def Operation.nesting (chain : Nat) (inside : Expr → Nat) : Operation → Nat
  | .like expr _ _ | .rename expr _ _ | .bare expr _ | .compare _ _ expr _ => inside expr + 1
  | .within expr items _ => deepest inside (expr :: items) + 1
  | .output inputs _ _ _ => deepest inside inputs + 1
  | .grouping _ _ => 1
  | .not inner _ | .paren inner _ => inner.nesting chain inside + 1
  | .and lhs rhs | .or lhs rhs =>
      max (lhs.nesting chain inside + chain) (rhs.nesting chain inside + 1)

mutual

def Stage.nesting (chain : Nat) (inside : Expr → Nat) : Stage → Nat
  | .mk _ _ operations subquery _ =>
      max (deepest (Operation.nesting chain inside) operations)
        (innerNesting chain inside subquery)

def innerNesting (chain : Nat) (inside : Expr → Nat) : Option Subquery → Nat
  | some subquery => subquery.nesting chain inside
  | none => 0

def Subquery.nesting (chain : Nat) (inside : Expr → Nat) : Subquery → Nat
  | .mk opening later _ => max (opening.nesting chain inside) (laterNesting chain inside later) + 1

def laterNesting (chain : Nat) (inside : Expr → Nat) : List Stage → Nat
  | [] => 0
  | first :: rest => max (first.nesting chain inside) (laterNesting chain inside rest)

end

theorem laterNesting_eq (chain : Nat) (inside : Expr → Nat) (later : List Stage) :
    laterNesting chain inside later = deepest (Stage.nesting chain inside) later := by
  induction later with
  | nil => rfl
  | cons first rest ih => rw [laterNesting, ih, deepest]

def Pipeline.nesting (chain : Nat) (inside : Expr → Nat) (pipeline : Pipeline) : Nat :=
  deepest (Stage.nesting chain inside) pipeline.stages

-- The longest chain of operations, expressions and subqueries inside one another.
def Pipeline.height (pipeline : Pipeline) : Nat := pipeline.nesting 1 (Expr.nesting 1)

-- The same chain, where a left operand stands on the level of its operator.
def Pipeline.levels (pipeline : Pipeline) : Nat := pipeline.nesting 0 (Expr.nesting 0)

-- The levels of operations and subqueries alone.
def Pipeline.operationLevels (pipeline : Pipeline) : Nat := pipeline.nesting 0 fun _ => 0

namespace Grammar

open Rule

-- Nothing is expected of remembered expressions.
def anyRecall : Recall := fun _ _ _ _ => True

variable {tape : Tape} {pos room : Nat}

theorem Trail.keeps_any (trail : Trail) : trail.Keeps anyRecall := fun _ _ _ _ _ => trivial

theorem Rule.Ensures.any {α : Type} (rule : Rule α) :
    Ensures anyRecall tape pos rule fun _ _ => True := by
  intro trail _
  cases rule tape pos trail with
  | done value stop rest => exact ⟨rest.keeps_any, trivial⟩
  | stuck stop rest => exact rest.keeps_any

-- What a rule is done with measures `room` at most, wherever it begins.
def Bounded {α : Type} (tape : Tape) (measure : α → Nat) (room : Nat) (rule : Rule α) : Prop :=
  ∀ pos, Ensures anyRecall tape pos rule fun value _ => measure value ≤ room

section Expressions

theorem expressionList_bounded {expression : Nat → Rule Expr} {inside : Expr → Nat}
    (hexpr : ∀ least, Bounded tape inside room (expression least)) :
    Bounded tape (deepest inside) room (expressionList expression) := by
  intro pos
  rw [expressionList, Ensures.peek_bind]
  split
  · exact Ensures.pure_iff.2 (Nat.zero_le _)
  refine .bind (hexpr 0 pos) fun first mid hfirst => ?_
  refine .bind (Ensures.repeatStep (I := fun (found : List Expr) _ => ∀ e ∈ found, inside e ≤ room)
    (fun found at' hfound => ?_) (by simp)) fun rest stop hrest => Ensures.pure_iff.2 ?_
  · refine Ensures.eat_bind (fun _ => ?_) fun _ => Ensures.pure_iff.2 hfound
    exact .bind (hexpr 0 _) fun e last he =>
      Ensures.pure_iff.2 (List.forall_mem_cons.2 ⟨he, hfound⟩)
  · refine deepest_le_iff.2 (List.forall_mem_cons.2 ⟨hfirst, fun e hmem => ?_⟩)
    exact hrest e (List.mem_reverse.1 hmem)

variable {expression : Nat → Rule Expr}
  (hexpr : ∀ least, Bounded tape (Expr.nesting 0) room (expression least))

include hexpr

theorem callAhead_bounded : Bounded tape (Expr.nesting 0) (room + 1) (callAhead expression) := by
  intro pos
  rw [callAhead, Ensures.peek_bind, Ensures.peekAt_bind]
  split
  · rw [call, Ensures.position_bind, Ensures.advance_bind]
    refine Ensures.expect_bind fun _ => ?_
    refine .bind (expressionList_bounded hexpr _) fun args mid hargs => ?_
    refine Ensures.expect_bind fun _ => Ensures.spanFrom_bind.2 (Ensures.pure_iff.2 ?_)
    rw [Expr.nesting, argNesting_eq]
    exact Nat.succ_le_succ hargs
  · exact .refuse

theorem parenthesised_bounded :
    Bounded tape (Expr.nesting 0) (room + 1) (parenthesised expression) := by
  intro pos
  rw [parenthesised, Ensures.peek_bind]
  split
  · rw [Ensures.position_bind, Ensures.advance_bind]
    refine .bind (hexpr 0 _) fun inner mid hinner => Ensures.expect_bind fun _ => ?_
    exact Ensures.spanFrom_bind.2 (Ensures.pure_iff.2 (Nat.succ_le_succ hinner))
  · exact .refuse

theorem wildcards_bounded : Bounded tape (Expr.nesting 0) (room + 1) (wildcards expression) := by
  intro pos
  rw [wildcards, Ensures.peek_bind]
  split
  swap
  · exact .refuse
  refine Ensures.firstOf fun rule hrule => ?_
  simp only [List.mem_cons, List.not_mem_nil, or_false] at hrule
  rcases hrule with rfl | rfl | rfl
  · rw [containsTerm, Ensures.position_bind, Ensures.advance_bind]
    refine .bind (hexpr _ _) fun inner mid hinner => ?_
    rw [Ensures.peek_bind, Ensures.look_bind]
    split
    · rw [Ensures.advance_bind, Ensures.spanFrom_bind, Ensures.pure_iff]
      exact Nat.succ_le_succ hinner
    · exact .refuse
  · rw [endsWithTerm, Ensures.position_bind, Ensures.advance_bind]
    refine .bind (hexpr _ _) fun inner mid hinner => ?_
    exact Ensures.spanFrom_bind.2 (Ensures.pure_iff.2 (Nat.succ_le_succ hinner))
  · rw [loneStar, Ensures.position_bind, Ensures.advance_bind, Ensures.spanFrom_bind,
      Ensures.pure_iff]
    exact Nat.le_add_left 1 room

theorem primary_bounded : Bounded tape (Expr.nesting 0) (room + 1) (primary expression) := by
  intro pos
  refine Ensures.firstOf fun rule hrule => ?_
  simp only [List.mem_cons, List.not_mem_nil, or_false] at hrule
  rcases hrule with rfl | rfl | rfl | rfl | rfl
  · exact callAhead_bounded hexpr pos
  · exact parenthesised_bounded hexpr pos
  · exact wildcards_bounded hexpr pos
  · rw [path, Ensures.position_bind]
    refine .bind (.any _) fun names mid _ => ?_
    cases names with
    | nil => exact .refuse
    | cons first rest =>
        exact Ensures.spanFrom_bind.2 (Ensures.pure_iff.2 (Nat.le_add_left 1 room))
  · exact .bind (.any _) fun v mid _ => Ensures.pure_iff.2 (Nat.le_add_left 1 room)

-- An operator takes what was read so far on its left, and reads its right operand inside.
theorem operand_bounded {lhs : Expr} (hlhs : lhs.nesting 0 ≤ room + 1) (op : ArithOp) :
    Bounded tape (Expr.nesting 0) (room + 1) (operand expression op lhs) := by
  intro pos
  rw [operand, Ensures.advance_bind]
  refine .bind (hexpr _ _) fun rhs stop hrhs => Ensures.pure_iff.2 ?_
  exact Nat.max_le.2 ⟨hlhs, Nat.succ_le_succ hrhs⟩

theorem starStep_bounded {lhs : Expr} (hlhs : lhs.nesting 0 ≤ room + 1) (least pos : Nat) :
    Ensures anyRecall tape pos (starStep expression least lhs)
      fun next _ => (next.getD lhs).nesting 0 ≤ room + 1 := by
  rw [starStep, Ensures.look_bind, Ensures.look_bind]
  split
  · exact Ensures.pure_iff.2 hlhs
  generalize hrest : (fun product : Option Expr => _) = rest
  have hafter : ∀ (product : Option Expr) mid, (product.getD lhs).nesting 0 ≤ room + 1 →
      Ensures anyRecall tape mid (rest product)
        fun next _ => (next.getD lhs).nesting 0 ≤ room + 1 := by
    subst hrest
    rintro (_ | e) mid hproduct
    · simp only
      split
      · exact Ensures.advance_bind.2 (Ensures.pure_iff.2 hlhs)
      · exact Ensures.pure_iff.2 hlhs
    · exact Ensures.pure_iff.2 hproduct
  simp only
  split
  · exact .bind (.attempt (operand_bounded hexpr hlhs _ pos) hlhs) hafter
  · exact hafter none pos hlhs

theorem operatorStep_bounded {lhs : Expr} (hlhs : lhs.nesting 0 ≤ room + 1) (least pos : Nat) :
    Ensures anyRecall tape pos (operatorStep expression least lhs)
      fun next _ => (next.getD lhs).nesting 0 ≤ room + 1 := by
  rw [operatorStep, Ensures.peek_bind]
  split
  · exact starStep_bounded hexpr hlhs least pos
  split
  · exact Ensures.pure_iff.2 hlhs
  · split
    · exact Ensures.pure_iff.2 hlhs
    · exact .attempt (operand_bounded hexpr hlhs _ pos) hlhs

theorem operators_bounded (least : Nat) :
    Bounded tape (Expr.nesting 0) (room + 1) (operators expression least) := by
  intro pos
  refine .bind (primary_bounded hexpr pos) fun first mid hfirst => ?_
  exact Ensures.repeatStep (I := fun (e : Expr) _ => e.nesting 0 ≤ room + 1)
    (fun lhs at' hlhs => operatorStep_bounded hexpr hlhs least at') hfirst

end Expressions

section Operations

variable {expression : Nat → Rule Expr} {operation : Nat → Rule Operation} {inside : Expr → Nat}
  (hexpr : ∀ least, Bounded tape inside room (expression least))
  (hop : ∀ least, Bounded tape (Operation.nesting 0 inside) room (operation least))

-- The span that a form is given does not count.
def FormBounded (tape : Tape) (inside : Expr → Nat) (room : Nat) (form : Rule (Span → Operation)) :
    Prop :=
  ∀ pos, Ensures anyRecall tape pos form fun make _ =>
    ∀ span, (make span).nesting 0 inside ≤ room

theorem spanned_bounded {form : Rule (Span → Operation)} (h : FormBounded tape inside room form) :
    Bounded tape (Operation.nesting 0 inside) room (spanned form) := by
  intro pos
  rw [spanned, Ensures.position_bind]
  exact .bind (h pos) fun make stop hmake => Ensures.spanFrom_bind.2 (Ensures.pure_iff.2 (hmake _))

include hexpr

theorem likeForm_bounded : FormBounded tape inside (room + 1) (likeForm expression) := by
  intro pos
  refine .bind (hexpr 0 pos) fun e mid he => Ensures.expect_bind fun _ => ?_
  exact .bind (.any _) fun _ _ _ => Ensures.pure_iff.2 fun _ => Nat.succ_le_succ he

theorem withinForm_bounded : FormBounded tape inside (room + 1) (withinForm expression) := by
  intro pos
  refine .bind (hexpr 0 pos) fun e mid he => Ensures.expect_bind fun _ => ?_
  refine Ensures.expect_bind fun _ => ?_
  refine .bind (expressionList_bounded hexpr _) fun items _ hitems => ?_
  refine Ensures.expect_bind fun _ => Ensures.pure_iff.2 fun _ => Nat.succ_le_succ ?_
  exact Nat.max_le.2 ⟨he, hitems⟩

theorem inputs_bounded (count : Nat) :
    Bounded tape (deepest inside) room (inputs expression count) := by
  induction count with
  | zero => exact fun _ => Ensures.pure_iff.2 (Nat.zero_le _)
  | succ count ih =>
      intro pos
      refine .bind (hexpr 0 pos) fun first mid hfirst => .bind (ih mid) fun rest stop hrest => ?_
      exact Ensures.pure_iff.2 (Nat.max_le.2 ⟨hfirst, hrest⟩)

theorem outputForm_bounded (more : Nat) :
    FormBounded tape inside (room + 1) (outputForm expression more) := by
  intro pos
  refine .bind (inputs_bounded hexpr _ pos) fun before mid hbefore => ?_
  refine .bind (.any _) fun _ _ _ => .bind (.any _) fun _ _ _ => .bind (.any _) fun _ _ _ => ?_
  exact Ensures.pure_iff.2 fun _ => Nat.succ_le_succ hbefore

omit hexpr in
theorem groupingForm_bounded : FormBounded tape inside (room + 1) groupingForm := by
  intro pos
  refine Ensures.expect_bind fun _ => .bind (.any _) fun _ _ _ => .bind (.any _) fun _ _ _ => ?_
  exact Ensures.pure_iff.2 fun _ => Nat.le_add_left 1 room

theorem renameForm_bounded : FormBounded tape inside (room + 1) (renameForm expression) := by
  intro pos
  refine .bind (hexpr 0 pos) fun e mid he => Ensures.expect_bind fun _ => ?_
  exact .bind (.any _) fun _ _ _ => Ensures.pure_iff.2 fun _ => Nat.succ_le_succ he

theorem compareForm_bounded : FormBounded tape inside (room + 1) (compareForm expression) := by
  intro pos
  refine .bind (.any _) fun field mid _ => Ensures.peek_bind.2 ?_
  split
  · exact .miss _
  · refine Ensures.advance_bind.2 (.bind (hexpr 0 _) fun e stop he => ?_)
    exact Ensures.pure_iff.2 fun _ => Nat.succ_le_succ he

theorem bareForm_bounded : FormBounded tape inside (room + 1) (bareForm expression) := by
  intro pos
  exact .bind (hexpr 0 pos) fun e stop he => Ensures.pure_iff.2 fun _ => Nat.succ_le_succ he

omit hexpr
include hop

theorem notForm_bounded : FormBounded tape inside (room + 1) (notForm operation) := by
  intro pos
  refine Ensures.expect_bind fun _ => .bind (hop _ _) fun inner stop hinner => ?_
  exact Ensures.pure_iff.2 fun _ => Nat.succ_le_succ hinner

theorem parenForm_bounded : FormBounded tape inside (room + 1) (parenForm operation) := by
  intro pos
  refine Ensures.expect_bind fun _ => .bind (hop _ _) fun inner stop hinner => ?_
  exact Ensures.expect_bind fun _ => Ensures.pure_iff.2 fun _ => Nat.succ_le_succ hinner

include hexpr

theorem simpleOperation_bounded : Bounded tape (Operation.nesting 0 inside) (room + 1)
    (simpleOperation expression operation) := by
  intro pos
  refine Ensures.firstOf ?_
  simp only [List.mem_append, List.mem_map, forms, List.mem_cons, List.not_mem_nil, or_false]
  rintro rule (⟨form, hform, rfl⟩ | rfl)
  · refine spanned_bounded ?_ pos
    rcases hform with rfl | rfl | rfl | rfl | rfl | rfl | rfl | rfl | rfl | rfl | rfl
    · exact likeForm_bounded hexpr
    · exact withinForm_bounded hexpr
    · exact notForm_bounded hop
    · exact outputForm_bounded hexpr 0
    · exact outputForm_bounded hexpr 1
    · exact outputForm_bounded hexpr 2
    · exact groupingForm_bounded
    · exact renameForm_bounded hexpr
    · exact compareForm_bounded hexpr
    · exact bareForm_bounded hexpr
    · exact parenForm_bounded hop
  · exact .miss _

omit hexpr

-- A connective takes what was read so far on its left, as an operator does.
theorem connectiveStep_bounded {lhs : Operation} (hlhs : lhs.nesting 0 inside ≤ room + 1)
    (least pos : Nat) :
    Ensures anyRecall tape pos (connectiveStep operation least lhs)
      fun next _ => (next.getD lhs).nesting 0 inside ≤ room + 1 := by
  rw [connectiveStep, Ensures.peek_bind]
  split
  · exact Ensures.pure_iff.2 hlhs
  next connective _ =>
  split
  · exact Ensures.pure_iff.2 hlhs
  refine Ensures.advance_bind.2 (.bind (hop _ _) fun rhs stop hrhs => Ensures.pure_iff.2 ?_)
  cases connective <;> exact Nat.max_le.2 ⟨hlhs, Nat.succ_le_succ hrhs⟩

include hexpr

theorem connectives_bounded (least : Nat) : Bounded tape (Operation.nesting 0 inside) (room + 1)
    (connectives expression operation least) := by
  intro pos
  refine .bind (simpleOperation_bounded hexpr hop pos) fun first mid hfirst => ?_
  exact Ensures.repeatStep (I := fun (o : Operation) _ => o.nesting 0 inside ≤ room + 1)
    (fun lhs at' hlhs => connectiveStep_bounded hop hlhs least at') hfirst

end Operations

-- The rules of a level read what is `room` levels deep at most.
structure Level.Bounded (tape : Tape) (inside : Expr → Nat) (room : Nat) (level : Level) :
    Prop where
  operation : ∀ least,
    Grammar.Bounded tape (Operation.nesting 0 inside) room (level.operation least)
  subquery : Grammar.Bounded tape (Subquery.nesting 0 inside) room level.subquery

section Stages

variable {level : Level} {inside : Expr → Nat} (hlevel : level.Bounded tape inside room)

include hlevel

theorem operand?_bounded {found : List Operation}
    (hfound : deepest (Operation.nesting 0 inside) found ≤ room) (pos : Nat) :
    Ensures anyRecall tape pos (operand? level found)
      fun next _ => deepest (Operation.nesting 0 inside) (next.getD found) ≤ room := by
  rw [operand?, Ensures.peek_bind]
  split
  · refine .bind (hlevel.operation 0 pos) fun o mid ho => .bind (.any _) fun _ _ _ => ?_
    exact Ensures.pure_iff.2 (Nat.max_le.2 ⟨ho, hfound⟩)
  · exact Ensures.pure_iff.2 hfound

-- How deep the operations of a body and its subquery are.
def bodyNesting (inside : Expr → Nat) (found : List Operation × Option Subquery) : Nat :=
  max (deepest (Operation.nesting 0 inside) found.1) (innerNesting 0 inside found.2)

theorem body_bounded : Bounded tape (bodyNesting inside) room (body level) := by
  intro pos
  refine .bind (Ensures.repeatStep
    (I := fun (found : List Operation) _ => deepest (Operation.nesting 0 inside) found ≤ room)
    (fun found at' hfound => operand?_bounded hlevel hfound at') (Nat.zero_le _))
    fun found mid hfound => ?_
  have hoperations : deepest (Operation.nesting 0 inside) found.reverse ≤ room :=
    deepest_le_iff.2 fun o ho => deepest_le_iff.1 hfound o (List.mem_reverse.1 ho)
  refine .bind (P := fun subquery _ => bodyNesting inside (found.reverse, subquery) ≤ room) ?_
    fun subquery stop hbody => ?_
  · rw [subquery?, Ensures.peek_bind]
    split
    · refine .bind (hlevel.subquery mid) fun inner stop hinner => Ensures.pure_iff.2 ?_
      exact Nat.max_le.2 ⟨hoperations, hinner⟩
    · exact Ensures.pure_iff.2 (Nat.max_le.2 ⟨hoperations, Nat.zero_le _⟩)
  · split
    · exact .miss _
    · exact Ensures.pure_iff.2 hbody

theorem opening_bounded : Bounded tape (Stage.nesting 0 inside) room (opening level) := by
  intro pos
  rw [opening, Ensures.position_bind]
  refine .bind (.any _) fun piped mid _ => ?_
  refine .bind (.firstOf (P := fun found _ => bodyNesting inside found.2 ≤ room) ?_) ?_
  · simp only [List.mem_cons, List.not_mem_nil, or_false]
    rintro rule (rfl | rfl)
    · rw [openingWithCommand, Ensures.peek_bind]
      split
      · refine .bind (.any _) fun c _ _ => .bind (body_bounded hlevel _) fun found _ hfound => ?_
        exact Ensures.pure_iff.2 hfound
      · exact .refuse
    · exact .bind (body_bounded hlevel mid) fun found _ hfound => Ensures.pure_iff.2 hfound
  · rintro ⟨c, operations, subquery⟩ stop hfound
    refine Ensures.spanFrom_bind.2 (Ensures.pure_iff.2 ?_)
    exact hfound

theorem stage_bounded : Bounded tape (Stage.nesting 0 inside) room (stage level) := by
  intro pos
  rw [stage, Ensures.position_bind]
  refine .bind (.any _) fun c mid _ => .bind (body_bounded hlevel mid) ?_
  rintro ⟨operations, subquery⟩ stop hfound
  refine Ensures.spanFrom_bind.2 (Ensures.pure_iff.2 ?_)
  exact hfound

theorem laterStage_bounded {found : List Stage}
    (hfound : deepest (Stage.nesting 0 inside) found ≤ room) (pos : Nat) :
    Ensures anyRecall tape pos (laterStage level found)
      fun next _ => deepest (Stage.nesting 0 inside) (next.getD found) ≤ room := by
  refine Ensures.eat_bind (fun _ => ?_) fun _ => Ensures.pure_iff.2 hfound
  refine .bind (stage_bounded hlevel _) fun s stop hs => ?_
  exact Ensures.pure_iff.2 (Nat.max_le.2 ⟨hs, hfound⟩)

theorem bracketed_bounded :
    Bounded tape (Subquery.nesting 0 inside) (room + 1) (bracketed level) := by
  intro pos
  rw [bracketed, Ensures.position_bind]
  refine Ensures.expect_bind fun _ => .bind (opening_bounded hlevel _) fun first mid hfirst => ?_
  refine .bind (Ensures.repeatStep
    (I := fun (found : List Stage) _ => deepest (Stage.nesting 0 inside) found ≤ room)
    (fun found at' hfound => laterStage_bounded hlevel hfound at') (Nat.zero_le _))
    fun later last hlater => Ensures.expect_bind fun _ => ?_
  refine Ensures.spanFrom_bind.2 (Ensures.pure_iff.2 ?_)
  rw [Subquery.nesting, laterNesting_eq]
  refine Nat.succ_le_succ (Nat.max_le.2 ⟨hfirst, deepest_le_iff.2 fun s hs => ?_⟩)
  exact deepest_le_iff.1 hlater s (List.mem_reverse.1 hs)

end Stages

-- Without memory, the rules of a level read expressions with one level less inside.
theorem expression_bounded (room least : Nat) :
    Bounded tape (Expr.nesting 0) room ((tier false room).expression least) := by
  induction room generalizing least with
  | zero => exact fun _ => .whileShallow .sink
  | succ room ih => exact fun pos => .whileShallow (operators_bounded ih least pos)

-- One level after another, if the expressions of each are known to be no deeper.
theorem tier_bounded {keep : Bool} {inside : Expr → Nat}
    (hexpr : ∀ room least, Bounded tape inside room ((tier keep room).expression least))
    (room : Nat) : (tier keep room).Bounded tape inside room := by
  induction room with
  | zero => exact ⟨fun _ _ => .whileShallow .sink, fun _ => .whileShallow .sink⟩
  | succ room ih =>
      refine ⟨fun least pos => .whileShallow ?_, fun pos => .whileShallow (bracketed_bounded ih pos)⟩
      exact connectives_bounded (hexpr room) ih.operation least pos

-- The stages read so far are `room` levels deep at most.
def Progress.Bounded (inside : Expr → Nat) (room : Nat) (progress : Progress) : Prop :=
  deepest (Stage.nesting 0 inside) (progress.opening.toList ++ progress.later) ≤ room

section Run

variable {level : Level} {inside : Expr → Nat} (hlevel : level.Bounded tape inside room)
  {source : String} {progress : Progress}

include hlevel

theorem readOpening_bounded (source : String) :
    (readOpening level source tape).Bounded inside room := by
  have hopening := opening_bounded hlevel 0 {} (Trail.keeps_any _)
  unfold readOpening
  split
  · next s pos trail hreply =>
    rw [hreply] at hopening
    exact Nat.max_le.2 ⟨hopening.2, Nat.zero_le _⟩
  · exact Nat.zero_le _

theorem readLater?_bounded {later : Progress} (hprogress : progress.Bounded inside room)
    (hread : readLater? level source tape progress = some later) : later.Bounded inside room := by
  unfold readLater? at hread
  simp only at hread
  split at hread
  · cases hread
  · have hstage := stage_bounded hlevel (tape.next progress.pos) progress.trail.fresh
      (Trail.keeps_any _)
    split at hread
    · next s pos trail hreply =>
      cases hread
      rw [hreply] at hstage
      refine deepest_le_iff.2 fun other hother => ?_
      rcases List.mem_append.1 hother with hfirst | hlater
      · exact deepest_le_iff.1 hprogress other (List.mem_append_left _ hfirst)
      · rcases List.mem_cons.1 hlater with rfl | hlater
        · exact hstage.2
        · exact deepest_le_iff.1 hprogress other (List.mem_append_right _ hlater)
    · cases hread
      exact hprogress
  · cases hread
    exact hprogress

theorem readStages_bounded (source : String) (fuel : Nat)
    (hprogress : progress.Bounded inside room) :
    (readStages level source tape fuel progress).Bounded inside room := by
  induction fuel generalizing progress with
  | zero => exact hprogress
  | succ fuel ih =>
      unfold readStages
      split
      · next later hread => exact ih (readLater?_bounded hlevel hprogress hread)
      · exact hprogress

end Run

theorem pipelineWith_bounded {keep : Bool} {inside : Expr → Nat} {source : String}
    {tokens : List Token} {pipeline : Pipeline}
    (hexpr : ∀ room least, Bounded (Tape.ofTokens source tokens) inside room
      ((tier keep room).expression least))
    (h : pipelineWith keep source tokens = .ok pipeline) :
    pipeline.nesting 0 inside ≤ maxNesting := by
  have hlevel := tier_bounded hexpr maxNesting
  have hread := readStages_bounded hlevel source (Tape.ofTokens source tokens).size
    (readOpening_bounded hlevel source)
  simp only [pipelineWith_eq_tier, finish] at h
  split at h
  · cases h
  split at h
  · next first hfirst _ =>
    cases h
    refine deepest_le_iff.2 fun s hs => deepest_le_iff.1 hread s ?_
    rw [hfirst]
    rcases List.mem_cons.1 hs with rfl | hlater
    · exact List.mem_cons_self
    · exact List.mem_cons_of_mem _ (List.mem_reverse.1 hlater)
  · cases h

end Grammar

end SearchPipeline
