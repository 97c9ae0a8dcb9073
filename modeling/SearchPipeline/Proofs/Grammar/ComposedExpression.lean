import SearchPipeline.Proofs.Grammar.Composed
import SearchPipeline.Proofs.Grammar.Pipeline

namespace SearchPipeline.Grammar

open Rule

-- The star at a position may be a product: it has a blank on both sides or on neither.
def Tape.allowsProduct (tape : Tape) (pos : Nat) : Bool :=
  tape.attachedLeft pos == tape.attachedRight pos

theorem Tape.allowsProduct_eq (tape : Tape) (pos : Nat) : tape.allowsProduct pos =
    (!(!tape.attachedLeft pos && tape.attachedRight pos) &&
      !(tape.attachedLeft pos && !tape.attachedRight pos)) := by
  unfold allowsProduct
  cases tape.attachedLeft pos <;> cases tape.attachedRight pos <;> rfl

-- The span ends with a star that has no blank before it.
def Tape.MarksEnd (tape : Tape) (span : Span) : Prop :=
  ∃ pos, tape.kind pos = .star ∧ tape.attachedLeft pos = true ∧ span.stop = tape.index pos + 1

namespace Calls

variable (calls : Calls)

-- Some rule of the level reads the tree.
def Reads (e : Expr) : Prop := ∃ least pos stop, calls.expression least pos e stop

def Does (o : Operation) : Prop := ∃ least pos stop, calls.operation least pos o stop

def Asks (q : Subquery) : Prop := ∃ pos stop, calls.subquery pos q stop

-- The root of an operand. The term next to a star is read with the strength of stars, and no blank
-- stands before the star that closes `*term*`.
def OperandRoot (tape : Tape) : Expr → (stop : Nat) → Prop
  | .contains inner span, _ =>
      (∃ pos mid, calls.expression starStrength pos inner mid) ∧ tape.MarksEnd span
  | .endsWith inner _, stop => ∃ pos, calls.expression starStrength pos inner stop
  | .startsWith _ _, _ | .binary _ _ _, _ => False
  | _, _ => True

-- An expression without an operator at its root, read to its parts.
def IsOperand (tape : Tape) (e : Expr) (stop : Nat) : Prop :=
  (∀ child ∈ e.children, calls.Reads child) ∧ calls.OperandRoot tape e stop

-- An operand with operators behind it that bind with at least the given strength, up to a position.
inductive Climbs (tape : Tape) (least : Nat) : Expr → Nat → Prop where
  | operand {e : Expr} {stop : Nat} : calls.IsOperand tape e stop → Climbs tape least e stop
  | binary {op : ArithOp} {lhs rhs : Expr} {mid stop : Nat} : Climbs tape least lhs mid →
      ArithOp.ofKind? (tape.kind mid) = some op → least ≤ op.strength →
      (op = .mult → tape.allowsProduct mid = true) →
      calls.expression op.rightStrength (mid + 1) rhs stop →
      Yields tape (mid + 1) (fun level => level.expression op.rightStrength) rhs stop →
      Climbs tape least (.binary op lhs rhs) stop
  | startsWith {lhs : Expr} {mid : Nat} : Climbs tape least lhs mid → tape.kind mid = .star →
      tape.attachedLeft mid = true → least ≤ startsWithStrength →
      Climbs tape least (.startsWith lhs ⟨lhs.span.start, tape.index mid + 1⟩) (mid + 1)

end Calls

-- At the position nothing goes on that binds strongly enough: an operator has no operand on its right,
-- and a star is no mark.
structure Blocked (tape : Tape) (least pos : Nat) : Prop where
  operator : ∀ op, ArithOp.ofKind? (tape.kind pos) = some op → least ≤ op.strength →
    (op = .mult → tape.allowsProduct pos = true) →
    Fails tape (pos + 1) fun level => level.expression op.rightStrength
  mark : tape.kind pos = .star → tape.attachedLeft pos = true → startsWithStrength < least

-- A rule that is done has read what the rule ensures.
theorem Yields.meets {α : Type} {tape : Tape} {pos stop : Nat} {rule : Level → Rule α} {value : α}
    {known : Recall} {P : α → Nat → Prop} (h : Yields tape pos rule value stop)
    (hensures : ∀ room, Ensures known tape pos (rule (tier false room)) P) : P value stop := by
  obtain ⟨notes, enough, hplays⟩ := h
  have hmeets := hensures enough {} Trail.keeps_empty
  rw [hplays enough (Nat.le_refl _) {} rfl] at hmeets
  exact hmeets.2

theorem Yields.derives {tape : Tape} {least pos stop : Nat} {e : Expr} (hot : tape.Orderly)
    (h : Yields tape pos (fun level => level.expression least) e stop) :
    Derives tape (.expr e) pos stop :=
  h.meets fun room => (tier_ensures hot false room).expression least pos

namespace Composed

variable {tape : Tape} {calls : Calls} {wide exact : Bool}

theorem name (pos : Nat) :
    Composed tape calls wide exact pos (fun _ => Grammar.name) fun _ _ => True := by
  refine peek_bind ?_
  cases huse : nameUse? (tape.kind pos) with
  | none => exact miss _
  | some use =>
      refine advance_bind (.inr ?_) (.pure trivial)
      cases hkind : tape.kind pos <;> first | rfl | (rw [hkind] at huse; cases huse)

theorem literal {make : String → Span → Value} (pos : Nat)
    (hkind : (tape.kind pos).isBorder = false) :
    Composed tape calls wide exact pos (fun _ => Grammar.literal make) fun _ _ => True :=
  advance_bind (.inr hkind) (.pure trivial)

theorem value (hot : tape.Orderly) (pos : Nat) :
    Composed tape calls wide exact pos (fun _ => Grammar.value) fun _ _ => True := by
  refine peek_bind (ite (fun hkind => ?_) fun _ => ?_)
  · refine literal pos ?_
    rcases hkind with h | h <;> rw [h] <;> rfl
  refine ite (fun hkind => literal pos (by rw [hkind]; rfl)) fun _ => ?_
  refine ite (fun _ => (name pos).seq fun _ _ => .pure trivial) fun _ => ?_
  refine peekAt_bind (ite (fun hkinds => ?_) fun _ => ?_)
  · obtain ⟨hsign, hnumber⟩ := hkinds
    have hfirst : (tape.kind pos).isBorder = false := by rcases hsign with h | h <;> rw [h] <;> rfl
    have hnext : tape.next pos = pos + 1 := hot.next_eq (by rcases hsign with h | h <;> simp [h])
    refine position_bind (advance_bind (.inr hfirst) (advance_bind (.inr ?_) ?_))
    · rw [hnext, hnumber]
      rfl
    · exact spanFrom_bind (.pure trivial)
  · exact ite (fun hkind => literal pos (by rw [hkind]; rfl)) fun _ => miss _

-- The rules that read expressions call them without regard to where they get stuck.
theorem expressionList (pos : Nat) :
    Composed tape calls wide false pos (fun level => Grammar.expressionList level.expression)
      fun es _ => ∀ e ∈ es, calls.Reads e := by
  refine peek_bind (ite (fun _ => .pure (by simp)) fun _ => ?_)
  refine bind (expression 0) fun first mid => ?_
  refine bind (repeatStep_keeps (I := fun found => ∀ e ∈ found, calls.Reads e)
    (f := fun found level => Rule.eat .comma >>= fun taken =>
      if taken then level.expression 0 >>= fun e => Pure.pure (some (e :: found))
      else Pure.pure none) ?_ (by simp)) fun rest stop => ?_
  · intro found at'
    refine eat_bind (.inr rfl) (fun _ => ?_) fun _ => .pure (by simp)
    refine bind (expression 0) fun e stop => .pure ?_
    rintro ⟨he, -⟩ hfound _ ⟨⟩ other hmem
    rcases List.mem_cons.1 hmem with rfl | hmem
    · exact ⟨_, _, _, he⟩
    · exact hfound other hmem
  · refine .pure fun hrest hfirst e hmem => ?_
    rcases List.mem_cons.1 hmem with rfl | hmem
    · exact ⟨_, _, _, hfirst.1⟩
    · exact hrest e (List.mem_reverse.1 hmem)

theorem call (pos : Nat) (hfunction : (tape.kind pos).isFunction = true) :
    Composed tape calls wide false pos (fun level => Grammar.call level.expression)
      fun e stop => calls.IsOperand tape e stop := by
  have hkind : (tape.kind pos).isBorder = false := by
    cases h : tape.kind pos <;> first | rfl | (rw [h] at hfunction; cases hfunction)
  refine position_bind (advance_bind (.inr hkind) (expect_bind (.inr rfl) fun _ => ?_))
  refine bind (expressionList _) fun args mid => ?_
  refine expect_bind (.inr rfl) fun _ => spanFrom_bind (.pure fun hargs => ?_)
  exact ⟨hargs, trivial⟩

theorem callAhead (pos : Nat) :
    Composed tape calls wide false pos (fun level => Grammar.callAhead level.expression)
      fun e stop => calls.IsOperand tape e stop :=
  peek_bind (peekAt_bind (ite (fun h => call pos h.1) fun _ => refuse))

theorem parenthesised (pos : Nat) :
    Composed tape calls wide false pos (fun level => Grammar.parenthesised level.expression)
      fun e stop => calls.IsOperand tape e stop := by
  refine peek_bind (ite (fun hopen => ?_) fun _ => refuse)
  refine position_bind (advance_bind (.inr (by rw [hopen]; rfl)) ?_)
  refine bind (expression 0) fun inner mid => ?_
  refine expect_bind (.inr rfl) fun _ => spanFrom_bind (.pure fun hinner => ?_)
  exact ⟨by simpa [Expr.children] using ⟨_, _, _, hinner.1⟩, trivial⟩

theorem wildcards (hot : tape.Orderly) (pos : Nat) :
    Composed tape calls wide false pos (fun level => Grammar.wildcards level.expression)
      fun e stop => calls.IsOperand tape e stop := by
  refine peek_bind (ite (fun hstar => ?_) fun _ => refuse)
  have hkind : (tape.kind pos).isBorder = false := by rw [hstar]; rfl
  have hnext : tape.next pos = pos + 1 := hot.next_eq (by simp [hstar])
  refine firstOf_cons (r := fun level => containsTerm level.expression) ?_
    (firstOf_cons (r := fun level => endsWithTerm level.expression) ?_ (firstOf_singleton ?_))
  · refine position_bind (advance_bind (.inr hkind) (bind (expression starStrength) fun inner mid => ?_))
    refine peek_bind (look_bind (ite (fun hclose => ?_) fun _ => refuse))
    refine advance_bind (.inr (by rw [hclose.1]; rfl)) (spanFrom_bind (.pure fun hinner => ?_))
    refine ⟨by simpa [Expr.children] using ⟨_, _, _, hinner.1⟩, ⟨_, _, hinner.1⟩, mid, hclose.1,
      hclose.2, ?_⟩
    have hlt := (hinner.2.derives hot).lt
    rw [hot.next_eq (by simp [hclose.1]), Tape.span_of_lt (by omega : pos < mid + 1)]
    rfl
  · refine position_bind (advance_bind (.inr hkind) (bind (expression starStrength) fun inner mid => ?_))
    refine spanFrom_bind (.pure fun hinner => ?_)
    exact ⟨by simpa [Expr.children] using ⟨_, _, _, hinner.1⟩, _, hinner.1⟩
  · exact position_bind (advance_bind (.inr hkind) (spanFrom_bind (.pure ⟨by simp [Expr.children],
      trivial⟩)))

theorem path (pos : Nat) :
    Composed tape calls wide exact pos (fun _ => Grammar.path)
      fun e stop => calls.IsOperand tape e stop := by
  refine position_bind (seq (P := fun _ _ => True) ?_ fun names mid => ?_)
  · refine repeatStep_keeps (f := fun found _ => segment found) (I := fun _ => True)
      (fun found at' => ?_) trivial
    refine peek_bind (peekAt_bind (ite (fun hslash => ?_) fun _ => .pure (by simp)))
    refine advance_bind (.inr (by rw [hslash.1]; rfl)) ?_
    exact (name _).seq fun _ _ => .pure (by simp)
  · cases names with
    | nil => exact refuse
    | cons first rest =>
        exact spanFrom_bind (.pure ⟨by simp [Expr.children], trivial⟩)

theorem primary (hot : tape.Orderly) (pos : Nat) :
    Composed tape calls wide false pos (fun level => Grammar.primary level.expression)
      fun e stop => calls.IsOperand tape e stop := by
  refine firstOf_cons (r := fun level => Grammar.callAhead level.expression) (callAhead pos) ?_
  refine firstOf_cons (r := fun level => Grammar.parenthesised level.expression)
    (parenthesised pos) ?_
  refine firstOf_cons (r := fun level => Grammar.wildcards level.expression) (wildcards hot pos) ?_
  refine firstOf_cons (r := fun _ => Grammar.path) (path pos) (firstOf_singleton ?_)
  exact (value hot pos).seq fun _ _ => .pure ⟨by simp [Expr.children], trivial⟩

-- An operator and its right operand fail only where the right operand does.
theorem Fails.of_operand {tape : Tape} {op : ArithOp} {lhs : Expr} {pos : Nat}
    (hnext : tape.next pos = pos + 1)
    (h : Fails tape pos fun level => Grammar.operand level.expression op lhs) :
    Fails tape (pos + 1) fun level => level.expression op.rightStrength := by
  obtain ⟨stop, notes, enough, hplays⟩ := h
  refine ⟨stop, notes, enough, fun room hroom trail hdeep => ?_⟩
  have hreply := hplays room hroom trail hdeep
  change Rule.bind _ _ tape (tape.next pos) trail = _ at hreply
  rw [hnext] at hreply
  unfold Rule.bind at hreply
  cases hinner : (tier false room).expression op.rightStrength tape (pos + 1) trail with
  | done rhs stop' rest =>
      simp only [hinner] at hreply
      cases hreply
  | stuck stop' rest =>
      simp only [hinner] at hreply
      exact hinner.trans hreply

end Composed

-- What a further operator makes of an operand, or that there is none.
def Calls.Steps (calls : Calls) (tape : Tape) (least : Nat) (lhs : Expr) (pos : Nat) :
    Option Expr → Nat → Prop
  | some e, stop =>
      (∃ op rhs, e = .binary op lhs rhs ∧ ArithOp.ofKind? (tape.kind pos) = some op ∧
        least ≤ op.strength ∧ (op = .mult → tape.allowsProduct pos = true) ∧
        calls.expression op.rightStrength (pos + 1) rhs stop ∧
        Yields tape (pos + 1) (fun level => level.expression op.rightStrength) rhs stop) ∨
      e = .startsWith lhs ⟨lhs.span.start, tape.index pos + 1⟩ ∧ stop = pos + 1 ∧
        tape.kind pos = .star ∧ tape.attachedLeft pos = true ∧ least ≤ startsWithStrength
  | none, stop => stop = pos ∧ Blocked tape least pos

namespace Composed

variable {tape : Tape} {calls : Calls} {wide exact : Bool}

theorem operand (op : ArithOp) (lhs : Expr) (pos : Nat) (hkind : (tape.kind pos).isBorder = false)
    (hnext : tape.next pos = pos + 1) :
    Composed tape calls wide false pos (fun level => Grammar.operand level.expression op lhs)
      fun e stop => ∃ rhs, e = .binary op lhs rhs ∧
        calls.expression op.rightStrength (pos + 1) rhs stop ∧
        Yields tape (pos + 1) (fun level => level.expression op.rightStrength) rhs stop := by
  refine advance_bind (.inr hkind) ?_
  rw [hnext]
  exact bind (expression _) fun rhs stop => .pure fun hrhs => ⟨rhs, rfl, hrhs⟩

theorem starStep (hot : tape.Orderly) {least : Nat} {lhs : Expr} (pos : Nat)
    (hstar : tape.kind pos = .star) :
    Composed tape calls wide exact pos (fun level => Grammar.starStep level.expression least lhs)
      fun next stop => calls.Steps tape least lhs pos next stop := by
  have hkind : (tape.kind pos).isBorder = false := by rw [hstar]; rfl
  have hnext : tape.next pos = pos + 1 := hot.next_eq (by simp [hstar])
  have hmult : ∀ op, ArithOp.ofKind? (tape.kind pos) = some op → op = .mult := by
    intro op hop
    rw [hstar] at hop
    cases hop
    rfl
  refine look_bind (look_bind (ite (fun hopens => .pure ⟨rfl, ?_, ?_⟩) fun hopens => ?_))
  · intro op hop _ hallowed
    have hproduct := hallowed (hmult op hop)
    rw [tape.allowsProduct_eq, hopens] at hproduct
    cases hproduct
  · intro _ hleft
    rw [hleft] at hopens
    cases hopens
  -- where there is no product, the star may still be the mark at the end of `term*`
  have hmark : Composed tape calls wide exact pos
      (fun _ => if (tape.attachedLeft pos && decide (startsWithStrength ≥ least)) = true then
        advance >>= fun star => Pure.pure (some (.startsWith lhs ⟨lhs.span.start, star.index + 1⟩))
        else Pure.pure none)
      fun next stop => (∀ op, ArithOp.ofKind? (tape.kind pos) = some op → least ≤ op.strength →
          (op = .mult → tape.allowsProduct pos = true) →
          Fails tape (pos + 1) fun level => level.expression op.rightStrength) →
        calls.Steps tape least lhs pos next stop := by
    refine ite (fun hleft => advance_bind (.inr hkind) (.pure fun _ => ?_)) fun hfree => .pure ?_
    · rw [Bool.and_eq_true, decide_eq_true_eq] at hleft
      exact .inr ⟨rfl, hnext, hstar, hleft⟩
    · refine fun hfails => ⟨rfl, hfails, fun _ hleft => ?_⟩
      rw [hleft, Bool.true_and, decide_eq_true_eq] at hfree
      exact Nat.lt_of_not_le hfree
  refine ite (fun hproduct => ?_) fun hproduct => ?_
  · rw [Bool.and_eq_true, decide_eq_true_eq] at hproduct
    refine attempt_bind (operand .mult lhs pos hkind hnext) ?_ ?_
    · intro e stop
      refine .pure fun ⟨rhs, he, hrhs⟩ => .inl ⟨.mult, rhs, he, ?_, hproduct.2, fun _ => ?_, hrhs⟩
      · rw [hstar]
        rfl
      · rw [tape.allowsProduct_eq, hproduct.1, Bool.and_true, Bool.not_eq_true', ← Bool.not_eq_true]
        exact hopens
    · refine hmark.mono fun next stop hnone hfails => hnone fun op hop _ _ => ?_
      rw [hmult op hop]
      exact Fails.of_operand hnext hfails
  · refine hmark.mono fun next stop hnone => hnone fun op hop hleast hallowed => ?_
    have hboth := hallowed (hmult op hop)
    rw [tape.allowsProduct_eq, Bool.and_eq_true] at hboth
    rw [hmult op hop] at hleast
    exact absurd (Bool.and_eq_true_iff.2 ⟨hboth.2, decide_eq_true hleast⟩) hproduct

-- One more operator, or none that has an operand on its right.
theorem operatorStep (hot : tape.Orderly) {least : Nat} {lhs : Expr} (pos : Nat) :
    Composed tape calls wide exact pos
      (fun level => Grammar.operatorStep level.expression least lhs)
      (calls.Steps tape least lhs pos) := by
  refine peek_bind (ite (starStep hot pos) fun hstar => ?_)
  cases hop : ArithOp.ofKind? (tape.kind pos) with
  | none =>
      refine .pure ⟨rfl, fun op hsome => ?_, fun h => absurd h hstar⟩
      rw [hop] at hsome
      cases hsome
  | some op =>
      have hkind := ArithOp.ofKind?_eq_some hop
      have hmult : op ≠ .mult := by
        rintro rfl
        exact hstar hkind
      have hnext : tape.next pos = pos + 1 := hot.next_eq (by rw [hkind]; cases op <;> simp [ArithOp.kind])
      have hborder : (tape.kind pos).isBorder = false := by rw [hkind]; cases op <;> rfl
      refine ite (fun hweak => .pure ⟨rfl, ?_, fun h => absurd h hstar⟩) fun hstrong => ?_
      · rintro _ hsome hleast
        cases hop.symm.trans hsome
        omega
      · refine attempt (operand op lhs pos hborder hnext) ?_ ?_
        · rintro e stop ⟨rhs, he, hrhs⟩
          exact .inl ⟨op, rhs, he, hop, by omega, fun h => absurd h hmult, hrhs⟩
        · refine fun hfails => ⟨rfl, fun _ hsome _ _ => ?_, fun h => absurd h hstar⟩
          cases hop.symm.trans hsome
          exact Fails.of_operand hnext hfails

end Composed

-- A step goes on behind the operator.
theorem Calls.Steps.lt {calls : Calls} {tape : Tape} {least : Nat} {lhs e : Expr} {pos stop : Nat}
    (hot : tape.Orderly) (h : calls.Steps tape least lhs pos (some e) stop) : pos < stop := by
  obtain ⟨op, rhs, -, -, -, -, -, hyields⟩ | ⟨-, rfl, -⟩ := h
  · have := (hyields.derives hot).lt
    omega
  · omega

theorem Calls.Climbs.step {calls : Calls} {tape : Tape} {least : Nat} {lhs e : Expr}
    {pos stop : Nat} (h : calls.Climbs tape least lhs pos)
    (hstep : calls.Steps tape least lhs pos (some e) stop) : calls.Climbs tape least e stop := by
  obtain ⟨op, rhs, rfl, hop, hleast, hproduct, hrhs, hyields⟩ | ⟨rfl, rfl, hstar, hleft, hleast⟩ :=
    hstep
  · exact .binary h hop hleast hproduct hrhs hyields
  · exact .startsWith h hstar hleft hleast

-- An operand and the operators behind it, as many as there are.
theorem Composed.operators {tape : Tape} (calls : Calls) (wide : Bool) (hot : tape.Orderly)
    (hbehind : ∀ pos, tape.size ≤ pos → tape.kind pos = .finish) (least pos : Nat) :
    Composed tape calls wide false pos (fun level => Grammar.operators level.expression least)
      fun e stop => calls.Climbs tape least e stop ∧ Blocked tape least stop := by
  refine bind (primary hot pos) fun first mid => ?_
  refine (repeatStep (f := fun lhs level => Grammar.operatorStep level.expression least lhs)
    (I := calls.Climbs tape least)
    (D := fun e stop => calls.Climbs tape least e stop ∧ Blocked tape least stop)
    fun lhs at' => (operatorStep hot at').mono ?_).mono ?_
  · intro next stop hstep hlhs
    refine ⟨?_, ?_⟩
    · rintro e rfl
      exact ⟨hlhs.step hstep, hstep.lt hot⟩
    · rintro rfl
      obtain ⟨rfl, hblocked⟩ := hstep
      exact ⟨hlhs, hblocked⟩
  · intro e stop hends hfirst
    rcases hends (.operand hfirst) with hends | ⟨hclimbs, hsize⟩
    · exact hends
    · have hfinish := hbehind stop hsize
      refine ⟨hclimbs, fun op hop => ?_, fun hstar => ?_⟩
      · rw [hfinish] at hop
        cases hop
      · rw [hfinish] at hstar
        cases hstar

end SearchPipeline.Grammar
