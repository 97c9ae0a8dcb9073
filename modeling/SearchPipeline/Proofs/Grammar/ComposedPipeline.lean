import SearchPipeline.Proofs.Grammar.ComposedExpression

namespace SearchPipeline.Grammar

open Rule

namespace Calls

variable (calls : Calls)

-- The root of a simple operation. The operand of NOT takes in the connectives behind it.
def SimpleRoot : Operation → (stop : Nat) → Prop
  | .not inner _, stop => ∃ pos, calls.operation notStrength pos inner stop
  | .and _ _, _ | .or _ _, _ => False
  | _, _ => True

-- An operation without a connective at its root, read to its parts.
def IsSimple (o : Operation) (stop : Nat) : Prop :=
  (∀ e ∈ o.expressions, calls.Reads e) ∧ (∀ child ∈ o.children, calls.Does child) ∧
    calls.SimpleRoot o stop

-- A simple operation with connectives behind it that bind with at least the given strength, up to a
-- position.
inductive Joins (tape : Tape) (least : Nat) : Operation → Nat → Prop where
  | simple {o : Operation} {stop : Nat} : calls.IsSimple o stop → Joins tape least o stop
  | join {connective : Connective} {lhs rhs : Operation} {mid stop : Nat} :
      Joins tape least lhs mid → Connective.ofKind? (tape.kind mid) = some connective →
      least ≤ connective.strength →
      calls.operation (connective.strength + 1) (mid + 1) rhs stop →
      Joins tape least (connective.join lhs rhs) stop

-- A stage, read to its parts.
def IsStage (s : Stage) : Prop :=
  (∀ o ∈ s.operations, calls.Does o) ∧ ∀ q, s.subquery = some q → calls.Asks q

-- A subquery, read to its stages.
def IsSubquery (q : Subquery) : Prop := calls.IsStage q.opening ∧ ∀ s ∈ q.later, calls.IsStage s

end Calls

-- At the position is no connective that binds strongly enough.
def Closed (tape : Tape) (least pos : Nat) : Prop :=
  ∀ connective, Connective.ofKind? (tape.kind pos) = some connective → connective.strength < least

namespace Composed

variable {tape : Tape} {calls : Calls} {wide exact : Bool}

-- A form that gives a simple operation, whatever its span.
abbrev Form (tape : Tape) (calls : Calls) (wide exact : Bool) (pos : Nat)
    (form : Level → Rule (Span → Operation)) : Prop :=
  Composed tape calls wide exact pos form fun make stop => ∀ span, calls.IsSimple (make span) stop

theorem spanned {pos : Nat} {form : Level → Rule (Span → Operation)}
    (h : Form tape calls wide exact pos form) :
    Composed tape calls wide exact pos (fun level => Grammar.spanned (form level))
      fun o stop => calls.IsSimple o stop :=
  position_bind (h.bind fun _ _ => spanFrom_bind (.pure fun hmake => hmake _))

theorem likeForm (hot : tape.Orderly) (pos : Nat) :
    Form tape calls wide false pos fun level => Grammar.likeForm level.expression := by
  refine bind (expression 0) fun e mid => expect_bind (.inr rfl) fun _ => ?_
  refine (value hot _).seq fun pattern stop => .pure fun he span => ?_
  exact ⟨by simpa [Operation.expressions] using ⟨_, _, _, he.1⟩, by simp [Operation.children],
    trivial⟩

theorem withinForm (pos : Nat) :
    Form tape calls wide false pos fun level => Grammar.withinForm level.expression := by
  refine bind (expression 0) fun e mid => ?_
  refine expect_bind (.inr rfl) fun _ => expect_bind (.inr rfl) fun _ => ?_
  refine bind (expressionList _) fun items last => expect_bind (.inr rfl) fun _ => .pure ?_
  refine fun hitems he span => ⟨?_, by simp [Operation.children], trivial⟩
  simpa [Operation.expressions] using ⟨⟨_, _, _, he.1⟩, hitems⟩

theorem notForm (pos : Nat) :
    Form tape calls wide exact pos fun level => Grammar.notForm level.operation := by
  refine expect_bind (.inr rfl) fun _ => bind (operation notStrength) fun inner stop => .pure ?_
  refine fun hinner span => ⟨by simp [Operation.expressions], ?_, _, hinner.1⟩
  simpa [Operation.children] using ⟨_, _, _, hinner.1⟩

theorem outputMode (pos : Nat) :
    Composed tape calls wide exact pos (fun _ => Grammar.outputMode) fun _ _ => True := by
  refine eat_bind (.inr rfl) (fun _ => .pure trivial) fun _ => ?_
  refine eat_bind (.inr rfl) (fun _ => .pure trivial) fun _ => ?_
  exact attempt_bind (P := fun _ _ => True) (miss _) (fun _ _ => miss _) (miss _)

theorem inputs (count pos : Nat) :
    Composed tape calls wide false pos (fun level => Grammar.inputs level.expression count)
      fun es _ => ∀ e ∈ es, calls.Reads e := by
  induction count generalizing pos with
  | zero => exact .pure (by simp)
  | succ count ih =>
      refine bind (expression 0) fun first mid => bind (ih mid) fun rest stop => .pure ?_
      intro hrest hfirst e hmem
      rcases List.mem_cons.1 hmem with rfl | hmem
      · exact ⟨_, _, _, hfirst.1⟩
      · exact hrest e hmem

theorem moreOutputs (count pos : Nat) :
    Composed tape calls wide exact pos (fun _ => Grammar.moreOutputs count) fun _ _ => True := by
  induction count generalizing pos with
  | zero => exact .pure trivial
  | succ count ih =>
      refine expect_bind (.inr rfl) fun _ => (name _).seq fun first mid => ?_
      exact (ih mid).seq fun _ _ => .pure trivial

theorem outputForm (more pos : Nat) :
    Form tape calls wide false pos fun level => Grammar.outputForm level.expression more := by
  refine bind (inputs _ pos) fun before mid => (outputMode mid).seq fun mode at' => ?_
  refine (name at').seq fun first last => (moreOutputs more last).seq fun others stop => .pure ?_
  exact fun hbefore span => ⟨hbefore, by simp [Operation.children], trivial⟩

theorem groupingForm (pos : Nat) :
    Form tape calls wide exact pos fun _ => Grammar.groupingForm := by
  refine expect_bind (.inr rfl) fun _ => (name _).seq fun first mid => ?_
  refine seq (P := fun _ _ => True) (repeatStep_keeps (f := fun found _ => groupingStep found)
    (I := fun _ => True) (fun found at' => ?_) trivial) fun names stop => .pure ?_
  · refine peek_bind (peekAt_bind (ite (fun hcomma => ?_) fun _ => peek_bind (ite (fun _ => ?_) ?_)))
    · refine advance_bind (.inr (by rw [hcomma.1]; rfl)) ?_
      exact (name _).seq fun _ _ => .pure (by simp)
    · exact (name _).seq fun _ _ => .pure (by simp)
    · exact fun _ => .pure (by simp)
  · exact fun span => ⟨by simp [Operation.expressions], by simp [Operation.children], trivial⟩

theorem renameForm (pos : Nat) :
    Form tape calls wide false pos fun level => Grammar.renameForm level.expression := by
  refine bind (expression 0) fun e mid => expect_bind (.inr rfl) fun _ => ?_
  refine (name _).seq fun target stop => .pure fun he span => ?_
  exact ⟨by simpa [Operation.expressions] using ⟨_, _, _, he.1⟩, by simp [Operation.children],
    trivial⟩

theorem compareForm (pos : Nat) :
    Form tape calls wide false pos fun level => Grammar.compareForm level.expression := by
  refine (name pos).seq fun field mid => peek_bind ?_
  cases hop : CompareOp.ofKind? (tape.kind mid) with
  | none => exact miss _
  | some op =>
      refine advance_bind (.inr ?_) (bind (expression 0) fun e stop => .pure fun he span => ?_)
      · rw [CompareOp.ofKind?_eq_some hop]
        cases op <;> rfl
      · exact ⟨by simpa [Operation.expressions] using ⟨_, _, _, he.1⟩, by simp [Operation.children],
          trivial⟩

theorem bareForm (pos : Nat) :
    Form tape calls wide false pos fun level => Grammar.bareForm level.expression := by
  refine bind (expression 0) fun e stop => .pure fun he span => ?_
  exact ⟨by simpa [Operation.expressions] using ⟨_, _, _, he.1⟩, by simp [Operation.children],
    trivial⟩

theorem parenForm (pos : Nat) :
    Form tape calls wide exact pos fun level => Grammar.parenForm level.operation := by
  refine expect_bind (.inr rfl) fun _ => bind (operation 0) fun inner mid => ?_
  refine expect_bind (.inr rfl) fun _ => .pure fun hinner span => ?_
  refine ⟨by simp [Operation.expressions], ?_, trivial⟩
  simpa [Operation.children] using ⟨_, _, _, hinner.1⟩

-- The forms are only attempted, so what is remembered does not decide where all of them are stuck.
theorem simpleOperation (hot : tape.Orderly) (pos : Nat) :
    Composed tape calls wide exact pos
      (fun level => Grammar.simpleOperation level.expression level.operation)
      fun o stop => calls.IsSimple o stop := by
  unfold Grammar.simpleOperation forms
  simp only [List.map_cons, List.map_nil, List.cons_append, List.nil_append]
  refine firstOf_cons (spanned (likeForm hot pos)) (firstOf_cons (spanned (withinForm pos)) ?_)
  refine firstOf_cons (spanned (notForm pos)) (firstOf_cons (spanned (outputForm 0 pos)) ?_)
  refine firstOf_cons (spanned (outputForm 1 pos)) (firstOf_cons (spanned (outputForm 2 pos)) ?_)
  refine firstOf_cons (spanned (groupingForm pos)) (firstOf_cons (spanned (renameForm pos)) ?_)
  refine firstOf_cons (spanned (compareForm pos)) (firstOf_cons (spanned (bareForm pos)) ?_)
  exact firstOf_cons (spanned (parenForm pos)) (firstOf_singleton (miss _))

theorem connectiveStep (hot : tape.Orderly) {least : Nat} {lhs : Operation} (pos : Nat) :
    Composed tape calls wide exact pos
      (fun level => Grammar.connectiveStep level.operation least lhs) fun next stop =>
        calls.Joins tape least lhs pos →
          (∀ o, next = some o → calls.Joins tape least o stop ∧ pos < stop) ∧
          (next = none → calls.Joins tape least lhs stop ∧ Closed tape least stop) := by
  refine peek_bind ?_
  cases hconnective : Connective.ofKind? (tape.kind pos) with
  | none =>
      refine .pure fun hlhs => ⟨by simp, fun _ => ⟨hlhs, fun connective hsome => ?_⟩⟩
      rw [hconnective] at hsome
      cases hsome
  | some connective =>
      have hkind := Connective.ofKind?_eq_some hconnective
      have hnext : tape.next pos = pos + 1 := hot.next_eq (by rw [hkind]; cases connective <;> simp)
      refine ite (fun hweak => .pure fun hlhs => ⟨by simp, fun _ => ⟨hlhs, ?_⟩⟩) fun hstrong => ?_
      · intro other hsome
        cases hconnective.symm.trans hsome
        exact hweak
      · refine advance_bind (.inr (by rw [hkind]; cases connective <;> rfl)) ?_
        rw [hnext]
        refine bind (operation _) fun rhs stop => .pure ?_
        rintro ⟨hrhs, hyields⟩ hlhs
        have hlt := (hyields.meets fun room => (tier_ensures hot false room).operation _ _).lt
        refine ⟨?_, by simp⟩
        rintro o ⟨⟩
        exact ⟨.join hlhs hconnective (by omega) hrhs, by omega⟩

-- A simple operation and the connectives behind it, as many as there are.
theorem connectives (calls : Calls) (wide : Bool) (hot : tape.Orderly)
    (hbehind : ∀ pos, tape.size ≤ pos → tape.kind pos = .finish)
    (least pos : Nat) :
    Composed tape calls wide true pos
      (fun level => Grammar.connectives level.expression level.operation least)
      fun o stop => calls.Joins tape least o stop ∧ Closed tape least stop := by
  refine bind (simpleOperation hot pos) fun first mid => ?_
  refine (repeatStep (f := fun lhs level => Grammar.connectiveStep level.operation least lhs)
    (I := calls.Joins tape least)
    (D := fun o stop => calls.Joins tape least o stop ∧ Closed tape least stop)
    fun lhs at' => connectiveStep hot at').mono ?_
  intro o stop hends hfirst
  rcases hends (.simple hfirst) with hends | ⟨hjoins, hsize⟩
  · exact hends
  · refine ⟨hjoins, fun connective hconnective => ?_⟩
    rw [hbehind stop hsize] at hconnective
    cases hconnective

-- The operations of a stage, without the subquery at its end.
theorem operands (calls : Calls) (wide exact : Bool) (pos : Nat) :
    Composed tape calls wide exact pos (fun level => Rule.repeatStep (operand? level) [])
      fun found _ => ∀ o ∈ found, calls.Does o := by
  refine repeatStep_keeps (f := fun found level => operand? level found)
    (I := fun found => ∀ o ∈ found, calls.Does o) (fun found at' => ?_) (by simp)
  refine peek_bind (ite (fun _ => ?_) fun _ => .pure (by simp))
  refine bind (operation 0) fun o mid => (eat (.inr rfl) mid).seq fun _ stop => .pure ?_
  rintro ⟨ho, -⟩ hfound _ ⟨⟩ other hmem
  rcases List.mem_cons.1 hmem with rfl | hmem
  · exact ⟨_, _, _, ho⟩
  · exact hfound other hmem

theorem subquery? (pos : Nat) :
    Composed tape calls true exact pos Grammar.subquery? fun found _ =>
      ∀ q, found = some q → calls.Asks q := by
  refine peek_bind (ite (fun _ => ?_) fun _ => .pure (by simp))
  refine bind (subquery rfl) fun q stop => .pure ?_
  rintro hq _ ⟨⟩
  exact ⟨_, _, hq⟩

-- What follows the operations of a stage.
theorem bodyEnd (calls : Calls) (exact : Bool) (operations : List Operation) (pos : Nat) :
    Composed tape calls true exact pos (fun level => Grammar.subquery? level >>= fun subquery =>
      if operations.isEmpty && subquery.isNone then Rule.miss .operation
      else Pure.pure (operations.reverse, subquery)) fun found _ =>
        found.1 = operations.reverse ∧ ∀ q, found.2 = some q → calls.Asks q :=
  (subquery? pos).bind fun _ _ => ite (fun _ => miss _) fun _ => .pure fun hasks => ⟨rfl, hasks⟩

theorem body (calls : Calls) (exact : Bool) (pos : Nat) :
    Composed tape calls true exact pos Grammar.body fun found _ =>
      (∀ o ∈ found.1, calls.Does o) ∧ ∀ q, found.2 = some q → calls.Asks q := by
  refine (operands calls true exact pos).bind fun operations mid =>
    (bodyEnd calls exact operations mid).mono ?_
  rintro ⟨found, q⟩ stop ⟨rfl, hasks⟩ hoperations
  exact ⟨fun o hmem => hoperations o (List.mem_reverse.1 hmem), hasks⟩

theorem command (pos : Nat) :
    Composed tape calls wide exact pos (fun _ => Grammar.command) fun _ _ => True := by
  refine peek_bind (ite (fun hcommand => ?_) fun _ => miss _)
  refine advance_bind (.inr ?_) (.pure trivial)
  cases h : tape.kind pos <;> first | rfl | (rw [h] at hcommand; cases hcommand)

theorem opening (calls : Calls) (pos : Nat) :
    Composed tape calls true true pos Grammar.opening fun s _ => calls.IsStage s := by
  refine position_bind ((eat (.inl rfl) pos).seq fun piped mid => ?_)
  refine bind (P := fun found _ => (∀ o ∈ found.2.1, calls.Does o) ∧
    ∀ q, found.2.2 = some q → calls.Asks q) ?_ ?_
  · refine firstOf_cons (r := openingWithCommand) ?_ (firstOf_singleton ?_)
    · refine peek_bind (ite (fun _ => ?_) fun _ => refuse)
      exact (command mid).seq fun c at' => (body calls _ at').bind fun found stop => .pure id
    · exact (body calls _ mid).bind fun found stop => .pure id
  · rintro ⟨c, operations, q⟩ stop
    exact spanFrom_bind (.pure id)

theorem stage (calls : Calls) (pos : Nat) :
    Composed tape calls true true pos Grammar.stage fun s _ => calls.IsStage s := by
  refine position_bind ((command pos).seq fun c mid => (body calls _ mid).bind ?_)
  rintro ⟨operations, q⟩ stop
  exact spanFrom_bind (.pure id)

theorem laterStage (calls : Calls) (found : List Stage) (pos : Nat) :
    Composed tape calls true true pos (fun level => Grammar.laterStage level found) fun next _ =>
      (∀ s ∈ found, calls.IsStage s) → ∀ found', next = some found' → ∀ s ∈ found', calls.IsStage s := by
  refine (eat (.inl rfl) pos).seq fun piped mid => ite (fun _ => ?_) fun _ => .pure (by simp)
  refine (stage calls mid).bind fun s stop => .pure ?_
  rintro hs hfound _ ⟨⟩ other hmem
  rcases List.mem_cons.1 hmem with rfl | hmem
  · exact hs
  · exact hfound other hmem

theorem laterStages (calls : Calls) (pos : Nat) :
    Composed tape calls true true pos (fun level => Rule.repeatStep (Grammar.laterStage level) [])
      fun found _ => ∀ s ∈ found, calls.IsStage s :=
  repeatStep_keeps (f := fun found level => Grammar.laterStage level found)
    (I := fun found => ∀ s ∈ found, calls.IsStage s) (laterStage calls) (by simp)

theorem bracketed (calls : Calls) (pos : Nat) :
    Composed tape calls true true pos Grammar.bracketed fun q _ => calls.IsSubquery q := by
  refine position_bind (expect_bind (.inl rfl) fun _ => ?_)
  refine (opening calls _).bind fun first mid => (laterStages calls mid).bind fun later last => ?_
  refine expect_bind (.inl rfl) fun _ => spanFrom_bind (.pure fun hlater hfirst => ⟨hfirst, ?_⟩)
  exact fun s hmem => hlater s (List.mem_reverse.1 hmem)

end Composed

end SearchPipeline.Grammar
