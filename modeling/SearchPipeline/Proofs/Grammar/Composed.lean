import SearchPipeline.Proofs.Grammar.Settle

namespace SearchPipeline

-- The tokens that end a stage. No operation reaches over them.
def Kind.isBorder : Kind → Bool
  | pipe | openBracket | closeBracket | finish => true
  | _ => false

namespace Grammar

-- What is said of the trees that the rules of a level read: with which strength, from where, and
-- the position behind.
structure Calls where
  expression : (least pos : Nat) → Expr → (stop : Nat) → Prop
  operation : (least pos : Nat) → Operation → (stop : Nat) → Prop
  subquery : (pos : Nat) → Subquery → (stop : Nat) → Prop

open Rule

-- With enough levels to go, the rule is stuck.
def Fails {α : Type} (tape : Tape) (pos : Nat) (rule : Level → Rule α) : Prop :=
  ∃ stop notes, Settles tape pos rule (.stuck stop) notes

-- With enough levels to go, the rule is done with the value at a position.
def Yields {α : Type} (tape : Tape) (pos : Nat) (rule : Level → Rule α) (value : α) (stop : Nat) :
    Prop :=
  ∃ notes, Settles tape pos rule (.done value stop) notes

-- A rule that calls the rules of a level, from a position on, and what holds of a value that it is
-- done with. A rule that is not `wide` takes no borders and calls no subqueries. An `exact` rule,
-- if it is stuck, is so at a position that does not depend on what is remembered: it calls
-- expressions in attempts only.
inductive Composed (tape : Tape) (calls : Calls) (wide : Bool) : ∀ {α : Type}, (exact : Bool) →
    (pos : Nat) → (Level → Rule α) → (α → Nat → Prop) → Prop where
  | pure {α : Type} {exact : Bool} {pos : Nat} {value : α} {P : α → Nat → Prop} :
      P value pos → Composed tape calls wide exact pos (fun _ => pure value) P
  | miss {α : Type} {exact : Bool} {pos : Nat} {P : α → Nat → Prop} (wanted : Wanted) :
      Composed tape calls wide exact pos (fun _ => miss wanted) P
  | refuse {α : Type} {exact : Bool} {pos : Nat} {P : α → Nat → Prop} :
      Composed tape calls wide exact pos (fun _ => refuse) P
  | look_bind {α β : Type} {exact : Bool} {pos : Nat} {v : Tape → Nat → α}
      {next : α → Level → Rule β} {Q : β → Nat → Prop} :
      Composed tape calls wide exact pos (next (v tape pos)) Q →
      Composed tape calls wide exact pos (fun level => look v >>= fun value => next value level) Q
  | advance_bind {β : Type} {exact : Bool} {pos : Nat} {next : Mark → Level → Rule β}
      {Q : β → Nat → Prop} : (wide = true ∨ (tape.kind pos).isBorder = false) →
      Composed tape calls wide exact (tape.next pos) (next (tape.mark pos)) Q →
      Composed tape calls wide exact pos (fun level => advance >>= fun mark => next mark level) Q
  -- What follows a rule is composed whatever the rule gives. Only what it returns may depend on that.
  | bind {α β : Type} {exact : Bool} {pos : Nat} {rule : Level → Rule α}
      {next : α → Level → Rule β} {P : α → Nat → Prop} {Q : β → Nat → Prop} :
      Composed tape calls wide exact pos rule P →
      (∀ value mid, Composed tape calls wide exact mid (next value)
        fun result stop => P value mid → Q result stop) →
      Composed tape calls wide exact pos (fun level => rule level >>= fun value => next value level) Q
  | attempt_bind {α β : Type} {exact : Bool} {pos : Nat} {rule : Level → Rule α}
      {next : Option α → Level → Rule β} {P : α → Nat → Prop} {Q : β → Nat → Prop} :
      Composed tape calls wide false pos rule P →
      (∀ value mid, Composed tape calls wide exact mid (next (some value))
        fun result stop => P value mid → Q result stop) →
      Composed tape calls wide exact pos (next none)
        (fun result stop => Fails tape pos rule → Q result stop) →
      Composed tape calls wide exact pos
        (fun level => attempt (rule level) >>= fun value => next value level) Q
  | expression {pos : Nat} (least : Nat) :
      Composed tape calls wide false pos (fun level => level.expression least) fun e stop =>
        calls.expression least pos e stop ∧ Yields tape pos (fun level => level.expression least) e stop
  | operation {exact : Bool} {pos : Nat} (least : Nat) :
      Composed tape calls wide exact pos (fun level => level.operation least) fun o stop =>
        calls.operation least pos o stop ∧ Yields tape pos (fun level => level.operation least) o stop
  | subquery {exact : Bool} {pos : Nat} : wide = true →
      Composed tape calls wide exact pos (fun level => level.subquery) (calls.subquery pos)
  | mono {α : Type} {exact : Bool} {pos : Nat} {rule : Level → Rule α} {P Q : α → Nat → Prop} :
      Composed tape calls wide exact pos rule P → (∀ value stop, P value stop → Q value stop) →
      Composed tape calls wide exact pos rule Q

namespace Composed

variable {α β σ : Type} {tape : Tape} {calls : Calls} {wide exact : Bool} {pos : Nat}
  {P : α → Nat → Prop} {Q : β → Nat → Prop}

-- What follows does not care about the value read.
theorem seq {rule : Level → Rule α} {next : α → Level → Rule β}
    (h : Composed tape calls wide exact pos rule P)
    (hnext : ∀ value mid, Composed tape calls wide exact mid (next value) Q) :
    Composed tape calls wide exact pos (fun level => rule level >>= fun value => next value level)
      Q :=
  .bind h fun value mid => (hnext value mid).mono fun _ _ hresult _ => hresult

theorem position_bind {next : Nat → Level → Rule β}
    (h : Composed tape calls wide exact pos (next pos) Q) :
    Composed tape calls wide exact pos (fun level => position >>= fun at' => next at' level) Q :=
  look_bind (v := fun _ pos => pos) h

theorem peek_bind {next : Kind → Level → Rule β}
    (h : Composed tape calls wide exact pos (next (tape.kind pos)) Q) :
    Composed tape calls wide exact pos (fun level => peek >>= fun kind => next kind level) Q :=
  look_bind h

theorem peekAt_bind {ahead : Nat} {next : Kind → Level → Rule β}
    (h : Composed tape calls wide exact pos (next (tape.kind (pos + ahead))) Q) :
    Composed tape calls wide exact pos (fun level => peekAt ahead >>= fun kind => next kind level)
      Q :=
  look_bind (v := fun tape pos => tape.kind (pos + ahead)) h

theorem spanFrom_bind {first : Nat} {next : Span → Level → Rule β}
    (h : Composed tape calls wide exact pos (next (tape.span first pos)) Q) :
    Composed tape calls wide exact pos (fun level => spanFrom first >>= fun span => next span level)
      Q :=
  look_bind (v := fun tape pos => tape.span first pos) h

theorem ite {c : Prop} [Decidable c] {yes no : Level → Rule α}
    (hyes : c → Composed tape calls wide exact pos yes P)
    (hno : ¬c → Composed tape calls wide exact pos no P) :
    Composed tape calls wide exact pos (fun level => if c then yes level else no level) P := by
  by_cases hc : c
  · simpa only [if_pos hc] using hyes hc
  · simpa only [if_neg hc] using hno hc

theorem expect_bind {kind : Kind} {next : Mark → Level → Rule β}
    (hkind : wide = true ∨ kind.isBorder = false)
    (h : tape.kind pos = kind →
      Composed tape calls wide exact (tape.next pos) (next (tape.mark pos)) Q) :
    Composed tape calls wide exact pos (fun level => expect kind >>= fun mark => next mark level)
      Q := by
  change Composed tape calls wide exact pos (fun level => peek >>= fun found =>
    (if found = kind then advance else Rule.miss (.kind kind)) >>= fun mark => next mark level) Q
  refine peek_bind ?_
  by_cases hfound : tape.kind pos = kind
  · simp only [if_pos hfound]
    exact advance_bind (by rwa [hfound]) (h hfound)
  · simp only [if_neg hfound]
    exact miss (.kind kind)

theorem eat_bind {kind : Kind} {next : Bool → Level → Rule β}
    (hkind : wide = true ∨ kind.isBorder = false)
    (htake : tape.kind pos = kind →
      Composed tape calls wide exact (tape.next pos) (next true) Q)
    (hleave : tape.kind pos ≠ kind → Composed tape calls wide exact pos (next false) Q) :
    Composed tape calls wide exact pos (fun level => eat kind >>= fun taken => next taken level)
      Q := by
  change Composed tape calls wide exact pos (fun level => peek >>= fun found =>
    (if found = kind then advance >>= fun _ => Pure.pure true else Pure.pure false) >>=
      fun taken => next taken level) Q
  refine peek_bind ?_
  by_cases hfound : tape.kind pos = kind
  · simp only [if_pos hfound]
    change Composed tape calls wide exact pos (fun level => advance >>= fun _ => next true level) Q
    exact advance_bind (by rwa [hfound]) (htake hfound)
  · simp only [if_neg hfound]
    exact hleave hfound

theorem eat {kind : Kind} (hkind : wide = true ∨ kind.isBorder = false) (pos : Nat) :
    Composed tape calls wide exact pos (fun _ => Rule.eat kind) fun _ _ => True := by
  refine peek_bind (ite (fun hfound => ?_) fun _ => .pure trivial)
  exact advance_bind (by rwa [hfound]) (.pure trivial)

theorem attempt {rule : Level → Rule α} {R : Option α → Nat → Prop}
    (h : Composed tape calls wide false pos rule P)
    (hsome : ∀ value stop, P value stop → R (some value) stop)
    (hnone : Fails tape pos rule → R none pos) :
    Composed tape calls wide exact pos (fun level => Rule.attempt (rule level)) R := by
  have hbind : (fun level => Rule.attempt (rule level)) =
      fun level => Rule.attempt (rule level) >>= fun found => Pure.pure found := by
    funext level tape pos trail
    change _ = Rule.bind _ _ tape pos trail
    unfold Rule.bind Rule.attempt
    cases rule level tape pos trail <;> rfl
  rw [hbind]
  exact attempt_bind h (fun value mid => .pure (hsome value mid)) (.pure hnone)

-- The last alternative decides where a choice is stuck.
theorem firstOf_cons {r other : Level → Rule α} {rest : Level → List (Rule α)}
    (h : Composed tape calls wide false pos r P)
    (hrest : Composed tape calls wide exact pos (fun level => firstOf (other level :: rest level)) P) :
    Composed tape calls wide exact pos
      (fun level => firstOf (r level :: other level :: rest level)) P :=
  attempt_bind h (fun _ _ => .pure id) (hrest.mono fun _ _ hresult _ => hresult)

theorem firstOf_singleton {rule : Level → Rule α} (h : Composed tape calls wide exact pos rule P) :
    Composed tape calls wide exact pos (fun level => firstOf [rule level]) P := h

-- A repetition ends when a step declines, or behind the tape. What a step keeps holds all along.
theorem iterate {f : σ → Level → Rule (Option σ)} {I D : σ → Nat → Prop}
    (hstep : ∀ state pos, Composed tape calls wide exact pos (f state) fun next stop =>
      I state pos → (∀ state', next = some state' → I state' stop ∧ pos < stop) ∧
        (next = none → D state stop)) (fuel : Nat) (state : σ) (pos : Nat) :
    Composed tape calls wide exact pos (fun level => Rule.iterate (f · level) fuel state)
      fun last stop => I state pos → D last stop ∨ I last stop ∧ pos + fuel ≤ stop := by
  induction fuel generalizing state pos with
  | zero => exact .pure fun hinv => .inr ⟨hinv, Nat.le_refl _⟩
  | succ fuel ih =>
      refine bind (hstep state pos) ?_
      rintro (_ | next) mid
      · exact .pure fun hstep hinv => .inl ((hstep hinv).2 rfl)
      · refine (ih next mid).mono ?_
        intro last stop hlast hstep hinv
        obtain ⟨hnext, hlt⟩ := (hstep hinv).1 next rfl
        exact (hlast hnext).imp_right fun hend => ⟨hend.1, by omega⟩

theorem repeatStep {f : σ → Level → Rule (Option σ)} {I D : σ → Nat → Prop} {state : σ}
    (hstep : ∀ state pos, Composed tape calls wide exact pos (f state) fun next stop =>
      I state pos → (∀ state', next = some state' → I state' stop ∧ pos < stop) ∧
        (next = none → D state stop)) :
    Composed tape calls wide exact pos (fun level => Rule.repeatStep (f · level) state)
      fun last stop => I state pos → D last stop ∨ I last stop ∧ tape.size ≤ stop := by
  refine look_bind ((iterate hstep _ state pos).mono ?_)
  intro last stop hlast hinv
  exact (hlast hinv).imp_right fun hend => ⟨hend.1, by omega⟩

-- The same where it does not matter why the repetition ends.
theorem repeatStep_keeps {f : σ → Level → Rule (Option σ)} {I : σ → Prop} {state : σ}
    (hstep : ∀ state pos, Composed tape calls wide exact pos (f state) fun next _ =>
      I state → ∀ state', next = some state' → I state') (h : I state) :
    Composed tape calls wide exact pos (fun level => Rule.repeatStep (f · level) state)
      fun last _ => I last := by
  have hiterate : ∀ (fuel : Nat) (state : σ) (pos : Nat), Composed tape calls wide exact pos
      (fun level => Rule.iterate (f · level) fuel state) fun last _ => I state → I last := by
    intro fuel
    induction fuel with
    | zero => exact fun state pos => .pure id
    | succ fuel ih =>
        intro state pos
        refine bind (hstep state pos) ?_
        rintro (_ | next) mid
        · exact .pure fun _ hinv => hinv
        · exact (ih next mid).mono fun last stop hlast hstep hinv => hlast (hstep hinv next rfl)
  exact look_bind ((hiterate _ state pos).mono fun _ _ hlast => hlast h)

end Composed

end Grammar

end SearchPipeline
