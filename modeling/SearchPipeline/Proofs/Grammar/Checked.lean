import SearchPipeline.Proofs.Grammar.Ensures
import SearchPipeline.Proofs.Grammar.Tape

namespace SearchPipeline.Grammar

open Rule

mutual

-- How a rule runs from a position and a trail to its reply: it looks only at marks of the tape, takes
-- no end, and moves forward in every turn but the last and in every call that is done.
inductive Checked (tape : Tape) : ∀ {α : Type}, Rule α → (pos : Nat) → Trail → Reply α → Prop where
  | pure {α : Type} {pos : Nat} {trail : Trail} (value : α) :
      Checked tape (pure value) pos trail (.done value pos trail)
  | position {pos : Nat} {trail : Trail} : Checked tape position pos trail (.done pos pos trail)
  | peek {pos : Nat} {trail : Trail} : pos < tape.size →
      Checked tape peek pos trail (.done (tape.kind pos) pos trail)
  | peekAt {pos : Nat} {trail : Trail} (ahead : Nat) : pos + ahead < tape.size →
      Checked tape (peekAt ahead) pos trail (.done (tape.kind (pos + ahead)) pos trail)
  | attachedLeft {pos : Nat} {trail : Trail} : pos < tape.size →
      Checked tape (look Tape.attachedLeft) pos trail (.done (tape.attachedLeft pos) pos trail)
  | attachedRight {pos : Nat} {trail : Trail} : pos + 1 < tape.size →
      Checked tape (look Tape.attachedRight) pos trail (.done (tape.attachedRight pos) pos trail)
  | spanFrom {pos : Nat} {trail : Trail} (first : Nat) : first < tape.size →
      max pos (first + 1) - 1 < tape.size →
      Checked tape (spanFrom first) pos trail (.done (tape.span first pos) pos trail)
  -- The end is not taken.
  | advance {pos : Nat} {trail : Trail} : tape.kind pos ≠ .finish → pos + 1 < tape.size →
      Checked tape advance pos trail (.done (tape.mark pos) (pos + 1) trail)
  | miss {α : Type} {pos : Nat} {trail : Trail} (wanted : Wanted) :
      Checked tape (miss wanted : Rule α) pos trail (.stuck pos (trail.note pos wanted))
  | refuse {α : Type} {pos : Nat} {trail : Trail} :
      Checked tape (refuse : Rule α) pos trail (.stuck pos trail)
  | bind_done {α β : Type} {rule : Rule α} {next : α → Rule β} {pos mid : Nat}
      {trail later : Trail} {value : α} {reply : Reply β} :
      Checked tape rule pos trail (.done value mid later) →
      Checked tape (next value) mid later reply → Checked tape (rule >>= next) pos trail reply
  | bind_stuck {α β : Type} {rule : Rule α} {next : α → Rule β} {pos stop : Nat}
      {trail later : Trail} : Checked tape rule pos trail (.stuck stop later) →
      Checked tape (rule >>= next) pos trail (.stuck stop later)
  | attempt_done {α : Type} {rule : Rule α} {pos stop : Nat} {trail later : Trail} {value : α} :
      Checked tape rule pos trail (.done value stop later) →
      Checked tape (attempt rule) pos trail (.done (some value) stop later)
  | attempt_stuck {α : Type} {rule : Rule α} {pos stop : Nat} {trail later : Trail} :
      Checked tape rule pos trail (.stuck stop later) →
      Checked tape (attempt rule) pos trail (.done none pos later)
  | repeatStep {σ : Type} {step : σ → Rule (Option σ)} {state : σ} {pos : Nat} {trail : Trail}
      {reply : Reply σ} : Turns tape step (tape.size - pos) state pos trail reply →
      Checked tape (repeatStep step state) pos trail reply
  | recalled_done {least pos stop : Nat} {rule : Rule Expr} {trail : Trail} {expr : Expr} :
      trail.memo[(pos, least)]? = some (some (expr, stop)) → pos < stop → stop < tape.size →
      Checked tape (remembered least rule) pos trail (.done expr stop trail)
  | recalled_stuck {least pos : Nat} {rule : Rule Expr} {trail : Trail} :
      trail.memo[(pos, least)]? = some none →
      Checked tape (remembered least rule) pos trail (.stuck pos trail)
  | unknown {least pos : Nat} {rule : Rule Expr} {trail : Trail} {reply : Reply Expr} :
      trail.memo[(pos, least)]? = none → Checked tape rule pos trail reply →
      Checked tape (remembered least rule) pos trail reply
  | recorded_done {least pos stop : Nat} {rule : Rule Expr} {trail later : Trail} {expr : Expr} :
      Checked tape rule pos trail (.done expr stop later) → pos < stop → stop < tape.size →
      Checked tape (record least rule) pos trail
        (.done expr stop { later with memo := later.memo.insert (pos, least) (some (expr, stop)) })
  | recorded_stuck {least pos stop : Nat} {rule : Rule Expr} {trail later : Trail} :
      Checked tape rule pos trail (.stuck stop later) →
      Checked tape (record least rule) pos trail
        (.stuck stop { later with memo := later.memo.insert (pos, least) none })
  | blocked {α : Type} {rule : Rule α} {pos : Nat} {trail : Trail} :
      trail.tooDeep.isSome = true → Checked tape (enter rule) pos trail (.stuck pos trail)
  | trips {α : Type} {rule : Rule α} {pos : Nat} {trail : Trail} :
      trail.tooDeep = none → maxNesting ≤ trail.depth →
      Checked tape (enter rule) pos trail (.stuck pos { trail with tooDeep := some pos })
  | enters_done {α : Type} {rule : Rule α} {pos stop : Nat} {trail later : Trail} {value : α} :
      trail.tooDeep = none → trail.depth < maxNesting →
      Checked tape rule pos trail.deeper (.done value stop later) → pos < stop → stop < tape.size →
      Checked tape (enter rule) pos trail (.done value stop later.shallower)
  | enters_stuck {α : Type} {rule : Rule α} {pos stop : Nat} {trail later : Trail} :
      trail.tooDeep = none → trail.depth < maxNesting →
      Checked tape rule pos trail.deeper (.stuck stop later) →
      Checked tape (enter rule) pos trail (.stuck stop later.shallower)

-- The turns of a repetition, of which at most so many are left.
inductive Turns (tape : Tape) : ∀ {σ : Type}, (σ → Rule (Option σ)) → (left : Nat) → σ →
    (pos : Nat) → Trail → Reply σ → Prop where
  | more {σ : Type} {step : σ → Rule (Option σ)} {left pos mid : Nat} {state next : σ}
      {trail later : Trail} {reply : Reply σ} :
      Checked tape (step state) pos trail (.done (some next) mid later) →
      pos < mid → mid < tape.size → Turns tape step left next mid later reply →
      Turns tape step (left + 1) state pos trail reply
  | last {σ : Type} {step : σ → Rule (Option σ)} {left pos stop : Nat} {state : σ}
      {trail later : Trail} : Checked tape (step state) pos trail (.done none stop later) →
      Turns tape step (left + 1) state pos trail (.done state stop later)
  | stuck {σ : Type} {step : σ → Rule (Option σ)} {left pos stop : Nat} {state : σ}
      {trail later : Trail} : Checked tape (step state) pos trail (.stuck stop later) →
      Turns tape step (left + 1) state pos trail (.stuck stop later)

end

mutual

-- A checked run ends as the rule does.
theorem Checked.reply_eq {tape : Tape} {α : Type} {rule : Rule α} {pos : Nat} {trail : Trail}
    {reply : Reply α} : Checked tape rule pos trail reply → rule tape pos trail = reply
  | .pure _ | .position | .peek _ | .peekAt _ _ | .attachedLeft _ | .attachedRight _
  | .spanFrom _ _ _ | .miss _ | .refuse => rfl
  | .advance _ hnext => by
      rw [advance, Tape.next, if_pos hnext]
  | .bind_done hrule hnext => by
      change Rule.bind _ _ tape _ _ = _
      rw [Rule.bind, hrule.reply_eq]
      exact hnext.reply_eq
  | .bind_stuck hrule => by
      change Rule.bind _ _ tape _ _ = _
      rw [Rule.bind, hrule.reply_eq]
  | .attempt_done hrule | .attempt_stuck hrule => by rw [attempt, hrule.reply_eq]
  | .repeatStep hturns => hturns.reply_eq
  | .recalled_done hmemo _ _ | .recalled_stuck hmemo => by rw [remembered, hmemo]
  | .unknown hmemo hrule => by rw [remembered, hmemo, hrule.reply_eq]
  | .recorded_done hrule _ _ | .recorded_stuck hrule => by rw [record, hrule.reply_eq]
  | .blocked hdeep => enter_blocked hdeep
  | .trips hshallow hbound => enter_trips hshallow hbound
  | .enters_done hshallow hroom hrule _ _ | .enters_stuck hshallow hroom hrule => by
      rw [enter_of_lt hshallow hroom, hrule.reply_eq]
      rfl

theorem Turns.reply_eq {tape : Tape} {σ : Type} {step : σ → Rule (Option σ)} {left : Nat} {state : σ}
    {pos : Nat} {trail : Trail} {reply : Reply σ} : Turns tape step left state pos trail reply →
      Rule.iterate step left state tape pos trail = reply
  | .more hstep _ _ hturns => by
      change Rule.bind _ _ tape _ _ = _
      rw [Rule.bind, hstep.reply_eq]
      exact hturns.reply_eq
  | .last hstep => by
      change Rule.bind _ _ tape _ _ = _
      rw [Rule.bind, hstep.reply_eq]
      rfl
  | .stuck hstep => by
      change Rule.bind _ _ tape _ _ = _
      rw [Rule.bind, hstep.reply_eq]

end

-- What is remembered and noted lies on the tape, and what is remembered of a position ends behind it.
structure Trail.Confined (tape : Tape) (trail : Trail) : Prop where
  keeps : trail.Keeps fun pos _ _ stop => pos < stop ∧ stop < tape.size
  furthest : ∀ pos, trail.furthest = some pos → pos < tape.size
  tooDeep : ∀ pos, trail.tooDeep = some pos → pos < tape.size

namespace Trail.Confined

variable {tape : Tape} {trail : Trail} {pos : Nat}

theorem empty (tape : Tape) : ({} : Trail).Confined tape where
  keeps := Trail.keeps_empty
  furthest := by simp
  tooDeep := by simp

theorem fresh (h : trail.Confined tape) : trail.fresh.Confined tape where
  keeps := h.keeps.fresh
  furthest := by simp [Trail.fresh]
  tooDeep := h.tooDeep

theorem note (h : trail.Confined tape) (hpos : pos < tape.size) (wanted : Wanted) :
    (trail.note pos wanted).Confined tape where
  keeps := h.keeps.note pos wanted
  furthest at' hnote := by
    rcases Trail.note_furthest hnote with rfl | hfurthest
    · exact hpos
    · exact h.furthest at' hfurthest
  tooDeep := by
    rw [Trail.note_tooDeep]
    exact h.tooDeep

theorem insert (h : trail.Confined tape) (least : Nat) (entry : Option (Expr × Nat))
    (hentry : ∀ expr stop, entry = some (expr, stop) → pos < stop ∧ stop < tape.size) :
    ({ trail with memo := trail.memo.insert (pos, least) entry } : Trail).Confined tape where
  keeps := h.keeps.insert pos least entry hentry
  furthest := h.furthest
  tooDeep := h.tooDeep

theorem deeper (h : trail.Confined tape) : trail.deeper.Confined tape :=
  ⟨h.keeps, h.furthest, h.tooDeep⟩

theorem shallower (h : trail.Confined tape) : trail.shallower.Confined tape :=
  ⟨h.keeps, h.furthest, h.tooDeep⟩

end Trail.Confined

-- The reply and its trail stay on the tape, and the position does not go back.
def Reply.Confined {α : Type} (tape : Tape) (pos : Nat) : Reply α → Prop
  | .done _ stop trail | .stuck stop trail => trail.Confined tape ∧ pos ≤ stop ∧ stop < tape.size

theorem Reply.Confined.of_le {α : Type} {tape : Tape} {pos mid : Nat} {reply : Reply α}
    (h : reply.Confined tape mid) (hle : pos ≤ mid) : reply.Confined tape pos := by
  cases reply <;> exact ⟨h.1, Nat.le_trans hle h.2.1, h.2.2⟩

mutual

-- A checked run that starts on the tape stays there, and so does all that it leaves behind.
theorem Checked.confined {tape : Tape} {α : Type} {rule : Rule α} {pos : Nat} {trail : Trail}
    {reply : Reply α} (h : Checked tape rule pos trail reply) (hpos : pos < tape.size)
    (htrail : trail.Confined tape) : reply.Confined tape pos :=
  match h with
  | .pure _ | .position | .peek _ | .peekAt _ _ | .attachedLeft _ | .attachedRight _
  | .spanFrom _ _ _ | .refuse | .recalled_stuck _ | .blocked _ => ⟨htrail, Nat.le_refl pos, hpos⟩
  | .advance _ hnext => ⟨htrail, Nat.le_succ pos, hnext⟩
  | .miss wanted => ⟨htrail.note hpos wanted, Nat.le_refl pos, hpos⟩
  | .bind_done hrule hnext =>
      have hmid := hrule.confined hpos htrail
      (hnext.confined hmid.2.2 hmid.1).of_le hmid.2.1
  | .bind_stuck hrule | .attempt_done hrule => hrule.confined hpos htrail
  | .attempt_stuck hrule => ⟨(hrule.confined hpos htrail).1, Nat.le_refl pos, hpos⟩
  | .repeatStep hturns => hturns.confined hpos htrail
  | .recalled_done _ hlt hstop => ⟨htrail, Nat.le_of_lt hlt, hstop⟩
  | .unknown _ hrule => hrule.confined hpos htrail
  | .recorded_done hrule hlt hstop => by
      refine ⟨(hrule.confined hpos htrail).1.insert _ _ ?_, Nat.le_of_lt hlt, hstop⟩
      rintro _ _ ⟨⟩
      exact ⟨hlt, hstop⟩
  | .recorded_stuck hrule => by
      have hstuck := hrule.confined hpos htrail
      exact ⟨hstuck.1.insert _ none (by simp), hstuck.2⟩
  | .trips _ _ => by
      refine ⟨⟨htrail.keeps, htrail.furthest, ?_⟩, Nat.le_refl pos, hpos⟩
      rintro _ ⟨⟩
      exact hpos
  | .enters_done _ _ hrule _ _ | .enters_stuck _ _ hrule =>
      have hinside := hrule.confined hpos htrail.deeper
      ⟨hinside.1.shallower, hinside.2⟩

theorem Turns.confined {tape : Tape} {σ : Type} {step : σ → Rule (Option σ)} {left : Nat} {state : σ}
    {pos : Nat} {trail : Trail} {reply : Reply σ} (h : Turns tape step left state pos trail reply)
    (hpos : pos < tape.size) (htrail : trail.Confined tape) : reply.Confined tape pos :=
  match h with
  | .more hstep hlt hmid hturns =>
      (hturns.confined hmid (hstep.confined hpos htrail).1).of_le (Nat.le_of_lt hlt)
  | .last hstep | .stuck hstep => hstep.confined hpos htrail

end

-- If the rule is done, it is so with a value and a position as wanted.
def Reply.Gives {α : Type} (post : α → Nat → Prop) : Reply α → Prop
  | .done value stop _ => post value stop
  | .stuck _ _ => True

-- From a position on the tape the rule has a checked run, whatever is remembered of the tape.
def Safe {α : Type} (tape : Tape) (pos : Nat) (rule : Rule α) (post : α → Nat → Prop) : Prop :=
  pos < tape.size → ∀ trail : Trail, trail.Confined tape →
    ∃ reply, Checked tape rule pos trail reply ∧ reply.Gives post

namespace Safe

variable {α β σ : Type} {tape : Tape} {pos : Nat} {P : α → Nat → Prop} {Q : β → Nat → Prop}

theorem mono {rule : Rule α} {R : α → Nat → Prop} (h : Safe tape pos rule P)
    (himp : ∀ value stop, P value stop → R value stop) : Safe tape pos rule R := by
  intro hpos trail htrail
  obtain ⟨reply, hrule, hgives⟩ := h hpos trail htrail
  refine ⟨reply, hrule, ?_⟩
  cases reply with
  | done value stop later => exact himp value stop hgives
  | stuck stop later => trivial

theorem pure {value : α} (h : P value pos) : Safe tape pos (pure value : Rule α) P :=
  fun _ _ _ => ⟨_, .pure value, h⟩

theorem miss (wanted : Wanted) : Safe tape pos (Rule.miss wanted) P :=
  fun _ _ _ => ⟨_, .miss wanted, trivial⟩

theorem refuse : Safe tape pos (Rule.refuse : Rule α) P := fun _ _ _ => ⟨_, .refuse, trivial⟩

theorem bind {rule : Rule α} {next : α → Rule β} (h : Safe tape pos rule P)
    (hnext : ∀ value mid, P value mid → Safe tape mid (next value) Q) :
    Safe tape pos (rule >>= next) Q := by
  intro hpos trail htrail
  obtain ⟨reply, hrule, hgives⟩ := h hpos trail htrail
  cases reply with
  | done value mid later =>
      obtain ⟨hlater, -, hmid⟩ := hrule.confined hpos htrail
      obtain ⟨reply, hvalue, hreply⟩ := hnext value mid hgives hmid later hlater
      exact ⟨reply, .bind_done hrule hvalue, hreply⟩
  | stuck stop later => exact ⟨_, .bind_stuck hrule, trivial⟩

-- A rule that only looks has the reply that its checked run has.
theorem look_bind {rule : Rule α} {next : α → Rule β} {value : α}
    (hlook : pos < tape.size → ∀ trail, Checked tape rule pos trail (.done value pos trail))
    (h : Safe tape pos (next value) Q) : Safe tape pos (rule >>= next) Q := by
  intro hpos trail htrail
  obtain ⟨reply, hnext, hgives⟩ := h hpos trail htrail
  exact ⟨reply, .bind_done (hlook hpos trail) hnext, hgives⟩

theorem position_bind {next : Nat → Rule β} (h : Safe tape pos (next pos) Q) :
    Safe tape pos (position >>= next) Q := look_bind (fun _ _ => .position) h

theorem peek_bind {next : Kind → Rule β} (h : Safe tape pos (next (tape.kind pos)) Q) :
    Safe tape pos (peek >>= next) Q := look_bind (fun hpos _ => .peek hpos) h

theorem attachedLeft_bind {next : Bool → Rule β}
    (h : Safe tape pos (next (tape.attachedLeft pos)) Q) :
    Safe tape pos (look Tape.attachedLeft >>= next) Q := look_bind (fun hpos _ => .attachedLeft hpos) h

theorem spanFrom_bind {first : Nat} {next : Span → Rule β} (hfirst : first ≤ pos)
    (h : Safe tape pos (next (tape.span first pos)) Q) :
    Safe tape pos (spanFrom first >>= next) Q :=
  look_bind (fun hpos _ => .spanFrom first (by omega) (by omega)) h

section Tokens

variable (hot : tape.Orderly)

include hot

-- One token further may be looked at where the present one is not the end.
theorem peekAt_bind {next : Kind → Rule β} (hkind : tape.kind pos ≠ .finish)
    (h : Safe tape pos (next (tape.kind (pos + 1))) Q) : Safe tape pos (peekAt 1 >>= next) Q :=
  look_bind (fun _ _ => .peekAt 1 (hot.ends pos hkind)) h

theorem attachedRight_bind {next : Bool → Rule β} (hkind : tape.kind pos ≠ .finish)
    (h : Safe tape pos (next (tape.attachedRight pos)) Q) :
    Safe tape pos (look Tape.attachedRight >>= next) Q :=
  look_bind (fun _ _ => .attachedRight (hot.ends pos hkind)) h

theorem advance (hkind : tape.kind pos ≠ .finish) :
    Safe tape pos advance fun _ stop => stop = pos + 1 :=
  fun _ _ _ => ⟨_, .advance hkind (hot.ends pos hkind), rfl⟩

theorem advance_bind {next : Mark → Rule β} (hkind : tape.kind pos ≠ .finish)
    (h : ∀ mark, Safe tape (pos + 1) (next mark) Q) : Safe tape pos (Rule.advance >>= next) Q :=
  (advance hot hkind).bind fun mark _ hmid => hmid ▸ h mark

theorem expect_bind {kind : Kind} {next : Mark → Rule β} (hkind : kind ≠ .finish)
    (h : ∀ mark, Safe tape (pos + 1) (next mark) Q) : Safe tape pos (expect kind >>= next) Q := by
  refine bind (P := fun _ stop => stop = pos + 1) ?_ fun mark _ hmid => hmid ▸ h mark
  refine peek_bind ?_
  split
  · next hfound => exact advance hot (hfound ▸ hkind)
  · exact miss _

theorem eat_bind {kind : Kind} {next : Bool → Rule β} (hkind : kind ≠ .finish)
    (htake : Safe tape (pos + 1) (next true) Q) (hleave : Safe tape pos (next false) Q) :
    Safe tape pos (eat kind >>= next) Q := by
  refine bind (P := fun taken stop => stop = if taken then pos + 1 else pos) ?_ ?_
  · refine peek_bind ?_
    split
    · next hfound => exact advance_bind hot (hfound ▸ hkind) fun _ => .pure rfl
    · exact .pure rfl
  · rintro (_ | _) _ rfl
    · exact hleave
    · exact htake

end Tokens

theorem attempt {rule : Rule α} {R : Option α → Nat → Prop}
    (h : Safe tape pos rule fun value stop => R (some value) stop) (hnone : R none pos) :
    Safe tape pos (Rule.attempt rule) R := by
  intro hpos trail htrail
  obtain ⟨reply, hrule, hgives⟩ := h hpos trail htrail
  cases reply with
  | done value stop later => exact ⟨_, .attempt_done hrule, hgives⟩
  | stuck stop later => exact ⟨_, .attempt_stuck hrule, hnone⟩

theorem firstOf {rules : List (Rule α)} (h : ∀ rule ∈ rules, Safe tape pos rule P) :
    Safe tape pos (Rule.firstOf rules) P := by
  induction rules with
  | nil => exact refuse
  | cons rule rest ih =>
      cases rest with
      | nil => exact h rule List.mem_cons_self
      | cons other rest =>
          refine bind (P := fun found stop => (found = none → stop = pos) ∧
            ∀ value, found = some value → P value stop) (attempt ?_ (by simp)) ?_
          · refine (h rule List.mem_cons_self).mono fun value stop hpost => ⟨by simp, ?_⟩
            rintro _ ⟨⟩
            exact hpost
          · rintro (_ | value) mid ⟨hnone, hsome⟩
            · rw [hnone rfl]
              exact ih fun rule hrule => h rule (List.mem_cons_of_mem _ hrule)
            · exact pure (hsome value rfl)

-- What a turn does that is not the last: it moves forward and keeps the invariant. The last keeps it
-- for the state before.
def TurnsOn (I : σ → Nat → Prop) (pos : Nat) (state : σ) (next : Option σ) (stop : Nat) : Prop :=
  (∀ state', next = some state' → pos < stop ∧ I state' stop) ∧ (next = none → I state stop)

-- With as many turns left as there are tokens, the turns do not run out.
theorem turns {step : σ → Rule (Option σ)} {I : σ → Nat → Prop}
    (hstep : ∀ state pos, I state pos → Safe tape pos (step state) (TurnsOn I pos state))
    {left : Nat} {state : σ} {trail : Trail} (hleft : tape.size ≤ pos + left) (hpos : pos < tape.size)
    (htrail : trail.Confined tape) (h : I state pos) :
    ∃ reply, Turns tape step left state pos trail reply ∧ reply.Gives I := by
  induction left generalizing state pos trail with
  | zero => omega
  | succ left ih =>
      obtain ⟨reply, hrule, hgives⟩ := hstep state pos h hpos trail htrail
      cases reply with
      | stuck stop later => exact ⟨_, .stuck hrule, trivial⟩
      | done next mid later =>
          obtain ⟨hsome, hnone⟩ := hgives
          cases next with
          | none => exact ⟨_, .last hrule, hnone rfl⟩
          | some next =>
              obtain ⟨hlt, hnext⟩ := hsome next rfl
              obtain ⟨hlater, -, hmid⟩ := hrule.confined hpos htrail
              obtain ⟨reply, hturns, hgives⟩ := ih (by omega) hmid hlater hnext
              exact ⟨reply, .more hrule hlt hmid hturns, hgives⟩

theorem repeatStep {step : σ → Rule (Option σ)} {I : σ → Nat → Prop} {state : σ}
    (hstep : ∀ state pos, I state pos → Safe tape pos (step state) (TurnsOn I pos state))
    (h : I state pos) : Safe tape pos (Rule.repeatStep step state) I := by
  intro hpos trail htrail
  have hleft : tape.size ≤ pos + (tape.size - pos) := by omega
  obtain ⟨reply, hturns, hgives⟩ := turns hstep hleft hpos htrail h
  exact ⟨reply, .repeatStep hturns, hgives⟩

-- The calls of an expression, an operation or a subquery.
section Calls

theorem enter {rule : Rule α} (h : Safe tape pos rule fun _ stop => pos < stop) :
    Safe tape pos (Grammar.enter rule) fun _ stop => pos < stop := by
  intro hpos trail htrail
  by_cases hdeep : trail.tooDeep.isSome = true
  · exact ⟨_, .blocked hdeep, trivial⟩
  have hshallow := Option.not_isSome_iff_eq_none.1 hdeep
  rcases Nat.lt_or_ge trail.depth maxNesting with hroom | hbound
  · obtain ⟨reply, hrule, hgives⟩ := h hpos trail.deeper htrail.deeper
    have hconfined := hrule.confined hpos htrail.deeper
    cases reply with
    | done value stop later =>
        exact ⟨_, .enters_done hshallow hroom hrule hgives hconfined.2.2, hgives⟩
    | stuck stop later => exact ⟨_, .enters_stuck hshallow hroom hrule, trivial⟩
  · exact ⟨_, .trips hshallow hbound, trivial⟩

theorem record {least : Nat} {rule : Rule Expr} (h : Safe tape pos rule fun _ stop => pos < stop) :
    Safe tape pos (Grammar.record least rule) fun _ stop => pos < stop := by
  intro hpos trail htrail
  obtain ⟨reply, hrule, hgives⟩ := h hpos trail htrail
  have hconfined := hrule.confined hpos htrail
  cases reply with
  | done expr stop later => exact ⟨_, .recorded_done hrule hgives hconfined.2.2, hgives⟩
  | stuck stop later => exact ⟨_, .recorded_stuck hrule, trivial⟩

theorem remembered {least : Nat} {rule : Rule Expr}
    (h : Safe tape pos rule fun _ stop => pos < stop) :
    Safe tape pos (Grammar.remembered least rule) fun _ stop => pos < stop := by
  intro hpos trail htrail
  cases hmemo : trail.memo[(pos, least)]? with
  | none =>
      obtain ⟨reply, hrule, hgives⟩ := h hpos trail htrail
      exact ⟨reply, .unknown hmemo hrule, hgives⟩
  | some found =>
      cases found with
      | none => exact ⟨_, .recalled_stuck hmemo, trivial⟩
      | some found =>
          obtain ⟨hlt, hstop⟩ := htrail.keeps pos least found.1 found.2 hmemo
          exact ⟨_, .recalled_done hmemo hlt hstop, hlt⟩

end Calls

end Safe

end SearchPipeline.Grammar
