import SearchPipeline.Proofs.Grammar.Bracket

namespace SearchPipeline.Grammar

open Rule

variable {α β : Type} {tape : Tape} {calls : Calls} {low room pos : Nat} {trail : Trail}

namespace Reply

def isDone : Reply α → Bool
  | done _ _ _ => true
  | stuck _ _ => false

end Reply

-- Unless the nesting is too deep, something holds of the reply.
def Rule.Ends (tape : Tape) (pos : Nat) (rule : Rule α) (trail : Trail) (post : Reply α → Prop) :
    Prop :=
  (rule tape pos trail).trail.tooDeep = none → post (rule tape pos trail)

namespace Rule.Ends

variable {rule : Rule α} {P : Reply α → Prop} {Q : Reply β → Prop}

theorem bind {next : α → Rule β} (h : Ends tape pos rule trail P)
    (hdeep : ∀ value mid, StaysDeep tape mid (next value))
    (hdone : ∀ value mid later, P (.done value mid later) → Ends tape mid (next value) later Q)
    (hstuck : ∀ stop later, P (.stuck stop later) → Q (.stuck stop later)) :
    Ends tape pos (rule >>= next) trail Q := by
  intro hshallow
  have hrule : P (rule tape pos trail) := by
    apply h
    by_contra hsunk
    exact deep_bind hsunk hdeep hshallow
  change Q (Rule.bind rule next tape pos trail)
  change (Rule.bind rule next tape pos trail).trail.tooDeep = none at hshallow
  unfold Rule.bind at hshallow ⊢
  cases hreply : rule tape pos trail with
  | done value mid later =>
      rw [hreply] at hrule hshallow
      exact hdone value mid later hrule hshallow
  | stuck stop later =>
      rw [hreply] at hrule
      exact hstuck stop later hrule

theorem pure {value : α} (h : P (.done value pos trail)) :
    Ends tape pos (Pure.pure value : Rule α) trail P := fun _ => h

-- What follows takes no tokens and leaves the trail alone.
theorem quiet {next : α → Rule β} (h : Ends tape pos rule trail P)
    (hnext : ∀ value mid later, ∃ result, next value tape mid later = .done result mid later)
    (hdone : ∀ value result mid later, P (.done value mid later) → Q (.done result mid later))
    (hstuck : ∀ stop later, P (.stuck stop later) → Q (.stuck stop later)) :
    Ends tape pos (rule >>= next) trail Q := by
  refine h.bind (fun value mid later _ => ?_) (fun value mid later hvalue _ => ?_) hstuck
  · obtain ⟨result, hreply⟩ := hnext value mid later
    rw [hreply, Reply.trail_done]
  · obtain ⟨result, hreply⟩ := hnext value mid later
    rw [hreply]
    exact hdone value result mid later hvalue

theorem position_bind {next : Nat → Rule β} (h : Ends tape pos (next pos) trail Q) :
    Ends tape pos (position >>= next) trail Q := h

theorem peek_bind {next : Kind → Rule β} (h : Ends tape pos (next (tape.kind pos)) trail Q) :
    Ends tape pos (peek >>= next) trail Q := h

theorem spanFrom_bind {first : Nat} {next : Span → Rule β}
    (h : Ends tape pos (next (tape.span first pos)) trail Q) :
    Ends tape pos (spanFrom first >>= next) trail Q := h

theorem expect_bind {kind : Kind} {next : Mark → Rule β}
    (htake : tape.kind pos = kind → Ends tape (tape.next pos) (next (tape.mark pos)) trail Q)
    (hmiss : tape.kind pos ≠ kind → Q (.stuck pos (trail.note pos (.kind kind)))) :
    Ends tape pos (expect kind >>= next) trail Q := by
  change Ends tape pos (peek >>= fun found =>
    (if found = kind then advance else miss (.kind kind)) >>= next) trail Q
  change Ends tape pos ((if tape.kind pos = kind then advance else miss (.kind kind)) >>= next)
    trail Q
  by_cases hkind : tape.kind pos = kind
  · rw [if_pos hkind]
    exact htake hkind
  · rw [if_neg hkind]
    exact fun _ => hmiss hkind

theorem eat_bind {kind : Kind} {next : Bool → Rule β}
    (htake : tape.kind pos = kind → Ends tape (tape.next pos) (next true) trail Q)
    (hleave : tape.kind pos ≠ kind → Ends tape pos (next false) trail Q) :
    Ends tape pos (eat kind >>= next) trail Q := by
  change Ends tape pos ((if tape.kind pos = kind then advance >>= fun _ => Pure.pure true
    else Pure.pure false) >>= next) trail Q
  by_cases hkind : tape.kind pos = kind
  · rw [if_pos hkind]
    exact htake hkind
  · rw [if_neg hkind]
    exact hleave hkind

theorem firstOf_pair {first second : Rule α} {P P' : Reply α → Prop}
    (h : Ends tape pos first trail P) (hdeep : StaysDeep tape pos second)
    (hdone : ∀ value stop later, P (.done value stop later) → P' (.done value stop later))
    (hstuck : ∀ stop later, P (.stuck stop later) → Ends tape pos second later P') :
    Ends tape pos (firstOf [first, second]) trail P' := by
  change Ends tape pos (Rule.bind (attempt first) _) trail P'
  intro hshallow
  unfold Rule.bind attempt at hshallow ⊢
  unfold Ends at h
  cases hreply : first tape pos trail with
  | done value stop later =>
      simp only [hreply] at h hshallow ⊢
      exact hdone value stop later (h hshallow)
  | stuck stop later =>
      simp only [hreply] at h hshallow ⊢
      refine hstuck stop later (h ?_) hshallow
      by_contra hsunk
      exact hsunk ((hdeep later hsunk).symm.trans hshallow)

end Rule.Ends

-- A rule for a stage from a position on: where it ends, and what it has remembered.
structure Course (tape : Tape) (pos : Nat) (trail : Trail) (reply : Reply α) : Prop where
  le : pos ≤ reply.pos
  encloses : tape.Encloses pos reply.pos
  adds : trail.Adds reply.trail fun at' => tape.Encloses pos at' ∧ tape.Shelters reply.pos at'
  level : reply.isDone = true → tape.height reply.pos = tape.height pos
  fits : reply.isDone = true → tape.kind reply.pos = .openBracket →
    trail.Adds reply.trail fun at' => at' ≤ reply.pos

-- A rule for a subquery from its bracket on.
structure Inside (tape : Tape) (pos : Nat) (trail : Trail) (reply : Reply α) : Prop where
  le : pos ≤ reply.pos
  encloses : tape.Encloses pos reply.pos
  adds : trail.Adds reply.trail fun at' => tape.Encloses (pos + 1) at' ∧ tape.Shelters reply.pos at'
  closes : reply.isDone = true → pos + 1 < reply.pos ∧ tape.height reply.pos = tape.height pos

namespace Course

variable {reply : Reply α} {reply' : Reply β}

-- What a rule returns plays no part.
theorem congr (h : Course tape pos trail reply) (hpos : reply'.pos = reply.pos)
    (htrail : reply'.trail = reply.trail) (hdone : reply'.isDone = reply.isDone) :
    Course tape pos trail reply' := by
  obtain ⟨hle, hencloses, hadds, hlevel, hfits⟩ := h
  exact ⟨by rwa [hpos], by rwa [hpos], by rwa [hpos, htrail], by rwa [hpos, hdone],
    by rwa [hpos, htrail, hdone]⟩

-- A stage that begins behind a token that is no bracket and not the end.
theorem of_next (h : Course tape (pos + 1) trail reply) (hfinish : tape.kind pos ≠ .finish)
    (hweight : bracketWeight (tape.kind pos) = 0) : Course tape pos trail reply := by
  have hclose : tape.kind pos ≠ .closeBracket := by
    intro hk
    rw [hk] at hweight
    cases hweight
  have hstep := Tape.Encloses.step hfinish hclose
  have hheight := tape.height_succ pos
  rw [hweight, Int.add_zero] at hheight
  refine ⟨Nat.le_of_succ_le h.le, hstep.trans (Nat.le_succ _) h.encloses, ?_, ?_, h.fits⟩
  · exact h.adds.mono fun at' hat => ⟨hstep.trans (Nat.le_succ _) hat.1, hat.2⟩
  · exact fun hdone => (h.level hdone).trans hheight

end Course

-- All that a closed bracket has remembered lies before its end.
theorem Inside.adds_before {reply : Reply α} (h : Inside tape pos trail reply)
    (hopen : tape.kind pos = .openBracket) (hdone : reply.isDone = true) :
    trail.Adds reply.trail fun at' => at' ≤ reply.pos := by
  obtain ⟨hlt, hheight⟩ := h.closes hdone
  refine h.adds.mono fun at' hat => ?_
  by_contra hbehind
  have hlast := (hat.1 (reply.pos - 1) (by omega) (by omega)).2
  rw [Nat.sub_add_cancel (by omega), hheight, Tape.height_succ, hopen] at hlast
  simp only [bracketWeight] at hlast
  omega

theorem Inside.course {reply : Reply α} (h : Inside tape pos trail reply)
    (hopen : tape.kind pos = .openBracket) : Course tape pos trail reply where
  le := h.le
  encloses := h.encloses
  adds := h.adds.mono fun at' hat =>
    ⟨(Tape.Encloses.step (by simp [hopen]) (by simp [hopen])).trans (Nat.le_succ _) hat.1, hat.2⟩
  level hdone := (h.closes hdone).2
  fits hdone _ := h.adds_before hopen hdone

-- How a body ends: without a bracket, or as the subquery in the bracket behind its operations.
inductive BodyEnds (tape : Tape) (calls : Calls) (low room pos : Nat) (trail : Trail) :
    Reply α → Prop where
  | plain {reply : Reply α} : pos ≤ reply.pos → tape.Reaches pos reply.pos →
      trail.Adds reply.trail (tape.Reaches pos) →
      (reply.isDone = true → tape.kind reply.pos ≠ .openBracket) →
      BodyEnds tape calls low room pos trail reply
  | bracket {reply : Reply α} {bracket : Nat} {mid : Trail} : pos ≤ bracket →
      tape.Reaches pos bracket → tape.kind bracket = .openBracket → mid.Knows tape calls low →
      trail.Adds mid (tape.Reaches pos) →
      Inside tape bracket mid ((tier true room).subquery tape bracket mid) →
      reply.pos = ((tier true room).subquery tape bracket mid).pos →
      reply.trail = ((tier true room).subquery tape bracket mid).trail →
      reply.isDone = ((tier true room).subquery tape bracket mid).isDone →
      BodyEnds tape calls low room pos trail reply

theorem BodyEnds.course {reply : Reply α} (h : BodyEnds tape calls low room pos trail reply) :
    Course tape pos trail reply := by
  cases h with
  | plain hle hreach hadds hkind =>
      refine ⟨hle, hreach.encloses, hadds.mono fun at' hat => ⟨hat.encloses, hat.shelters hle⟩,
        fun _ => hreach.height_eq hle, fun hdone hopen => absurd hopen (hkind hdone)⟩
  | @bracket bracket mid hle hreach hopen hknows hadds hinside hpos htrail hdone =>
      have hcourse := hinside.course hopen
      have hborder : (tape.kind bracket).isBorder = true := by rw [hopen]; rfl
      have hbefore : ∀ at', tape.Reaches pos at' →
          at' ≤ ((tier true room).subquery tape bracket mid).pos :=
        fun at' hat => Nat.le_trans (hat bracket hle hborder) hcourse.le
      suffices hinner : Course tape pos trail ((tier true room).subquery tape bracket mid) from
        hinner.congr hpos htrail hdone
      refine ⟨Nat.le_trans hle hcourse.le, hreach.encloses.trans hle hcourse.encloses, ?_, ?_, ?_⟩
      · refine (hadds.mono fun at' hat => ⟨hat.encloses, .of_le (hbefore at' hat)⟩).trans
          (hcourse.adds.mono fun at' hat => ⟨hreach.encloses.trans hle hat.1, hat.2⟩)
      · exact fun hdone => (hcourse.level hdone).trans (hreach.height_eq hle)
      · exact fun hdone hkind => (hadds.mono hbefore).trans (hcourse.fits hdone hkind)

theorem BodyEnds.congr {reply : Reply α} {reply' : Reply β}
    (h : BodyEnds tape calls low room pos trail reply) (hpos : reply'.pos = reply.pos)
    (htrail : reply'.trail = reply.trail) (hdone : reply'.isDone = reply.isDone) :
    BodyEnds tape calls low room pos trail reply' := by
  cases h with
  | plain hle hreach hadds hkind =>
      exact .plain (by rwa [hpos]) (by rwa [hpos]) (by rwa [htrail]) (by rwa [hdone, hpos])
  | bracket hle hreach hopen hknows hadds hinside hpos' htrail' hdone' =>
      exact .bracket hle hreach hopen hknows hadds hinside (hpos.trans hpos') (htrail.trans htrail')
        (hdone.trans hdone')

-- A course that begins with a trail on which more is remembered.
theorem Course.after {reply : Reply α} {before : Trail} (h : Course tape pos trail reply)
    (hadds : before.Adds trail fun at' => tape.Encloses pos at' ∧ tape.Shelters reply.pos at')
    (hfits : reply.isDone = true → tape.kind reply.pos = .openBracket →
      before.Adds trail fun at' => at' ≤ reply.pos) : Course tape pos before reply where
  le := h.le
  encloses := h.encloses
  adds := hadds.trans h.adds
  level := h.level
  fits hdone hopen := (hfits hdone hopen).trans (h.fits hdone hopen)

theorem Course.of_miss (wanted : Wanted) :
    Course tape pos trail (.stuck pos (trail.note pos wanted) : Reply α) where
  le := Nat.le_refl _
  encloses := .refl tape pos
  adds := (Trail.Adds.refl _ _).note wanted ⟨.refl tape pos, .of_le (Nat.le_refl _)⟩
  level := by simp [Reply.isDone]
  fits := by simp [Reply.isDone]

-- What follows misses something at once.
theorem Course.miss_behind {value : α} {mid : Nat} {later : Trail}
    (h : Course tape pos trail (.done value mid later)) (wanted : Wanted) :
    Course tape pos trail (.stuck mid (later.note mid wanted) : Reply β) where
  le := h.le
  encloses := h.encloses
  adds := h.adds.note wanted ⟨h.encloses, .of_le (Nat.le_refl _)⟩
  level := by simp [Reply.isDone]
  fits := by simp [Reply.isDone]

-- The bracket that a stage stands in is closed behind it.
theorem Course.close {value : α} {result : β} {mid : Nat} {later : Trail}
    (h : Course tape (pos + 1) trail (.done value mid later))
    (hopen : tape.kind pos = .openBracket) (hclose : tape.kind mid = .closeBracket) :
    Inside tape pos trail (.done result (mid + 1) later) := by
  have hle : pos + 1 ≤ mid := h.le
  have hencloses : tape.Encloses (pos + 1) mid := h.encloses
  have hlevel : tape.height mid = tape.height (pos + 1) := h.level rfl
  have houter : tape.height (pos + 1) = tape.height pos + 1 := by
    rw [Tape.height_succ, hopen]
    rfl
  have hheight : tape.height (mid + 1) = tape.height pos := by
    rw [Tape.height_succ, hclose, hlevel, houter]
    exact Int.add_neg_cancel_right _ _
  refine ⟨by simp only [Reply.pos]; omega, ?_, ?_, fun _ => ⟨by simp only [Reply.pos]; omega, hheight⟩⟩
  · have hbefore : tape.Encloses pos mid :=
      (Tape.Encloses.step (by simp [hopen]) (by simp [hopen])).trans (Nat.le_succ _) hencloses
    intro at' hpos hstop
    rcases Nat.lt_or_ge at' mid with hlt | hge
    · exact hbefore at' hpos hlt
    · obtain rfl : at' = mid := Nat.le_antisymm (Nat.le_of_lt_succ hstop) hge
      exact ⟨by simp [hclose], Int.le_of_eq hheight.symm⟩
  · refine h.adds.mono fun at' hat => ⟨hat.1, .of_le (Nat.le_of_lt (Nat.lt_succ_of_le ?_))⟩
    by_contra hbehind
    have := (hat.1 mid hle (by omega)).2
    omega

-- A further stage behind a `|`. Nothing remembered so far lies behind it.
theorem Course.step {value : α} {mid : Nat} {later : Trail} {reply : Reply β}
    (h : Course tape pos trail (.done value mid later)) (hpipe : tape.kind mid = .pipe)
    (hstage : Course tape (mid + 1) later reply) : Course tape pos trail reply := by
  have hle : pos ≤ mid := h.le
  have hafter : mid < reply.pos := hstage.le
  have hmid : tape.Encloses pos mid := h.encloses
  have hreach : tape.Encloses pos (mid + 1) :=
    hmid.trans hle (.step (by simp [hpipe]) (by simp [hpipe]))
  have hheight : tape.height (mid + 1) = tape.height pos := by
    have hlevel : tape.height mid = tape.height pos := h.level rfl
    rw [Tape.height_succ, hpipe, hlevel]
    exact Int.add_zero _
  have hbefore : ∀ at', tape.Shelters mid at' → at' ≤ mid := fun at' hat => hat.le_of_pipe hpipe
  refine ⟨by omega, hreach.trans (by omega) hstage.encloses, ?_, ?_, ?_⟩
  · refine (h.adds.mono fun at' hat => ⟨hat.1, .of_le ?_⟩).trans (hstage.adds.mono fun at' hat =>
      ⟨hreach.trans (by omega) hat.1, hat.2⟩)
    have := hbefore at' hat.2
    omega
  · exact fun hdone => (hstage.level hdone).trans hheight
  · refine fun hdone hopen => (h.adds.mono fun at' hat => ?_).trans (hstage.fits hdone hopen)
    have := hbefore at' hat.2
    omega

theorem subquery?_of_bracket (level : Level) (trail : Trail)
    (hopen : tape.kind pos = .openBracket) :
    subquery? level tape pos trail = match level.subquery tape pos trail with
      | .done q stop later => .done (some q) stop later
      | .stuck stop later => .stuck stop later := by
  change (if tape.kind pos = .openBracket then level.subquery >>= fun q => pure (some q)
    else pure none : Rule (Option Subquery)) tape pos trail = _
  rw [if_pos hopen]
  change Rule.bind level.subquery _ tape pos trail = _
  unfold Rule.bind
  cases level.subquery tape pos trail <;> rfl

theorem subquery?_of_other (level : Level) (trail : Trail)
    (hopen : tape.kind pos ≠ .openBracket) :
    subquery? level tape pos trail = .done none pos trail := by
  change (if tape.kind pos = .openBracket then level.subquery >>= fun q => pure (some q)
    else pure none : Rule (Option Subquery)) tape pos trail = _
  rw [if_neg hopen]
  rfl

theorem command_ends (tape : Tape) (pos : Nat) (trail : Trail) :
    Ends tape pos command trail fun reply =>
      (∃ c, reply = .done c (tape.next pos) trail ∧ (tape.kind pos).isCommand = true) ∨
        (∃ wanted, reply = .stuck pos (trail.note pos wanted)) ∧
          (tape.kind pos).isCommand = false := by
  unfold command
  apply Ends.peek_bind
  split
  · next hcommand => exact fun _ => .inl ⟨_, rfl, hcommand⟩
  · next hcommand => exact fun _ => .inr ⟨⟨_, rfl⟩, Bool.not_eq_true _ ▸ hcommand⟩

section

variable (hot : tape.Orderly) (hsteady : Level.Steady tape room) (hlevel : Level.Tracks tape calls low room)
  (hsub : ∀ bracket trail, low ≤ bracket → trail.Knows tape calls low →
    tape.kind bracket = .openBracket →
    Ends tape bracket (tier true room).subquery trail (Inside tape bracket trail))

include hsteady hlevel hsub

theorem body_ends (hlow : low ≤ pos) (hknows : trail.Knows tape calls low) :
    Ends tape pos (body (tier true room)) trail (BodyEnds tape calls low room pos trail) := by
  have hkept := tier_staysDeep tape true room
  refine Ends.bind (P := fun reply => pos ≤ reply.pos ∧ tape.Reaches pos reply.pos ∧
    trail.Adds reply.trail (tape.Reaches pos) ∧ reply.trail.Knows tape calls low) ?_
    (fun operations mid =>
      (Composed.bodyEnd calls true operations mid).staysDeep hkept) ?_ ?_
  · intro hshallow
    obtain ⟨outcome, notes, -, -, hfollows⟩ := ((Composed.operands calls false true
      pos).tracks hsteady hlevel).follows hlow hknows hshallow
    obtain ⟨hreach, hadds⟩ := hfollows.within rfl
    exact ⟨hfollows.le, hreach, hadds, hfollows.knows⟩
  · intro operations mid later hops
    obtain ⟨hle, hreach, hadds, hlater⟩ : pos ≤ mid ∧ tape.Reaches pos mid ∧
      trail.Adds later (tape.Reaches pos) ∧ later.Knows tape calls low := hops
    by_cases hopen : tape.kind mid = .openBracket
    · intro hshallow
      have hinside := hsub mid later (Nat.le_trans hlow hle) hlater hopen
      change (Rule.bind _ _ tape mid later).trail.tooDeep = none at hshallow
      change BodyEnds tape calls low room pos trail (Rule.bind _ _ tape mid later)
      unfold Rule.bind at hshallow ⊢
      rw [subquery?_of_bracket (tier true room) later hopen] at hshallow ⊢
      unfold Ends at hinside
      cases hsubquery : (tier true room).subquery tape mid later with
      | done q stop rest =>
          simp only [hsubquery, Option.isNone_some, Bool.and_false, Bool.false_eq_true,
            if_false] at hshallow hinside ⊢
          refine .bracket hle hreach hopen hlater hadds ?_ ?_ ?_ ?_ <;> rw [hsubquery]
          · exact hinside hshallow
          all_goals rfl
      | stuck stop rest =>
          simp only [hsubquery] at hshallow hinside ⊢
          refine .bracket hle hreach hopen hlater hadds ?_ ?_ ?_ ?_ <;> rw [hsubquery]
          · exact hinside hshallow
          all_goals rfl
    · intro _
      change BodyEnds tape calls low room pos trail (Rule.bind _ _ tape mid later)
      unfold Rule.bind
      rw [subquery?_of_other _ _ hopen]
      dsimp only
      split
      · exact .plain hle hreach (hadds.note _ hreach) (by simp [Reply.isDone, miss])
      · exact .plain hle hreach hadds fun _ => hopen
  · rintro stop later ⟨hle, hreach, hadds, -⟩
    exact .plain hle hreach hadds (by simp [Reply.isDone])

omit hsteady hsub in
-- What the subquery in a bracket settles on does not depend on what is remembered.
theorem subquery_same {bracket : Nat} {first second : Trail} (hlow : low ≤ bracket)
    (hfirst : first.Knows tape calls low) (hsecond : second.Knows tape calls low)
    (hshallow : ((tier true room).subquery tape bracket first).trail.tooDeep = none)
    (hshallow' : ((tier true room).subquery tape bracket second).trail.tooDeep = none) :
    ((tier true room).subquery tape bracket first).isDone =
        ((tier true room).subquery tape bracket second).isDone ∧
      ((tier true room).subquery tape bracket first).pos =
        ((tier true room).subquery tape bracket second).pos := by
  obtain ⟨outcome, notes, hsettles, -, hfollows⟩ :=
    (hlevel.subquery bracket).follows hlow hfirst hshallow
  obtain ⟨outcome', notes', hsettles', -, hfollows'⟩ :=
    (hlevel.subquery bracket).follows hlow hsecond hshallow'
  obtain ⟨rfl, -⟩ := hsettles.unique hsettles'
  cases outcome with
  | done q stop => rw [hfollows.mirrors.eq_done, hfollows'.mirrors.eq_done]; exact ⟨rfl, rfl⟩
  | stuck stop =>
      obtain ⟨at', hreply, hsame⟩ := hfollows.mirrors.eq_stuck
      obtain ⟨at'', hreply', hsame'⟩ := hfollows'.mirrors.eq_stuck
      rw [hreply, hreply', hsame rfl, hsame' rfl]
      exact ⟨rfl, rfl⟩

omit hsteady hsub in
-- The body behind a command word is read first, and if that fails, the word is read with the body.
-- A bracket that both come to is read twice in the same way.
theorem BodyEnds.retry {reply : Reply α} {reply' : Reply β} {before : Trail} (hlow : low ≤ pos)
    (hkind : (tape.kind pos).isBorder = false) (hnext : tape.next pos = pos + 1)
    (hfirst : BodyEnds tape calls low room (pos + 1) before reply) (hstuck : reply.isDone = false)
    (hshallow : reply.trail.tooDeep = none)
    (hsecond : BodyEnds tape calls low room pos reply.trail reply')
    (hshallow' : reply'.trail.tooDeep = none) : Course tape pos before reply' := by
  have hcourse := hsecond.course
  have hstep : tape.Reaches pos (pos + 1) := hnext ▸ Tape.Reaches.next hkind
  have hplain : ∀ at', tape.Reaches (pos + 1) at' →
      tape.Encloses pos at' ∧ tape.Shelters reply'.pos at' :=
    fun at' hat => ⟨(hstep.trans hat).encloses, (hstep.trans hat).shelters hcourse.le⟩
  have hfits : ∀ at', tape.kind reply'.pos = .openBracket → tape.Reaches (pos + 1) at' →
      at' ≤ reply'.pos :=
    fun at' hopen hat => hstep.trans hat _ hcourse.le (by rw [hopen]; rfl)
  cases hfirst with
  | plain hle hreach hadds _ =>
      exact hcourse.after (hadds.mono hplain) fun _ hopen => hadds.mono fun at' => hfits at' hopen
  | @bracket bracket mid hle hreach hopen hknows hadds hinside hpos htrail hdone =>
      have hborder : (tape.kind bracket).isBorder = true := by rw [hopen]; rfl
      have hbracket := hstep.trans hreach
      have hlate : pos ≤ bracket := Nat.le_of_succ_le hle
      rw [htrail] at hsecond hcourse hshallow
      have hadds' : (((tier true room).subquery tape bracket mid).pos = reply'.pos ∨
          tape.Reaches pos reply'.pos) → before.Adds
            ((tier true room).subquery tape bracket mid).trail
            fun at' => tape.Encloses pos at' ∧ tape.Shelters reply'.pos at' := by
        intro hends
        refine (hadds.mono hplain).trans (hinside.adds.mono fun at' hat => ⟨?_, ?_⟩)
        · exact hbracket.encloses.trans hlate
            ((Tape.Encloses.step (by simp [hopen]) (by simp [hopen])).trans (Nat.le_succ _) hat.1)
        · rcases hends with hsame | hreaches
          · exact hsame ▸ hat.2
          · exact .of_bracket hopen hat.1 (hbracket.from hcourse.le) (hreaches bracket hlate hborder)
      cases hsecond with
      | plain hle' hreach' hadds'' hkind' =>
          exact hcourse.after (hadds' (.inr hreach')) fun hdone' hopen' =>
            absurd hopen' (hkind' hdone')
      | @bracket bracket' mid' hle' hreach' hopen' hknows' _ _ hpos' htrail' hdone' =>
          have hpast : pos ≠ bracket' := by
            rintro rfl
            rw [hopen'] at hkind
            cases hkind
          obtain rfl : bracket' = bracket := by
            have := hreach' bracket hlate hborder
            have := hreach bracket' (by omega) (by rw [hopen']; rfl)
            omega
          rw [htrail'] at hshallow'
          obtain ⟨hends, hsame⟩ := subquery_same hlevel (Nat.le_trans hlow hlate) hknows hknows'
            hshallow hshallow'
          refine hcourse.after (hadds' (.inl (hsame.trans hpos'.symm))) fun hdone'' _ => ?_
          rw [hdone', ← hends, ← hdone, hstuck] at hdone''
          cases hdone''

omit hsub in
-- What was remembered may still be recalled behind a body.
theorem body_knows (hlow : low ≤ pos) (hknows : trail.Knows tape calls low) :
    Ends tape pos (body (tier true room)) trail fun reply => reply.trail.Knows tape calls low := by
  intro hshallow
  obtain ⟨outcome, notes, -, -, hfollows⟩ :=
    ((Composed.body calls true pos).tracks hsteady hlevel).follows hlow hknows hshallow
  exact hfollows.knows

include hot

theorem openings_ends (hlow : low ≤ pos) (hknows : trail.Knows tape calls low) :
    Ends tape pos (firstOf [openingWithCommand (tier true room), do
      return (none, ← body (tier true room))]) trail (Course tape pos trail) := by
  have hkept := tier_staysDeep tape true room
  have hbody := fun mid => (Composed.body calls true mid).staysDeep hkept
  refine Ends.firstOf_pair (P := fun reply =>
      (tape.kind pos = .openingCommand ∧ reply.trail.Knows tape calls low ∧
        BodyEnds tape calls low room (pos + 1) trail reply) ∨
      reply = .stuck pos trail) ?_ ?_ ?_ ?_
  · unfold openingWithCommand
    apply Ends.peek_bind
    split
    · next hkind =>
      have hnext : tape.next pos = pos + 1 := hot.next_eq (by simp [hkind])
      refine (command_ends tape pos trail).bind (fun _ mid => (hbody mid).bind fun _ _ _ _ => rfl) ?_ ?_
      · rintro c mid later (⟨c, hreply, -⟩ | ⟨⟨wanted, hreply⟩, -⟩)
        swap
        · cases hreply
        cases hreply
        rw [hnext]
        have hends : Ends tape (pos + 1) (body (tier true room)) trail fun reply =>
            BodyEnds tape calls low room (pos + 1) trail reply ∧ reply.trail.Knows tape calls low :=
          fun hshallow => ⟨body_ends hsteady hlevel hsub (by omega) hknows hshallow,
            body_knows hsteady hlevel (by omega) hknows hshallow⟩
        refine hends.quiet (fun _ _ _ => ⟨_, rfl⟩) ?_ ?_
        · exact fun _ _ stop rest hfound => .inl ⟨hkind, hfound.2, hfound.1.congr rfl rfl rfl⟩
        · exact fun stop rest hfound => .inl ⟨hkind, hfound.2, hfound.1.congr rfl rfl rfl⟩
      · rintro stop later (⟨c, hreply, -⟩ | ⟨-, hcommand⟩)
        · cases hreply
        · rw [hkind] at hcommand
          cases hcommand
    · exact fun _ => .inr rfl
  · exact (hbody pos).bind fun _ _ _ _ => rfl
  · rintro value stop later (⟨hkind, -, hends⟩ | hreply)
    · refine (hends.course).of_next (by simp [hkind]) ?_
      rw [hkind]
      rfl
    · cases hreply
  · rintro stop later (⟨hkind, hlater, hends⟩ | hreply)
    · have hnext : tape.next pos = pos + 1 := hot.next_eq (by simp [hkind])
      have hsecond : Ends tape pos (body (tier true room)) later fun reply =>
          Course tape pos trail reply := by
        intro hshallow
        exact BodyEnds.retry hlevel hlow (by rw [hkind]; rfl) hnext hends rfl hlater.shallow
          (body_ends hsteady hlevel hsub hlow hlater hshallow) hshallow
      refine hsecond.quiet (fun _ _ _ => ⟨_, rfl⟩) ?_ ?_
      · exact fun _ _ stop rest hfound => hfound.congr rfl rfl rfl
      · exact fun stop rest hfound => hfound.congr rfl rfl rfl
    · cases hreply
      refine Ends.quiet (P := Course tape pos trail)
        (fun hshallow => (body_ends hsteady hlevel hsub hlow hknows hshallow).course)
        (fun _ _ _ => ⟨_, rfl⟩) ?_ ?_
      · exact fun _ _ stop rest hfound => hfound.congr rfl rfl rfl
      · exact fun stop rest hfound => hfound.congr rfl rfl rfl

theorem opening_ends (hlow : low ≤ pos) (hknows : trail.Knows tape calls low) :
    Ends tape pos (opening (tier true room)) trail (Course tape pos trail) := by
  unfold opening
  refine Ends.position_bind (Ends.eat_bind (fun hpipe => ?_) fun _ => ?_)
  · have hweight : bracketWeight (tape.kind pos) = 0 := by rw [hpipe]; rfl
    have hfinish : tape.kind pos ≠ .finish := by simp [hpipe]
    rw [hot.next_eq hfinish]
    refine (openings_ends hot hsteady hlevel hsub (by omega) hknows).quiet (fun _ _ _ => ⟨_, rfl⟩)
      ?_ ?_
    · exact fun _ _ stop later h => (h.of_next hfinish hweight).congr rfl rfl rfl
    · exact fun stop later h => (h.of_next hfinish hweight).congr rfl rfl rfl
  · refine (openings_ends hot hsteady hlevel hsub hlow hknows).quiet (fun _ _ _ => ⟨_, rfl⟩) ?_ ?_
    · exact fun _ _ stop later h => h.congr rfl rfl rfl
    · exact fun stop later h => h.congr rfl rfl rfl

theorem stage_ends (hlow : low ≤ pos) (hknows : trail.Knows tape calls low) :
    Ends tape pos (stage (tier true room)) trail (Course tape pos trail) := by
  have hkept := tier_staysDeep tape true room
  have hbody := fun mid => (Composed.body calls true mid).staysDeep hkept
  unfold stage
  refine Ends.position_bind ((command_ends tape pos trail).bind
    (fun c mid => (hbody mid).bind fun _ _ _ _ => rfl) ?_ ?_)
  · rintro c mid later (⟨_, hreply, hcommand⟩ | ⟨⟨wanted, hreply⟩, -⟩)
    swap
    · cases hreply
    cases hreply
    have hfinish : tape.kind pos ≠ .finish := by
      intro h
      rw [h] at hcommand
      cases hcommand
    have hweight : bracketWeight (tape.kind pos) = 0 := by
      cases h : tape.kind pos <;> first | rfl | (rw [h] at hcommand; cases hcommand)
    rw [hot.next_eq hfinish]
    refine Ends.quiet (P := Course tape (pos + 1) trail)
      (fun hshallow => (body_ends hsteady hlevel hsub (by omega) hknows hshallow).course)
      (fun _ _ _ => ⟨_, rfl⟩) ?_ ?_
    · exact fun _ _ stop rest h => (h.of_next hfinish hweight).congr rfl rfl rfl
    · exact fun stop rest h => (h.of_next hfinish hweight).congr rfl rfl rfl
  · rintro stop later (⟨_, hreply, -⟩ | ⟨⟨wanted, hreply⟩, -⟩)
    · cases hreply
    · cases hreply
      exact .of_miss wanted

omit hot hsub in
theorem stage_knows (hlow : low ≤ pos) (hknows : trail.Knows tape calls low) :
    Ends tape pos (stage (tier true room)) trail fun reply => reply.trail.Knows tape calls low := by
  intro hshallow
  obtain ⟨outcome, notes, -, -, hfollows⟩ :=
    ((Composed.stage calls pos).tracks hsteady hlevel).follows hlow hknows hshallow
  exact hfollows.knows

-- The stages behind the first one, each behind its `|`.
theorem laterStages_ends {start : Nat} {before : Trail} (fuel : Nat) (found : List Stage)
    (hcourse : Course tape start before (.done found pos trail)) (hlow : low ≤ start)
    (hknows : trail.Knows tape calls low) :
    Ends tape pos (iterate (laterStage (tier true room)) fuel found) trail
      (Course tape start before) := by
  have hkept := tier_staysDeep tape true room
  induction fuel generalizing found pos trail with
  | zero => exact .pure hcourse
  | succ fuel ih =>
      have hpos : low ≤ pos := Nat.le_trans hlow hcourse.le
      have hdeep : ∀ (fuel : Nat) (found : List Stage) (mid : Nat),
          StaysDeep tape mid (iterate (laterStage (tier true room)) fuel found) :=
        StaysDeep.iterate fun found mid =>
          (Composed.laterStage calls found mid).staysDeep hkept
      refine Ends.bind (P := fun reply => reply = .done none pos trail ∨
        Course tape start before reply ∧ reply.trail.Knows tape calls low) ?_ ?_ ?_ ?_
      · refine Ends.eat_bind (fun hpipe => ?_) fun _ => .pure (.inl rfl)
        rw [hot.next_eq (by simp [hpipe])]
        refine Ends.quiet (P := fun reply => Course tape start before reply ∧
          reply.trail.Knows tape calls low) (fun hshallow => ?_) (fun _ _ _ => ⟨_, rfl⟩) ?_ ?_
        · exact ⟨hcourse.step hpipe (stage_ends hot hsteady hlevel hsub (by omega) hknows hshallow),
            stage_knows hsteady hlevel (by omega) hknows hshallow⟩
        · exact fun _ _ stop later h => .inr ⟨h.1.congr rfl rfl rfl, h.2⟩
        · exact fun stop later h => .inr ⟨h.1.congr rfl rfl rfl, h.2⟩
      · rintro (_ | next) mid
        · exact fun _ _ => rfl
        · exact hdeep fuel next mid
      · rintro (_ | next) mid later hends
        · rcases hends with hreply | ⟨hends, -⟩
          · cases hreply
            exact .pure hcourse
          · exact .pure (hends.congr rfl rfl rfl)
        · rcases hends with hreply | ⟨hends, hlater⟩
          · cases hreply
          · exact ih next (hends.congr rfl rfl rfl) hlater
      · rintro stop later (hreply | ⟨hends, -⟩)
        · cases hreply
        · exact hends.congr rfl rfl rfl

theorem bracketed_ends (hlow : low ≤ pos) (hknows : trail.Knows tape calls low)
    (hopen : tape.kind pos = .openBracket) :
    Ends tape pos (bracketed (tier true room)) trail (Inside tape pos trail) := by
  have hkept := tier_staysDeep tape true room
  unfold bracketed
  refine Ends.position_bind (Ends.expect_bind (fun _ => ?_) fun h => absurd hopen h)
  rw [hot.next_eq (by simp [hopen])]
  have hclosing : ∀ (first : Stage) (later : List Stage) (last : Nat),
      Composed tape calls true true last (fun _ => expect .closeBracket >>= fun _ =>
        spanFrom pos >>= fun span => Pure.pure (Subquery.mk first later.reverse span))
        fun _ _ => True :=
    fun first later last => .expect_bind (.inl rfl) fun _ => .spanFrom_bind (.pure trivial)
  have hend : ∀ (first : Stage) (mid : Nat), Composed tape calls true true mid
      (fun level => repeatStep (laterStage level) [] >>= fun later =>
        expect .closeBracket >>= fun _ => spanFrom pos >>= fun span =>
          Pure.pure (Subquery.mk first later.reverse span)) fun _ _ => True :=
    fun first mid => (Composed.laterStages calls mid).seq fun later last => hclosing first later last
  -- what stands in the bracket ends at its level, and only the closing bracket leaves it
  have hinside : ∀ (reply : Reply Subquery), Course tape (pos + 1) trail reply →
      reply.isDone = false → Inside tape pos trail reply := by
    intro reply hcourse hstuck
    refine ⟨by have := hcourse.le; omega, ?_, hcourse.adds, by simp [hstuck]⟩
    exact (Tape.Encloses.step (by simp [hopen]) (by simp [hopen])).trans (Nat.le_succ _)
      hcourse.encloses
  refine Ends.bind (P := fun reply => Course tape (pos + 1) trail reply ∧
    reply.trail.Knows tape calls low) (fun hshallow => ⟨?_, ?_⟩)
    (fun first mid => (hend first mid).staysDeep hkept) ?_ ?_
  · exact opening_ends hot hsteady hlevel hsub (by omega) hknows hshallow
  · obtain ⟨outcome, notes, -, -, hfollows⟩ := ((Composed.opening calls _).tracks hsteady
      hlevel).follows (by omega : low ≤ pos + 1) hknows hshallow
    exact hfollows.knows
  · rintro first mid later ⟨hcourse, hlater⟩
    refine Ends.bind (P := Course tape (pos + 1) trail)
      (laterStages_ends hot hsteady hlevel hsub (tape.size - mid) []
        (hcourse.congr rfl rfl rfl) (by omega) hlater) ?_ ?_ ?_
    · exact fun found last => (hclosing first found last).staysDeep hkept
    · intro found last rest hends
      refine Ends.expect_bind (fun hclose => ?_) fun _ => ?_
      · rw [hot.next_eq (by simp [hclose])]
        exact .spanFrom_bind (.pure (hends.close hopen hclose))
      · exact hinside _ (hends.miss_behind _) rfl
    · exact fun stop rest hends => hinside _ (hends.congr rfl rfl rfl) rfl
  · exact fun stop later h => hinside _ (h.1.congr rfl rfl rfl) rfl

end

-- Subqueries at every level stay inside their brackets.
theorem tier_inside (hot : tape.Orderly) (hbehind : ∀ pos, tape.size ≤ pos → tape.kind pos = .finish)
    (hsound : calls.Sound tape) (room : Nat) (hlow : low ≤ pos) (hknows : trail.Knows tape calls low)
    (hopen : tape.kind pos = .openBracket) :
    Ends tape pos (tier true room).subquery trail (Inside tape pos trail) := by
  have hshallow := hknows.shallow
  induction room generalizing pos trail with
  | zero =>
      intro hends
      exact absurd hends (Sinks.sink.whileShallow trail hshallow)
  | succ room ih =>
      have hends := bracketed_ends hot (tier_steady hot hbehind room)
        (tier_tracks hot hbehind hsound low room)
        (fun bracket trail hlow hknows hopen => ih hlow hknows hopen hknows.shallow) hlow hknows hopen
      unfold Ends at hends ⊢
      simp only [tier, whileShallow, hshallow, Option.isSome_none, Bool.false_eq_true, if_false]
      exact hends

end SearchPipeline.Grammar
