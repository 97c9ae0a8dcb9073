import SearchPipeline.Proofs.Grammar.Steady

namespace SearchPipeline.Grammar

open Rule

-- What is kept of how an expression ended.
def Outcome.entry : Outcome Expr → Option (Expr × Nat)
  | done e stop => some (e, stop)
  | stuck _ => none

-- No border stands between two positions, apart from the latter.
def Tape.Reaches (tape : Tape) (pos stop : Nat) : Prop :=
  ∀ border, pos ≤ border → (tape.kind border).isBorder = true → stop ≤ border

theorem Tape.Reaches.refl (tape : Tape) (pos : Nat) : tape.Reaches pos pos := fun _ h _ => h

theorem Tape.Reaches.trans {tape : Tape} {pos mid stop : Nat} (h : tape.Reaches pos mid)
    (h' : tape.Reaches mid stop) : tape.Reaches pos stop :=
  fun border hpos hborder => h' border (h border hpos hborder) hborder

theorem Tape.Reaches.next {tape : Tape} {pos : Nat} (hkind : (tape.kind pos).isBorder = false) :
    tape.Reaches pos (tape.next pos) := by
  intro border hpos hborder
  rcases Nat.eq_or_lt_of_le hpos with rfl | hlt
  · rw [hkind] at hborder
    cases hborder
  · unfold Tape.next
    split <;> omega

theorem Tape.le_next (tape : Tape) (pos : Nat) : pos ≤ tape.next pos := by
  unfold Tape.next
  split <;> omega

-- What is remembered at a position is how the rule settles there, and the trail has all failures
-- noted that the rule would note.
structure Trail.Recalls (tape : Tape) (calls : Calls) (trail : Trail) (pos least : Nat)
    (outcome : Outcome Expr) : Prop where
  settles : ∃ notes, Settles tape pos (fun level => level.expression least) outcome notes ∧
    ∀ note ∈ notes, trail.Covers note
  meets : outcome.Meets (calls.expression least pos)
  bounds : ∀ e stop, outcome = .done e stop → pos ≤ stop ∧ tape.Reaches pos stop

-- The nesting is not too deep, and what is remembered from a position on may be recalled.
structure Trail.Knows (tape : Tape) (calls : Calls) (low : Nat) (trail : Trail) : Prop where
  shallow : trail.tooDeep = none
  recalls : ∀ pos least entry, low ≤ pos → trail.memo[(pos, least)]? = some entry →
    ∃ outcome, entry = outcome.entry ∧ trail.Recalls tape calls pos least outcome

-- A reply ends as a rule settles. Where it is stuck may depend on what is remembered, unless the rule
-- is exact.
inductive Reply.Mirrors {α : Type} (exact : Bool) : Outcome α → Reply α → Prop where
  | done (value : α) (pos : Nat) (trail : Trail) :
      Mirrors exact (.done value pos) (.done value pos trail)
  | stuck {pos pos' : Nat} (trail : Trail) : (exact = true → pos' = pos) →
      Mirrors exact (.stuck pos) (.stuck pos' trail)

namespace Reply.Mirrors

variable {α : Type} {exact exact' : Bool} {outcome : Outcome α} {reply : Reply α}

theorem weaken (h : reply.Mirrors exact outcome) (hexact : exact' = true → exact = true) :
    reply.Mirrors exact' outcome := by
  cases h with
  | done value stop rest => exact .done value stop rest
  | stuck rest hsame => exact .stuck rest fun h => hsame (hexact h)

theorem eq_done {value : α} {stop : Nat} (h : reply.Mirrors exact (.done value stop)) :
    reply = .done value stop reply.trail := by
  cases h
  rfl

theorem eq_stuck {stop : Nat} (h : reply.Mirrors exact (.stuck stop)) :
    ∃ stop', reply = .stuck stop' reply.trail ∧ (exact = true → stop' = stop) := by
  cases h with
  | stuck rest hsame => exact ⟨_, rfl, hsame⟩

end Reply.Mirrors

-- The second trail has nothing new remembered, and no failure noted further on than before, but at
-- positions of which something holds.
structure Trail.Adds (trail later : Trail) (K : Nat → Prop) : Prop where
  keys : ∀ key : Nat × Nat, key ∈ later.memo → key ∈ trail.memo ∨ K key.1
  furthest : ∀ pos, later.furthest = some pos → trail.furthest = some pos ∨ K pos

namespace Trail.Adds

variable {trail mid later : Trail} {K L : Nat → Prop}

theorem refl (trail : Trail) (K : Nat → Prop) : trail.Adds trail K :=
  ⟨fun _ h => .inl h, fun _ h => .inl h⟩

theorem trans (h : trail.Adds mid K) (h' : mid.Adds later K) : trail.Adds later K where
  keys key hkey := (h'.keys key hkey).elim (h.keys key) .inr
  furthest pos hpos := (h'.furthest pos hpos).elim (h.furthest pos) .inr

theorem mono (h : trail.Adds later K) (himp : ∀ pos, K pos → L pos) : trail.Adds later L where
  keys key hkey := (h.keys key hkey).imp_right (himp _)
  furthest pos hpos := (h.furthest pos hpos).imp_right (himp _)

theorem insert (h : trail.Adds later K) (least : Nat) (entry : Option (Expr × Nat)) {pos : Nat}
    (hpos : K pos) : trail.Adds { later with memo := later.memo.insert (pos, least) entry } K where
  keys key hkey := by
    rcases Std.TreeMap.mem_insert.1 hkey with hsame | hold
    · cases compareKeys_eq_iff.1 hsame
      exact .inr hpos
    · exact h.keys key hold
  furthest := h.furthest

theorem note (h : trail.Adds later K) {pos : Nat} (wanted : Wanted) (hpos : K pos) :
    trail.Adds (later.note pos wanted) K where
  keys key hkey := h.keys key (by rwa [note_memo] at hkey)
  furthest at' hat := by
    rcases note_furthest hat with rfl | hold
    · exact .inr hpos
    · exact h.furthest at' hold

theorem follow (h : trail.Adds later K) {notes : List Note} (hnotes : ∀ noted ∈ notes, K noted.1) :
    trail.Adds (later.follow notes) K := by
  induction notes generalizing later with
  | nil => exact h
  | cons first notes ih =>
      exact ih (h.note first.2 (hnotes first List.mem_cons_self)) fun noted hmem =>
        hnotes noted (List.mem_cons_of_mem _ hmem)

end Trail.Adds

variable {α β : Type} {tape : Tape} {calls : Calls} {wide exact : Bool} {low room pos : Nat}

-- A reply to a rule that settles with an outcome and notes of failures.
structure Reply.Follows (tape : Tape) (calls : Calls) (wide exact : Bool) (low pos : Nat)
    (trail : Trail) (outcome : Outcome α) (notes : List Note) (reply : Reply α) : Prop where
  mirrors : reply.Mirrors exact outcome
  knows : reply.trail.Knows tape calls low
  follows : reply.trail = { trail.follow notes with memo := reply.trail.memo }
  le : pos ≤ reply.pos
  behind : trail.Adds reply.trail (pos ≤ ·)
  within : wide = false → tape.Reaches pos reply.pos ∧
    trail.Adds reply.trail fun at' => tape.Reaches pos at'

-- From a position on, a rule that remembers ends as it settles, or finds the nesting too deep. In the
-- latter case so does the rule that does not remember.
def Tracks (tape : Tape) (calls : Calls) (wide exact : Bool) (low room pos : Nat)
    (rule : Level → Rule α) (kept : Rule α) (P : α → Nat → Prop) : Prop :=
  low ≤ pos → ∀ trail : Trail, trail.Knows tape calls low →
    ((kept tape pos trail).trail.tooDeep ≠ none ∧ Sinks tape pos (rule (tier false room))) ∨
    ∃ outcome notes, Settles tape pos rule outcome notes ∧ outcome.Meets P ∧
      (kept tape pos trail).Follows tape calls wide exact low pos trail outcome notes

theorem Trail.Recalls.mono {trail later : Trail} {least : Nat} {outcome : Outcome Expr}
    (h : trail.Recalls tape calls pos least outcome)
    (hcovers : ∀ noted, trail.Covers noted → later.Covers noted) :
    later.Recalls tape calls pos least outcome := by
  obtain ⟨⟨notes, hsettles, hnotes⟩, hmeets, hbounds⟩ := h
  exact ⟨⟨notes, hsettles, fun noted hmem => hcovers noted (hnotes noted hmem)⟩, hmeets, hbounds⟩

namespace Trail.Knows

variable {trail : Trail}

theorem note (h : trail.Knows tape calls low) (pos : Nat) (wanted : Wanted) :
    (trail.note pos wanted).Knows tape calls low where
  shallow := by rw [note_tooDeep, h.shallow]
  recalls at' least entry hlow hget := by
    rw [note_memo] at hget
    obtain ⟨outcome, hentry, hrecalls⟩ := h.recalls at' least entry hlow hget
    exact ⟨outcome, hentry, hrecalls.mono fun noted hcovers => hcovers.note pos wanted⟩

-- What is remembered of a further expression may be recalled as well.
theorem insert (h : trail.Knows tape calls low) {pos least : Nat} {outcome : Outcome Expr}
    (hrecalls : trail.Recalls tape calls pos least outcome) :
    ({ trail with memo := trail.memo.insert (pos, least) outcome.entry } : Trail).Knows tape calls
      low where
  shallow := h.shallow
  recalls at' least' entry hlow hget := by
    simp only [Std.TreeMap.getElem?_insert, compareKeys_eq_iff, Prod.mk.injEq] at hget
    split at hget
    · next hkey =>
      obtain ⟨rfl, rfl⟩ := hkey
      cases hget
      exact ⟨outcome, rfl, hrecalls.mono fun _ hcovers => hcovers⟩
    · obtain ⟨other, hentry, hother⟩ := h.recalls at' least' entry hlow hget
      exact ⟨other, hentry, hother.mono fun _ hcovers => hcovers⟩

end Trail.Knows

namespace Tracks

variable {rule : Level → Rule α} {P : α → Nat → Prop}

theorem mono {kept : Rule α} {Q : α → Nat → Prop}
    (h : Tracks tape calls wide exact low room pos rule kept P)
    (himp : ∀ value stop, P value stop → Q value stop) :
    Tracks tape calls wide exact low room pos rule kept Q := by
  intro hlow trail hknows
  refine (h hlow trail hknows).imp_right ?_
  rintro ⟨outcome, notes, hsettles, hmeets, hfollows⟩
  exact ⟨outcome, notes, hsettles, hmeets.mono himp, hfollows⟩

-- What tracks exactly and within borders does so in every sense.
theorem weaken {kept : Rule α} {wide' exact' : Bool}
    (h : Tracks tape calls wide exact low room pos rule kept P)
    (hwide : wide' = false → wide = false) (hexact : exact' = true → exact = true) :
    Tracks tape calls wide' exact' low room pos rule kept P := by
  intro hlow trail hknows
  refine (h hlow trail hknows).imp_right ?_
  rintro ⟨outcome, notes, hsettles, hmeets, hmirrors, hlater, hfollows, hle, hbehind, hwithin⟩
  exact ⟨outcome, notes, hsettles, hmeets, hmirrors.weaken hexact, hlater, hfollows, hle, hbehind,
    fun h => hwithin (hwide h)⟩

-- A rule that takes no tokens and leaves the memo alone.
theorem of_reply {kept : Rule α} (outcome : Outcome α) (notes : List Note)
    (hsettles : Settles tape pos rule outcome notes) (hmeets : outcome.Meets P)
    (hreply : ∀ trail, kept tape pos trail = outcome.reply (trail.follow notes))
    (hknows : ∀ trail : Trail, trail.Knows tape calls low →
      (trail.follow notes).Knows tape calls low) (hpos : outcome.pos = pos)
    (hnotes : ∀ noted ∈ notes, noted.1 = pos) :
    Tracks tape calls wide exact low room pos rule kept P := by
  intro _ trail hlow
  refine .inr ⟨outcome, notes, hsettles, hmeets, ?_⟩
  rw [hreply]
  have hadds : trail.Adds (trail.follow notes) (· = pos) := (Trail.Adds.refl trail _).follow hnotes
  have hbehind : trail.Adds (trail.follow notes) (pos ≤ ·) :=
    hadds.mono fun at' hat => Nat.le_of_eq hat.symm
  have hwithin : trail.Adds (trail.follow notes) (tape.Reaches pos) :=
    hadds.mono fun at' hat => hat ▸ .refl tape pos
  cases outcome with
  | done value stop =>
      cases hpos
      exact ⟨.done _ _ _, hknows trail hlow, rfl, Nat.le_refl _, hbehind,
        fun _ => ⟨.refl _ _, hwithin⟩⟩
  | stuck stop =>
      cases hpos
      exact ⟨.stuck _ fun _ => rfl, hknows trail hlow, rfl, Nat.le_refl _, hbehind,
        fun _ => ⟨.refl _ _, hwithin⟩⟩

-- What follows a rule that is done goes on from what that rule left.
theorem follows_bind {value : α} {mid : Nat} {trail : Trail} {reply : Reply α} {last : Reply β}
    {outcome : Outcome β} {notes notes' : List Note}
    (h : reply.Follows tape calls wide exact low pos trail (.done value mid) notes)
    (hlast : last.Follows tape calls wide exact low mid reply.trail outcome notes') :
    last.Follows tape calls wide exact low pos trail outcome (notes ++ notes') where
  mirrors := hlast.mirrors
  knows := hlast.knows
  follows := by
    rw [hlast.follows, h.follows, Trail.follow_with_memo, Trail.follow_append]
  le := by
    have hmid := h.le
    rw [h.mirrors.eq_done] at hmid
    exact Nat.le_trans hmid hlast.le
  behind := by
    have hmid := h.le
    rw [h.mirrors.eq_done] at hmid
    exact h.behind.trans (hlast.behind.mono fun at' => Nat.le_trans hmid)
  within hwide := by
    have hmid := h.within hwide
    have hrest := hlast.within hwide
    have hreach : tape.Reaches pos mid := by
      have := hmid.1
      rwa [h.mirrors.eq_done] at this
    exact ⟨hreach.trans hrest.1, hmid.2.trans (hrest.2.mono fun _ => hreach.trans)⟩

theorem bind {kept : Rule α} {next : α → Level → Rule β} {keptNext : α → Rule β}
    {Q : β → Nat → Prop} (h : Tracks tape calls wide exact low room pos rule kept P)
    (hdeep : ∀ trail, (kept tape pos trail).trail.tooDeep ≠ none →
      ((kept >>= keptNext) tape pos trail).trail.tooDeep ≠ none)
    (hsink : Sinks tape pos (rule (tier false room)) → Sinks tape pos
      (rule (tier false room) >>= fun value => next value (tier false room)))
    (hsteady : Rule.Steady tape room pos rule)
    (hnext : ∀ value mid, P value mid →
      Tracks tape calls wide exact low room mid (next value) (keptNext value) Q) :
    Tracks tape calls wide exact low room pos (fun level => rule level >>= fun value => next value level)
      (kept >>= keptNext) Q := by
  intro hlow trail hknows
  obtain ⟨hsunk, hsinks⟩ | ⟨outcome, notes, hsettles, hmeets, hfollows⟩ := h hlow trail hknows
  · exact .inl ⟨hdeep trail hsunk, hsink hsinks⟩
  have hbind : (kept >>= keptNext) tape pos trail = Rule.bind kept keptNext tape pos trail := rfl
  rw [hbind, Rule.bind]
  cases outcome with
  | stuck mid =>
      obtain ⟨mid', hreply, hsame⟩ := hfollows.mirrors.eq_stuck
      rw [hreply] at hfollows ⊢
      refine .inr ⟨_, notes, hsettles.bind_stuck, trivial, ?_⟩
      exact ⟨.stuck _ hsame, hfollows.knows, hfollows.follows, hfollows.le, hfollows.behind,
        hfollows.within⟩
  | done value mid =>
      have hreply := hfollows.mirrors.eq_done
      have hmid := hfollows.le
      rw [hreply] at hmid ⊢
      obtain ⟨hsunk, hsinks⟩ | ⟨outcome, notes', hsettles', hmeets', hfollows'⟩ :=
        hnext value mid hmeets (Nat.le_trans hlow hmid) _ hfollows.knows
      · refine .inl ⟨hsunk, ?_⟩
        obtain hplays | hsinks' := hsteady.plays_or_sinks hsettles
        · exact .bind_done hplays hsinks
        · exact hsink hsinks'
      · exact .inr ⟨outcome, _, hsettles.bind_done hsettles', hmeets', follows_bind hfollows hfollows'⟩

theorem advance_bind {next : Mark → Level → Rule β} {keptNext : Mark → Rule β}
    {Q : β → Nat → Prop} (hkind : wide = true ∨ (tape.kind pos).isBorder = false)
    (h : Tracks tape calls wide exact low room (tape.next pos) (next (tape.mark pos))
      (keptNext (tape.mark pos)) Q) :
    Tracks tape calls wide exact low room pos
      (fun level => advance >>= fun mark => next mark level) (advance >>= keptNext) Q := by
  intro hlow trail hknows
  have hnext := tape.le_next pos
  refine (h (Nat.le_trans hlow hnext) trail hknows).imp_right ?_
  rintro ⟨outcome, notes, hsettles, hmeets, hmirrors, hlater, hfollows, hle, hbehind, hwithin⟩
  refine ⟨outcome, notes, hsettles, hmeets, hmirrors, hlater, hfollows, Nat.le_trans hnext hle,
    hbehind.mono fun _ => Nat.le_trans hnext, ?_⟩
  intro hwide
  have hreach := Tape.Reaches.next (hkind.resolve_left (by simp [hwide]))
  exact ⟨hreach.trans (hwithin hwide).1, (hwithin hwide).2.mono fun _ => hreach.trans⟩

-- An attempt that fails goes on where it began, so where it was stuck does not matter.
theorem attempt {kept : Rule α} (h : Tracks tape calls wide false low room pos rule kept P) :
    Tracks tape calls wide exact low room pos (fun level => Rule.attempt (rule level))
      (Rule.attempt kept) fun found stop => (∀ value, found = some value → P value stop) ∧
        (found = none → stop = pos ∧ Fails tape pos rule) := by
  intro hlow trail hknows
  obtain ⟨hsunk, hsinks⟩ | ⟨outcome, notes, hsettles, hmeets, hfollows⟩ := h hlow trail hknows
  · exact .inl ⟨by rwa [attempt_trail], Sinks.attempt_iff.2 hsinks⟩
  unfold Rule.attempt
  cases outcome with
  | stuck mid =>
      obtain ⟨mid', hreply, -⟩ := hfollows.mirrors.eq_stuck
      rw [hreply] at hfollows ⊢
      refine .inr ⟨_, notes, hsettles.attempt_stuck, ⟨by simp, fun _ => ⟨rfl, mid, notes, hsettles⟩⟩, ?_⟩
      exact ⟨.done none pos _, hfollows.knows, hfollows.follows, Nat.le_refl _, hfollows.behind,
        fun hwide => ⟨.refl _ _, (hfollows.within hwide).2⟩⟩
  | done value mid =>
      have hreply := hfollows.mirrors.eq_done
      rw [hreply] at hfollows ⊢
      refine .inr ⟨_, notes, hsettles.attempt_done, ⟨?_, by simp⟩, ?_⟩
      · rintro _ ⟨⟩
        exact hmeets
      · exact ⟨.done (some value) mid _, hfollows.knows, hfollows.follows, hfollows.le,
          hfollows.behind, hfollows.within⟩

end Tracks

-- A reply where the nesting is not too deep.
theorem Tracks.follows {rule : Level → Rule α} {kept : Rule α} {P : α → Nat → Prop}
    (h : Tracks tape calls wide exact low room pos rule kept P) (hlow : low ≤ pos) {trail : Trail}
    (hknows : trail.Knows tape calls low) (hshallow : (kept tape pos trail).trail.tooDeep = none) :
    ∃ outcome notes, Settles tape pos rule outcome notes ∧ outcome.Meets P ∧
      (kept tape pos trail).Follows tape calls wide exact low pos trail outcome notes :=
  (h hlow trail hknows).resolve_left fun hsunk => hsunk.1 hshallow

-- The rules of a level that remembers end as they settle.
structure Level.Tracks (tape : Tape) (calls : Calls) (low room : Nat) : Prop where
  expression : ∀ least pos, Grammar.Tracks tape calls false false low room pos
    (fun level => level.expression least) ((tier true room).expression least)
    (calls.expression least pos)
  operation : ∀ least pos, Grammar.Tracks tape calls false true low room pos
    (fun level => level.operation least) ((tier true room).operation least)
    (calls.operation least pos)
  subquery : ∀ pos, Grammar.Tracks tape calls true true low room pos
    (fun level => level.subquery) (tier true room).subquery (calls.subquery pos)

-- What a rule calls for is done as it settles.
theorem Tracks.yields {rule : Level → Rule α} {kept : Rule α} {P : α → Nat → Prop}
    (h : Tracks tape calls wide exact low room pos rule kept P) :
    Tracks tape calls wide exact low room pos rule kept
      fun value stop => P value stop ∧ Yields tape pos rule value stop := by
  intro hlow trail hknows
  refine (h hlow trail hknows).imp_right ?_
  rintro ⟨outcome, notes, hsettles, hmeets, hfollows⟩
  refine ⟨outcome, notes, hsettles, ?_, hfollows⟩
  cases outcome with
  | done value stop => exact ⟨hmeets, notes, hsettles⟩
  | stuck stop => trivial

theorem Composed.tracks {rule : Level → Rule α} {P : α → Nat → Prop}
    (h : Composed tape calls wide exact pos rule P) (hsteady : Level.Steady tape room)
    (hlevel : Level.Tracks tape calls low room) :
    Tracks tape calls wide exact low room pos rule (rule (tier true room)) P := by
  have hkept := tier_staysDeep tape true room
  have hafresh := tier_staysDeep tape false room
  induction h with
  | pure hvalue =>
      exact .of_reply (.done _ _) [] (.of_plays fun _ _ => rfl) hvalue
        (fun _ => rfl) (fun _ h => h) rfl (by simp)
  | miss wanted =>
      exact .of_reply (.stuck _) [(_, wanted)] (.of_plays fun _ _ => rfl)
        trivial (fun _ => rfl) (fun _ h => h.note _ _) rfl (by simp)
  | refuse =>
      exact .of_reply (.stuck _) [] (.of_plays fun _ _ => rfl) trivial
        (fun _ => rfl) (fun _ h => h) rfl (by simp)
  | look_bind _ ih => exact ih
  | advance_bind hkind _ ih => exact ih.advance_bind hkind
  | bind h hnext ih ihnext =>
      refine ih.bind (fun trail hsunk => ?_) (fun hsinks => ?_) (h.steady hsteady)
        fun value mid hvalue => (ihnext value mid).mono fun _ _ himp => himp hvalue
      · exact deep_bind hsunk fun value mid => (hnext value mid).staysDeep hkept
      · exact hsinks.bind fun value mid => (hnext value mid).staysDeep hafresh
  | attempt_bind h hsome hnone ih ihsome ihnone =>
      refine ih.attempt.bind (fun trail hsunk => ?_) (fun hsinks => ?_) (h.steady hsteady).attempt ?_
      · rw [attempt_trail] at hsunk
        exact deep_attempt_bind hsunk (fun value mid => (hsome value mid).staysDeep hkept)
          (hnone.staysDeep hkept)
      · exact (Sinks.attempt_iff.1 hsinks).attempt_bind
          (fun value mid => (hsome value mid).staysDeep hafresh) (hnone.staysDeep hafresh)
      · rintro (_ | value) mid ⟨hvalue, hfails⟩
        · obtain ⟨rfl, hfails⟩ := hfails rfl
          exact ihnone.mono fun _ _ himp => himp hfails
        · exact (ihsome value mid).mono fun _ _ himp => himp (hvalue value rfl)
  | expression least => exact ((hlevel.expression least _).weaken (fun _ => rfl) id).yields
  | operation least => exact ((hlevel.operation least _).weaken (fun _ => rfl) fun _ => rfl).yields
  | subquery hwide => exact (hlevel.subquery _).weaken (fun h => absurd h (by simp [hwide])) fun _ => rfl
  | mono _ himp ih => exact ih.mono himp

namespace Tracks

variable {rule : Level → Rule α} {P : α → Nat → Prop}

theorem whileShallow {kept : Rule α} (h : Tracks tape calls wide exact low room pos rule kept P) :
    Tracks tape calls wide exact low room pos rule (Grammar.whileShallow kept) P := by
  intro hlow trail hknows
  unfold Grammar.whileShallow
  rw [hknows.shallow]
  exact h hlow trail hknows

theorem sink (hsinks : Sinks tape pos (rule (tier false room))) :
    Tracks tape calls wide exact low room pos rule (Grammar.whileShallow Grammar.sink) P := by
  intro hlow trail hknows
  exact .inl ⟨Sinks.sink.whileShallow trail hknows.shallow, hsinks⟩

-- What a rule reads inside is what the level above offers.
theorem of_inner {outer : Level → Rule α} {kept : Rule α}
    (h : Tracks tape calls wide exact low room pos rule kept P)
    (houter : ∀ room, outer (tier false (room + 1)) = Grammar.whileShallow (rule (tier false room))) :
    Tracks tape calls wide exact low (room + 1) pos outer kept P := by
  intro hlow trail hknows
  obtain ⟨hsunk, hsinks⟩ | ⟨outcome, notes, hsettles, hmeets, hfollows⟩ := h hlow trail hknows
  · refine .inl ⟨hsunk, ?_⟩
    rw [houter]
    exact hsinks.whileShallow
  · exact .inr ⟨outcome, notes, hsettles.of_inner houter, hmeets, hfollows⟩

variable {least : Nat}

-- Once read, an expression is remembered as it settled, with all its failures noted.
theorem record {kept : Rule Expr}
    (h : Tracks tape calls false false low room pos (fun level => level.expression least) kept
      (calls.expression least pos)) :
    Tracks tape calls false false low room pos (fun level => level.expression least)
      (Grammar.record least kept) (calls.expression least pos) := by
  intro hlow trail hknows
  unfold Grammar.record
  obtain ⟨hsunk, hsinks⟩ | ⟨outcome, notes, hsettles, hmeets, hfollows⟩ := h hlow trail hknows
  · refine .inl ⟨?_, hsinks⟩
    cases hreply : kept tape pos trail <;> rw [hreply] at hsunk <;> exact hsunk
  have hcovers : ∀ noted ∈ notes, (kept tape pos trail).trail.Covers noted := by
    intro noted hmem
    rw [hfollows.follows]
    exact trail.covers_follow hmem
  refine .inr ⟨outcome, notes, hsettles, hmeets, ?_⟩
  cases outcome with
  | done e stop =>
      have hreply := hfollows.mirrors.eq_done
      rw [hreply] at hfollows hcovers ⊢
      have hwithin := hfollows.within rfl
      have hrecalls : (kept tape pos trail).trail.Recalls tape calls pos least (.done e stop) := by
        refine ⟨⟨notes, hsettles, hcovers⟩, hmeets, ?_⟩
        rintro _ _ ⟨⟩
        exact ⟨hfollows.le, hwithin.1⟩
      refine ⟨.done e stop _, hfollows.knows.insert hrecalls, ?_, hfollows.le,
        hfollows.behind.insert least _ (Nat.le_refl pos), fun _ => ⟨hwithin.1, ?_⟩⟩
      · have hsame := hfollows.follows
        rw [Reply.trail_done] at hsame
        rw [Reply.trail_done, hsame]
      · exact hwithin.2.insert least _ (.refl tape pos)
  | stuck stop =>
      obtain ⟨stop', hreply, -⟩ := hfollows.mirrors.eq_stuck
      rw [hreply] at hfollows hcovers ⊢
      have hwithin := hfollows.within rfl
      have hrecalls : (kept tape pos trail).trail.Recalls tape calls pos least (.stuck stop) :=
        ⟨⟨notes, hsettles, hcovers⟩, hmeets, by simp⟩
      refine ⟨.stuck _ (by simp), hfollows.knows.insert hrecalls, ?_, hfollows.le,
        hfollows.behind.insert least _ (Nat.le_refl pos), fun _ => ⟨hwithin.1, ?_⟩⟩
      · have hsame := hfollows.follows
        rw [Reply.trail_stuck] at hsame
        rw [Reply.trail_stuck, hsame]
      · exact hwithin.2.insert least _ (.refl tape pos)

-- An answer from memory is the one that reading afresh would give, with the same failures noted.
theorem remembered {kept : Rule Expr}
    (h : Tracks tape calls false false low room pos (fun level => level.expression least) kept
      (calls.expression least pos)) :
    Tracks tape calls false false low room pos (fun level => level.expression least)
      (Grammar.remembered least kept) (calls.expression least pos) := by
  intro hlow trail hknows
  unfold Grammar.remembered
  cases hentry : trail.memo[(pos, least)]? with
  | none => exact h hlow trail hknows
  | some entry =>
      obtain ⟨outcome, rfl, ⟨notes, hsettles, hcovers⟩, hmeets, hbounds⟩ :=
        hknows.recalls pos least entry hlow hentry
      have hsame : trail = { trail.follow notes with memo := trail.memo } := by
        rw [Trail.follow_of_covers hcovers]
      refine .inr ⟨outcome, notes, hsettles, hmeets, ?_⟩
      cases outcome with
      | done e stop =>
          obtain ⟨hle, hreach⟩ := hbounds e stop rfl
          exact ⟨.done e stop trail, hknows, hsame, hle, .refl _ _, fun _ => ⟨hreach, .refl _ _⟩⟩
      | stuck stop =>
          exact ⟨.stuck trail (by simp), hknows, hsame, Nat.le_refl _, .refl _ _,
            fun _ => ⟨.refl _ _, .refl _ _⟩⟩

end Tracks

-- What is said of the trees that a level reads follows from how they are put together.
structure Calls.Sound (tape : Tape) (calls : Calls) : Prop where
  expression : ∀ least pos e stop, calls.Climbs tape least e stop → Blocked tape least stop →
    calls.expression least pos e stop
  operation : ∀ least pos o stop, calls.Joins tape least o stop → Closed tape least stop →
    calls.operation least pos o stop
  subquery : ∀ pos q stop, calls.IsSubquery q → calls.subquery pos q stop

theorem tier_tracks (hot : tape.Orderly) (hbehind : ∀ pos, tape.size ≤ pos → tape.kind pos = .finish)
    (hsound : calls.Sound tape) (low room : Nat) : Level.Tracks tape calls low room := by
  induction room with
  | zero =>
      refine ⟨fun least pos => (Tracks.sink ?_).remembered, fun least pos => .sink ?_,
        fun pos => .sink ?_⟩
      all_goals exact Sinks.sink.whileShallow
  | succ room ih =>
      have hsteady := tier_steady hot hbehind room
      refine ⟨fun least pos => ?_, fun least pos => ?_, fun pos => ?_⟩
      · have h := (Composed.operators calls false hot hbehind least pos).tracks
          hsteady ih
        refine ((h.mono ?_).of_inner fun _ => rfl).record.whileShallow.remembered
        exact fun e stop hends => hsound.expression least pos e stop hends.1 hends.2
      · have h := (Composed.connectives calls false hot hbehind least pos).tracks hsteady ih
        refine ((h.mono ?_).of_inner fun _ => rfl).whileShallow
        exact fun o stop hends => hsound.operation least pos o stop hends.1 hends.2
      · have h := (Composed.bracketed calls pos).tracks hsteady ih
        exact ((h.mono fun q stop => hsound.subquery pos q stop).of_inner fun _ => rfl).whileShallow

end SearchPipeline.Grammar
