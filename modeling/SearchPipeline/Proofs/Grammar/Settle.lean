import SearchPipeline.Proofs.Grammar.Ensures

namespace SearchPipeline.Grammar

-- How a rule ends, apart from the trail that it leaves.
inductive Outcome (α : Type) where
  | done (value : α) (pos : Nat)
  | stuck (pos : Nat)

namespace Outcome

variable {α : Type}

def pos : Outcome α → Nat
  | done _ pos | stuck pos => pos

def reply (trail : Trail) : Outcome α → Reply α
  | done value pos => .done value pos trail
  | stuck pos => .stuck pos trail

def Meets (post : α → Nat → Prop) : Outcome α → Prop
  | done value pos => post value pos
  | stuck _ => True

theorem Meets.mono {outcome : Outcome α} {P Q : α → Nat → Prop} (h : outcome.Meets P)
    (himp : ∀ value stop, P value stop → Q value stop) : outcome.Meets Q := by
  cases outcome with
  | done value stop => exact himp value stop h
  | stuck stop => trivial

theorem reply_inj {outcome other : Outcome α} {trail trail' : Trail}
    (h : outcome.reply trail = other.reply trail') : outcome = other ∧ trail = trail' := by
  cases outcome <;> cases other <;> cases h <;> exact ⟨rfl, rfl⟩

end Outcome

namespace Reply

variable {α : Type}

def pos : Reply α → Nat
  | done _ pos _ | stuck pos _ => pos

def trail : Reply α → Trail
  | done _ _ trail | stuck _ trail => trail

@[simp] theorem trail_done (value : α) (pos : Nat) (trail : Trail) :
    (done value pos trail).trail = trail := rfl

@[simp] theorem trail_stuck (pos : Nat) (trail : Trail) :
    (stuck pos trail : Reply α).trail = trail := rfl

@[simp] theorem trail_shallower (reply : Reply α) :
    reply.shallower.trail = reply.trail.shallower := by
  cases reply <;> rfl

end Reply

-- A failure: where it was, and what was wanted there.
abbrev Note := Nat × Wanted

namespace Trail

variable {trail : Trail} {noted : Note} {notes : List Note}

-- Notes one failure after the other.
def follow (trail : Trail) (notes : List Note) : Trail :=
  notes.foldl (fun trail note => trail.note note.1 note.2) trail

@[simp] theorem follow_nil (trail : Trail) : trail.follow [] = trail := rfl

@[simp] theorem follow_cons (trail : Trail) (note : Note) (notes : List Note) :
    trail.follow (note :: notes) = (trail.note note.1 note.2).follow notes := rfl

theorem follow_append (trail : Trail) (notes others : List Note) :
    trail.follow (notes ++ others) = (trail.follow notes).follow others :=
  List.foldl_append

@[simp] theorem follow_tooDeep (trail : Trail) (notes : List Note) :
    (trail.follow notes).tooDeep = trail.tooDeep := by
  induction notes generalizing trail with
  | nil => rfl
  | cons note notes ih => rw [follow_cons, ih, note_tooDeep]

-- What is remembered plays no part in noting failures.
theorem note_with_memo (trail : Trail) (memo : Memo) (pos : Nat) (wanted : Wanted) :
    ({ trail with memo } : Trail).note pos wanted = { trail.note pos wanted with memo } := by
  unfold Trail.note
  dsimp only
  split
  · rfl
  · split
    · rfl
    · split
      · split <;> rfl
      · rfl

theorem follow_with_memo (trail : Trail) (memo : Memo) (notes : List Note) :
    ({ trail with memo } : Trail).follow notes = { trail.follow notes with memo } := by
  induction notes generalizing trail with
  | nil => rfl
  | cons note notes ih => rw [follow_cons, note_with_memo, ih, follow_cons]

-- A failure that would change nothing if it were noted once more.
def Covers (trail : Trail) (noted : Note) : Prop :=
  ∃ furthest, trail.furthest = some furthest ∧
    (noted.1 < furthest ∨ noted.1 = furthest ∧ noted.2 ∈ trail.wanted)

theorem Covers.note_eq (h : trail.Covers noted) : trail.note noted.1 noted.2 = trail := by
  obtain ⟨furthest, hfurthest, hbefore | ⟨hsame, hmem⟩⟩ := h
  · simp only [Trail.note, hfurthest, if_pos hbefore]
  · simp only [Trail.note, hfurthest, hsame, Nat.lt_irrefl, if_false, if_true, if_pos hmem]

theorem covers_note (trail : Trail) (noted : Note) : (trail.note noted.1 noted.2).Covers noted := by
  unfold Trail.note
  split
  · exact ⟨noted.1, rfl, .inr ⟨rfl, List.mem_singleton_self _⟩⟩
  · next furthest hfurthest =>
    split
    · next hbefore => exact ⟨furthest, hfurthest, .inl hbefore⟩
    · split
      · next hsame =>
        split
        · next hmem => exact ⟨furthest, hfurthest, .inr ⟨hsame, hmem⟩⟩
        · exact ⟨furthest, hfurthest, .inr ⟨hsame, by simp⟩⟩
      · exact ⟨noted.1, rfl, .inr ⟨rfl, List.mem_singleton_self _⟩⟩

-- Once covered, a failure stays covered, whatever else is noted.
theorem Covers.note (h : trail.Covers noted) (pos : Nat) (wanted : Wanted) :
    (trail.note pos wanted).Covers noted := by
  obtain ⟨furthest, hfurthest, hnoted⟩ := h
  unfold Trail.note
  rw [hfurthest]
  dsimp only
  split
  · exact ⟨furthest, hfurthest, hnoted⟩
  · split
    · split
      · exact ⟨furthest, hfurthest, hnoted⟩
      · refine ⟨furthest, rfl, hnoted.imp_right ?_⟩
        rintro ⟨hsame, hmem⟩
        exact ⟨hsame, List.mem_append_left _ hmem⟩
    · exact ⟨pos, rfl, .inl (by omega)⟩

theorem Covers.follow (h : trail.Covers noted) (notes : List Note) :
    (trail.follow notes).Covers noted := by
  induction notes generalizing trail with
  | nil => exact h
  | cons other notes ih => exact ih (h.note other.1 other.2)

theorem covers_follow (trail : Trail) (h : noted ∈ notes) : (trail.follow notes).Covers noted := by
  induction notes generalizing trail with
  | nil => cases h
  | cons first notes ih =>
      rcases List.mem_cons.1 h with rfl | hmem
      · exact (trail.covers_note noted).follow notes
      · exact ih (trail.note first.1 first.2) hmem

theorem follow_of_covers (h : ∀ note ∈ notes, trail.Covers note) : trail.follow notes = trail := by
  induction notes with
  | nil => rfl
  | cons note notes ih =>
      rw [follow_cons, (h note List.mem_cons_self).note_eq]
      exact ih fun other hmem => h other (List.mem_cons_of_mem _ hmem)

end Trail

namespace Rule

variable {α β : Type} {tape : Tape} {pos : Nat}

-- From a position on, a rule always ends in one way and notes the same failures, unless the nesting
-- was too deep before.
def Plays (tape : Tape) (pos : Nat) (rule : Rule α) (outcome : Outcome α) (notes : List Note) :
    Prop :=
  ∀ trail : Trail, trail.tooDeep = none → rule tape pos trail = outcome.reply (trail.follow notes)

-- From a position on, a rule always finds the nesting too deep.
def Sinks (tape : Tape) (pos : Nat) (rule : Rule α) : Prop :=
  ∀ trail : Trail, trail.tooDeep = none → (rule tape pos trail).trail.tooDeep ≠ none

-- Where the nesting first went too deep is not forgotten.
def StaysDeep (tape : Tape) (pos : Nat) (rule : Rule α) : Prop :=
  ∀ trail : Trail, trail.tooDeep ≠ none → (rule tape pos trail).trail.tooDeep = trail.tooDeep

namespace Plays

variable {rule : Rule α} {outcome other : Outcome α} {notes notes' : List Note}

theorem unique (h : Plays tape pos rule outcome notes) (h' : Plays tape pos rule other notes') :
    outcome = other ∧ ∀ trail : Trail, trail.tooDeep = none →
      trail.follow notes = trail.follow notes' := by
  have hsame := fun trail (hdeep : trail.tooDeep = none) =>
    Outcome.reply_inj ((h trail hdeep).symm.trans (h' trail hdeep))
  exact ⟨(hsame {} rfl).1, fun trail hdeep => (hsame trail hdeep).2⟩

-- A rule that plays in one way and notes the same failures as another list notes that list.
theorem congr (h : Plays tape pos rule outcome notes)
    (hnotes : ∀ trail : Trail, trail.tooDeep = none → trail.follow notes = trail.follow notes') :
    Plays tape pos rule outcome notes' := by
  intro trail hdeep
  rw [h trail hdeep, hnotes trail hdeep]

theorem bind_done {next : α → Rule β} {value : α} {mid : Nat} {result : Outcome β}
    (h : Plays tape pos rule (.done value mid) notes)
    (hnext : Plays tape mid (next value) result notes') :
    Plays tape pos (rule >>= next) result (notes ++ notes') := by
  intro trail hdeep
  change Rule.bind rule next tape pos trail = _
  unfold Rule.bind
  rw [h trail hdeep, Trail.follow_append]
  exact hnext _ (by rw [Trail.follow_tooDeep, hdeep])

theorem bind_stuck {next : α → Rule β} {mid : Nat} (h : Plays tape pos rule (.stuck mid) notes) :
    Plays tape pos (rule >>= next) (.stuck mid) notes := by
  intro trail hdeep
  change Rule.bind rule next tape pos trail = _
  unfold Rule.bind
  rw [h trail hdeep]
  rfl

theorem attempt_done {value : α} {stop : Nat} (h : Plays tape pos rule (.done value stop) notes) :
    Plays tape pos (attempt rule) (.done (some value) stop) notes := by
  intro trail hdeep
  unfold attempt
  rw [h trail hdeep]
  rfl

theorem attempt_stuck {stop : Nat} (h : Plays tape pos rule (.stuck stop) notes) :
    Plays tape pos (attempt rule) (.done none pos) notes := by
  intro trail hdeep
  unfold attempt
  rw [h trail hdeep]
  rfl

theorem whileShallow (h : Plays tape pos rule outcome notes) :
    Plays tape pos (Grammar.whileShallow rule) outcome notes := by
  intro trail hdeep
  unfold Grammar.whileShallow
  rw [hdeep]
  exact h trail hdeep

end Plays

-- Once the nesting was found too deep, nothing that follows changes that.
theorem deep_bind {rule : Rule α} {next : α → Rule β} {trail : Trail}
    (h : (rule tape pos trail).trail.tooDeep ≠ none)
    (hnext : ∀ value mid, StaysDeep tape mid (next value)) :
    ((rule >>= next) tape pos trail).trail.tooDeep ≠ none := by
  change (Rule.bind rule next tape pos trail).trail.tooDeep ≠ none
  unfold Rule.bind
  cases hreply : rule tape pos trail with
  | done value mid rest =>
      rw [hreply] at h
      dsimp only
      rw [hnext value mid rest h]
      exact h
  | stuck mid rest =>
      rw [hreply] at h
      exact h

theorem attempt_trail (rule : Rule α) (tape : Tape) (pos : Nat) (trail : Trail) :
    (attempt rule tape pos trail).trail = (rule tape pos trail).trail := by
  unfold attempt
  cases rule tape pos trail <;> rfl

theorem deep_attempt_bind {rule : Rule α} {next : Option α → Rule β} {trail : Trail}
    (h : (rule tape pos trail).trail.tooDeep ≠ none)
    (hsome : ∀ value mid, StaysDeep tape mid (next (some value)))
    (hnone : StaysDeep tape pos (next none)) :
    ((attempt rule >>= next) tape pos trail).trail.tooDeep ≠ none := by
  change (Rule.bind (attempt rule) next tape pos trail).trail.tooDeep ≠ none
  unfold Rule.bind attempt
  cases hreply : rule tape pos trail with
  | done value mid rest =>
      rw [hreply] at h
      dsimp only
      rw [hsome value mid rest h]
      exact h
  | stuck mid rest =>
      rw [hreply] at h
      dsimp only
      rw [hnone rest h]
      exact h

namespace Sinks

variable {rule : Rule α}

theorem bind {next : α → Rule β} (h : Sinks tape pos rule)
    (hnext : ∀ value mid, StaysDeep tape mid (next value)) :
    Sinks tape pos (rule >>= next) :=
  fun trail hdeep => deep_bind (h trail hdeep) hnext

-- What follows a rule may be what finds the nesting too deep.
theorem bind_done {next : α → Rule β} {value : α} {mid : Nat} {notes : List Note}
    (h : Plays tape pos rule (.done value mid) notes) (hnext : Sinks tape mid (next value)) :
    Sinks tape pos (rule >>= next) := by
  intro trail hdeep
  change (Rule.bind rule next tape pos trail).trail.tooDeep ≠ none
  unfold Rule.bind
  rw [h trail hdeep]
  exact hnext _ (by rw [Trail.follow_tooDeep, hdeep])

theorem attempt_iff : Sinks tape pos (Rule.attempt rule) ↔ Sinks tape pos rule := by
  simp only [Sinks, attempt_trail]

theorem attempt_bind {next : Option α → Rule β} (h : Sinks tape pos rule)
    (hsome : ∀ value mid, StaysDeep tape mid (next (some value)))
    (hnone : StaysDeep tape pos (next none)) : Sinks tape pos (Rule.attempt rule >>= next) :=
  fun trail hdeep => deep_attempt_bind (h trail hdeep) hsome hnone

theorem whileShallow (h : Sinks tape pos rule) : Sinks tape pos (Grammar.whileShallow rule) := by
  intro trail hdeep
  unfold Grammar.whileShallow
  rw [hdeep]
  exact h trail hdeep

theorem sink : Sinks tape pos (Grammar.sink : Rule α) := by
  intro trail _
  simp [Grammar.sink]

end Sinks

namespace StaysDeep

variable {rule : Rule α}

theorem bind {next : α → Rule β} (h : StaysDeep tape pos rule)
    (hnext : ∀ value mid, StaysDeep tape mid (next value)) :
    StaysDeep tape pos (rule >>= next) := by
  intro trail hdeep
  have hrule := h trail hdeep
  change (Rule.bind rule next tape pos trail).trail.tooDeep = _
  unfold Rule.bind
  cases hreply : rule tape pos trail with
  | done value mid rest =>
      rw [hreply, Reply.trail_done] at hrule
      rw [← hrule]
      exact hnext value mid rest (hrule ▸ hdeep)
  | stuck mid rest =>
      rw [hreply] at hrule
      exact hrule

theorem attempt_bind {next : Option α → Rule β} (h : StaysDeep tape pos rule)
    (hsome : ∀ value mid, StaysDeep tape mid (next (some value)))
    (hnone : StaysDeep tape pos (next none)) : StaysDeep tape pos (attempt rule >>= next) := by
  intro trail hdeep
  have hrule := h trail hdeep
  change (Rule.bind (attempt rule) next tape pos trail).trail.tooDeep = _
  unfold Rule.bind attempt
  cases hreply : rule tape pos trail with
  | done value mid rest =>
      rw [hreply, Reply.trail_done] at hrule
      rw [← hrule]
      exact hsome value mid rest (hrule ▸ hdeep)
  | stuck mid rest =>
      rw [hreply, Reply.trail_stuck] at hrule
      rw [← hrule]
      exact hnone rest (hrule ▸ hdeep)

theorem whileShallow : StaysDeep tape pos (Grammar.whileShallow rule) := by
  intro trail hdeep
  unfold Grammar.whileShallow
  rw [if_pos (Option.isSome_iff_ne_none.2 hdeep)]
  rfl

theorem iterate {σ : Type} {step : σ → Rule (Option σ)}
    (hstep : ∀ state pos, StaysDeep tape pos (step state)) (fuel : Nat) (state : σ) (pos : Nat) :
    StaysDeep tape pos (Rule.iterate step fuel state) := by
  induction fuel generalizing state pos with
  | zero => exact fun _ _ => rfl
  | succ fuel ih =>
      refine (hstep state pos).bind ?_
      rintro (_ | next) mid
      · exact fun _ _ => rfl
      · exact ih next mid

theorem remembered {least : Nat} {rule : Rule Expr} (h : StaysDeep tape pos rule) :
    StaysDeep tape pos (Grammar.remembered least rule) := by
  intro trail hdeep
  unfold Grammar.remembered
  split
  · rfl
  · rfl
  · exact h trail hdeep

end StaysDeep

-- With enough levels to go, a rule always ends in one way.
def Settles (tape : Tape) (pos : Nat) (rule : Level → Rule α) (outcome : Outcome α)
    (notes : List Note) : Prop :=
  ∃ enough, ∀ room, enough ≤ room → Plays tape pos (rule (tier false room)) outcome notes

namespace Settles

variable {rule : Level → Rule α} {outcome other : Outcome α} {notes notes' : List Note}

theorem unique (h : Settles tape pos rule outcome notes)
    (h' : Settles tape pos rule other notes') :
    outcome = other ∧ ∀ trail : Trail, trail.tooDeep = none →
      trail.follow notes = trail.follow notes' := by
  obtain ⟨enough, hplays⟩ := h
  obtain ⟨enough', hplays'⟩ := h'
  exact (hplays _ (Nat.le_max_left enough enough')).unique
    (hplays' _ (Nat.le_max_right enough enough'))

theorem of_plays {rule : Rule α} (h : Plays tape pos rule outcome notes) :
    Settles tape pos (fun _ => rule) outcome notes :=
  ⟨0, fun _ _ => h⟩

theorem bind_done {next : α → Level → Rule β} {value : α} {mid : Nat} {result : Outcome β}
    (h : Settles tape pos rule (.done value mid) notes)
    (hnext : Settles tape mid (next value) result notes') :
    Settles tape pos (fun level => rule level >>= fun value => next value level) result
      (notes ++ notes') := by
  obtain ⟨enough, hplays⟩ := h
  obtain ⟨enough', hplays'⟩ := hnext
  refine ⟨max enough enough', fun room hroom => ?_⟩
  exact (hplays room (by omega)).bind_done (hplays' room (by omega))

theorem bind_stuck {next : α → Level → Rule β} {mid : Nat}
    (h : Settles tape pos rule (.stuck mid) notes) :
    Settles tape pos (fun level => rule level >>= fun value => next value level) (.stuck mid)
      notes := by
  obtain ⟨enough, hplays⟩ := h
  exact ⟨enough, fun room hroom => (hplays room hroom).bind_stuck⟩

theorem attempt_done {value : α} {stop : Nat}
    (h : Settles tape pos rule (.done value stop) notes) :
    Settles tape pos (fun level => attempt (rule level)) (.done (some value) stop) notes := by
  obtain ⟨enough, hplays⟩ := h
  exact ⟨enough, fun room hroom => (hplays room hroom).attempt_done⟩

theorem attempt_stuck {stop : Nat} (h : Settles tape pos rule (.stuck stop) notes) :
    Settles tape pos (fun level => attempt (rule level)) (.done none pos) notes := by
  obtain ⟨enough, hplays⟩ := h
  exact ⟨enough, fun room hroom => (hplays room hroom).attempt_stuck⟩

-- A rule that the level above offers settles as what it reads inside.
theorem of_inner {outer : Level → Rule α} (h : Settles tape pos rule outcome notes)
    (houter : ∀ room, outer (tier false (room + 1)) = whileShallow (rule (tier false room))) :
    Settles tape pos outer outcome notes := by
  obtain ⟨enough, hplays⟩ := h
  refine ⟨enough + 1, fun room hroom => ?_⟩
  obtain ⟨inner, rfl⟩ : ∃ inner, room = inner + 1 := ⟨room - 1, by omega⟩
  rw [houter]
  exact (hplays inner (by omega)).whileShallow

end Settles

-- With a given number of levels to go, a rule either does what it settles on or finds the nesting
-- too deep.
def Steady (tape : Tape) (room pos : Nat) (rule : Level → Rule α) : Prop :=
  (∃ outcome notes, Settles tape pos rule outcome notes ∧
    Plays tape pos (rule (tier false room)) outcome notes) ∨
  Sinks tape pos (rule (tier false room))

theorem Steady.plays_or_sinks {room : Nat} {rule : Level → Rule α} {outcome : Outcome α}
    {notes : List Note} (h : Steady tape room pos rule)
    (hsettles : Settles tape pos rule outcome notes) :
    Plays tape pos (rule (tier false room)) outcome notes ∨
      Sinks tape pos (rule (tier false room)) := by
  obtain ⟨other, notes', hother, hplays⟩ | hsinks := h
  · obtain ⟨rfl, hnotes⟩ := hother.unique hsettles
    exact .inl (hplays.congr hnotes)
  · exact .inr hsinks

theorem Steady.attempt {room : Nat} {rule : Level → Rule α} (h : Steady tape room pos rule) :
    Steady tape room pos fun level => Rule.attempt (rule level) := by
  obtain ⟨value | stop, notes, hsettles, hplays⟩ | hsinks := h
  · exact .inl ⟨_, notes, hsettles.attempt_done, hplays.attempt_done⟩
  · exact .inl ⟨_, notes, hsettles.attempt_stuck, hplays.attempt_stuck⟩
  · exact .inr (Sinks.attempt_iff.2 hsinks)

theorem Steady.of_inner {room : Nat} {rule outer : Level → Rule α} (h : Steady tape room pos rule)
    (houter : ∀ room, outer (tier false (room + 1)) = whileShallow (rule (tier false room))) :
    Steady tape (room + 1) pos outer := by
  obtain ⟨outcome, notes, hsettles, hplays⟩ | hsinks := h
  · refine .inl ⟨outcome, notes, hsettles.of_inner houter, ?_⟩
    rw [houter]
    exact hplays.whileShallow
  · refine .inr ?_
    rw [houter]
    exact hsinks.whileShallow

end Rule

end SearchPipeline.Grammar
