import SearchPipeline.Proofs.Grammar.Stages

namespace SearchPipeline.Grammar.Rule

variable {α β σ : Type} {tape : Tape} {pos mid stop : Nat}

-- Unless the nesting was too deep before, a rule ends in one way.
def Gives (tape : Tape) (pos : Nat) (rule : Rule α) (outcome : Outcome α) : Prop :=
  ∃ notes, Plays tape pos rule outcome notes

namespace Gives

variable {rule : Rule α} {next : α → Rule β} {value : α} {outcome : Outcome α}
  {result : Outcome β}

theorem pure (value : α) : Gives tape pos (Pure.pure value) (.done value pos) :=
  ⟨[], fun _ _ => rfl⟩

theorem miss (wanted : Wanted) : Gives tape pos (Rule.miss wanted : Rule α) (.stuck pos) :=
  ⟨[(pos, wanted)], fun _ _ => rfl⟩

theorem refuse : Gives tape pos (Rule.refuse : Rule α) (.stuck pos) := ⟨[], fun _ _ => rfl⟩

theorem bind (h : Gives tape pos rule (.done value mid))
    (hnext : Gives tape mid (next value) result) : Gives tape pos (rule >>= next) result := by
  obtain ⟨notes, hplays⟩ := h
  obtain ⟨notes', hplays'⟩ := hnext
  exact ⟨notes ++ notes', hplays.bind_done hplays'⟩

theorem bind_stuck (h : Gives tape pos rule (.stuck mid)) :
    Gives tape pos (rule >>= next) (.stuck mid) := by
  obtain ⟨notes, hplays⟩ := h
  exact ⟨notes, hplays.bind_stuck⟩

theorem look_bind {v : Tape → Nat → α} (h : Gives tape pos (next (v tape pos)) result) :
    Gives tape pos (look v >>= next) result := h

theorem position_bind {next : Nat → Rule β} (h : Gives tape pos (next pos) result) :
    Gives tape pos (position >>= next) result := h

theorem peek_bind {next : Kind → Rule β} {kind : Kind} (hkind : tape.kind pos = kind)
    (h : Gives tape pos (next kind) result) : Gives tape pos (peek >>= next) result := by
  subst hkind
  exact h

theorem peekAt_bind {next : Kind → Rule β} {ahead : Nat} {kind : Kind}
    (hkind : tape.kind (pos + ahead) = kind) (h : Gives tape pos (next kind) result) :
    Gives tape pos (peekAt ahead >>= next) result := by
  subst hkind
  exact h

theorem spanFrom_bind {next : Span → Rule β} {first : Nat}
    (h : Gives tape pos (next (tape.span first pos)) result) :
    Gives tape pos (spanFrom first >>= next) result := h

theorem advance_bind {next : Mark → Rule β} (hot : tape.Orderly) (hkind : tape.kind pos ≠ .finish)
    (h : Gives tape (pos + 1) (next (tape.mark pos)) result) :
    Gives tape pos (advance >>= next) result := by
  rw [← hot.next_eq hkind] at h
  exact h

theorem expect_bind {next : Mark → Rule β} {kind : Kind} (hot : tape.Orderly)
    (hkind : tape.kind pos = kind) (hfinish : kind ≠ .finish)
    (h : Gives tape (pos + 1) (next (tape.mark pos)) result) :
    Gives tape pos (expect kind >>= next) result := by
  have hexpect : Gives tape pos (expect kind) (.done (tape.mark pos) (pos + 1)) := by
    refine peek_bind hkind ?_
    rw [if_pos rfl]
    have hinside : tape.kind pos ≠ .finish := by rwa [hkind]
    exact ⟨[], fun _ _ => by rw [← hot.next_eq hinside]; rfl⟩
  exact hexpect.bind h

theorem expect_stuck {next : Mark → Rule β} {kind : Kind} (hkind : tape.kind pos ≠ kind) :
    Gives tape pos (expect kind >>= next) (.stuck pos) := by
  have hexpect : Gives tape pos (expect kind) (.stuck pos) := by
    refine peek_bind rfl ?_
    rw [if_neg hkind]
    exact miss _
  exact hexpect.bind_stuck

theorem eat_bind {next : Bool → Rule β} {kind : Kind} (hot : tape.Orderly)
    (hkind : tape.kind pos = kind) (hfinish : kind ≠ .finish)
    (h : Gives tape (pos + 1) (next true) result) : Gives tape pos (eat kind >>= next) result := by
  have heat : Gives tape pos (eat kind) (.done true (pos + 1)) := by
    refine peek_bind hkind ?_
    rw [if_pos rfl]
    exact advance_bind hot (by rwa [hkind]) (pure _)
  exact heat.bind h

theorem eat_other {next : Bool → Rule β} {kind : Kind} (hkind : tape.kind pos ≠ kind)
    (h : Gives tape pos (next false) result) : Gives tape pos (eat kind >>= next) result := by
  have heat : Gives tape pos (eat kind) (.done false pos) := by
    refine peek_bind rfl ?_
    rw [if_neg hkind]
    exact pure _
  exact heat.bind h

theorem attempt (h : Gives tape pos rule (.done value stop)) :
    Gives tape pos (Rule.attempt rule) (.done (some value) stop) := by
  obtain ⟨notes, hplays⟩ := h
  exact ⟨notes, hplays.attempt_done⟩

theorem attempt_stuck (h : Gives tape pos rule (.stuck stop)) :
    Gives tape pos (Rule.attempt rule) (.done none pos) := by
  obtain ⟨notes, hplays⟩ := h
  exact ⟨notes, hplays.attempt_stuck⟩

-- The first alternative that is done is taken.
theorem firstOf_take {rest : List (Rule α)} (h : Gives tape pos rule (.done value stop)) :
    Gives tape pos (firstOf (rule :: rest)) (.done value stop) := by
  cases rest with
  | nil => exact h
  | cons other rest => exact h.attempt.bind (pure value)

theorem iterate_step {step : σ → Rule (Option σ)} {state later : σ} {fuel : Nat}
    {outcome : Outcome σ} (h : Gives tape pos (step state) (.done (some later) mid))
    (hrest : Gives tape mid (iterate step fuel later) outcome) :
    Gives tape pos (iterate step (fuel + 1) state) outcome :=
  h.bind hrest

-- Alternatives that are stuck are passed over.
theorem firstOf_pass (before : List (Rule α)) {rest : List (Rule α)}
    (hbefore : ∀ other ∈ before, ∃ stop, Gives tape pos other (.stuck stop))
    (h : Gives tape pos (firstOf (rule :: rest)) outcome) :
    Gives tape pos (firstOf (before ++ rule :: rest)) outcome := by
  induction before with
  | nil => exact h
  | cons first before ih =>
      obtain ⟨stop, hfirst⟩ := hbefore first List.mem_cons_self
      have hbehind := ih fun other hother => hbefore other (List.mem_cons_of_mem _ hother)
      cases before with
      | nil => exact hfirst.attempt_stuck.bind hbehind
      | cons second before => exact hfirst.attempt_stuck.bind hbehind

-- Where a step declines, it does not matter how many more there might be.
theorem iterate_end {step : σ → Rule (Option σ)} {state : σ} (fuel : Nat)
    (h : Gives tape pos (step state) (.done none pos)) :
    Gives tape pos (iterate step fuel state) (.done state pos) := by
  cases fuel with
  | zero => exact pure state
  | succ fuel => exact h.bind (pure state)

theorem whileShallow (h : Gives tape pos rule outcome) :
    Gives tape pos (Grammar.whileShallow rule) outcome := by
  obtain ⟨notes, hplays⟩ := h
  exact ⟨notes, hplays.whileShallow⟩

end Gives

section Climbs

variable {rule : Rule σ} {step : σ → Rule (Option σ)} {state later : σ}

-- After a rule, steps lead to a position and a state. Each takes a token at least.
def Climbs (tape : Tape) (rule : Rule σ) (step : σ → Rule (Option σ)) (pos stop : Nat) (state : σ) :
    Prop :=
  ∃ first mid count, mid + count ≤ stop ∧ Gives tape pos rule (.done first mid) ∧
    ∀ fuel outcome, Gives tape stop (iterate step fuel state) outcome →
      Gives tape mid (iterate step (count + fuel) first) outcome

theorem Gives.climbs (h : Gives tape pos rule (.done state stop)) :
    Climbs tape rule step pos stop state :=
  ⟨state, stop, 0, Nat.le_refl stop, h, fun fuel outcome hrest => by rwa [Nat.zero_add]⟩

theorem Climbs.more (h : Climbs tape rule step pos mid state) (hlt : mid < stop)
    (hstep : Gives tape mid (step state) (.done (some later) stop)) :
    Climbs tape rule step pos stop later := by
  obtain ⟨first, start, count, hle, hfirst, hrest⟩ := h
  refine ⟨first, start, count + 1, by omega, hfirst, fun fuel outcome hlater => ?_⟩
  have hsteps := hrest (fuel + 1) outcome (hstep.iterate_step hlater)
  rwa [show count + (fuel + 1) = count + 1 + fuel by omega] at hsteps

-- Where the next step declines, that is how the rule and its repeated step end.
theorem Climbs.gives (h : Climbs tape rule step pos stop state) (hsize : stop ≤ tape.size)
    (hend : Gives tape stop (step state) (.done none stop)) :
    Gives tape pos (rule >>= repeatStep step) (.done state stop) := by
  obtain ⟨first, mid, count, hle, hfirst, hrest⟩ := h
  refine hfirst.bind (Gives.look_bind ?_)
  have hsteps := hrest (tape.size - mid - count) _ (hend.iterate_end _)
  rwa [show count + (tape.size - mid - count) = tape.size - mid by omega] at hsteps

end Climbs

end SearchPipeline.Grammar.Rule
