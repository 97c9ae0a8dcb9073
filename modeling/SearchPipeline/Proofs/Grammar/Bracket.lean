import SearchPipeline.Proofs.Grammar.Memory

namespace SearchPipeline.Grammar

-- By how much a token changes the number of open brackets.
def bracketWeight : Kind → Int
  | .openBracket => 1
  | .closeBracket => -1
  | _ => 0

namespace Tape

-- The number of brackets open at a position, less those closed and never opened.
def height (tape : Tape) : Nat → Int
  | 0 => 0
  | pos + 1 => tape.height pos + bracketWeight (tape.kind pos)

variable {tape : Tape} {pos mid stop : Nat}

@[simp] theorem height_succ (tape : Tape) (pos : Nat) :
    tape.height (pos + 1) = tape.height pos + bracketWeight (tape.kind pos) := rfl

-- Between the positions the query does not end, and no bracket closes that was open before.
def Encloses (tape : Tape) (pos stop : Nat) : Prop :=
  ∀ at', pos ≤ at' → at' < stop → tape.kind at' ≠ .finish ∧ tape.height pos ≤ tape.height (at' + 1)

-- Between the positions the query does not end, and every `|` stands in a bracket that opens there.
def Shelters (tape : Tape) (pos stop : Nat) : Prop :=
  ∀ at', pos ≤ at' → at' < stop → tape.kind at' ≠ .finish ∧
    (tape.kind at' = .pipe → tape.height pos < tape.height at')

theorem Encloses.refl (tape : Tape) (pos : Nat) : tape.Encloses pos pos :=
  fun _ hpos hstop => absurd hstop (Nat.not_lt.2 hpos)

theorem Encloses.height_le (h : tape.Encloses pos stop) (hle : pos ≤ stop) :
    tape.height pos ≤ tape.height stop := by
  rcases Nat.eq_or_lt_of_le hle with rfl | hlt
  · exact Int.le_refl _
  · have hlast := (h (stop - 1) (by omega) (by omega)).2
    rwa [Nat.sub_add_cancel (by omega)] at hlast

theorem Encloses.trans (h : tape.Encloses pos mid) (hle : pos ≤ mid)
    (h' : tape.Encloses mid stop) : tape.Encloses pos stop := by
  intro at' hpos hstop
  rcases Nat.lt_or_ge at' mid with hlt | hge
  · exact h at' hpos hlt
  · obtain ⟨hkind, hheight⟩ := h' at' hge hstop
    exact ⟨hkind, Int.le_trans (h.height_le hle) hheight⟩

-- One step that does not close a bracket.
theorem Encloses.step (hfinish : tape.kind pos ≠ .finish) (hclose : tape.kind pos ≠ .closeBracket) :
    tape.Encloses pos (pos + 1) := by
  intro at' hpos hstop
  obtain rfl : at' = pos := by omega
  refine ⟨hfinish, ?_⟩
  have hweight : 0 ≤ bracketWeight (tape.kind at') := by
    cases hkind : tape.kind at' <;> first | exact absurd hkind hclose | decide
  rw [height_succ]
  omega

theorem Shelters.of_le (hle : stop ≤ pos) : tape.Shelters pos stop :=
  fun _ hpos hstop => absurd (Nat.le_trans hle hpos) (Nat.not_le.2 hstop)

-- A `|` outside the brackets ends the shelter.
theorem Shelters.le_of_pipe (h : tape.Shelters pos stop) (hpipe : tape.kind pos = .pipe) :
    stop ≤ pos := by
  by_contra hlt
  exact Int.lt_irrefl _ ((h pos (Nat.le_refl _) (by omega)).2 hpipe)

theorem Reaches.not_border (h : tape.Reaches pos stop) (hpos : pos ≤ mid) (hstop : mid < stop) :
    (tape.kind mid).isBorder = false := by
  by_contra hborder
  have := h mid hpos (by simpa using hborder)
  omega

theorem Reaches.height_eq (h : tape.Reaches pos stop) (hle : pos ≤ stop) :
    tape.height stop = tape.height pos := by
  obtain ⟨count, rfl⟩ := Nat.exists_eq_add_of_le hle
  induction count with
  | zero => rfl
  | succ count ih =>
      have hkind := h.not_border (Nat.le_add_right pos count) (Nat.lt_succ_self (pos + count))
      have hprevious : tape.Reaches pos (pos + count) := fun border hpos hborder =>
        Nat.le_of_succ_le (h border hpos hborder)
      rw [← Nat.add_assoc, height_succ, ih hprevious (Nat.le_add_right _ _)]
      cases hk : tape.kind (pos + count) <;> simp_all [bracketWeight, Kind.isBorder]

theorem Reaches.mono (h : tape.Reaches pos stop) (hle : mid ≤ stop) : tape.Reaches pos mid :=
  fun border hpos hborder => Nat.le_trans hle (h border hpos hborder)

theorem Reaches.encloses (h : tape.Reaches pos stop) : tape.Encloses pos stop := by
  intro at' hpos hstop
  have hkind := h.not_border hpos hstop
  refine ⟨?_, ?_⟩
  · intro hfinish
    rw [hfinish] at hkind
    cases hkind
  · exact Int.le_of_eq ((h.mono hstop).height_eq (by omega)).symm

-- No `|` stands on the way to a position that is reached without a border.
theorem Reaches.shelters (h : tape.Reaches pos stop) (hle : pos ≤ mid) : tape.Shelters mid stop := by
  intro at' hmid hstop
  have hkind := h.not_border (Nat.le_trans hle hmid) hstop
  refine ⟨?_, fun hpipe => ?_⟩
  · intro hfinish
    rw [hfinish] at hkind
    cases hkind
  · rw [hpipe] at hkind
    cases hkind

theorem Reaches.from (h : tape.Reaches pos stop) (hle : pos ≤ mid) : tape.Reaches mid stop :=
  fun border hmid hborder => h border (Nat.le_trans hle hmid) hborder

-- What a bracket encloses is sheltered from before the bracket.
theorem Shelters.of_bracket (hopen : tape.kind mid = .openBracket)
    (h : tape.Encloses (mid + 1) stop) (hreach : tape.Reaches pos mid) (hle : pos ≤ mid) :
    tape.Shelters pos stop := by
  intro at' hpos hstop
  rcases Nat.lt_trichotomy at' mid with hlt | rfl | hgt
  · exact hreach.shelters (Nat.le_refl _) at' hpos hlt
  · rw [hopen]
    simp
  · obtain ⟨hkind, hheight⟩ := h at' (by omega) hstop
    refine ⟨hkind, fun hpipe => ?_⟩
    have hsame := hreach.height_eq hle
    simp only [height_succ, hopen, hpipe, bracketWeight] at hheight
    omega

end Tape

section Recover

variable {tape : Tape} (hot : tape.Orderly)

theorem le_recoverFrom (tape : Tape) (fuel depth pos : Nat) :
    pos ≤ recoverFrom tape fuel depth pos := by
  induction fuel generalizing depth pos with
  | zero => exact Nat.le_refl _
  | succ fuel ih =>
      have hnext := tape.le_next pos
      unfold recoverFrom
      split
      · exact Nat.le_refl _
      · split
        · exact Nat.le_refl _
        · exact Nat.le_trans hnext (ih _ _)
      · exact Nat.le_trans hnext (ih _ _)
      · exact Nat.le_trans hnext (ih _ _)
      · exact Nat.le_trans hnext (ih _ _)

include hot

theorem recoverFrom_kind (hbehind : ∀ pos, tape.size ≤ pos → tape.kind pos = .finish)
    (fuel depth pos : Nat) (hfuel : tape.size ≤ pos + fuel) :
    tape.kind (recoverFrom tape fuel depth pos) = .finish ∨
      tape.kind (recoverFrom tape fuel depth pos) = .pipe := by
  induction fuel generalizing depth pos with
  | zero => exact .inl (hbehind pos hfuel)
  | succ fuel ih =>
      have hnext : tape.kind pos ≠ .finish → tape.size ≤ tape.next pos + fuel := by
        intro hkind
        rw [hot.next_eq hkind]
        omega
      unfold recoverFrom
      split
      · next hkind => exact .inl hkind
      · next hkind =>
        split
        · exact .inr hkind
        · exact ih _ _ (hnext (by simp [hkind]))
      · next hkind => exact ih _ _ (hnext (by simp [hkind]))
      · next hkind => exact ih _ _ (hnext (by simp [hkind]))
      · next hfinish _ _ _ => exact ih _ _ (hnext hfinish)

-- The depth that is counted is at least the number of brackets open since the start, so what is
-- sheltered is skipped.
theorem Tape.Shelters.le_recoverFrom {start stop : Nat} (h : tape.Shelters start stop)
    (hbehind : ∀ pos, tape.size ≤ pos → tape.kind pos = .finish) (fuel depth pos : Nat)
    (hfuel : tape.size ≤ pos + fuel) (hstart : start ≤ pos)
    (hdepth : tape.height pos ≤ tape.height start + depth) :
    stop ≤ recoverFrom tape fuel depth pos := by
  induction fuel generalizing depth pos with
  | zero =>
      by_contra hlt
      exact (h pos hstart (by simpa [recoverFrom] using hlt)).1 (hbehind pos hfuel)
  | succ fuel ih =>
      rcases Nat.lt_or_ge pos stop with hlt | hge
      swap
      · exact Nat.le_trans hge (Grammar.le_recoverFrom tape _ _ _)
      obtain ⟨hkind, hpipe⟩ := h pos hstart hlt
      have hnext := hot.next_eq hkind
      have hheight := tape.height_succ pos
      unfold recoverFrom
      split
      · next hfinish => exact absurd hfinish hkind
      · next hk =>
        split
        · have := hpipe hk
          omega
        · rw [hnext]
          refine ih _ _ (by omega) (by omega) ?_
          rw [hheight, hk]
          simpa [bracketWeight] using hdepth
      · next hk =>
        rw [hnext]
        refine ih _ _ (by omega) (by omega) ?_
        rw [hheight, hk]
        simp only [bracketWeight]
        omega
      · next hk =>
        rw [hnext]
        refine ih _ _ (by omega) (by omega) ?_
        rw [hheight, hk]
        simp only [bracketWeight]
        omega
      · next hopen hclose =>
        rw [hnext]
        refine ih _ _ (by omega) (by omega) ?_
        rw [hheight]
        cases hk : tape.kind pos <;> simp_all [bracketWeight]

theorem recover_kind (hbehind : ∀ pos, tape.size ≤ pos → tape.kind pos = .finish) (pos : Nat) :
    tape.kind (recover tape pos) = .finish ∨ tape.kind (recover tape pos) = .pipe :=
  recoverFrom_kind hot hbehind _ _ _ (by omega)

theorem Tape.Shelters.le_recover {pos stop : Nat} (h : tape.Shelters pos stop)
    (hbehind : ∀ pos, tape.size ≤ pos → tape.kind pos = .finish) : stop ≤ recover tape pos :=
  h.le_recoverFrom hot hbehind _ _ _ (by omega) (Nat.le_refl _) (by omega)

end Recover

end SearchPipeline.Grammar
