import Mathlib.Data.List.TakeWhile
import Mathlib.Tactic.Conv
import SearchPipeline.Text.Blank
import SearchPipeline.Text.Run

namespace SearchPipeline.Text

variable {cs : List Char}

theorem trimStart_of_head (h : headIs isBlank cs = false) : trimStart cs = cs := by
  cases cs with
  | nil => rfl
  | cons c cs =>
      have hc : isBlank c = false := h
      simp [trimStart, hc]

theorem trimStart_append {lead : List Char} (hlead : ∀ c ∈ lead, isBlank c = true)
    (hhead : headIs isBlank cs = false) : trimStart (lead ++ cs) = cs := by
  rw [trimStart, List.dropWhile_append_of_pos hlead]
  exact trimStart_of_head hhead

theorem trimStart_head (cs : List Char) : headIs isBlank (trimStart cs) = false := by
  induction cs with
  | nil => rfl
  | cons c cs ih =>
      by_cases hc : isBlank c = true
      · simpa [trimStart, hc] using ih
      · simp [trimStart, hc, headIs]

-- What is cut off at the end is blank, and what remains does not end in a blank.
theorem trimEnd_spec (cs : List Char) : ∃ tail, cs = trimEnd cs ++ tail ∧
    (∀ c ∈ tail, isBlank c = true) ∧ ∀ h, isBlank ((trimEnd cs).getLast h) = false := by
  refine ⟨(cs.reverse.takeWhile isBlank).reverse, ?_, ?_, ?_⟩
  · rw [trimEnd, ← List.reverse_append, List.takeWhile_append_dropWhile, List.reverse_reverse]
  · intro c hc
    exact List.mem_takeWhile_imp (List.mem_reverse.1 hc)
  · intro h
    simp only [trimEnd, List.getLast_reverse]
    simpa using List.head_dropWhile_not isBlank (by simpa [trimEnd] using h)

theorem trimEnd_of_last (h : ∀ h, isBlank (cs.getLast h) = false) : trimEnd cs = cs := by
  have hhead : headIs isBlank cs.reverse = false := by
    cases hrev : cs.reverse with
    | nil => rfl
    | cons c rest =>
        have hne : cs ≠ [] := by
          rintro rfl
          cases hrev
        have hlast := h hne
        rw [List.getLast_eq_head_reverse] at hlast
        simpa [hrev, headIs] using hlast
  have hsame := trimStart_of_head hhead
  rw [trimStart] at hsame
  rw [trimEnd, hsame, List.reverse_reverse]

theorem trim_trim (cs : List Char) : trim (trim cs) = trim cs := by
  obtain ⟨tail, hcs, -, hlast⟩ := trimEnd_spec (trimStart cs)
  have hhead : headIs isBlank (trim cs) = false := by
    have hstart := trimStart_head cs
    rw [hcs] at hstart
    unfold trim
    cases htrim : trimEnd (trimStart cs) with
    | nil => rfl
    | cons c body =>
        rw [htrim] at hstart
        exact hstart
  conv_lhs => rw [trim, trimStart_of_head hhead]
  exact trimEnd_of_last hlast

theorem trim_eq_nil_iff : trim cs = [] ↔ ∀ c ∈ cs, isBlank c = true := by
  have hend : trim cs = [] ↔ ∀ c ∈ trimStart cs, isBlank c = true := by
    rw [trim, trimEnd, List.reverse_eq_nil_iff, List.dropWhile_eq_nil_iff]
    simp only [List.mem_reverse]
  rw [hend]
  constructor
  · intro hall c hc
    rw [← List.takeWhile_append_dropWhile (p := isBlank) (l := cs), List.mem_append] at hc
    exact hc.elim List.mem_takeWhile_imp (hall c)
  · exact fun hall c hc => hall c (List.dropWhile_subset _ hc)

end SearchPipeline.Text
