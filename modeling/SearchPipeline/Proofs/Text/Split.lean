import Mathlib.Data.List.DropRight
import Mathlib.Data.List.TakeWhile
import SearchPipeline.Text.Split

namespace SearchPipeline.Text

variable {mark : Char} {before behind cs : List Char}

theorem indexOf?_append_cons (h : mark ∉ before) :
    indexOf? [mark] (before ++ mark :: behind) = some before.length := by
  induction before with
  | nil => simp [indexOf?]
  | cons c before ih =>
      rw [List.mem_cons, not_or] at h
      rw [List.cons_append, indexOf?, if_neg (by simp [h.1]), ih h.2]
      rfl

theorem cut?_append_cons (h : mark ∉ before) :
    cut? [mark] (before ++ mark :: behind) = some (before, behind) := by
  rw [cut?, indexOf?_append_cons h]
  simp

theorem indexOf?_of_not_mem (h : mark ∉ cs) : indexOf? [mark] cs = none := by
  induction cs with
  | nil => simp [indexOf?]
  | cons c cs ih =>
      rw [List.mem_cons, not_or] at h
      rw [indexOf?, if_neg (by simp [h.1]), ih h.2]
      rfl

theorem cut?_of_not_mem (h : mark ∉ cs) : cut? [mark] cs = none := by
  rw [cut?, indexOf?_of_not_mem h]
  rfl

-- What stands before the mark does not hold it, and what stands behind it begins with it.
theorem cut?_of_mem (h : mark ∈ cs) :
    cut? [mark] cs = some (cs.takeWhile (· != mark), (cs.dropWhile (· != mark)).tail) := by
  obtain ⟨before, behind, rfl, hbefore⟩ := List.eq_append_cons_of_mem h
  have hall : ∀ c ∈ before, (c != mark) = true := by
    intro c hc
    rw [bne_iff_ne]
    rintro rfl
    exact hbefore hc
  rw [cut?_append_cons hbefore, List.takeWhile_append_of_pos hall,
    List.dropWhile_append_of_pos hall]
  simp

theorem splitOn_eq (mark : Char) (cs : List Char) : splitOn mark cs = cs.splitOn mark := by
  induction cs with
  | nil => rfl
  | cons c cs ih =>
      rw [splitOn, ih, List.splitOn, List.splitOn, List.splitOnP_cons_eq_if_modifyHead]
      by_cases hc : c = mark
      · simp [hc]
      · cases hparts : cs.splitOnP (· == mark) with
        | nil => exact absurd hparts (List.splitOnP_ne_nil _ cs)
        | cons part parts => simp [hc]

theorem length_splitOn (mark : Char) (cs : List Char) :
    (cs.splitOn mark).length = cs.count mark + 1 := by
  induction cs with
  | nil => simp
  | cons c cs ih =>
      rw [List.splitOn_cons_eq_if_modifyHead]
      by_cases hc : c = mark
      · simp [hc, ih]
      · simp [hc, ih]

theorem head?_splitOn (mark : Char) (cs : List Char) :
    (cs.splitOn mark).head? = some (cs.takeWhile (· != mark)) := by
  induction cs with
  | nil => simp
  | cons c cs ih =>
      rw [List.splitOn_cons_eq_if_modifyHead]
      by_cases hc : c = mark
      · simp [hc]
      · simp [hc, ih]

-- Wherever a text is divided, the divide falls into the part whose number is that of the marks before
-- it. The induction moves the divide forward: behind a mark a new part begins, and every other
-- character goes over from the second piece of the part to the first.
theorem getElem?_splitOn_append (mark : Char) (before behind : List Char) :
    ((before ++ behind).splitOn mark)[before.count mark]? =
      some (before.rtakeWhile (· != mark) ++ behind.takeWhile (· != mark)) := by
  induction before using List.reverseRecOn generalizing behind with
  | nil => simpa [List.head?_eq_getElem?] using head?_splitOn mark behind
  | append_singleton before c ih =>
      rw [List.append_assoc, List.singleton_append, List.count_append]
      by_cases hc : c = mark
      · subst hc
        have hindex : before.count c + [c].count c = (before.splitOn c).length := by
          simp [length_splitOn]
        rw [hindex, List.splitOn_append_cons_self, List.getElem?_append_right (Nat.le_refl _),
          Nat.sub_self, ← List.head?_eq_getElem?, head?_splitOn,
          List.rtakeWhile_concat_neg _ _ _ (by simp), List.nil_append]
      · have hindex : before.count mark + [c].count mark = before.count mark := by
          simp [hc]
        rw [hindex, ih (c :: behind), List.takeWhile_cons_of_pos (by simpa using hc),
          List.rtakeWhile_concat_pos _ _ _ (by simpa using hc), List.append_assoc,
          List.singleton_append]

@[simp] theorem stripStart_cons_self : stripStart mark (mark :: cs) = stripStart mark cs := by
  simp [stripStart]

theorem stripEnd_append_singleton (h : mark ∉ cs) : stripEnd mark (cs ++ [mark]) = cs := by
  have hreverse : cs.reverse.dropWhile (· == mark) = cs.reverse := by
    refine List.dropWhile_eq_self_iff.2 fun hlt hhead => h ?_
    rw [← beq_iff_eq.1 hhead]
    exact List.mem_reverse.1 (List.getElem_mem hlt)
  have hcons : (mark :: cs.reverse).dropWhile (· == mark) = cs.reverse := by
    simpa using hreverse
  rw [stripEnd, List.reverse_append, List.reverse_singleton, List.singleton_append, hcons,
    List.reverse_reverse]

theorem stripStart_eq_self_iff : stripStart mark cs = cs ↔ cs.head? ≠ some mark := by
  cases cs with
  | nil => simp [stripStart]
  | cons c cs =>
      by_cases hc : c = mark
      · subst hc
        refine iff_of_false (fun heq => ?_) (by simp)
        have hlength := (List.dropWhile_suffix (l := cs) (· == c)).length_le
        rw [stripStart_cons_self, stripStart] at heq
        rw [heq, List.length_cons] at hlength
        omega
      · simp [stripStart, hc]

end SearchPipeline.Text
