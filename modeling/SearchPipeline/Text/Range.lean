namespace SearchPipeline.Text

-- Closed ranges of code points, disjoint and in rising order.
abbrev RangeTable := List (Nat × Nat)

-- The search stops at the first range that starts beyond the code point. No later range can
-- hold it, because the ranges rise.
def RangeTable.holds : RangeTable → Nat → Bool
  | [], _ => false
  | (low, high) :: rest, code =>
      if code < low then false else if code ≤ high then true else RangeTable.holds rest code

-- The ranges rise and none is empty, which is what `holds` relies on.
def RangeTable.rising : RangeTable → Bool
  | [] => true
  | [(low, high)] => low ≤ high
  | (low, high) :: (next, top) :: rest =>
      low ≤ high && high < next && RangeTable.rising ((next, top) :: rest)

theorem RangeTable.rising_tail {range : Nat × Nat} {rest : RangeTable}
    (rises : RangeTable.rising (range :: rest) = true) : RangeTable.rising rest = true := by
  cases rest with
  | nil => rfl
  | cons next rest =>
    simp only [RangeTable.rising, Bool.and_eq_true] at rises
    exact rises.2

-- No range of a rising table starts before the first one.
theorem RangeTable.first_le_of_mem {first range : Nat × Nat} {rest : RangeTable}
    (rises : RangeTable.rising (first :: rest) = true) (mem : range ∈ first :: rest) :
    first.1 ≤ range.1 := by
  induction rest generalizing first with
  | nil =>
    cases List.mem_singleton.1 mem
    exact Nat.le_refl _
  | cons next rest ih =>
    cases List.mem_cons.1 mem with
    | inl same => exact same ▸ Nat.le_refl _
    | inr later =>
      have beyond : first.1 ≤ next.1 := by
        simp only [RangeTable.rising, Bool.and_eq_true, decide_eq_true_eq] at rises
        omega
      exact Nat.le_trans beyond (ih (RangeTable.rising_tail rises) later)

-- In a rising table, the search finds a code point exactly if some range holds it.
theorem RangeTable.holds_iff {table : RangeTable} (rises : table.rising = true) (code : Nat) :
    table.holds code = true ↔ ∃ range ∈ table, range.1 ≤ code ∧ code ≤ range.2 := by
  induction table with
  | nil => simp [RangeTable.holds]
  | cons first rest ih =>
    have tail := ih (RangeTable.rising_tail rises)
    simp only [RangeTable.holds]
    split
    · next below =>
      simp only [Bool.false_eq_true, false_iff, not_exists, not_and]
      intro range mem low
      have := RangeTable.first_le_of_mem rises mem
      omega
    · next reached =>
      split
      · next inside =>
        simp only [true_iff]
        exact ⟨first, List.mem_cons_self, by omega, inside⟩
      · next beyond =>
        rw [tail]
        constructor
        · rintro ⟨range, mem, inside⟩
          exact ⟨range, List.mem_cons_of_mem _ mem, inside⟩
        · rintro ⟨range, mem, inside⟩
          cases List.mem_cons.1 mem with
          | inl same => subst same; exact absurd inside.2 beyond
          | inr later => exact ⟨range, later, inside⟩

end SearchPipeline.Text
