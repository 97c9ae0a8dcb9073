import SearchPipeline.Proofs.Token.Characters

namespace SearchPipeline

namespace Text

theorem byteLength_eq (cs : List Char) : byteLength cs = (String.ofList cs).utf8ByteSize := by
  induction cs with
  | nil => rfl
  | cons c cs ih =>
      rw [byteLength, ih, String.ofList_cons, String.utf8ByteSize_append,
        String.utf8ByteSize_singleton]

theorem byteLength_toList (text : String) : byteLength text.toList = text.utf8ByteSize := by
  rw [byteLength_eq, String.ofList_toList]

theorem byteLength_append (cs ds : List Char) :
    byteLength (cs ++ ds) = byteLength cs + byteLength ds := by
  induction cs with
  | nil => simp [byteLength]
  | cons c cs ih => simp [byteLength, ih, Nat.add_assoc]

-- Behind a first part, a text falls into that part and the rest.
theorem beforeOffset_append (read rest : List Char) :
    beforeOffset (read ++ rest) (byteLength read) = read := by
  induction read with
  | nil =>
      cases rest with
      | nil => rfl
      | cons c rest => simp [beforeOffset, byteLength, Nat.not_le.2 c.utf8Size_pos]
  | cons c read ih => simp [beforeOffset, byteLength, ih]

theorem fromOffset_append (read rest : List Char) :
    fromOffset (read ++ rest) (byteLength read) = rest := by
  induction read with
  | nil =>
      cases rest with
      | nil => rfl
      | cons c rest => simp [fromOffset, byteLength, Nat.not_le.2 c.utf8Size_pos]
  | cons c read ih => simp [fromOffset, byteLength, ih]

theorem beforeOffset_append_fromOffset (cs : List Char) (offset : Nat) :
    beforeOffset cs offset ++ fromOffset cs offset = cs := by
  induction cs generalizing offset with
  | nil => rfl
  | cons c cs ih =>
      by_cases hc : c.utf8Size ≤ offset
      · simp [beforeOffset, fromOffset, hc, ih]
      · simp [beforeOffset, fromOffset, hc]

-- An offset beyond the end takes in as much as the end itself.
theorem beforeOffset_min (cs : List Char) (offset : Nat) :
    beforeOffset cs (min offset (byteLength cs)) = beforeOffset cs offset := by
  induction cs generalizing offset with
  | nil => rfl
  | cons c cs ih =>
      rw [beforeOffset, beforeOffset, byteLength]
      by_cases hc : c.utf8Size ≤ offset
      · have hmin : min offset (c.utf8Size + byteLength cs) - c.utf8Size =
            min (offset - c.utf8Size) (byteLength cs) := by
          omega
        rw [if_pos hc, if_pos (by omega), hmin, ih]
      · rw [if_neg hc, if_neg (by omega)]

theorem isValid_of_append {source : String} {read rest : List Char}
    (h : source.toList = read ++ rest) : String.Pos.Raw.IsValid source ⟨byteLength read⟩ := by
  rw [String.Pos.Raw.isValid_iff_exists_append]
  refine ⟨String.ofList read, String.ofList rest, ?_, ?_⟩
  · rw [← String.ofList_append, ← h, String.ofList_toList]
  · rw [byteLength_eq]
    rfl

end Text

namespace Scan

open Text

section Bytes

variable {previous : Option Char} {c : Char} {cs : List Char} {more count : Nat}

-- Leading characters that may be counted as if each of them were one byte.
def Bytewise (cs : List Char) (count : Nat) : Prop := byteLength (cs.take count) = count

theorem utf8Size_of_lt (h : c.toNat < 128) : c.utf8Size = 1 := by
  have hval : c.val ≤ 0x7F := UInt32.le_iff_toNat_le.2 (Nat.lt_succ_iff.1 h)
  simp [Char.utf8Size, hval]

theorem isDigit_utf8Size (h : isDigit c = true) : c.utf8Size = 1 := by
  have hcode := isDigit_iff.1 h
  exact utf8Size_of_lt (by omega)

theorem isLetter_utf8Size (h : isLetter c = true) : c.utf8Size = 1 := by
  have hcode := isLetter_code h
  exact utf8Size_of_lt (by omega)

theorem inTime_utf8Size (h : inTime c = true) : c.utf8Size = 1 := by
  simp only [inTime, Bool.or_eq_true, beq_iff_eq] at h
  rcases h with (((hdigit | hletter) | rfl) | rfl) | rfl
  · exact isDigit_utf8Size hdigit
  · exact isLetter_utf8Size hletter
  all_goals rfl

-- So the characters of a time are its bytes.
theorem Made.bytewise (h : Made inTime cs count) (hle : count ≤ cs.length) : Bytewise cs count := by
  have hbytes : ∀ ds : List Char, (∀ d ∈ ds, inTime d = true) → byteLength ds = ds.length := by
    intro ds
    induction ds with
    | nil => exact fun _ => rfl
    | cons d ds ih =>
        intro hds
        rw [List.forall_mem_cons] at hds
        rw [byteLength, inTime_utf8Size hds.1, ih hds.2, List.length_cons, Nat.add_comm]
  unfold Bytewise
  rw [hbytes _ h, List.length_take, Nat.min_eq_left hle]

theorem bytewise_absoluteTime (h : absoluteTime? cs = some count) : Bytewise cs count :=
  (made_absoluteTime h).bytewise (bounded_absoluteTime cs count h)

theorem bytewise_relativeTime (h : relativeTime? cs = some count) : Bytewise cs count :=
  (made_relativeTime h).bytewise (bounded_relativeTime cs count h)

theorem bytewise_loneSnap (h : loneSnap? cs = some count) : Bytewise cs count := by
  rw [loneSnap?_eq] at h
  have hsnap := (Option.filter_eq_some_iff.1 h).1
  exact (made_snap hsnap).bytewise (bounded_snap cs count hsnap)

-- The count of a time takes in the first character, which is a single byte even where the rest is
-- empty.
theorem bytewise_behind (hc : c.utf8Size = 1) (h : Bytewise (c :: cs) count) :
    byteLength (c :: cs.take (count - 1)) = count - 1 + 1 := by
  cases count with
  | zero => simp [byteLength, hc]
  | succ count => exact h

theorem Lexed.time_bytes {kind : Kind} (h : Lexed previous c cs kind more) (hkind : kind = .time) :
    byteLength (c :: cs.take more) = more + 1 := by
  cases h with
  | date hdigit hcount => exact bytewise_behind (isDigit_utf8Size hdigit) (bytewise_absoluteTime hcount)
  | relative hdigit hcount =>
      exact bytewise_behind (isDigit_utf8Size hdigit) (bytewise_relativeTime hcount)
  | signed hsign hcount =>
      have hc : c.utf8Size = 1 := by rcases hsign with rfl | rfl <;> rfl
      rw [byteLength, hc, bytewise_relativeTime hcount, Nat.add_comm]
  | snap hat hcount => exact bytewise_behind (hat ▸ rfl) (bytewise_loneSnap hcount)
  | word _ =>
      have hmem := classify_mem (String.ofList (c :: cs.take (runLength extendsWord cs)))
      rw [hkind] at hmem
      exact absurd hmem (by decide)
  | pair hpair =>
      rw [hkind] at hpair
      simpa using (pairSymbol?_eq_some hpair).2
  | symbol hsymbol =>
      have hkinds : ∀ entry ∈ symbols, entry.2 ≠ .time := by decide
      exact absurd hkind (hkinds _ (symbol?_mem hsymbol))
  | _ => cases hkind

end Bytes

end Scan

end SearchPipeline
