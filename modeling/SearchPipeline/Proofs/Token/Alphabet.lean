import SearchPipeline.Token.Scan
import Mathlib.Tactic.ByContra

namespace SearchPipeline

namespace Text

-- No range of the one table meets a range of the other.
def RangeTable.apart (a b : RangeTable) : Bool :=
  a.all fun range => b.all fun other => range.2 < other.1 || other.2 < range.1

theorem RangeTable.holds_apart {a b : RangeTable} (ha : a.rising = true) (hb : b.rising = true)
    (h : a.apart b = true) {code : Nat} (hcode : a.holds code = true) : b.holds code = false := by
  obtain ⟨range, hrange, hlow, hhigh⟩ := (RangeTable.holds_iff ha code).1 hcode
  by_contra hother
  rw [Bool.not_eq_false] at hother
  obtain ⟨other, hmem, hlow', hhigh'⟩ := (RangeTable.holds_iff hb code).1 hother
  have happart := List.all_eq_true.1 (List.all_eq_true.1 h range hrange) other hmem
  simp only [Bool.or_eq_true, decide_eq_true_eq] at happart
  omega

theorem isBlank_not_alphabetic {c : Char} (h : isBlank c = true) : isAlphabetic c = false :=
  RangeTable.holds_apart blankRanges_rising alphabeticRanges_rising (by decide +kernel) h

theorem isBlank_not_numeric {c : Char} (h : isBlank c = true) : isNumeric c = false :=
  RangeTable.holds_apart blankRanges_rising numericRanges_rising (by decide +kernel) h

end Text

namespace Scan

open Text

-- The characters at the head of a word.
def startsWord (c : Char) : Bool := opensWord c || c == '.'

-- A token that ends in such a character, or looks ahead to one, may go on with a word behind it.
def binds (c : Char) : Bool := isWordChar c || c == '@' || c == ':'

variable {c : Char}

theorem isDigit_iff : isDigit c = true ↔ 48 ≤ c.toNat ∧ c.toNat ≤ 57 := by
  simp [isDigit, Char.isDigit, UInt32.le_iff_toNat_le]

theorem isDigit_numeric (h : isDigit c = true) : isNumeric c = true :=
  (isNumeric_iff c).2 ⟨(0x30, 0x39), by decide, isDigit_iff.1 h⟩

theorem isDigit_not_alphabetic (h : isDigit c = true) : isAlphabetic c = false := by
  have hholds : RangeTable.holds [(48, 57)] c.toNat = true :=
    (RangeTable.holds_iff (by decide) _).2 ⟨_, List.mem_singleton_self _, isDigit_iff.1 h⟩
  exact RangeTable.holds_apart (by decide) alphabeticRanges_rising (by decide +kernel) hholds

theorem isLetter_code (h : isLetter c = true) :
    65 ≤ c.toNat ∧ c.toNat ≤ 90 ∨ 97 ≤ c.toNat ∧ c.toNat ≤ 122 := by
  change (decide ('A'.val ≤ c.val ∧ c.val ≤ 'Z'.val) ||
    (decide ('a'.val ≤ c.val) && decide (c.val ≤ 'z'.val))) = true at h
  simpa [UInt32.le_iff_toNat_le] using h

theorem isLetter_alphabetic (h : isLetter c = true) : isAlphabetic c = true := by
  rcases isLetter_code h with hupper | hlower
  · exact (isAlphabetic_iff c).2 ⟨(0x41, 0x5A), by decide, hupper⟩
  · exact (isAlphabetic_iff c).2 ⟨(0x61, 0x7A), by decide, hlower⟩

theorem isDigit_wordChar (h : isDigit c = true) : isWordChar c = true := by
  simp [isWordChar, isAlphanumeric, isDigit_numeric h]

theorem isLetter_wordChar (h : isLetter c = true) : isWordChar c = true := by
  simp [isWordChar, isAlphanumeric, isLetter_alphabetic h]

-- A character that opens a word is none of the marks that do not.
theorem ne_of_startsWord (h : startsWord c = true) {mark : Char} (hmark : startsWord mark = false) :
    c ≠ mark := by
  rintro rfl
  simp [h] at hmark

theorem ne_of_isBlank (h : isBlank c = true) {mark : Char} (hmark : isBlank mark = false) :
    c ≠ mark := by
  rintro rfl
  simp [h] at hmark

theorem startsWord_wordChar (h : startsWord c = true) : isWordChar c = true := by
  simp only [startsWord, opensWord, Bool.or_eq_true, beq_iff_eq] at h
  rcases h with (halphabetic | rfl) | rfl
  · simp [isWordChar, isAlphanumeric, halphabetic]
  · decide
  · decide

theorem isBlank_not_wordChar (h : isBlank c = true) : isWordChar c = false := by
  have hunderscore : c ≠ '_' := ne_of_isBlank h (by decide)
  have hpoint : c ≠ '.' := ne_of_isBlank h (by decide)
  simp [isWordChar, isAlphanumeric, isBlank_not_alphabetic h, isBlank_not_numeric h, hunderscore,
    hpoint]

theorem isBlank_not_binds (h : isBlank c = true) : binds c = false := by
  have hat : c ≠ '@' := ne_of_isBlank h (by decide)
  have hcolon : c ≠ ':' := ne_of_isBlank h (by decide)
  simp [binds, isBlank_not_wordChar h, hat, hcolon]

theorem startsWord_not_blank (h : startsWord c = true) : isBlank c = false := by
  by_contra hblank
  rw [Bool.not_eq_false] at hblank
  have := isBlank_not_wordChar hblank
  rw [startsWord_wordChar h] at this
  cases this

theorem isBlank_not_opensWord (h : isBlank c = true) : opensWord c = false := by
  by_contra hopens
  rw [Bool.not_eq_false] at hopens
  have := startsWord_not_blank (c := c) (by simp [startsWord, hopens])
  rw [h] at this
  cases this

theorem startsWord_not_digit (h : startsWord c = true) : isDigit c = false := by
  by_contra hdigit
  rw [Bool.not_eq_false] at hdigit
  have hunderscore : c ≠ '_' := by
    rintro rfl
    revert hdigit
    decide
  have hpoint : c ≠ '.' := by
    rintro rfl
    revert hdigit
    decide
  simp [startsWord, opensWord, isDigit_not_alphabetic hdigit, hunderscore, hpoint] at h

end Scan

end SearchPipeline
