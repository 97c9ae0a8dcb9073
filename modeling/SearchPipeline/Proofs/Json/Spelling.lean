import Mathlib.Data.List.Basic
import Mathlib.Data.Nat.Digits.Defs
import SearchPipeline.Json.Document
import SearchPipeline.Json.Write

namespace SearchPipeline.Json

mutual

-- Whether a floating-point number stands somewhere in a value.
def hasFloat : Json → Bool
  | .float _ => true
  | .list items => anyFloat items
  | .object members => anyMemberFloat members
  | _ => false

def anyFloat : List Json → Bool
  | [] => false
  | item :: rest => hasFloat item || anyFloat rest

def anyMemberFloat : List (String × Json) → Bool
  | [] => false
  | (_, value) :: rest => hasFloat value || anyMemberFloat rest

end

theorem anyMemberFloat_eq_false_iff {members : List (String × Json)} :
    anyMemberFloat members = false ↔ ∀ entry ∈ members, entry.2.hasFloat = false := by
  induction members with
  | nil => simp [anyMemberFloat]
  | cons entry rest ih => simp [anyMemberFloat, ih]

-- The digits of a whole number, and its sign.
def Numeral.ofInt (value : Int) : Numeral where
  negative := decide (value < 0)
  whole := (Nat.toDigits 10 value.natAbs).map fun c => c.toNat - '0'.toNat
  fraction := none
  exponent := none

namespace Document

mutual

-- The document that the text of a value spells. Floating-point numbers are left out.
def ofJson : Json → Document
  | .null | .float _ => .null
  | .bool value => .bool value
  | .int value => .number (.ofInt value)
  | .string text => .string (some text)
  | .list items => .list (ofJsons items)
  | .object members => .object (ofMembers members)

def ofJsons : List Json → List Document
  | [] => []
  | item :: rest => ofJson item :: ofJsons rest

def ofMembers : List (String × Json) → List (Option String × Document)
  | [] => []
  | (key, value) :: rest => (some key, ofJson value) :: ofMembers rest

end

section Strings

-- How the reader sees a character that the writer has put down.
def Piece.ofChar (c : Char) : Piece :=
  if c.toNat < 0x20 ∧ c ∉ ['\x08', '\x0c', '\n', '\r', '\t'] then .unit c.toNat else .plain c

theorem hexUnit?_control : ∀ code < 0x20,
    hexUnit? '0' '0' (Nat.digitChar (code / 16)) (Nat.digitChar (code % 16)) = some code := by
  decide

theorem pieces?_escape (c : Char) (found : List Piece) (rest : List Char) :
    pieces? found (escape c ++ rest) = pieces? (.ofChar c :: found) rest := by
  unfold escape
  split_ifs with hquote hslash hb hf hn hr ht hcontrol
  · subst hquote; simp [pieces?, simpleEscape?, Piece.ofChar]
  · subst hslash; simp [pieces?, simpleEscape?, Piece.ofChar]
  · subst hb; simp [pieces?, simpleEscape?, Piece.ofChar]
  · subst hf; simp [pieces?, simpleEscape?, Piece.ofChar]
  · subst hn; simp [pieces?, simpleEscape?, Piece.ofChar]
  · subst hr; simp [pieces?, simpleEscape?, Piece.ofChar]
  · subst ht; simp [pieces?, simpleEscape?, Piece.ofChar]
  · have hpiece : Piece.ofChar c = .unit c.toNat := by simp [Piece.ofChar, *]
    simp [pieces?, hexUnit?_control _ hcontrol, hpiece]
  · have hpiece : Piece.ofChar c = .plain c := by simp [Piece.ofChar, hcontrol]
    simp [pieces?, hslash, hcontrol, hpiece]

theorem pieces?_written (text : List Char) (found : List Piece) (rest : List Char) :
    pieces? found (text.flatMap escape ++ '"' :: rest) =
      some (found.reverse ++ text.map .ofChar, rest) := by
  induction text generalizing found with
  | nil => simp [pieces?]
  | cons c text ih => simp [pieces?_escape, ih]

-- No unit of a written string is half of a pair, so each one is a character.
theorem characters?_cons_ofChar (c : Char) (pieces : List Piece) :
    characters? (.ofChar c :: pieces) = (characters? pieces).map (c :: ·) := by
  unfold Piece.ofChar
  split_ifs with hcontrol
  · have hhigh : isHigh c.toNat = false := by simp [isHigh]; omega
    have hlow : isLow c.toNat = false := by simp [isLow]; omega
    rcases pieces with _ | ⟨_ | _, pieces⟩ <;> simp [characters?, hhigh, hlow]
  · rfl

theorem characters?_written (text : List Char) :
    characters? (text.map .ofChar) = some text := by
  induction text with
  | nil => rfl
  | cons c text ih => rw [List.map_cons, characters?_cons_ofChar, ih, Option.map_some]

theorem toList_quote (text : String) :
    (quote text).toList = '"' :: (text.toList.flatMap escape ++ ['"']) := by
  simp [quote]

theorem string?_quote (text : String) (rest : List Char) :
    string? (text.toList.flatMap escape ++ '"' :: rest) = some (some text, rest) := by
  simp [string?, pieces?_written, characters?_written]

end Strings

section Numbers

-- What may follow a written numeral so that it ends there.
def EndsNumeral (rest : List Char) : Prop :=
  ∀ c ∈ rest.head?, c.isDigit = false ∧ c ≠ '.' ∧ c ≠ 'e' ∧ c ≠ 'E'

theorem endsNumeral_nil : EndsNumeral [] := by simp [EndsNumeral]

theorem isDigit_of_mem_toDigits {value : Nat} {c : Char} (hmem : c ∈ Nat.toDigits 10 value) :
    c.isDigit = true :=
  Nat.isDigit_of_mem_toDigits (by omega) (by omega) hmem

theorem takeDigits_written (value : Nat) {rest : List Char} (hends : EndsNumeral rest) :
    takeDigits (Nat.toDigits 10 value ++ rest) =
      ((Nat.toDigits 10 value).map fun c => c.toNat - '0'.toNat, rest) := by
  have htake : rest.takeWhile Char.isDigit = [] := by
    cases rest with
    | nil => rfl
    | cons c rest => simp [(hends c rfl).1]
  have hdrop : rest.dropWhile Char.isDigit = rest := by
    cases rest with
    | nil => rfl
    | cons c rest => simp [(hends c rfl).1]
  have hall : ∀ c ∈ Nat.toDigits 10 value, c.isDigit = true :=
    fun c => isDigit_of_mem_toDigits
  rw [takeDigits, List.takeWhile_append_of_pos hall, List.dropWhile_append_of_pos hall, htake,
    hdrop, List.append_nil]

theorem digitChar_ne_zero : ∀ digit < 10, 0 < digit →
    (Nat.digitChar digit).toNat - '0'.toNat ≠ 0 := by
  decide

-- A leading zero is all there is.
theorem head_toDigits_ne_zero {value : Nat} {c : Char} {rest : List Char} (hpos : 0 < value)
    (hdigits : Nat.toDigits 10 value = c :: rest) : c.toNat - '0'.toNat ≠ 0 := by
  induction value using Nat.strongRecOn generalizing c rest with
  | ind value ih =>
      by_cases hsmall : value < 10
      · rw [Nat.toDigits_of_lt_base hsmall] at hdigits
        cases hdigits
        exact digitChar_ne_zero value hsmall hpos
      · obtain ⟨first, front, hfront⟩ :=
          List.exists_cons_of_ne_nil (@Nat.toDigits_ne_nil (value / 10) 10)
        rw [Nat.toDigits_eq_if (by omega), if_neg hsmall, hfront] at hdigits
        cases hdigits
        exact ih (value / 10) (by omega) (by omega) hfront

theorem wholeDigits?_written (value : Nat) {rest : List Char} (hends : EndsNumeral rest) :
    wholeDigits? (Nat.toDigits 10 value ++ rest) =
      some ((Nat.toDigits 10 value).map fun c => c.toNat - '0'.toNat, rest) := by
  rw [wholeDigits?, takeDigits_written value hends]
  rcases Nat.eq_zero_or_pos value with rfl | hpos
  · rfl
  · obtain ⟨c, digits, hdigits⟩ := List.exists_cons_of_ne_nil (@Nat.toDigits_ne_nil value 10)
    obtain ⟨first, hfirst⟩ := Nat.exists_eq_succ_of_ne_zero (head_toDigits_ne_zero hpos hdigits)
    rw [hdigits, List.map_cons, hfirst]
    rfl

theorem fraction?_of_ends {rest : List Char} (hends : EndsNumeral rest) :
    fraction? rest = some (none, rest) := by
  cases rest with
  | nil => rfl
  | cons c rest => simp [fraction?, (hends c rfl).2.1]

theorem exponent?_of_ends {rest : List Char} (hends : EndsNumeral rest) :
    exponent? rest = some (none, rest) := by
  cases rest with
  | nil => rfl
  | cons c rest => simp [exponent?, (hends c rfl).2.2]

theorem toList_intText (value : Int) : (intText value).toList =
    (if value < 0 then ['-'] else []) ++ Nat.toDigits 10 value.natAbs := by
  unfold intText digitText
  split_ifs <;> simp

theorem head_intText (value : Int) : ∃ c cs, (intText value).toList = c :: cs ∧
    (c = '-' ∨ c.isDigit = true) := by
  rw [toList_intText]
  split_ifs
  · exact ⟨_, _, rfl, .inl rfl⟩
  · obtain ⟨c, cs, hdigits⟩ := List.exists_cons_of_ne_nil (@Nat.toDigits_ne_nil value.natAbs 10)
    exact ⟨c, cs, hdigits, .inr (isDigit_of_mem_toDigits (by rw [hdigits]; exact .head _))⟩

theorem numeral?_intText (value : Int) {rest : List Char} (hends : EndsNumeral rest) :
    numeral? ((intText value).toList ++ rest) = some (.ofInt value, rest) := by
  have hwhole := wholeDigits?_written value.natAbs hends
  rw [toList_intText]
  by_cases hneg : value < 0
  · simp [numeral?, hneg, hwhole, fraction?_of_ends hends, exponent?_of_ends hends, Numeral.ofInt]
  · obtain ⟨c, cs, hdigits⟩ := List.exists_cons_of_ne_nil (@Nat.toDigits_ne_nil value.natAbs 10)
    have hdigit : c.isDigit = true := isDigit_of_mem_toDigits (by rw [hdigits]; exact .head _)
    have hsign : c ≠ '-' := by rintro rfl; exact absurd hdigit (by decide)
    have hhead : (Nat.toDigits 10 value.natAbs ++ rest).head? ≠ some '-' := by
      simp [hdigits, hsign]
    simp only [if_neg hneg, List.nil_append, numeral?, beq_false_of_ne hhead]
    simp [hneg, hwhole, fraction?_of_ends hends, exponent?_of_ends hends, Numeral.ofInt]

end Numbers

section Values

theorem skipBlanks_newline (depth : Nat) (rest : List Char) :
    skipBlanks ((newline depth).toList ++ rest) = skipBlanks rest := by
  refine List.dropWhile_append_of_pos fun c hc => ?_
  have hcases : c = '\n' ∨ c = ' ' := by
    simp only [newline, String.toList_append, String.toList_ofList, List.mem_append] at hc
    exact hc.imp (by simp) fun hmem => List.eq_of_mem_replicate hmem
  rcases hcases with rfl | rfl <;> rfl

theorem length_newline (depth : Nat) : (newline depth).length = 2 * depth + 1 := by
  simp only [newline, String.length_append, String.length_ofList, List.length_replicate]
  exact Nat.add_comm 1 _

theorem endsNumeral_newline (depth : Nat) (rest : List Char) :
    EndsNumeral ((newline depth).toList ++ rest) := by
  simp [EndsNumeral, newline]

theorem value?_newline (fuel depth : Nat) (rest : List Char) :
    value? fuel ((newline depth).toList ++ rest) = value? fuel rest := by
  cases fuel with
  | zero => rfl
  | succ fuel => rw [value?, value?, skipBlanks_newline]

theorem members?_newline (fuel depth : Nat) (rest : List Char) :
    members? fuel ((newline depth).toList ++ rest) = members? fuel rest := by
  cases fuel with
  | zero => rfl
  | succ fuel => rw [members?, members?, skipBlanks_newline]

-- How the text of a value begins. Neither a blank nor a closing bracket does.
theorem head_prettyAt (depth : Nat) {value : Json} (hfloat : value.hasFloat = false) :
    ∃ c cs, (prettyAt depth value).toList = c :: cs ∧ isBlank c = false ∧ c ≠ ']' := by
  cases value with
  | null => exact ⟨'n', _, by simp [prettyAt]; rfl, rfl, by decide⟩
  | bool value =>
      cases value
      · exact ⟨'f', _, by simp [prettyAt]; rfl, rfl, by decide⟩
      · exact ⟨'t', _, by simp [prettyAt]; rfl, rfl, by decide⟩
  | int value =>
      obtain ⟨c, cs, htext, hc⟩ := head_intText value
      refine ⟨c, cs, htext, ?_⟩
      rcases hc with rfl | hdigit
      · exact ⟨rfl, by decide⟩
      · refine ⟨?_, by rintro rfl; exact absurd hdigit (by decide)⟩
        by_contra hblank
        simp only [isBlank, Bool.not_eq_false, Bool.or_eq_true, beq_iff_eq] at hblank
        rcases hblank with ((rfl | rfl) | rfl) | rfl <;> exact absurd hdigit (by decide)
  | float value => cases hfloat
  | string text => exact ⟨'"', _, toList_quote text, rfl, by decide⟩
  | list items =>
      cases items with
      | nil => exact ⟨'[', _, by simp [prettyAt]; rfl, rfl, by decide⟩
      | cons item rest => exact ⟨'[', _, by simp [prettyAt]; rfl, rfl, by decide⟩
  | object members =>
      cases members with
      | nil => exact ⟨'\x7b', _, by simp [prettyAt, openBrace]; rfl, rfl, by decide⟩
      | cons entry rest => exact ⟨'\x7b', _, by simp [prettyAt, openBrace]; rfl, rfl, by decide⟩

theorem length_prettyAt_pos (depth : Nat) {value : Json} (hfloat : value.hasFloat = false) :
    0 < (prettyAt depth value).length := by
  obtain ⟨c, cs, htext, -⟩ := head_prettyAt depth hfloat
  simp [← String.length_toList, htext]

theorem skipBlanks_prettyAt (depth : Nat) {value : Json} (hfloat : value.hasFloat = false)
    (rest : List Char) : skipBlanks ((prettyAt depth value).toList ++ rest) =
      (prettyAt depth value).toList ++ rest := by
  obtain ⟨c, cs, htext, hblank, -⟩ := head_prettyAt depth hfloat
  simp [skipBlanks, htext, hblank]

theorem value?_int (fuel : Nat) (value : Int) {rest : List Char} (hends : EndsNumeral rest) :
    value? (fuel + 1) ((intText value).toList ++ rest) =
      some (.number (.ofInt value), rest) := by
  obtain ⟨c, cs, htext, hc⟩ := head_intText value
  have hnumeral := numeral?_intText value hends
  rw [htext] at hnumeral ⊢
  have hblank : isBlank c = false := by
    by_contra hblank
    simp only [isBlank, Bool.not_eq_false, Bool.or_eq_true, beq_iff_eq] at hblank
    rcases hblank with ((rfl | rfl) | rfl) | rfl <;> revert hc <;> decide
  have hliteral : literal? (c :: cs ++ rest) = none := by
    have hne : c ≠ 'n' ∧ c ≠ 't' ∧ c ≠ 'f' := by
      refine ⟨?_, ?_, ?_⟩ <;> (rintro rfl; revert hc; decide)
    simp [literal?, literals, hne.1.symm, hne.2.1.symm, hne.2.2.symm]
  have hother : c ≠ '"' ∧ c ≠ '[' ∧ c ≠ '\x7b' := by
    refine ⟨?_, ?_, ?_⟩ <;> (rintro rfl; revert hc; decide)
  have hskip : skipBlanks (c :: cs ++ rest) = c :: cs ++ rest := by simp [skipBlanks, hblank]
  rw [value?, hskip]
  split
  · simp_all
  · simp_all
  · simp_all
  · rw [hliteral, hnumeral]
    rfl

theorem elements?_newline (fuel depth : Nat) (rest : List Char) :
    elements? fuel ((newline depth).toList ++ rest) = elements? fuel rest := by
  cases fuel with
  | zero => rfl
  | succ fuel => rw [elements?, elements?, value?_newline]

theorem endsNumeral_prettyItems (depth outer : Nat) (items : List Json) (rest : List Char) :
    EndsNumeral ((prettyItems depth items).toList ++ ((newline outer).toList ++ rest)) := by
  cases items with
  | nil => exact endsNumeral_newline outer rest
  | cons item items => simp [prettyItems, EndsNumeral]

theorem endsNumeral_prettyMembers (depth outer : Nat) (members : List (String × Json))
    (rest : List Char) :
    EndsNumeral ((prettyMembers depth members).toList ++ ((newline outer).toList ++ rest)) := by
  cases members with
  | nil => exact endsNumeral_newline outer rest
  | cons entry members => simp [prettyMembers, EndsNumeral]

theorem value?_null (depth fuel : Nat) (rest : List Char) :
    value? (fuel + 1) ((prettyAt depth .null).toList ++ rest) = some (.null, rest) := by
  simp [prettyAt, value?, skipBlanks, isBlank, literal?, literals]

theorem value?_bool (depth fuel : Nat) (value : Bool) (rest : List Char) :
    value? (fuel + 1) ((prettyAt depth (.bool value)).toList ++ rest) =
      some (.bool value, rest) := by
  cases value <;> simp [prettyAt, value?, skipBlanks, isBlank, literal?, literals]

theorem value?_string (depth fuel : Nat) (text : String) (rest : List Char) :
    value? (fuel + 1) ((prettyAt depth (.string text)).toList ++ rest) =
      some (.string (some text), rest) := by
  rw [prettyAt, toList_quote]
  simp [value?, skipBlanks, isBlank, string?_quote]

theorem value?_emptyList (depth fuel : Nat) (rest : List Char) :
    value? (fuel + 1) ((prettyAt depth (.list [])).toList ++ rest) = some (.list [], rest) := by
  simp [prettyAt, value?, skipBlanks, isBlank]

theorem value?_emptyObject (depth fuel : Nat) (rest : List Char) :
    value? (fuel + 1) ((prettyAt depth (.object [])).toList ++ rest) =
      some (.object [], rest) := by
  simp [prettyAt, openBrace, closeBrace, value?, skipBlanks, isBlank]

theorem value?_list {depth fuel : Nat} {item : Json} {items : List Json}
    {found : List Document} {rest : List Char} (hitem : item.hasFloat = false)
    (helements : elements? fuel ((prettyAt (depth + 1) item).toList ++
      ((prettyItems (depth + 1) items).toList ++ ((newline depth).toList ++ ']' :: rest))) =
        some (found, rest)) :
    value? (fuel + 1) ((prettyAt depth (.list (item :: items))).toList ++ rest) =
      some (.list found, rest) := by
  obtain ⟨c, cs, htext, -, hclose⟩ := head_prettyAt (depth + 1) hitem
  have hskip := skipBlanks_prettyAt (depth + 1) hitem
    ((prettyItems (depth + 1) items).toList ++ ((newline depth).toList ++ ']' :: rest))
  have hopen : (prettyAt depth (.list (item :: items))).toList ++ rest =
      '[' :: ((newline (depth + 1)).toList ++ ((prettyAt (depth + 1) item).toList ++
        ((prettyItems (depth + 1) items).toList ++ ((newline depth).toList ++ ']' :: rest)))) := by
    simp [prettyAt]
  have hbracket : ∀ cs, skipBlanks ('[' :: cs) = '[' :: cs := fun cs => rfl
  rw [hopen, value?, hbracket]
  simp only [skipBlanks_newline, hskip]
  rw [htext] at helements ⊢
  split
  · simp_all
  · rw [helements, Option.map_some]

theorem value?_object {depth fuel : Nat} {key : String} {value : Json}
    {members : List (String × Json)} {found : List (Option String × Document)}
    {rest : List Char}
    (hmembers : members? fuel ((quote key).toList ++ (':' :: ' ' ::
      ((prettyAt (depth + 1) value).toList ++ ((prettyMembers (depth + 1) members).toList ++
        ((newline depth).toList ++ '\x7d' :: rest))))) = some (found, rest)) :
    value? (fuel + 1) ((prettyAt depth (.object ((key, value) :: members))).toList ++ rest) =
      some (.object found, rest) := by
  have hopen : (prettyAt depth (.object ((key, value) :: members))).toList ++ rest =
      '\x7b' :: ((newline (depth + 1)).toList ++ ((quote key).toList ++ (':' :: ' ' ::
        ((prettyAt (depth + 1) value).toList ++ ((prettyMembers (depth + 1) members).toList ++
          ((newline depth).toList ++ '\x7d' :: rest)))))) := by
    simp [prettyAt, openBrace, closeBrace]
  have hbrace : ∀ cs, skipBlanks ('\x7b' :: cs) = '\x7b' :: cs := fun cs => rfl
  have hquote : ∀ cs, skipBlanks ('"' :: cs) = '"' :: cs := fun cs => rfl
  rw [hopen, value?, hbrace]
  rw [toList_quote, List.cons_append] at hmembers ⊢
  simp only [skipBlanks_newline, hquote]
  split
  · simp_all
  · rw [hmembers, Option.map_some]

theorem elements?_last {depth outer fuel : Nat} {cs : List Char} {item : Document}
    {rest : List Char}
    (hvalue : value? fuel cs = some (item, (prettyItems depth []).toList ++
      ((newline outer).toList ++ ']' :: rest))) :
    elements? (fuel + 1) cs = some ([item], rest) := by
  have hbracket : ∀ cs, skipBlanks (']' :: cs) = ']' :: cs := fun cs => rfl
  simp [elements?, hvalue, prettyItems, skipBlanks_newline, hbracket]

theorem elements?_next {depth fuel : Nat} {cs behind : List Char} {item : Document} {next : Json}
    {items : List Json} {found : List Document} {rest : List Char}
    (hvalue : value? fuel cs = some (item, (prettyItems depth (next :: items)).toList ++ behind))
    (helements : elements? fuel ((prettyAt depth next).toList ++
      ((prettyItems depth items).toList ++ behind)) = some (found, rest)) :
    elements? (fuel + 1) cs = some (item :: found, rest) := by
  have hcomma : ∀ cs, skipBlanks (',' :: cs) = ',' :: cs := fun cs => rfl
  simp [elements?, hvalue, prettyItems, hcomma, elements?_newline, helements]

theorem members?_last {depth outer fuel : Nat} {key : String} {cs : List Char} {value : Document}
    {rest : List Char}
    (hvalue : value? fuel cs = some (value, (prettyMembers depth []).toList ++
      ((newline outer).toList ++ '\x7d' :: rest))) :
    members? (fuel + 1) ((quote key).toList ++ ':' :: ' ' :: cs) =
      some ([(some key, value)], rest) := by
  have hquote : ∀ cs, skipBlanks ('"' :: cs) = '"' :: cs := fun cs => rfl
  have hcolon : ∀ cs, skipBlanks (':' :: cs) = ':' :: cs := fun cs => rfl
  have hbrace : ∀ cs, skipBlanks ('\x7d' :: cs) = '\x7d' :: cs := fun cs => rfl
  have hblank : value? fuel (' ' :: cs) = value? fuel cs := by
    cases fuel <;> simp [value?, skipBlanks, isBlank]
  rw [toList_quote]
  simp [members?, hquote, hcolon, string?_quote, hblank, hvalue, prettyMembers,
    skipBlanks_newline, hbrace]

theorem members?_next {depth fuel : Nat} {key other : String} {cs behind : List Char}
    {value : Document} {next : Json} {members : List (String × Json)}
    {found : List (Option String × Document)} {rest : List Char}
    (hvalue : value? fuel cs =
      some (value, (prettyMembers depth ((other, next) :: members)).toList ++ behind))
    (hmembers : members? fuel ((quote other).toList ++ (':' :: ' ' ::
      ((prettyAt depth next).toList ++ ((prettyMembers depth members).toList ++ behind)))) =
        some (found, rest)) :
    members? (fuel + 1) ((quote key).toList ++ ':' :: ' ' :: cs) =
      some ((some key, value) :: found, rest) := by
  have hquote : ∀ cs, skipBlanks ('"' :: cs) = '"' :: cs := fun cs => rfl
  have hcolon : ∀ cs, skipBlanks (':' :: cs) = ':' :: cs := fun cs => rfl
  have hcomma : ∀ cs, skipBlanks (',' :: cs) = ',' :: cs := fun cs => rfl
  have hblank : value? fuel (' ' :: cs) = value? fuel cs := by
    cases fuel <;> simp [value?, skipBlanks, isBlank]
  rw [toList_quote]
  simp [members?, hquote, hcolon, string?_quote, hblank, hvalue, prettyMembers, hcomma,
    members?_newline, hmembers]

-- What is written is read with the fuel at hand. Reading the text of a value takes at most two
-- steps for each of its characters.
structure ReadsWritten (fuel : Nat) : Prop where
  value : ∀ (depth : Nat) (value : Json) (rest : List Char), value.hasFloat = false →
    2 * (prettyAt depth value).length ≤ fuel → EndsNumeral rest →
    value? fuel ((prettyAt depth value).toList ++ rest) = some (ofJson value, rest)
  elements : ∀ (depth outer : Nat) (item : Json) (items : List Json) (rest : List Char),
    item.hasFloat = false → anyFloat items = false →
    2 * ((prettyAt depth item).length + (prettyItems depth items).length) + 1 ≤ fuel →
    elements? fuel ((prettyAt depth item).toList ++ ((prettyItems depth items).toList ++
      ((newline outer).toList ++ ']' :: rest))) = some (ofJson item :: ofJsons items, rest)
  members : ∀ (depth outer : Nat) (key : String) (value : Json) (members : List (String × Json))
    (rest : List Char), value.hasFloat = false → anyMemberFloat members = false →
    2 * ((prettyAt depth value).length + (prettyMembers depth members).length) + 1 ≤ fuel →
    members? fuel ((quote key).toList ++ (':' :: ' ' :: ((prettyAt depth value).toList ++
      ((prettyMembers depth members).toList ++ ((newline outer).toList ++ '\x7d' :: rest))))) =
      some ((some key, ofJson value) :: ofMembers members, rest)

theorem ReadsWritten.value_succ {fuel : Nat} (reads : ReadsWritten fuel) (depth : Nat)
    (value : Json) (rest : List Char) (hfloat : value.hasFloat = false)
    (hfuel : 2 * (prettyAt depth value).length ≤ fuel + 1) (hends : EndsNumeral rest) :
    value? (fuel + 1) ((prettyAt depth value).toList ++ rest) = some (ofJson value, rest) := by
  cases value with
  | null => rw [value?_null, ofJson]
  | bool _ => rw [value?_bool, ofJson]
  | int value => rw [prettyAt, value?_int fuel value hends, ofJson]
  | float _ => cases hfloat
  | string _ => rw [value?_string, ofJson]
  | list items =>
      cases items with
      | nil => rw [value?_emptyList, ofJson, ofJsons]
      | cons item items =>
          simp only [hasFloat, anyFloat, Bool.or_eq_false_iff] at hfloat
          have hlength : (prettyAt (depth + 1) item).length + (prettyItems (depth + 1) items).length
              + 2 ≤ (prettyAt depth (.list (item :: items))).length := by
            simp only [prettyAt, String.length_append, length_newline]
            omega
          rw [ofJson, ofJsons]
          exact value?_list hfloat.1
            (reads.elements _ _ item items rest hfloat.1 hfloat.2 (by omega))
  | object members =>
      cases members with
      | nil => rw [value?_emptyObject, ofJson, ofMembers]
      | cons entry members =>
          obtain ⟨key, value⟩ := entry
          simp only [hasFloat, anyMemberFloat, Bool.or_eq_false_iff] at hfloat
          have hlength : (prettyAt (depth + 1) value).length +
              (prettyMembers (depth + 1) members).length + 2 ≤
                (prettyAt depth (.object ((key, value) :: members))).length := by
            simp only [prettyAt, String.length_append, length_newline]
            omega
          rw [ofJson, ofMembers]
          exact value?_object
            (reads.members _ _ key value members rest hfloat.1 hfloat.2 (by omega))

theorem ReadsWritten.elements_succ {fuel : Nat} (reads : ReadsWritten fuel) (depth outer : Nat)
    (item : Json) (items : List Json) (rest : List Char) (hitem : item.hasFloat = false)
    (hitems : anyFloat items = false)
    (hfuel : 2 * ((prettyAt depth item).length + (prettyItems depth items).length) ≤ fuel) :
    elements? (fuel + 1) ((prettyAt depth item).toList ++ ((prettyItems depth items).toList ++
      ((newline outer).toList ++ ']' :: rest))) = some (ofJson item :: ofJsons items, rest) := by
  have hvalue := reads.value depth item _ hitem (by omega)
    (endsNumeral_prettyItems depth outer items (']' :: rest))
  cases items with
  | nil =>
      rw [ofJsons]
      exact elements?_last hvalue
  | cons next items =>
      simp only [anyFloat, Bool.or_eq_false_iff] at hitems
      have hnext : (prettyAt depth next).length + (prettyItems depth items).length + 1 ≤
          (prettyItems depth (next :: items)).length := by
        simp only [prettyItems, String.length_append, length_newline]
        omega
      rw [ofJsons]
      exact elements?_next hvalue
        (reads.elements depth outer next items rest hitems.1 hitems.2 (by omega))

theorem ReadsWritten.members_succ {fuel : Nat} (reads : ReadsWritten fuel) (depth outer : Nat)
    (key : String) (value : Json) (members : List (String × Json)) (rest : List Char)
    (hvalue : value.hasFloat = false) (hmembers : anyMemberFloat members = false)
    (hfuel : 2 * ((prettyAt depth value).length + (prettyMembers depth members).length) ≤ fuel) :
    members? (fuel + 1) ((quote key).toList ++ (':' :: ' ' :: ((prettyAt depth value).toList ++
      ((prettyMembers depth members).toList ++ ((newline outer).toList ++ '\x7d' :: rest))))) =
      some ((some key, ofJson value) :: ofMembers members, rest) := by
  have hread := reads.value depth value _ hvalue (by omega)
    (endsNumeral_prettyMembers depth outer members ('\x7d' :: rest))
  cases members with
  | nil =>
      rw [ofMembers]
      exact members?_last hread
  | cons entry members =>
      obtain ⟨other, next⟩ := entry
      simp only [anyMemberFloat, Bool.or_eq_false_iff] at hmembers
      have hnext : (prettyAt depth next).length + (prettyMembers depth members).length + 1 ≤
          (prettyMembers depth ((other, next) :: members)).length := by
        simp only [prettyMembers, String.length_append, length_newline]
        omega
      rw [ofMembers]
      exact members?_next hread
        (reads.members depth outer other next members rest hmembers.1 hmembers.2 (by omega))

theorem readsWritten (fuel : Nat) : ReadsWritten fuel := by
  induction fuel with
  | zero =>
      refine ⟨fun depth value rest hfloat hfuel _ => ?_, fun _ _ _ _ _ _ _ hfuel => ?_,
        fun _ _ _ _ _ _ _ _ hfuel => ?_⟩
      · have := length_prettyAt_pos depth hfloat
        omega
      · omega
      · omega
  | succ fuel ih =>
      exact ⟨ih.value_succ,
        fun depth outer item items rest hitem hitems hfuel =>
          ih.elements_succ depth outer item items rest hitem hitems (by omega),
        fun depth outer key value members rest hvalue hmembers hfuel =>
          ih.members_succ depth outer key value members rest hvalue hmembers (by omega)⟩

-- A text written for a value spells the document of this value and nothing else.
theorem parse?_pretty {value : Json} (hfloat : value.hasFloat = false) :
    parse? value.pretty = some (ofJson value) := by
  have hvalue := (readsWritten (2 * value.pretty.toList.length + 2)).value 0 value [] hfloat
    (by rw [← pretty, String.length_toList]; omega) endsNumeral_nil
  rw [List.append_nil, ← pretty] at hvalue
  rw [parse?, hvalue]
  rfl

end Values

end Document

end SearchPipeline.Json
