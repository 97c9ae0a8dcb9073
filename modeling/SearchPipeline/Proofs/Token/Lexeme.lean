import SearchPipeline.Token.Scan
import Mathlib.Data.List.Basic
import Mathlib.Tactic.SplitIfs

namespace SearchPipeline.Scan

open Text

section Lengths

theorem runLength_le (more : Char → List Char → Bool) (cs : List Char) :
    runLength more cs ≤ cs.length := by
  induction cs with
  | nil => simp [runLength]
  | cons c cs ih =>
      simp only [runLength, List.length_cons]
      split <;> omega

theorem classLength_le (inClass : Char → Bool) (cs : List Char) :
    classLength inClass cs ≤ cs.length := runLength_le _ cs

theorem indexOf?_le {mark cs : List Char} {index : Nat} (h : indexOf? mark cs = some index) :
    index + mark.length ≤ cs.length := by
  induction cs generalizing index with
  | nil =>
      simp only [indexOf?] at h
      split at h
      · next hempty =>
        cases h
        simp [List.isEmpty_iff.1 hempty]
      · cases h
  | cons c cs ih =>
      simp only [indexOf?] at h
      split at h
      · next hprefix =>
        cases h
        have hle := (List.isPrefixOf_iff_prefix.1 hprefix).length_le
        omega
      · obtain ⟨inner, hinner, rfl⟩ := Option.map_eq_some_iff.1 h
        have := ih hinner
        simp only [List.length_cons]
        omega

theorem quotedLength?_le {quote : Char} {cs : List Char} {count : Nat}
    (h : quotedLength? quote cs = some count) : count ≤ cs.length := by
  fun_induction quotedLength? quote cs generalizing count with
  | case1 => cases h
  | case2 c rest ih =>
      obtain ⟨inner, hinner, rfl⟩ := Option.map_eq_some_iff.1 h
      have := ih hinner
      simp only [List.length_cons]
      omega
  | case3 rest =>
      cases h
      simp
  | case4 c rest _ _ ih =>
      obtain ⟨inner, hinner, rfl⟩ := Option.map_eq_some_iff.1 h
      have := ih hinner
      simp only [List.length_cons]
      omega

theorem exponentLength_le (cs : List Char) : exponentLength cs ≤ cs.length := by
  cases cs with
  | nil => simp [exponentLength]
  | cons e rest =>
      simp only [exponentLength]
      have hsign : (if headIs (fun c => c == '+' || c == '-') rest then 1 else 0) ≤ rest.length := by
        cases rest with
        | nil => simp [headIs]
        | cons c rest => split <;> simp
      generalize (if headIs (fun c => c == '+' || c == '-') rest then 1 else 0) = sign at hsign ⊢
      have hdigits := classLength_le isDigit (rest.drop sign)
      rw [List.length_drop] at hdigits
      split
      · simp only [List.length_cons]
        omega
      · omega

theorem numberLength_le (cs : List Char) : numberLength cs ≤ cs.length := by
  have hbody := runLength_le extendsNumber cs
  have hexponent := exponentLength_le (cs.drop (runLength extendsNumber cs))
  rw [List.length_drop] at hexponent
  simp only [numberLength]
  omega

-- A piece of a time never goes beyond the text.
def Bounded (piece : List Char → Option Nat) : Prop :=
  ∀ cs count, piece cs = some count → count ≤ cs.length

theorem bounded_digitsBetween (low high : Nat) : Bounded (digitsBetween? low high) := by
  intro cs count h
  unfold digitsBetween? at h
  simp only at h
  split at h
  · cases h
    exact classLength_le isDigit cs
  · cases h

theorem bounded_mark (c : Char) : Bounded (mark? c) := by
  intro cs count h
  cases cs with
  | nil => cases h
  | cons d cs =>
      simp only [mark?] at h
      split at h
      · cases h
        simp
      · cases h

theorem bounded_sequence {pieces : List (List Char → Option Nat)}
    (h : ∀ piece ∈ pieces, Bounded piece) : Bounded (sequence? pieces) := by
  induction pieces with
  | nil =>
      intro cs count hcount
      cases hcount
      exact Nat.zero_le _
  | cons piece rest ih =>
      intro cs count hcount
      simp only [sequence?, bind, Option.bind_eq_some_iff, pure, Option.some.injEq] at hcount
      obtain ⟨first, hfirst, others, hothers, rfl⟩ := hcount
      have hle := h piece List.mem_cons_self cs first hfirst
      have hrest := ih (fun piece hpiece => h piece (List.mem_cons_of_mem _ hpiece)) _ _ hothers
      rw [List.length_drop] at hrest
      omega

theorem bounded_date : Bounded date? := by
  apply bounded_sequence
  simp only [List.mem_cons, List.not_mem_nil, or_false]
  rintro piece (rfl | rfl | rfl | rfl | rfl)
  · exact bounded_digitsBetween 1 2
  · exact bounded_mark '/'
  · exact bounded_digitsBetween 1 2
  · exact bounded_mark '/'
  · exact bounded_digitsBetween 4 4

theorem bounded_timeOfDay : Bounded timeOfDay? := by
  apply bounded_sequence
  simp only [List.mem_cons, List.not_mem_nil, or_false]
  rintro piece (rfl | rfl | rfl | rfl | rfl | rfl)
  · exact bounded_mark ':'
  · exact bounded_digitsBetween 1 2
  · exact bounded_mark ':'
  · exact bounded_digitsBetween 2 2
  · exact bounded_mark ':'
  · exact bounded_digitsBetween 2 2

theorem bounded_absoluteTime : Bounded absoluteTime? := by
  intro cs count h
  simp only [absoluteTime?, bind, Option.bind_eq_some_iff, pure, Option.some.injEq] at h
  obtain ⟨date, hdate, rfl⟩ := h
  have hle := bounded_date cs date hdate
  cases hday : timeOfDay? (cs.drop date) with
  | none =>
      simp only [Option.getD_none]
      omega
  | some day =>
      have hrest := bounded_timeOfDay _ _ hday
      rw [List.length_drop] at hrest
      simp only [Option.getD_some]
      omega

theorem bounded_snap : Bounded snap? := by
  intro cs count h
  unfold snap? at h
  split at h
  · next rest =>
    simp only at h
    split at h
    · cases h
      have hletters := classLength_le isLetter rest
      have hdigits := classLength_le isDigit (rest.drop (classLength isLetter rest))
      rw [List.length_drop] at hdigits
      simp only [List.length_cons]
      omega
    · cases h
  · cases h

end Lengths

-- A relative time is digits, a unit, a rounding if an at-sign follows, and no word behind.
theorem relativeTime?_eq (cs : List Char) : relativeTime? cs =
    let digits := classLength isDigit cs
    let letters := classLength isLetter (cs.drop digits)
    let count := digits + letters
    if digits = 0 ∨ String.ofList ((cs.drop digits).take letters) ∉ Keyword.timeUnits then none
    else ((if headIs (· == '@') (cs.drop count) then snap? (cs.drop count) else some 0).map
      (count + ·)).filter fun total => !headIs isWordChar (cs.drop total) := by
  simp only [relativeTime?]
  split
  · rfl
  split
  · cases snap? (cs.drop
        (classLength isDigit cs + classLength isLetter (cs.drop (classLength isDigit cs)))) with
    | none => rfl
    | some rounding =>
        simp only [Option.map_some, Option.filter_some]
        split <;> simp_all
  · simp only [Option.map_some, Option.filter_some]
    split <;> simp_all

theorem loneSnap?_eq (cs : List Char) :
    loneSnap? cs = (snap? cs).filter fun count => !headIs isWordChar (cs.drop count) := by
  simp only [loneSnap?]
  cases snap? cs with
  | none => rfl
  | some count =>
      simp only [Option.filter_some]
      split <;> simp_all

theorem bounded_relativeTime : Bounded relativeTime? := by
  intro cs total h
  simp only [relativeTime?_eq] at h
  split at h
  · cases h
  have hdigits := classLength_le isDigit cs
  have hletters := classLength_le isLetter (cs.drop (classLength isDigit cs))
  rw [List.length_drop] at hletters
  obtain ⟨rounding, hrounding, rfl⟩ := Option.map_eq_some_iff.1 (Option.filter_eq_some_iff.1 h).1
  split at hrounding
  · have hle := bounded_snap _ _ hrounding
    rw [List.length_drop] at hle
    omega
  · cases hrounding
    omega

-- Which rule has given a token of a kind, and how many characters behind the first one it covers.
inductive Lexed (previous : Option Char) (c : Char) (cs : List Char) : Kind → Nat → Prop where
  | blank : isBlank c = true → Lexed previous c cs .blank (classLength isBlank cs)
  | ticks {index : Nat} : ticks.isPrefixOf (c :: cs) = true →
      indexOf? ticks (cs.drop 2) = some index → Lexed previous c cs .comment (2 + index + 3)
  | block {index : Nat} : c = '/' → headIs (· == '*') cs = true →
      indexOf? ['*', '/'] (cs.drop 1) = some index → Lexed previous c cs .comment (1 + index + 2)
  | line : c = '/' → headIs (· == '/') cs = true → previous.all isBlank = true →
      Lexed previous c cs .comment (classLength (· != '\n') cs)
  | quoted {count : Nat} : c = '"' ∨ c = '\x27' → quotedLength? c cs = some count →
      Lexed previous c cs .string count
  | date {count : Nat} : isDigit c = true → absoluteTime? (c :: cs) = some count →
      Lexed previous c cs .time (count - 1)
  | relative {count : Nat} : isDigit c = true → relativeTime? (c :: cs) = some count →
      Lexed previous c cs .time (count - 1)
  | number : isDigit c = true → Lexed previous c cs .number (numberLength (c :: cs) - 1)
  | signed {count : Nat} : c = '+' ∨ c = '-' → relativeTime? cs = some count →
      Lexed previous c cs .time count
  | snap {count : Nat} : c = '@' → loneSnap? (c :: cs) = some count →
      Lexed previous c cs .time (count - 1)
  | word : opensWord c = true ∨ c = '.' ∧ headIs opensWord cs = true →
      Lexed previous c cs
        (Keyword.classify (String.ofList (c :: cs.take (runLength extendsWord cs))))
        (runLength extendsWord cs)
  | point : c = '.' → headIs isDigit cs = true →
      Lexed previous c cs .number (numberLength (c :: cs) - 1)
  | pair {kind : Kind} : pairSymbol? c cs = some kind → Lexed previous c cs kind 1
  | symbol {kind : Kind} : symbol? c = some kind → Lexed previous c cs kind 0

theorem blockComment_eq_ok {close cs : List Char} {opened more : Nat} {kind : Kind}
    (h : blockComment close opened cs = ⟨.ok kind, more⟩) : ∃ index,
    indexOf? close (cs.drop opened) = some index ∧ kind = .comment ∧
      more = opened + index + close.length := by
  unfold blockComment at h
  split at h
  · next index hindex =>
    cases h
    exact ⟨index, hindex, rfl, rfl⟩
  · cases h

section Rules

variable {previous : Option Char} {c : Char} {cs : List Char} {kind : Kind} {more : Nat}

theorem lexed_of_comment (h : comment? previous c cs = some ⟨.ok kind, more⟩) :
    Lexed previous c cs kind more := by
  unfold comment? at h
  split at h
  · next hticks =>
    obtain ⟨index, hindex, rfl, rfl⟩ := blockComment_eq_ok (Option.some.inj h)
    exact .ticks hticks hindex
  split at h
  · next hblock =>
    obtain ⟨index, hindex, rfl, rfl⟩ := blockComment_eq_ok (Option.some.inj h)
    exact .block hblock.1 hblock.2 hindex
  split at h
  · next hline =>
    cases h
    exact .line hline.1 hline.2.1 hline.2.2
  · cases h

theorem lexed_of_quoted (h : quoted? c cs = some ⟨.ok kind, more⟩) :
    Lexed previous c cs kind more := by
  unfold quoted? at h
  split at h
  · next hquote =>
    split at h
    · next count hcount =>
      cases h
      exact .quoted hquote hcount
    · cases h
  · cases h

theorem lexed_of_digits (h : digits? c cs = some ⟨.ok kind, more⟩) :
    Lexed previous c cs kind more := by
  unfold digits? at h
  split at h
  · next hdigit =>
    split at h
    · next count hcount =>
      cases h
      rcases Option.or_eq_some_iff.1 hcount with hdate | ⟨-, hrelative⟩
      · exact .date hdigit hdate
      · exact .relative hdigit hrelative
    · cases h
      exact .number hdigit
  · cases h

theorem lexed_of_markedTime (h : markedTime? c cs = some ⟨.ok kind, more⟩) :
    Lexed previous c cs kind more := by
  unfold markedTime? at h
  split at h
  · next hsign =>
    obtain ⟨count, hcount, heq⟩ := Option.map_eq_some_iff.1 h
    cases heq
    exact .signed hsign hcount
  split at h
  · next hat =>
    obtain ⟨count, hcount, heq⟩ := Option.map_eq_some_iff.1 h
    cases heq
    exact .snap hat hcount
  · cases h

theorem lexed_of_word (h : word? c cs = some ⟨.ok kind, more⟩) :
    Lexed previous c cs kind more := by
  unfold word? at h
  split at h
  · next hopens =>
    cases h
    exact .word hopens
  split at h
  · next hpoint =>
    cases h
    exact .point hpoint.1 hpoint.2
  · cases h

theorem lexed_of_operator (h : operator c cs = ⟨.ok kind, more⟩) :
    Lexed previous c cs kind more := by
  unfold operator at h
  split at h
  · next hpair =>
    cases h
    exact .pair hpair
  split at h
  · next hsymbol =>
    cases h
    exact .symbol hsymbol
  · cases h

-- The rule that gave a token is the first one that applies.
theorem lexed_of_lexeme (h : lexeme previous c cs = ⟨.ok kind, more⟩) :
    Lexed previous c cs kind more := by
  unfold lexeme at h
  split at h
  · next hblank =>
    cases h
    exact .blank hblank
  have hrule := Option.getD_eq_iff.1 h
  simp only [Option.or_eq_some_iff, Option.or_eq_none_iff] at hrule
  rcases hrule with (hcomment | ⟨-, hquoted | ⟨-, hdigits | ⟨-, hmarked | ⟨-, hword⟩⟩⟩⟩) |
    ⟨-, hoperator⟩
  · exact lexed_of_comment hcomment
  · exact lexed_of_quoted hquoted
  · exact lexed_of_digits hdigits
  · exact lexed_of_markedTime hmarked
  · exact lexed_of_word hword
  · exact lexed_of_operator hoperator

end Rules

-- The kinds that a word can have.
def wordKinds : List Kind :=
  [.conj, .disj, .neg, .aliasing, .grouping, .within, .like, .output, .outputNew, .openingCommand,
   .commandOrFunction, .command, .modifierOrFunction, .timeOrFunction, .function, .word]

theorem lookup_mem {table : List (String × Kind)} {text : String} {kind : Kind}
    (h : table.lookup text = some kind) : kind ∈ table.map (·.2) := by
  obtain ⟨before, behind, rfl, -⟩ := List.lookup_eq_some_iff.1 h
  simp

theorem classify_mem (text : String) : Keyword.classify text ∈ wordKinds := by
  unfold Keyword.classify
  split
  · next kind hkind =>
    have hsub : ∀ kind ∈ Keyword.booleanWords.map (·.2), kind ∈ wordKinds := by decide
    exact hsub kind (lookup_mem hkind)
  split
  · next kind hkind =>
    have hsub : ∀ kind ∈ Keyword.clauseWords.map (·.2), kind ∈ wordKinds := by decide
    exact hsub kind (lookup_mem hkind)
  · split_ifs <;> decide

namespace Lexed

variable {previous : Option Char} {c : Char} {cs : List Char} {kind : Kind} {more : Nat}

theorem pairSymbol?_eq_some (h : pairSymbol? c cs = some kind) :
    headIs (· == '=') cs = true ∧ (kind = .ne ∨ kind = .ge ∨ kind = .le) := by
  unfold pairSymbol? at h
  split at h
  · exact ⟨rfl, .inl (Option.some.inj h).symm⟩
  · exact ⟨rfl, .inr (.inl (Option.some.inj h).symm)⟩
  · exact ⟨rfl, .inr (.inr (Option.some.inj h).symm)⟩
  · cases h

-- The single-character tokens, each with its kind.
def symbols : List (Char × Kind) :=
  [('+', .plus), ('-', .minus), ('*', .star), ('/', .slash), ('%', .percent), ('^', .caret),
   ('=', .eq), ('>', .gt), ('<', .lt), ('|', .pipe), ('(', .openParen), (')', .closeParen),
   ('[', .openBracket), (']', .closeBracket), (',', .comma), (':', .colon), ('@', .atSign)]

theorem symbol?_mem (h : symbol? c = some kind) : (c, kind) ∈ symbols := by
  unfold symbol? at h
  split at h <;> cases h <;> decide

theorem le_length (h : Lexed previous c cs kind more) : more ≤ cs.length := by
  cases h with
  | blank _ => exact classLength_le _ cs
  | ticks hticks hindex =>
      have hle := indexOf?_le hindex
      rw [List.length_drop] at hle
      have hlength : Scan.ticks.length = 3 := rfl
      omega
  | block _ _ hindex =>
      have hle := indexOf?_le hindex
      rw [List.length_drop] at hle
      simp only [List.length_cons, List.length_nil] at hle
      omega
  | line _ _ _ => exact classLength_le _ cs
  | quoted _ hcount => exact quotedLength?_le hcount
  | date _ hcount =>
      have hle := bounded_absoluteTime _ _ hcount
      simp only [List.length_cons] at hle
      omega
  | relative _ hcount =>
      have hle := bounded_relativeTime _ _ hcount
      simp only [List.length_cons] at hle
      omega
  | number _ | point _ _ =>
      have hle := numberLength_le (c :: cs)
      simp only [List.length_cons] at hle
      omega
  | signed _ hcount => exact bounded_relativeTime _ _ hcount
  | snap _ hcount =>
      rw [loneSnap?_eq] at hcount
      have hle := bounded_snap _ _ (Option.filter_eq_some_iff.1 hcount).1
      simp only [List.length_cons] at hle
      omega
  | word _ => exact runLength_le _ cs
  | pair hpair =>
      cases cs with
      | nil => cases (pairSymbol?_eq_some hpair).1
      | cons d cs => simp
  | symbol _ => exact Nat.zero_le _

-- No rule gives the end; it is added behind the last token.
theorem ne_finish (h : Lexed previous c cs kind more) : kind ≠ .finish := by
  cases h with
  | word _ =>
      intro hfinish
      have hmem := classify_mem (String.ofList (c :: cs.take (runLength extendsWord cs)))
      rw [hfinish] at hmem
      revert hmem
      decide
  | pair hpair =>
      rintro rfl
      simpa using (pairSymbol?_eq_some hpair).2
  | symbol hsymbol =>
      have hkinds : ∀ entry ∈ symbols, entry.2 ≠ .finish := by decide
      exact hkinds _ (symbol?_mem hsymbol)
  | _ => simp

end Lexed

-- The last character of a text that goes on behind another character.
def lastOf (c : Char) (cs : List Char) : Char := (c :: cs).getLast (List.cons_ne_nil c cs)

theorem lastOf_cons (c d : Char) (cs : List Char) : lastOf c (d :: cs) = lastOf d cs := by
  simp [lastOf]

theorem lastOf_mem (c : Char) (cs : List Char) : lastOf c cs ∈ c :: cs :=
  List.getLast_mem _

theorem lastOf_append (c : Char) (cs : List Char) {ds : List Char} (h : ds ≠ []) :
    lastOf c (cs ++ ds) = ds.getLast h := by
  unfold lastOf
  rw [List.getLast_cons (by simp [h]), List.getLast_append_of_ne_nil _ h]

end SearchPipeline.Scan
