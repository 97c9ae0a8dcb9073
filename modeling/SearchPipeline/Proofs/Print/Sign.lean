import SearchPipeline.Proofs.Grammar.Node
import SearchPipeline.Proofs.Token.Respelling

namespace SearchPipeline

open Text

-- A token as it is printed: how many blanks stand before it, its kind and its text.
structure Sign where
  blanks : Nat
  kind : Kind
  text : String
deriving DecidableEq, Repr

namespace Sign

def gap (sign : Sign) : List Char := List.replicate sign.blanks ' '

def spell (signs : List Sign) : List Char := signs.flatMap fun sign => sign.gap ++ sign.text.toList

def tokens (offset : Nat) : List Sign → List Token
  | [] => [⟨.finish, "", offset⟩]
  | sign :: signs =>
      let start := offset + byteLength sign.gap
      (if sign.blanks = 0 then [] else [⟨.blank, String.ofList sign.gap, offset⟩]) ++
        ⟨sign.kind, sign.text, start⟩ :: tokens (start + byteLength sign.text.toList) signs

end Sign

namespace Scan

-- Before the given characters, the text of a sign is one token of its kind.
structure Lexes (sign : Sign) (rest : List Char) : Prop where
  solid : sign.kind.isTrivia = false
  lexeme : ∃ c more, sign.text.toList = c :: more ∧ isBlank c = false ∧
    ∀ previous, Scan.lexeme previous c (more ++ rest) = ⟨.ok sign.kind, more.length⟩

-- No sign runs together with what follows it, nor the last one with the given characters.
def Legible : List Sign → List Char → Prop
  | [], _ => True
  | sign :: signs, rest => Lexes sign (Sign.spell signs ++ rest) ∧ Legible signs rest

section Legible

variable {signs others : List Sign} {sign : Sign} {rest : List Char}

@[simp] theorem spell_nil : Sign.spell [] = [] := rfl

@[simp] theorem spell_cons (sign : Sign) (signs : List Sign) :
    Sign.spell (sign :: signs) = sign.gap ++ (sign.text.toList ++ Sign.spell signs) := by
  simp [Sign.spell]

@[simp] theorem spell_append (signs others : List Sign) :
    Sign.spell (signs ++ others) = Sign.spell signs ++ Sign.spell others :=
  List.flatMap_append

theorem legible_append_iff : Legible (signs ++ others) rest ↔
    Legible signs (Sign.spell others ++ rest) ∧ Legible others rest := by
  induction signs with
  | nil => simp [Legible]
  | cons sign signs ih =>
      simp only [List.cons_append, Legible, ih, spell_append, List.append_assoc, and_assoc]

theorem Legible.ne_finish (h : Legible signs rest) : ∀ sign ∈ signs, sign.kind ≠ .finish := by
  induction signs with
  | nil => simp
  | cons first signs ih =>
      obtain ⟨⟨-, c, more, -, -, hlexeme⟩, hrest⟩ := h
      intro sign hsign
      rcases List.mem_cons.1 hsign with rfl | hsign
      · exact (lexed_of_lexeme (hlexeme none)).ne_finish
      · exact ih hrest sign hsign

theorem lexeme_gap (previous : Option Char) (count : Nat) (h : headIs isBlank rest = false) :
    lexeme previous ' ' (List.replicate count ' ' ++ rest) =
      ⟨.ok .blank, (List.replicate count ' ').length⟩ := by
  have hrun : classLength isBlank (List.replicate count ' ' ++ rest) =
      (List.replicate count ' ').length := by
    refine classLength_append_iff.2 ⟨fun c hc => ?_, h⟩
    rw [List.eq_of_mem_replicate hc]
    rfl
  rw [lexeme, if_pos (show isBlank ' ' = true by decide), hrun]

theorem Legible.scans (h : Legible signs []) (previous : Option Char) (offset : Nat) :
    Scans previous offset (Sign.spell signs) (Sign.tokens offset signs) := by
  induction signs generalizing previous offset with
  | nil => exact .finish
  | cons sign signs ih =>
      obtain ⟨⟨-, c, more, htext, hblank, hlexeme⟩, hrest⟩ := h
      rw [List.append_nil] at hlexeme
      have hself : String.ofList (c :: more) = sign.text := by rw [← htext, String.ofList_toList]
      have hword : ∀ previous start, Scans previous start (c :: (more ++ Sign.spell signs))
          (⟨sign.kind, sign.text, start⟩ ::
            Sign.tokens (start + byteLength sign.text.toList) signs) := by
        intro previous start
        rw [htext, ← hself]
        exact .token (hlexeme previous) (ih hrest _ _)
      rw [spell_cons, Sign.tokens, htext]
      cases hblanks : sign.blanks with
      | zero => simpa [Sign.gap, hblanks, byteLength, htext] using hword previous offset
      | succ count =>
          have hgap : sign.gap = ' ' :: List.replicate count ' ' := by
            rw [Sign.gap, hblanks, List.replicate_succ]
          rw [hgap, if_neg (Nat.succ_ne_zero count), List.singleton_append, List.cons_append,
            List.cons_append, ← htext]
          exact .token (lexeme_gap previous count hblank) (hword _ _)

end Legible

section Texts

variable {kind : Kind} {rest more : List Char} {previous : Option Char} {c : Char} {blanks : Nat}

-- What may stand directly behind a word or a number and leave it as it is.
def setsApart : List Char → Bool
  | [] => true
  | c :: _ => c ∈ [' ', '(', ')', ',', '=', '!', '<', '>']

theorem setsApart_cases (h : setsApart rest = true) (inClass : Char → Bool)
    (hclass : [' ', '(', ')', ',', '=', '!', '<', '>'].any inClass = false) :
    headIs inClass rest = false := by
  cases rest with
  | nil => rfl
  | cons c rest =>
      have hmem : c ∈ [' ', '(', ')', ',', '=', '!', '<', '>'] := by simpa [setsApart] using h
      simpa [headIs] using List.any_eq_false.1 hclass c hmem

theorem setsApart_stopsWord (h : setsApart rest = true) : stopsWord rest = true := by
  cases rest with
  | nil => rfl
  | cons c rest =>
      have hnone := setsApart_cases h (fun c => isWordChar c || c == ':') (by decide)
      simp only [headIs, Bool.or_eq_false_iff] at hnone
      simp [stopsWord, extendsWord, hnone.1, hnone.2]

theorem lexes_word {text : String} (h : OneToken kind text) (hword : kind ∈ wordKinds)
    (hrest : setsApart rest = true) : Lexes ⟨blanks, kind, text⟩ rest := by
  obtain ⟨c, more, htext, hlexeme⟩ := h.lexeme
  have hstart := startsWord_of_opens ((lexed_of_lexeme hlexeme).word_of_mem hword).1
  refine ⟨?_, c, more, htext, startsWord_not_blank hstart, fun previous => ?_⟩
  · have hsolid : ∀ kind ∈ wordKinds, kind.isTrivia = false := by decide
    exact hsolid kind hword
  · exact lexeme_word_append hlexeme hword (setsApart_stopsWord hrest)

theorem runLength_extendsNumber (hdigits : ∀ d ∈ more, isDigit d = true)
    (hrest : setsApart rest = true) : runLength extendsNumber (more ++ rest) = more.length := by
  induction more with
  | nil =>
      cases rest with
      | nil => rfl
      | cons d rest =>
          have hnone := setsApart_cases hrest (fun c => isDigit c || c == '.') (by decide)
          simp only [headIs, Bool.or_eq_false_iff] at hnone
          simp [runLength, extendsNumber, hnone.1, hnone.2]
  | cons d more ih =>
      have hd := hdigits d List.mem_cons_self
      have hmore := ih fun e he => hdigits e (List.mem_cons_of_mem _ he)
      simp [runLength, extendsNumber, hd, hmore]

theorem exponentLength_setsApart (hrest : setsApart rest = true) : exponentLength rest = 0 := by
  cases rest with
  | nil => rfl
  | cons d rest =>
      have hnone := setsApart_cases hrest (fun c => c == 'e' || c == 'E') (by decide)
      simp only [headIs] at hnone
      simp [exponentLength, hnone]

-- Digits alone are not a date, because a date has a slash.
theorem absoluteTime?_digits (hdigits : ∀ d ∈ more, isDigit d = true)
    (hrest : setsApart rest = true) : absoluteTime? (more ++ rest) = none := by
  have hcount : classLength isDigit (more ++ rest) = more.length :=
    classLength_append_iff.2 ⟨hdigits, setsApart_cases hrest _ (by decide)⟩
  have hslash := setsApart_cases hrest (· == '/') (by decide)
  simp only [absoluteTime?, date?, sequence?, digitsBetween?, hcount]
  by_cases hbounds : 1 ≤ more.length ∧ more.length ≤ 2
  · simp [hbounds, mark?, hslash]
  · simp [hbounds]

-- Nor are they a relative time, because that has a unit.
theorem relativeTime?_digits (hdigits : ∀ d ∈ more, isDigit d = true)
    (hrest : setsApart rest = true) : relativeTime? (more ++ rest) = none := by
  have hcount : classLength isDigit (more ++ rest) = more.length :=
    classLength_append_iff.2 ⟨hdigits, setsApart_cases hrest _ (by decide)⟩
  have hletters : classLength isLetter ([] ++ rest) = [].length :=
    classLength_append_iff.2 ⟨by simp, setsApart_cases hrest _ (by decide)⟩
  rw [List.nil_append, List.length_nil] at hletters
  have hunit : "" ∉ Keyword.timeUnits := by decide
  simp [relativeTime?, hcount, hletters, hunit]

theorem lexes_number {text : String} (hne : text ≠ "")
    (hdigits : ∀ d ∈ text.toList, isDigit d = true) (hrest : setsApart rest = true) :
    Lexes ⟨blanks, .number, text⟩ rest := by
  cases htext : text.toList with
  | nil => exact absurd (String.toList_eq_nil_iff.1 htext) hne
  | cons c more =>
      rw [htext] at hdigits
      have hc := hdigits c List.mem_cons_self
      have hnot : ∀ mark, isDigit mark = false → c ≠ mark := by
        rintro mark hmark rfl
        rw [hc] at hmark
        cases hmark
      have hblank : isBlank c = false := by
        by_contra hblank
        rw [isBlank_not_digit (by simpa using hblank)] at hc
        cases hc
      refine ⟨rfl, c, more, htext, hblank, fun previous => ?_⟩
      have hcomment : comment? previous c (more ++ rest) = none := by
        have htick := hnot '\x60' (by decide)
        have hslash := hnot '/' (by decide)
        simp [comment?, ticks, List.isPrefixOf, Ne.symm htick, hslash]
      have hquoted : quoted? c (more ++ rest) = none :=
        quoted?_eq_none.2 ⟨hnot '"' (by decide), hnot '\x27' (by decide)⟩
      have hnumber : numberLength (c :: (more ++ rest)) = more.length + 1 := by
        have hrun := runLength_extendsNumber hdigits hrest
        rw [List.cons_append] at hrun
        have hdrop : (c :: (more ++ rest)).drop (c :: more).length = rest := by
          simp
        rw [numberLength, hrun, hdrop, exponentLength_setsApart hrest]
        rfl
      have habsolute := absoluteTime?_digits hdigits hrest
      have hrelative := relativeTime?_digits hdigits hrest
      rw [List.cons_append] at habsolute hrelative
      have hfound : digits? c (more ++ rest) = some ⟨.ok .number, more.length⟩ := by
        simp [digits?, hc, habsolute, hrelative, hnumber]
      simp [lexeme, hblank, hcomment, hquoted, hfound]

-- A string without quotes and backslashes inside ends with its closing quote.
theorem quotedLength?_plain {body : List Char} (hquote : '"' ∉ body) (hslash : '\\' ∉ body)
    (rest : List Char) : quotedLength? '"' (body ++ '"' :: rest) = some (body.length + 1) := by
  induction body with
  | nil => rw [List.nil_append, quotedLength?_cons (by decide), if_pos rfl]; rfl
  | cons d body ih =>
      simp only [List.mem_cons, not_or] at hquote hslash
      rw [List.cons_append, quotedLength?_cons (Ne.symm hslash.1), if_neg (Ne.symm hquote.1),
        ih hquote.2 hslash.2]
      rfl

theorem lexes_string {text : String} {body : List Char}
    (htext : text.toList = '"' :: (body ++ ['"'])) (hquote : '"' ∉ body) (hslash : '\\' ∉ body) :
    Lexes ⟨blanks, .string, text⟩ rest := by
  refine ⟨rfl, '"', _, htext, by decide, fun previous => ?_⟩
  have hlength := quotedLength?_plain hquote hslash rest
  have hfound : quoted? '"' (body ++ ['"'] ++ rest) = some ⟨.ok .string, body.length + 1⟩ := by
    simp [quoted?, hlength]
  have hcomment : comment? previous '"' (body ++ ['"'] ++ rest) = none := by
    simp [comment?, ticks, List.isPrefixOf]
  rw [lexeme_of_quoted (by decide) hcomment hfound, List.length_append]
  rfl

end Texts

end Scan

-- How operators and comparisons are written.
def ArithOp.text : ArithOp → String
  | pow => "^"
  | mult => "*"
  | mod => "%"
  | div => "/"
  | add => "+"
  | sub => "-"

def CompareOp.text : CompareOp → String
  | eq => "="
  | ne => "!="
  | gt => ">"
  | lt => "<"
  | ge => ">="
  | le => "<="

namespace Scan

variable {blanks : Nat} {rest : List Char}

theorem Lexes.of_chars {kind : Kind} {text : String} (c : Char) (more : List Char)
    (htext : text.toList = c :: more) (hsolid : kind.isTrivia = false) (hblank : isBlank c = false)
    (h : ∀ previous, Scan.lexeme previous c (more ++ rest) = ⟨.ok kind, more.length⟩) :
    Lexes ⟨blanks, kind, text⟩ rest :=
  ⟨hsolid, c, more, htext, hblank, h⟩

theorem lexes_openParen : Lexes ⟨blanks, .openParen, "("⟩ rest :=
  .of_chars '(' [] (by decide) rfl (by decide) fun _ => rfl

theorem lexes_closeParen : Lexes ⟨blanks, .closeParen, ")"⟩ rest :=
  .of_chars ')' [] (by decide) rfl (by decide) fun _ => rfl

theorem lexes_comma : Lexes ⟨blanks, .comma, ","⟩ rest :=
  .of_chars ',' [] (by decide) rfl (by decide) fun _ => rfl

-- With a blank behind it, no operator opens a comment or a time.
theorem lexes_operator (op : ArithOp) : Lexes ⟨blanks, op.kind, op.text⟩ (' ' :: rest) := by
  cases op with
  | pow => exact .of_chars '^' [] (by decide) rfl (by decide) fun _ => rfl
  | mult => exact .of_chars '*' [] (by decide) rfl (by decide) fun _ => rfl
  | mod => exact .of_chars '%' [] (by decide) rfl (by decide) fun _ => rfl
  | div => exact .of_chars '/' [] (by decide) rfl (by decide) fun _ => rfl
  | add => exact .of_chars '+' [] (by decide) rfl (by decide) fun _ => rfl
  | sub => exact .of_chars '-' [] (by decide) rfl (by decide) fun _ => rfl

theorem lexes_comparison (op : CompareOp) (hrest : headIs (· == '=') rest = false) :
    Lexes ⟨blanks, op.kind, op.text⟩ rest := by
  have hpair : ∀ c, c = '<' ∨ c = '>' → pairSymbol? c rest = none := by
    intro c hc
    rw [pairSymbol?_eq, hrest]
    rcases hc with rfl | rfl <;> rfl
  cases op with
  | eq => exact .of_chars '=' [] (by decide) rfl (by decide) fun _ => rfl
  | ne => exact .of_chars '!' ['='] (by decide) rfl (by decide) fun _ => rfl
  | ge => exact .of_chars '>' ['='] (by decide) rfl (by decide) fun _ => rfl
  | le => exact .of_chars '<' ['='] (by decide) rfl (by decide) fun _ => rfl
  | gt =>
      refine .of_chars '>' [] (by decide) rfl (by decide) fun previous => ?_
      change operator '>' rest = _
      rw [operator, hpair '>' (.inr rfl)]
      rfl
  | lt =>
      refine .of_chars '<' [] (by decide) rfl (by decide) fun previous => ?_
      change operator '<' rest = _
      rw [operator, hpair '<' (.inl rfl)]
      rfl

end Scan

end SearchPipeline
