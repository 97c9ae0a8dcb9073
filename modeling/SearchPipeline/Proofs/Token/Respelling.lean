import SearchPipeline.Proofs.Token.Context
import SearchPipeline.Proofs.Token.Tiling

namespace SearchPipeline.Scan

open Text

theorem Scans.ne_nil {previous : Option Char} {offset : Nat} {cs : List Char} {found : List Token}
    (h : Scans previous offset cs found) : found ≠ [] := by
  cases h with
  | finish => simp
  | token _ _ => simp

-- A text that is one token of a kind and nothing else.
def OneToken (kind : Kind) (text : String) : Prop :=
  ∃ token last, Scan.tokens text = .ok [token, last] ∧ token.kind = kind

theorem OneToken.lexeme {kind : Kind} {text : String} (h : OneToken kind text) :
    ∃ c more, text.toList = c :: more ∧ lexeme none c more = ⟨.ok kind, more.length⟩ := by
  obtain ⟨token, last, htokens, hkind⟩ := h
  have hscans := tokens_eq_ok_iff.1 htokens
  generalize text.toList = cs at hscans
  cases hscans with
  | @token _ _ c more rest found tokens hlexeme hrest =>
      have hnil : rest = [] := by
        generalize hlater : [last] = later at hrest
        cases hrest with
        | finish => rfl
        | token _ hrest =>
            cases (List.cons.inj hlater).2
            exact absurd rfl hrest.ne_nil
      subst hnil
      cases (show found = kind from hkind)
      rw [List.append_nil] at hlexeme ⊢
      exact ⟨c, more, rfl, hlexeme⟩

-- A text that is one ordinary word and nothing else.
def OneWord (text : String) : Prop :=
  ∃ token last, Scan.tokens text = .ok [token, last] ∧ token.kind = .word

section Words

variable {previous : Option Char} {c : Char} {cs more rest : List Char} {kind : Kind} {count : Nat}

-- A token of a kind that words have was given by the rule for words.
theorem Lexed.word_of_mem (h : Lexed previous c cs kind count) (hkind : kind ∈ wordKinds) :
    (opensWord c = true ∨ c = '.' ∧ headIs opensWord cs = true) ∧
      count = runLength extendsWord cs ∧
      kind = Keyword.classify (String.ofList (c :: cs.take (runLength extendsWord cs))) := by
  cases h with
  | word hopens => exact ⟨hopens, rfl, rfl⟩
  | pair hpair =>
      rcases (pairSymbol?_eq_some hpair).2 with rfl | rfl | rfl <;> simp [wordKinds] at hkind
  | symbol hsymbol =>
      have hkinds : ∀ entry ∈ symbols, entry.2 ∉ wordKinds := by decide
      exact absurd hkind (hkinds _ (symbol?_mem hsymbol))
  | _ => simp [wordKinds] at hkind

-- So was a token of a sign's kind by the rule for signs.
theorem Lexed.symbol_of_mem (h : Lexed previous c cs kind count) {sign : Char}
    (hsign : (sign, kind) ∈ symbols) : c = sign ∧ count = 0 := by
  cases h with
  | word hopens =>
      have hkinds : ∀ entry ∈ symbols, entry.2 ∉ wordKinds := by decide
      exact absurd (classify_mem _) (hkinds _ hsign)
  | pair hpair =>
      rcases (pairSymbol?_eq_some hpair).2 with rfl | rfl | rfl <;> simp [symbols] at hsign
  | symbol hsymbol =>
      have hunique : ∀ entry ∈ symbols, ∀ other ∈ symbols, entry.2 = other.2 → entry.1 = other.1 := by
        decide
      exact ⟨hunique _ (symbol?_mem hsymbol) _ hsign rfl, rfl⟩
  | _ => simp [symbols] at hsign

theorem Scans.text_of_symbol {offset : Nat} {found : List Token} (h : Scans previous offset cs found)
    {token : Token} (hmem : token ∈ found) {sign : Char} (hsign : (sign, token.kind) ∈ Lexed.symbols) :
    token.text.toList = [sign] := by
  have hfinish : token.kind ≠ .finish := by
    intro hfinish
    simp [hfinish, Lexed.symbols] at hsign
  obtain ⟨before, c, more, rest, hlexeme, htext⟩ := h.lexeme_of_mem hmem hfinish
  obtain ⟨rfl, hcount⟩ := (lexed_of_lexeme hlexeme).symbol_of_mem hsign
  rw [htext, List.length_eq_zero_iff.1 hcount, String.toList_ofList]

theorem ne_finish_of_word (hkind : kind ∈ wordKinds) : kind ≠ .finish := by
  rintro rfl
  simp [wordKinds] at hkind

-- A token of such a kind has the kind of its text.
theorem Scans.kind_eq_classify {offset : Nat} {found : List Token} (h : Scans previous offset cs found)
    {token : Token} (hmem : token ∈ found) (hkind : token.kind ∈ wordKinds) :
    token.kind = Keyword.classify token.text := by
  obtain ⟨before, c, more, rest, hlexeme, htext⟩ := h.lexeme_of_mem hmem (ne_finish_of_word hkind)
  obtain ⟨-, hcount, hclass⟩ := (lexed_of_lexeme hlexeme).word_of_mem hkind
  rwa [← hcount, List.take_left, ← htext] at hclass

theorem startsWord_of_opens (h : opensWord c = true ∨ c = '.' ∧ headIs opensWord cs = true) :
    startsWord c = true := by
  rcases h with hopens | ⟨rfl, -⟩
  · simp [startsWord, hopens]
  · decide

theorem lexeme_of_word (h : opensWord c = true ∨ c = '.' ∧ headIs opensWord cs = true) :
    lexeme previous c cs =
      ⟨.ok (Keyword.classify (String.ofList (c :: cs.take (runLength extendsWord cs)))),
        runLength extendsWord cs⟩ := by
  have hstart := startsWord_of_opens h
  have hne : ∀ mark, startsWord mark = false → c ≠ mark := fun mark => ne_of_startsWord hstart
  have hcomment : comment? previous c cs = none := by
    have htick := hne '\x60' (by decide)
    have hslash := hne '/' (by decide)
    simp [comment?, ticks, List.isPrefixOf, Ne.symm htick, hslash]
  have hquoted : quoted? c cs = none :=
    quoted?_eq_none.2 ⟨hne '"' (by decide), hne '\x27' (by decide)⟩
  have hdigits : digits? c cs = none := by simp [digits?, startsWord_not_digit hstart]
  have hmarked : markedTime? c cs = none := by
    have hplus := hne '+' (by decide)
    have hminus := hne '-' (by decide)
    have hat := hne '@' (by decide)
    simp [markedTime?, hplus, hminus, hat]
  simp [lexeme, startsWord_not_blank hstart, hcomment, hquoted, hdigits, hmarked, word?, h]

-- The characters of a word bind, so none of them is blank.
theorem binds_of_runLength (h : runLength extendsWord (more ++ rest) = more.length) :
    ∀ d ∈ more, binds d = true := by
  induction more with
  | nil => simp
  | cons d more ih =>
      simp only [runLength, List.cons_append, List.length_cons] at h
      split at h
      · next hd =>
        intro e he
        rcases List.mem_cons.1 he with rfl | he
        · exact binds_of_extendsWord hd
        · exact ih (by omega) e he
      · omega

theorem Scans.binds_of_word {offset : Nat} {found : List Token} (h : Scans previous offset cs found)
    {token : Token} (hmem : token ∈ found) (hkind : token.kind ∈ wordKinds) :
    ∀ d ∈ token.text.toList, binds d = true := by
  obtain ⟨before, c, more, rest, hlexeme, htext⟩ := h.lexeme_of_mem hmem (ne_finish_of_word hkind)
  obtain ⟨hopens, hcount, -⟩ := (lexed_of_lexeme hlexeme).word_of_mem hkind
  rw [htext, String.toList_ofList, List.forall_mem_cons]
  refine ⟨?_, binds_of_runLength hcount.symm⟩
  simp [binds, startsWord_wordChar (startsWord_of_opens hopens)]

-- A text that is one ordinary word.
def IsWord (text : List Char) : Prop :=
  ∃ c more, text = c :: more ∧ lexeme none c more = ⟨.ok .word, more.length⟩

theorem OneWord.isWord {text : String} (h : OneWord text) : IsWord text.toList :=
  OneToken.lexeme h

theorem lastOf_not_blank (h : lexeme previous c (more ++ rest) = ⟨.ok kind, more.length⟩)
    (hkind : kind ∈ wordKinds) : isBlank (lastOf c more) = false := by
  obtain ⟨hopens, hcount, -⟩ := (lexed_of_lexeme h).word_of_mem hkind
  by_contra hblank
  rw [Bool.not_eq_false] at hblank
  have hfree := isBlank_not_binds hblank
  rcases List.mem_cons.1 (lastOf_mem c more) with hlast | hlast
  · rw [hlast] at hblank
    rw [startsWord_not_blank (startsWord_of_opens hopens)] at hblank
    cases hblank
  · rw [binds_of_runLength hcount.symm _ hlast] at hfree
    cases hfree

-- A word is the same word before anything that does not go on it.
theorem lexeme_word_append (h : lexeme none c more = ⟨.ok kind, more.length⟩)
    (hword : kind ∈ wordKinds) (hrest : stopsWord rest = true) :
    lexeme previous c (more ++ rest) = ⟨.ok kind, more.length⟩ := by
  obtain ⟨hopens, hcount, hkind⟩ := (lexed_of_lexeme h).word_of_mem hword
  have hopens' : opensWord c = true ∨ c = '.' ∧ headIs opensWord (more ++ rest) = true := by
    refine hopens.imp_right fun hpoint => ⟨hpoint.1, ?_⟩
    cases more with
    | nil => cases hpoint.2
    | cons d more => exact hpoint.2
  have hlength := runLength_extendsWord_append hcount.symm hrest
  rw [← hcount, List.take_length] at hkind
  rw [lexeme_of_word hopens', hlength, List.take_left, ← hkind]

end Words

-- A token and the text that takes its place.
structure Edit where
  token : Token
  text : List Char

namespace Edit

def Kept (edit : Edit) : Prop := edit.text = edit.token.text.toList

def Renamed (edit : Edit) : Prop := edit.token.kind = .word ∧ IsWord edit.text

-- What may stand directly before a word that is exchanged.
def Frees (edit : Edit) : Prop :=
  edit.token.kind ≠ .number ∧ edit.token.kind ≠ .colon ∧ edit.token.kind ≠ .atSign

end Edit

-- Words are exchanged for words, away from numbers, colons and at-signs.
structure Edits (edits : List Edit) : Prop where
  each : ∀ edit ∈ edits, edit.Kept ∨ edit.Renamed
  apart : edits.IsChain fun a b => b.Kept ∨ a.Frees

theorem Edits.tail {edit : Edit} {edits : List Edit} (h : Edits (edit :: edits)) : Edits edits where
  each other hother := h.each other (List.mem_cons_of_mem _ hother)
  apart := by
    cases edits with
    | nil => exact .nil
    | cons next edits => exact (List.isChain_cons_cons.1 h.apart).2

-- The tokens of the new text.
def respelled (offset : Nat) : List Edit → List Token
  | [] => [⟨.finish, "", offset⟩]
  | edit :: edits =>
      ⟨edit.token.kind, String.ofList edit.text, offset⟩ ::
        respelled (offset + byteLength edit.text) edits

-- How the old and the new text begin: with the same token, as far as the rules look ahead, or with
-- a word each.
inductive Front : List Edit → List Char → List Char → Prop where
  | done : Front [] [] []
  | kept {edit : Edit} {edits : List Edit} {c : Char} {cs ds : List Char} :
      Tight c cs ds → Front (edit :: edits) (c :: cs) (c :: ds)
  | renamed {edit : Edit} {edits : List Edit} {c d : Char} {cs ds : List Char} : ¬ edit.Kept →
      startsWord c = true → startsWord d = true → Front (edit :: edits) (c :: cs) (d :: ds)

section Front

variable {edits : List Edit} {c : Char} {more rest behind : List Char}

theorem Front.loose (h : Front edits rest behind) : Loose rest behind := by
  cases h with
  | done => exact .ended (.inl rfl)
  | kept htight => exact .same htight.loose
  | renamed _ hc hd => exact .fork hc hd

theorem Front.stopsWord (h : Front edits rest behind) (hstop : Scan.stopsWord rest = true) :
    Scan.stopsWord behind = true := by
  cases h with
  | done => rfl
  | @kept _ _ c cs ds htight =>
      simp only [Scan.stopsWord, Bool.not_eq_true'] at hstop ⊢
      by_cases hbinds : binds c = true
      · rw [← hstop]
        exact (htight.extendsWord_eq hbinds).symm
      · by_contra hmore
        exact hbinds (binds_of_extendsWord (by simpa using hmore))
  | renamed _ hc hd =>
      simp [Scan.stopsWord, extendsWord, startsWord_wordChar hc] at hstop

theorem Tight.append (h : Tight (lastOf c more) rest behind) :
    Tight c (more ++ rest) (more ++ behind) := by
  induction more generalizing c with
  | nil => exact h
  | cons d more ih =>
      rw [lastOf_cons] at h
      exact .same (ih h)

theorem Tight.append_slash (hslash : '/' ∈ more) (h : Loose rest behind) :
    Tight c (more ++ rest) (more ++ behind) := by
  have hloose : ∀ more, Loose (more ++ rest) (more ++ behind) := by
    intro more
    induction more with
    | nil => exact h
    | cons d more ih => exact .same ih
  induction more generalizing c with
  | nil => cases hslash
  | cons d more ih =>
      rcases List.mem_cons.1 hslash with rfl | hslash
      · exact .slash (hloose more)
      · exact .same (ih hslash)

variable {previous other : Option Char} {offset : Nat} {cs : List Char} {kind : Kind}
  {found : List Token} {edit : Edit}

-- The text behind a token that is kept agrees as far as the rules look ahead.
theorem Front.tight (h : Front edits rest behind) (hedits : Edits (edit :: edits))
    (hlexeme : lexeme previous c (more ++ rest) = ⟨.ok edit.token.kind, more.length⟩) :
    Tight c (more ++ rest) (more ++ behind) := by
  cases h with
  | done => exact Tight.append (.ended (.inl rfl))
  | kept htight => exact Tight.append (.same htight)
  | renamed hkept hc hd =>
      have hfrees := (List.isChain_cons_cons.1 hedits.apart).1.resolve_left hkept
      rcases (lexed_of_lexeme hlexeme).apart rfl hc hfrees with hfree | hslash
      · exact Tight.append (.fork hfree hc hd)
      · exact Tight.append_slash hslash (.fork hc hd)

-- The induction goes along the tokens. What the new text behind a token looks like is known from
-- the tokens behind it, and decides that the token itself is the same.
theorem Scans.respell (h : Scans previous offset cs found) {last : Token}
    (hfound : found = edits.map (·.token) ++ [last]) (hedits : Edits edits) (start : Nat)
    (hprevious : previous.all isBlank = other.all isBlank) :
    Scans other start (edits.flatMap (·.text)) (respelled start edits) ∧
      Front edits cs (edits.flatMap (·.text)) := by
  induction h generalizing edits other start with
  | finish =>
      cases edits with
      | nil => exact ⟨.finish, .done⟩
      | cons edit edits => simp at hfound
  | @token previous offset c more rest kind tokens hlexeme hrest ih =>
      cases edits with
      | nil =>
          simp only [List.map_nil, List.nil_append, List.cons.injEq] at hfound
          exact absurd hfound.2 hrest.ne_nil
      | cons edit edits =>
          simp only [List.map_cons, List.cons_append, List.cons.injEq] at hfound
          obtain ⟨htoken, htokens⟩ := hfound
          have hkind : edit.token.kind = kind := by rw [← htoken]
          simp only [List.flatMap_cons, respelled]
          by_cases hkept : edit.Kept
          · have htext : edit.text = c :: more := by
              rw [hkept, ← htoken, String.toList_ofList]
            have hlast : (some (lastOf c more)).all isBlank = (some (lastOf c more)).all isBlank := rfl
            obtain ⟨hscans, hfront⟩ := ih htokens hedits.tail (start + byteLength edit.text) hlast
            rw [← hkind] at hlexeme
            have htight := hfront.tight hedits hlexeme
            rw [htext] at hscans ⊢
            refine ⟨.token ?_ hscans, .kept htight⟩
            exact lexeme_append hlexeme htight hfront.loose hprevious
          · obtain ⟨hword, d, word, htext, halone⟩ :=
              (hedits.each edit List.mem_cons_self).resolve_left hkept
            rw [hkind] at hword
            subst hword
            have hopens := (lexed_of_lexeme hlexeme).word_of_mem (by decide)
            have hstarts := (lexed_of_lexeme halone).word_of_mem (by decide)
            -- both words end in characters that are not blank
            have hlast : (some (lastOf c more)).all isBlank = (some (lastOf d word)).all isBlank := by
              have hold := lastOf_not_blank hlexeme (by decide)
              have hclosed : lexeme none d (word ++ []) = ⟨.ok .word, word.length⟩ := by
                rwa [List.append_nil]
              have hnew := lastOf_not_blank hclosed (by decide)
              simp only [Option.all_some, hold, hnew]
            obtain ⟨hscans, hfront⟩ := ih htokens hedits.tail (start + byteLength edit.text) hlast
            have hstop := hfront.stopsWord (stopsWord_of_runLength hopens.2.1.symm)
            rw [htext] at hscans ⊢
            rw [hkind]
            refine ⟨.token (lexeme_word_append halone (by decide) hstop) hscans, ?_⟩
            exact .renamed hkept (startsWord_of_opens hopens.1) (startsWord_of_opens hstarts.1)

end Front

end SearchPipeline.Scan
