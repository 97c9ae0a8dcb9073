import SearchPipeline.Proofs.Token.Lookahead

namespace SearchPipeline.Scan

open Text

variable {c : Char} {cs more rest behind : List Char}

section Runs

variable {inClass : Char → Bool}

-- A run that takes exactly a part of the text consists of that part and stops behind it.
theorem classLength_append_iff : classLength inClass (more ++ rest) = more.length ↔
    (∀ c ∈ more, inClass c = true) ∧ headIs inClass rest = false := by
  have hcons : ∀ c cs, classLength inClass (c :: cs) =
      if inClass c then classLength inClass cs + 1 else 0 := fun _ _ => rfl
  induction more with
  | nil =>
      cases rest with
      | nil => simp [classLength, runLength, headIs]
      | cons d rest =>
          rw [List.nil_append, hcons]
          by_cases hd : inClass d = true <;> simp [hd, headIs]
  | cons d more ih =>
      rw [List.cons_append, hcons]
      by_cases hd : inClass d = true
      · simp [hd, ih]
      · simp [hd]

theorem extendsWord_append (h : extendsWord c cs = true) : extendsWord c (cs ++ rest) = true := by
  simp only [extendsWord, Bool.or_eq_true, Bool.and_eq_true] at h ⊢
  rcases h with hword | ⟨hcolon, hhead⟩
  · exact .inl hword
  · cases cs with
    | nil => cases hhead
    | cons d cs => exact .inr ⟨hcolon, hhead⟩

-- The head of what follows does not go on a word.
def stopsWord : List Char → Bool
  | [] => true
  | c :: cs => !extendsWord c cs

theorem runLength_extendsWord_append (h : runLength extendsWord more = more.length)
    (hrest : stopsWord rest = true) : runLength extendsWord (more ++ rest) = more.length := by
  induction more with
  | nil =>
      cases rest with
      | nil => rfl
      | cons d rest =>
          simp only [stopsWord, Bool.not_eq_true'] at hrest
          simp [runLength, hrest]
  | cons d more ih =>
      simp only [runLength, List.cons_append, List.length_cons] at h ⊢
      split at h
      · next hd =>
        rw [if_pos (extendsWord_append hd), ih (by omega)]
      · omega

theorem stopsWord_of_runLength (h : runLength extendsWord (more ++ rest) = more.length) :
    stopsWord rest = true := by
  induction more with
  | nil =>
      cases rest with
      | nil => rfl
      | cons d rest =>
          simp only [List.nil_append, runLength, List.length_nil] at h
          split at h
          · omega
          · next hd => simpa [stopsWord] using hd
  | cons d more ih =>
      simp only [runLength, List.cons_append, List.length_cons] at h
      split at h
      · exact ih (by omega)
      · omega

end Runs

section Marks

variable {mark : List Char} {index : Nat}

theorem isPrefixOf_append (h : mark.length ≤ more.length) :
    mark.isPrefixOf (more ++ rest) = mark.isPrefixOf more := by
  induction mark generalizing more with
  | nil => simp
  | cons m mark ih =>
      cases more with
      | nil => simp at h
      | cons d more =>
          simp only [List.cons_append, List.isPrefixOf]
          rw [ih (by simpa using h)]

-- A mark that is found inside a part of the text is found there whatever follows.
theorem indexOf?_append (h : indexOf? mark (more ++ rest) = some index)
    (hin : index + mark.length ≤ more.length) : indexOf? mark (more ++ behind) = some index := by
  induction more generalizing index with
  | nil =>
      rw [List.length_nil] at hin
      have hmark : mark = [] := List.length_eq_zero_iff.1 (by omega)
      have hindex : index = 0 := by omega
      subst hmark hindex
      cases behind <;> simp [indexOf?]
  | cons d more ih =>
      simp only [List.cons_append, indexOf?] at h ⊢
      have hlength : mark.length ≤ (d :: more).length := by omega
      rw [← List.cons_append, isPrefixOf_append hlength] at h ⊢
      split at h
      · next hprefix =>
        rw [if_pos hprefix]
        exact h
      · next hprefix =>
        rw [if_neg hprefix]
        obtain ⟨inner, hinner, rfl⟩ := Option.map_eq_some_iff.1 h
        rw [ih hinner (by simp at hin; omega)]
        rfl

theorem prefix_of_indexOf? (h : indexOf? mark cs = some index) : mark <+: cs.drop index := by
  induction cs generalizing index with
  | nil =>
      simp only [indexOf?] at h
      split at h
      · next hempty => simp [List.isEmpty_iff.1 hempty]
      · cases h
  | cons d cs ih =>
      simp only [indexOf?] at h
      split at h
      · next hprefix =>
        cases h
        exact List.isPrefixOf_iff_prefix.1 hprefix
      · obtain ⟨inner, hinner, rfl⟩ := Option.map_eq_some_iff.1 h
        exact ih hinner

theorem quotedLength?_cons {quote : Char} (hc : c ≠ '\\') : quotedLength? quote (c :: cs) =
    if c = quote then some 1 else (quotedLength? quote cs).map (· + 1) := by
  rw [quotedLength?]
  exact fun d rest h => absurd h hc

-- A string ends with its quote, and what follows does not matter.
theorem quotedLength?_append {quote : Char} (behind : List Char) (hquote : quote ≠ '\\') {count : Nat}
    (h : quotedLength? quote cs = some count) :
    (∃ inner, cs.take count = inner ++ [quote]) ∧
      quotedLength? quote (cs.take count ++ behind) = some count := by
  fun_induction quotedLength? quote cs generalizing count with
  | case1 => cases h
  | case2 c rest ih =>
      obtain ⟨inner, hinner, rfl⟩ := Option.map_eq_some_iff.1 h
      obtain ⟨⟨body, hbody⟩, hlength⟩ := ih hinner
      refine ⟨⟨'\\' :: c :: body, by simp [hbody]⟩, ?_⟩
      simp [quotedLength?, hlength]
  | case3 rest =>
      cases h
      refine ⟨⟨[], by simp⟩, ?_⟩
      simp only [List.take_succ_cons, List.take_zero, List.cons_append]
      rw [quotedLength?_cons hquote, if_pos rfl]
  | case4 c rest hescape hc ih =>
      obtain ⟨inner, hinner, rfl⟩ := Option.map_eq_some_iff.1 h
      obtain ⟨⟨body, hbody⟩, hlength⟩ := ih hinner
      refine ⟨⟨c :: body, by simp [hbody]⟩, ?_⟩
      -- a backslash at the very end leaves nothing to close the string
      have hplain : c ≠ '\\' := by
        rintro rfl
        cases rest with
        | nil => cases hinner
        | cons d rest => exact hescape d rest rfl rfl
      rw [List.take_succ_cons, List.cons_append, quotedLength?_cons hplain, if_neg hc, hlength]
      rfl

end Marks

section Lexemes

variable {previous other : Option Char} {kind : Kind}

theorem headIs_append {inClass : Char → Bool} (behind : List Char) (h : more ≠ []) :
    headIs inClass (more ++ rest) = headIs inClass (more ++ behind) := by
  cases more with
  | nil => exact absurd rfl h
  | cons d more => rfl

theorem blockComment_append {close : List Char} {opened : Nat} (behind : List Char)
    (h : blockComment close opened (more ++ rest) = ⟨.ok kind, more.length⟩) :
    blockComment close opened (more ++ behind) = ⟨.ok kind, more.length⟩ ∧
      opened + close.length ≤ more.length ∧ ∃ inner, more = inner ++ close := by
  obtain ⟨index, hindex, rfl, hlength⟩ := blockComment_eq_ok h
  have hopened : opened ≤ more.length := by omega
  rw [List.drop_append_of_le_length hopened] at hindex
  have hin : index + close.length ≤ (more.drop opened).length := by
    rw [List.length_drop]
    omega
  refine ⟨?_, by omega, ?_⟩
  · rw [blockComment, List.drop_append_of_le_length hopened, indexOf?_append hindex hin, hlength]
  · obtain ⟨tail, htail⟩ := prefix_of_indexOf? hindex
    rw [List.drop_append_of_le_length (by omega), List.drop_drop] at htail
    have hclose : close = more.drop (opened + index) :=
      (List.append_inj htail (by rw [List.length_drop]; omega)).1
    exact ⟨more.take (opened + index), by rw [hclose, List.take_append_drop]⟩

theorem Loose.headIs_not_blank (h : Loose rest behind) (hrest : headIs isBlank rest = false) :
    headIs isBlank behind = false := by
  cases h with
  | ended _ => rfl
  | fork _ hd => exact startsWord_not_blank hd
  | same _ => exact hrest

theorem Loose.headIs_newline (h : Loose rest behind) (hrest : headIs (· != '\n') rest = false) :
    headIs (· != '\n') behind = false := by
  cases h with
  | ended _ => rfl
  | fork hc _ =>
      have hne := ne_of_startsWord hc (show startsWord '\n' = false by decide)
      simp [headIs, hne] at hrest
  | same _ => exact hrest

-- A comment that is closed, or that ends with its line, is the same in the other context.
theorem comment?_append (h : comment? previous c (more ++ rest) = some ⟨.ok kind, more.length⟩)
    (hline : headIs (· != '\n') rest = false → headIs (· != '\n') behind = false)
    (hprevious : previous.all isBlank = other.all isBlank) :
    comment? other c (more ++ behind) = some ⟨.ok kind, more.length⟩ := by
  unfold comment? at h ⊢
  split at h
  · next hticks =>
    obtain ⟨hblock, hlength, -⟩ := blockComment_append behind (Option.some.inj h)
    have hlong : ticks.length ≤ (c :: more).length := by
      simp only [List.length_cons]
      omega
    rw [← List.cons_append, isPrefixOf_append hlong] at hticks ⊢
    rw [if_pos hticks, hblock]
  next hticks =>
  split at h
  · next hslash =>
    obtain ⟨hblock, hlength, -⟩ := blockComment_append behind (Option.some.inj h)
    have hne : more ≠ [] := by
      rintro rfl
      simp at hlength
    rw [headIs_append behind hne] at hslash
    rw [if_neg (by simp [ticks, List.isPrefixOf, hslash.1]), if_pos hslash, hblock]
  next hblock =>
  split at h
  · next hmark =>
    obtain ⟨hkind, hlength⟩ := Lexeme.mk.inj (Option.some.inj h)
    obtain ⟨hall, hstop⟩ := classLength_append_iff.1 hlength
    have hne : more ≠ [] := by
      rintro rfl
      have hhead := hmark.2.1
      cases rest with
      | nil => cases hhead
      | cons d rest =>
          rw [List.nil_append, headIs, beq_iff_eq] at hhead
          subst hhead
          cases hstop
    rw [headIs_append behind hne, hprevious] at hmark
    rw [headIs_append behind hne] at hblock
    have hsame := classLength_append_iff.2 ⟨hall, hline hstop⟩
    rw [if_neg (by simp [ticks, List.isPrefixOf, hmark.1]), if_neg hblock, if_pos hmark, hsame, hkind]
  · cases h

theorem quoted?_append (behind : List Char) (h : quoted? c (more ++ rest) = some ⟨.ok kind, more.length⟩) :
    quoted? c (more ++ behind) = some ⟨.ok kind, more.length⟩ ∧ ∃ inner, more = inner ++ [c] := by
  unfold quoted? at h ⊢
  split at h
  · next hquote =>
    have hplain : c ≠ '\\' := by
      rcases hquote with rfl | rfl <;> decide
    rw [if_pos hquote]
    split at h
    · next count hcount =>
      cases h
      have happend := quotedLength?_append behind hplain hcount
      rw [List.take_left] at happend
      rw [happend.2]
      exact ⟨rfl, happend.1⟩
    · cases h
  · cases h

theorem lexeme_of_comment {found : Lexeme} (hblank : isBlank c = false)
    (h : comment? previous c cs = some found) : lexeme previous c cs = found := by
  simp [lexeme, hblank, h]

theorem lexeme_of_quoted {found : Lexeme} (hblank : isBlank c = false)
    (hcomment : comment? previous c cs = none) (h : quoted? c cs = some found) :
    lexeme previous c cs = found := by
  simp [lexeme, hblank, hcomment, h]

-- A token stays what it is in another context that agrees as far as the rules look ahead.
theorem lexeme_append (h : lexeme previous c (more ++ rest) = ⟨.ok kind, more.length⟩)
    (htight : Tight c (more ++ rest) (more ++ behind)) (hloose : Loose rest behind)
    (hprevious : previous.all isBlank = other.all isBlank) :
    lexeme other c (more ++ behind) = ⟨.ok kind, more.length⟩ := by
  by_cases hblank : isBlank c = true
  · simp only [lexeme, hblank, if_true, Lexeme.mk.injEq] at h ⊢
    obtain ⟨hall, hstop⟩ := classLength_append_iff.1 h.2
    exact ⟨h.1, classLength_append_iff.2 ⟨hall, hloose.headIs_not_blank hstop⟩⟩
  rw [Bool.not_eq_true] at hblank
  cases hcomment : comment? previous c (more ++ rest) with
  | some found =>
      rw [← lexeme_of_comment hblank hcomment, h] at hcomment
      exact lexeme_of_comment hblank (comment?_append hcomment hloose.headIs_newline hprevious)
  | none =>
      cases hquoted : quoted? c (more ++ rest) with
      | some found =>
          rw [← lexeme_of_quoted hblank hcomment hquoted, h] at hquoted
          have hnone := (htight.loose.comment_none_iff hprevious).2 hcomment
          exact lexeme_of_quoted hblank hnone (quoted?_append behind hquoted).1
      | none => rw [htight.lexeme_eq hprevious hblank hcomment hquoted, h]

end Lexemes

section Apart

variable {previous : Option Char} {kind : Kind} {count : Nat}

theorem relativeTime?_stops (h : relativeTime? cs = some count) :
    1 ≤ count ∧ headIs isWordChar (cs.drop count) = false := by
  simp only [relativeTime?_eq] at h
  split at h
  · cases h
  next hnone =>
  rw [not_or] at hnone
  obtain ⟨hmap, hstop⟩ := Option.filter_eq_some_iff.1 h
  obtain ⟨rounding, -, rfl⟩ := Option.map_eq_some_iff.1 hmap
  exact ⟨by omega, by simpa using hstop⟩

theorem loneSnap?_stops (h : loneSnap? cs = some count) :
    1 ≤ count ∧ headIs isWordChar (cs.drop count) = false := by
  rw [loneSnap?_eq] at h
  obtain ⟨hsnap, hstop⟩ := Option.filter_eq_some_iff.1 h
  refine ⟨?_, by simpa using hstop⟩
  unfold snap? at hsnap
  split at hsnap
  · simp only at hsnap
    split at hsnap
    · cases hsnap
      omega
    · cases hsnap
  · cases hsnap

theorem mem_of_headIs {mark : Char} (h : headIs (· == mark) cs = true) : cs[0]? = some mark := by
  cases cs with
  | nil => cases h
  | cons d cs =>
      rw [headIs, beq_iff_eq] at h
      simp [h]

-- Behind its first digits, a date has a slash.
theorem slash_of_absoluteTime (h : absoluteTime? (c :: cs) = some count) :
    '/' ∈ cs.take (count - 1) := by
  simp only [absoluteTime?, bind, Option.bind_eq_some_iff] at h
  obtain ⟨date, hdate, hcount⟩ := h
  cases hcount
  simp only [date?, sequence?, bind, Option.bind_eq_some_iff] at hdate
  obtain ⟨first, hfirst, others, ⟨slash, hslash, later, -, hothers⟩, hsum⟩ := hdate
  have hdigits : 1 ≤ first := by
    simp only [digitsBetween?] at hfirst
    split at hfirst
    · cases hfirst
      omega
    · cases hfirst
  cases hothers
  cases hsum
  simp only [mark?] at hslash
  split at hslash
  · next hhead =>
    cases hslash
    have hget := mem_of_headIs hhead
    rw [List.getElem?_drop, Nat.add_zero] at hget
    obtain ⟨before, rfl⟩ : ∃ before, first = before + 1 := ⟨first - 1, by omega⟩
    rw [List.getElem?_cons_succ] at hget
    refine List.mem_of_getElem? (i := before) ?_
    rw [List.getElem?_take_of_lt (by omega), hget]
  · cases hslash

-- The character before a word is apart from it, but for numbers and for lone colons and at-signs.
-- A date may end there with a digit, and it has a slash inside.
theorem Lexed.apart (h : Lexed previous c (more ++ rest) kind count) (hcount : count = more.length)
    (hrest : headIs startsWord rest = true)
    (hkind : kind ≠ .number ∧ kind ≠ .colon ∧ kind ≠ .atSign) :
    binds (lastOf c more) = false ∨ '/' ∈ more := by
  have hword : headIs isWordChar rest = true := by
    cases rest with
    | nil => cases hrest
    | cons d rest => exact startsWord_wordChar hrest
  cases h with
  | blank hblank =>
      have hall := (classLength_append_iff.1 hcount).1
      refine .inl (isBlank_not_binds ?_)
      rcases List.mem_cons.1 (lastOf_mem c more) with hlast | hlast
      · rwa [hlast]
      · exact hall _ hlast
  | ticks _ hindex =>
      have hblock : blockComment Scan.ticks 2 (more ++ rest) = ⟨.ok .comment, more.length⟩ := by
        rw [blockComment, hindex, ← hcount]
        rfl
      obtain ⟨-, -, inner, rfl⟩ := blockComment_append [] hblock
      rw [lastOf_append c inner (by decide)]
      exact .inl (by decide)
  | block _ _ hindex =>
      have hblock : blockComment ['*', '/'] 1 (more ++ rest) = ⟨.ok .comment, more.length⟩ := by
        rw [blockComment, hindex, ← hcount]
        rfl
      obtain ⟨-, -, inner, rfl⟩ := blockComment_append [] hblock
      exact .inr (by simp)
  | line _ _ _ =>
      -- a line ends with its line break, and no word opens with one
      have hstop := (classLength_append_iff.1 hcount).2
      cases rest with
      | nil => cases hrest
      | cons d rest =>
          have hne := ne_of_startsWord hrest (show startsWord '\n' = false by decide)
          simp [headIs, hne] at hstop
  | quoted hquote hlength =>
      have hplain : c ≠ '\\' := by
        rcases hquote with rfl | rfl <;> decide
      obtain ⟨⟨inner, hinner⟩, -⟩ := quotedLength?_append [] hplain hlength
      rw [hcount, List.take_left] at hinner
      rw [hinner, lastOf_append c inner (List.cons_ne_nil c []), List.getLast_singleton]
      rcases hquote with rfl | rfl <;> exact .inl (by decide)
  | date _ hdate =>
      have hslash := slash_of_absoluteTime hdate
      rw [hcount, List.take_left] at hslash
      exact .inr hslash
  | @relative total _ htime =>
      obtain ⟨hpos, hstop⟩ := relativeTime?_stops htime
      have hlength : total = (c :: more).length := by rw [List.length_cons]; omega
      rw [hlength, ← List.cons_append, List.drop_left, hword] at hstop
      cases hstop
  | number _ => exact absurd rfl hkind.1
  | signed _ htime =>
      obtain ⟨-, hstop⟩ := relativeTime?_stops htime
      rw [hcount, List.drop_left, hword] at hstop
      cases hstop
  | @snap total _ htime =>
      obtain ⟨hpos, hstop⟩ := loneSnap?_stops htime
      have hlength : total = (c :: more).length := by rw [List.length_cons]; omega
      rw [hlength, ← List.cons_append, List.drop_left, hword] at hstop
      cases hstop
  | word _ =>
      have hstop := stopsWord_of_runLength hcount
      cases rest with
      | nil => cases hrest
      | cons d rest =>
          simp only [stopsWord, extendsWord, Bool.not_eq_true', Bool.or_eq_false_iff] at hstop
          have hd : isWordChar d = true := hword
          rw [hd] at hstop
          cases hstop.1
  | point _ _ => exact absurd rfl hkind.1
  | pair hpair =>
      obtain ⟨hhead, -⟩ := pairSymbol?_eq_some hpair
      obtain ⟨d, rfl⟩ := List.length_eq_one_iff.1 hcount.symm
      have hd : d = '=' := by simpa [headIs] using hhead
      subst hd
      exact .inl (show binds '=' = false by decide)
  | symbol hsymbol =>
      have hmore := List.length_eq_zero_iff.1 hcount.symm
      subst hmore
      have hbinds : ∀ entry ∈ symbols,
          entry.2 = .colon ∨ entry.2 = .atSign ∨ binds entry.1 = false := by decide
      rcases hbinds _ (symbol?_mem hsymbol) with hcolon | hat | hfree
      · exact absurd hcolon hkind.2.1
      · exact absurd hat hkind.2.2
      · exact .inl hfree

end Apart

end SearchPipeline.Scan
