import SearchPipeline.Proofs.Token.Alphabet
import SearchPipeline.Proofs.Token.Lexeme

namespace SearchPipeline.Scan

open Text

-- Texts that agree up to a place where both have a word, or where the second one ends.
inductive Loose : List Char → List Char → Prop where
  | ended {cs : List Char} : cs = [] ∨ headIs isBlank cs = true → Loose cs []
  | fork {c d : Char} {cs ds : List Char} : startsWord c = true → startsWord d = true →
      Loose (c :: cs) (d :: ds)
  | same {c : Char} {cs ds : List Char} : Loose cs ds → Loose (c :: cs) (c :: ds)

-- The same, behind a character, with words apart from what is before them. Behind a slash this
-- does not matter, because only dates go on there.
inductive Tight : Char → List Char → List Char → Prop where
  | ended {p : Char} {cs : List Char} : cs = [] ∨ headIs isBlank cs = true → Tight p cs []
  | fork {p c d : Char} {cs ds : List Char} : binds p = false → startsWord c = true →
      startsWord d = true → Tight p (c :: cs) (d :: ds)
  | slash {p : Char} {cs ds : List Char} : Loose cs ds → Tight p ('/' :: cs) ('/' :: ds)
  | same {p c : Char} {cs ds : List Char} : Tight c cs ds → Tight p (c :: cs) (c :: ds)

variable {p c : Char} {cs ds : List Char}

theorem Tight.loose (h : Tight p cs ds) : Loose cs ds := by
  induction h with
  | ended hcs => exact .ended hcs
  | fork _ hc hd => exact .fork hc hd
  | slash hloose => exact .same hloose
  | same _ ih => exact .same ih

theorem headIs_of_blank {inClass : Char → Bool} (h : cs = [] ∨ headIs isBlank cs = true)
    (hblank : ∀ c, isBlank c = true → inClass c = false) : headIs inClass cs = false := by
  rcases h with rfl | h
  · rfl
  · cases cs with
    | nil => rfl
    | cons c cs => exact hblank c h

-- A class without blanks and without the heads of words.
theorem Loose.headIs_eq {inClass : Char → Bool} (h : Loose cs ds)
    (hblank : ∀ c, isBlank c = true → inClass c = false)
    (hword : ∀ c, startsWord c = true → inClass c = false) :
    headIs inClass cs = headIs inClass ds := by
  cases h with
  | ended hcs => exact headIs_of_blank hcs hblank
  | fork hc hd =>
      simp only [headIs]
      rw [hword _ hc, hword _ hd]
  | same _ => rfl

-- Behind a character that binds, a class without blanks.
theorem Tight.headIs_eq {inClass : Char → Bool} (h : Tight p cs ds) (hp : binds p = true)
    (hblank : ∀ c, isBlank c = true → inClass c = false) :
    headIs inClass cs = headIs inClass ds := by
  cases h with
  | ended hcs => exact headIs_of_blank hcs hblank
  | fork hfree _ _ =>
      rw [hp] at hfree
      cases hfree
  | slash _ => rfl
  | same _ => rfl

-- A run of characters that bind is the same on both texts, and the texts agree behind it. It must
-- not stop at the head of a word, or begin behind a character that binds.
theorem Tight.run {M : Char → List Char → Bool} (h : Tight p cs ds)
    (hbinds : ∀ c cs, M c cs = true → binds c = true)
    (hahead : ∀ c cs ds, Tight c cs ds → binds c = true → M c cs = M c ds)
    (hstart : binds p = true ∨ ∀ c cs, startsWord c = true → M c cs = false) :
    runLength M ds = runLength M cs ∧
      ds.take (runLength M cs) = cs.take (runLength M cs) ∧
      ∃ q, Tight q (cs.drop (runLength M cs)) (ds.drop (runLength M cs)) ∧
        (binds p = true ∨ 0 < runLength M cs → binds q = true) := by
  induction h with
  | @ended p cs hcs =>
      have hnone : runLength M cs = 0 := by
        rcases hcs with rfl | hcs
        · rfl
        · cases cs with
          | nil => rfl
          | cons c cs =>
              have hmore : M c cs = false := by
                by_contra hmore
                have := hbinds c cs (by simpa using hmore)
                rw [isBlank_not_binds hcs] at this
                cases this
              simp [runLength, hmore]
      rw [hnone]
      exact ⟨rfl, rfl, p, .ended (by simpa using hcs), by simp⟩
  | @fork p c d cs ds hfree hc hd =>
      have hword := hstart.resolve_left (by simp [hfree])
      simp only [runLength, hword c cs hc, hword d ds hd]
      exact ⟨rfl, rfl, p, .fork hfree hc hd, by simp⟩
  | @slash p cs ds hloose =>
      have hnone : ∀ cs, M '/' cs = false := by
        intro cs
        by_contra hmore
        have := hbinds '/' cs (by simpa using hmore)
        revert this
        decide
      simp only [runLength, hnone]
      exact ⟨rfl, rfl, p, .slash hloose, by simp⟩
  | @same p c cs ds htight ih =>
      by_cases hmore : M c cs = true
      · have hc := hbinds c cs hmore
        obtain ⟨hlength, htake, q, hq, hbound⟩ := ih (.inl hc)
        have hsame := hahead c cs ds htight hc
        rw [hmore] at hsame
        simp only [runLength, hmore, ← hsame, if_true, List.drop_succ_cons, List.take_succ_cons]
        exact ⟨by rw [hlength], by rw [htake], q, hq, fun _ => hbound (.inl hc)⟩
      · have hboth : M c cs = M c ds := by
          by_cases hc : binds c = true
          · exact hahead c cs ds htight hc
          · have hfree : ∀ cs, M c cs = false := by
              intro cs
              by_contra hmore
              exact hc (hbinds c cs (by simpa using hmore))
            rw [hfree, hfree]
        rw [Bool.not_eq_true] at hmore
        rw [hmore] at hboth
        have hleft : runLength M (c :: cs) = 0 := by simp [runLength, hmore]
        have hright : runLength M (c :: ds) = 0 := by simp [runLength, ← hboth]
        rw [hleft, hright]
        exact ⟨rfl, rfl, p, .same htight, by simp⟩

section Times

-- The digits of a text, which no word opens with.
theorem Tight.digits (h : Tight p cs ds) :
    classLength isDigit ds = classLength isDigit cs ∧
      ∃ q, Tight q (cs.drop (classLength isDigit cs)) (ds.drop (classLength isDigit cs)) ∧
        (binds p = true ∨ 0 < classLength isDigit cs → binds q = true) := by
  have hrun := h.run (M := fun c _ => isDigit c)
    (fun c _ hc => by simp [binds, isDigit_wordChar hc]) (fun _ _ _ _ _ => rfl)
    (.inr fun c _ hc => startsWord_not_digit hc)
  exact ⟨hrun.1, hrun.2.2⟩

theorem Tight.letters (h : Tight p cs ds) (hp : binds p = true) :
    classLength isLetter ds = classLength isLetter cs ∧
      ds.take (classLength isLetter cs) = cs.take (classLength isLetter cs) ∧
      ∃ q, binds q = true ∧
        Tight q (cs.drop (classLength isLetter cs)) (ds.drop (classLength isLetter cs)) := by
  obtain ⟨hlength, htake, q, hq, hbound⟩ := h.run (M := fun c _ => isLetter c)
    (fun c _ hc => by simp [binds, isLetter_wordChar hc]) (fun _ _ _ _ _ => rfl) (.inl hp)
  exact ⟨hlength, htake, q, hbound (.inl hp), hq⟩

theorem Tight.snap (h : Tight p cs ds) (hp : binds p = true) :
    snap? ds = snap? cs ∧ ∀ count, snap? cs = some count →
      ∃ q, binds q = true ∧ Tight q (cs.drop count) (ds.drop count) := by
  have hother : ∀ c cs, c ≠ '@' → snap? (c :: cs) = none := by
    intro c cs hc
    unfold snap?
    split
    · next heq => exact absurd (List.cons.inj heq).1 hc
    · rfl
  cases h with
  | ended hcs =>
      have hnone : snap? cs = none := by
        rcases hcs with rfl | hcs
        · rfl
        · cases cs with
          | nil => rfl
          | cons c cs => exact hother c cs (ne_of_isBlank hcs (by decide))
      rw [hnone]
      exact ⟨rfl, by simp⟩
  | fork hfree _ _ =>
      rw [hp] at hfree
      cases hfree
  | slash _ =>
      rw [hother _ _ (by decide), hother _ _ (by decide)]
      exact ⟨rfl, by simp⟩
  | @same _ c cs ds htight =>
      by_cases hat : c = '@'
      · subst hat
        obtain ⟨hletters, htake, q, hq, hrest⟩ := htight.letters (by decide)
        obtain ⟨hdigits, q', hend, hbound⟩ := hrest.digits
        simp only [snap?, hletters, htake, hdigits]
        refine ⟨trivial, ?_⟩
        intro count hcount
        split at hcount
        · cases hcount
          refine ⟨q', hbound (.inl hq), ?_⟩
          rw [List.drop_drop, List.drop_drop] at hend
          rwa [Nat.add_assoc, Nat.add_comm 1, List.drop_succ_cons, List.drop_succ_cons]
        · cases hcount
      · rw [hother _ _ hat, hother _ _ hat]
        exact ⟨rfl, by simp⟩

theorem Tight.loneSnap (h : Tight p cs ds) (hp : binds p = true) : loneSnap? ds = loneSnap? cs := by
  obtain ⟨hsnap, hrest⟩ := h.snap hp
  rw [loneSnap?_eq, loneSnap?_eq, hsnap]
  cases hcount : snap? cs with
  | none => rfl
  | some count =>
      obtain ⟨q, hq, htight⟩ := hrest count hcount
      simp only [Option.filter_some, htight.headIs_eq hq fun c hc => isBlank_not_wordChar hc]

theorem Tight.relativeTime (h : Tight p cs ds) : relativeTime? ds = relativeTime? cs := by
  obtain ⟨hdigits, q, hq, hbound⟩ := h.digits
  rw [relativeTime?_eq, relativeTime?_eq]
  simp only [hdigits]
  by_cases hnone : classLength isDigit cs = 0
  · simp [hnone]
  have hbinds := hbound (.inr (Nat.pos_of_ne_zero hnone))
  obtain ⟨hletters, htake, q', hq', hrest⟩ := hq.letters hbinds
  simp only [hletters, htake]
  rw [List.drop_drop, List.drop_drop] at hrest
  generalize classLength isDigit cs + classLength isLetter (cs.drop (classLength isDigit cs)) = count
    at hrest
  obtain ⟨hsnap, hbehind⟩ := hrest.snap hq'
  have hat : headIs (· == '@') (cs.drop count) = headIs (· == '@') (ds.drop count) := by
    refine hrest.headIs_eq hq' fun c hc => ?_
    simpa using ne_of_isBlank hc (by decide)
  rw [hsnap, ← hat]
  -- whether rounded or not, a character that binds comes before the place behind the time
  have hend : ∀ rounding, (if headIs (· == '@') (cs.drop count) then snap? (cs.drop count)
      else some 0) = some rounding →
        headIs isWordChar (ds.drop (count + rounding)) = headIs isWordChar (cs.drop (count + rounding)) := by
    intro rounding hrounding
    split at hrounding
    · obtain ⟨q'', hq'', htight⟩ := hbehind rounding hrounding
      rw [List.drop_drop, List.drop_drop] at htight
      exact (htight.headIs_eq hq'' fun c hc => isBlank_not_wordChar hc).symm
    · cases hrounding
      exact (hrest.headIs_eq hq' fun c hc => isBlank_not_wordChar hc).symm
  generalize (if headIs (· == '@') (cs.drop count) then snap? (cs.drop count) else some 0) = rounding?
    at hend
  cases rounding? with
  | none => rfl
  | some rounding => simp only [Option.map_some, Option.filter_some, hend rounding rfl]

-- A piece of a date or of a time of day is the same on both texts.
def Local (piece : List Char → Option Nat) : Prop :=
  ∀ cs ds, Loose cs ds → piece ds = piece cs ∧
    ∀ count, piece cs = some count → Loose (cs.drop count) (ds.drop count)

theorem Loose.digits (h : Loose cs ds) : classLength isDigit ds = classLength isDigit cs ∧
    Loose (cs.drop (classLength isDigit cs)) (ds.drop (classLength isDigit cs)) := by
  have hcons : ∀ c cs, classLength isDigit (c :: cs) =
      if isDigit c then classLength isDigit cs + 1 else 0 := fun _ _ => rfl
  induction h with
  | @ended cs hcs =>
      have hnone : classLength isDigit cs = 0 := by
        rcases hcs with rfl | hcs
        · rfl
        · cases cs with
          | nil => rfl
          | cons c cs =>
              rw [hcons, if_neg]
              intro hdigit
              have := isDigit_wordChar hdigit
              rw [isBlank_not_wordChar hcs] at this
              cases this
      rw [hnone]
      exact ⟨rfl, .ended hcs⟩
  | fork hc hd =>
      rw [hcons, hcons, startsWord_not_digit hc, startsWord_not_digit hd]
      exact ⟨rfl, .fork hc hd⟩
  | @same c cs ds hrest ih =>
      rw [hcons, hcons, ih.1]
      by_cases hdigit : isDigit c = true
      · simp only [hdigit, if_true, List.drop_succ_cons]
        exact ⟨trivial, ih.2⟩
      · rw [if_neg hdigit]
        exact ⟨rfl, .same hrest⟩

theorem local_digitsBetween (low high : Nat) : Local (digitsBetween? low high) := by
  intro cs ds h
  obtain ⟨hdigits, hrest⟩ := h.digits
  simp only [digitsBetween?, hdigits]
  refine ⟨trivial, ?_⟩
  intro count hcount
  split at hcount
  · cases hcount
    exact hrest
  · cases hcount

theorem local_mark {mark : Char} (hword : startsWord mark = false) (hblank : isBlank mark = false) :
    Local (mark? mark) := by
  intro cs ds h
  have hhead : headIs (· == mark) cs = headIs (· == mark) ds := by
    refine h.headIs_eq (fun c hc => ?_) (fun c hc => ?_)
    · simpa using ne_of_isBlank hc hblank
    · simpa using ne_of_startsWord hc hword
  simp only [mark?, ← hhead]
  refine ⟨trivial, ?_⟩
  intro count hcount
  split at hcount
  · next hmark =>
    cases hcount
    cases h with
    | ended hcs =>
        rw [hhead] at hmark
        cases hmark
    | fork hc hd =>
        have heq := beq_iff_eq.1 hmark
        rw [heq, hword] at hc
        cases hc
    | same hrest => exact hrest
  · cases hcount

theorem local_sequence {pieces : List (List Char → Option Nat)} (h : ∀ piece ∈ pieces, Local piece) :
    Local (sequence? pieces) := by
  induction pieces with
  | nil =>
      intro cs ds hloose
      refine ⟨rfl, ?_⟩
      rintro _ ⟨⟩
      exact hloose
  | cons piece rest ih =>
      intro cs ds hloose
      obtain ⟨hpiece, hbehind⟩ := h piece List.mem_cons_self cs ds hloose
      simp only [sequence?, hpiece, bind]
      cases hfirst : piece cs with
      | none => simp
      | some first =>
          obtain ⟨hrest, hend⟩ := ih (fun piece hpiece => h piece (List.mem_cons_of_mem _ hpiece))
            _ _ (hbehind first hfirst)
          simp only [Option.bind_some, hrest]
          refine ⟨trivial, ?_⟩
          intro count hcount
          obtain ⟨others, hothers, hsum⟩ := Option.bind_eq_some_iff.1 hcount
          cases hsum
          have htail := hend others hothers
          rwa [List.drop_drop, List.drop_drop] at htail

theorem local_date : Local date? := by
  apply local_sequence
  simp only [List.mem_cons, List.not_mem_nil, or_false]
  rintro piece (rfl | rfl | rfl | rfl | rfl)
  · exact local_digitsBetween 1 2
  · exact local_mark (by decide) (by decide)
  · exact local_digitsBetween 1 2
  · exact local_mark (by decide) (by decide)
  · exact local_digitsBetween 4 4

theorem local_timeOfDay : Local timeOfDay? := by
  apply local_sequence
  simp only [List.mem_cons, List.not_mem_nil, or_false]
  rintro piece (rfl | rfl | rfl | rfl | rfl | rfl)
  · exact local_mark (by decide) (by decide)
  · exact local_digitsBetween 1 2
  · exact local_mark (by decide) (by decide)
  · exact local_digitsBetween 2 2
  · exact local_mark (by decide) (by decide)
  · exact local_digitsBetween 2 2

theorem Loose.absoluteTime (h : Loose cs ds) : absoluteTime? ds = absoluteTime? cs := by
  obtain ⟨hdate, hbehind⟩ := local_date cs ds h
  simp only [absoluteTime?, hdate, bind]
  cases hcount : date? cs with
  | none => rfl
  | some count =>
      have htime := (local_timeOfDay _ _ (hbehind count hcount)).1
      simp only [Option.bind_some, htime]

end Times

section Lexemes

theorem Tight.exponent (h : Tight p cs ds) (hp : binds p = true) :
    exponentLength ds = exponentLength cs := by
  have hother : ∀ e cs, e ≠ 'e' → e ≠ 'E' → exponentLength (e :: cs) = 0 := by
    intro e cs hlower hupper
    simp [exponentLength, hlower, hupper]
  cases h with
  | ended hcs =>
      rcases hcs with rfl | hcs
      · rfl
      · cases cs with
        | nil => rfl
        | cons c cs =>
            rw [hother c cs (ne_of_isBlank hcs (by decide)) (ne_of_isBlank hcs (by decide))]
            rfl
  | fork hfree _ _ =>
      rw [hp] at hfree
      cases hfree
  | slash _ => rw [hother _ _ (by decide) (by decide), hother _ _ (by decide) (by decide)]
  | @same _ e cs ds htight =>
      by_cases he : e = 'e' ∨ e = 'E'
      · have hbinds : binds e = true := by rcases he with rfl | rfl <;> decide
        have hsign : headIs (fun c => c == '+' || c == '-') cs =
            headIs (fun c => c == '+' || c == '-') ds := by
          refine htight.headIs_eq hbinds fun c hc => ?_
          simp [ne_of_isBlank hc (show isBlank '+' = false by decide),
            ne_of_isBlank hc (show isBlank '-' = false by decide)]
        -- a sign, if there is one, takes the texts one character further
        have hafter : ∀ sign, sign = (if headIs (fun c => c == '+' || c == '-') cs then 1 else 0) →
            ∃ q, Tight q (cs.drop sign) (ds.drop sign) := by
          rintro sign rfl
          split
          · next hhead =>
            cases htight with
            | ended hcs =>
                rw [hsign] at hhead
                cases hhead
            | fork hfree _ _ =>
                rw [hbinds] at hfree
                cases hfree
            | slash _ => cases hhead
            | same hrest => exact ⟨_, hrest⟩
          · exact ⟨e, htight⟩
        simp only [exponentLength, ← hsign]
        generalize (if headIs (fun c => c == '+' || c == '-') cs then 1 else 0) = sign at hafter
        obtain ⟨q, hq⟩ := hafter sign rfl
        obtain ⟨hdigits, q', hend, hbound⟩ := hq.digits
        rw [hdigits]
        by_cases hnone : classLength isDigit (cs.drop sign) = 0
        · simp [hnone]
        have hq' := hbound (.inr (Nat.pos_of_ne_zero hnone))
        rw [List.drop_drop, List.drop_drop] at hend
        rw [hend.headIs_eq hq' fun c hc => isBlank_not_opensWord hc]
      · rw [not_or] at he
        rw [hother e cs he.1 he.2, hother e ds he.1 he.2]

theorem isBlank_not_digit (h : isBlank c = true) : isDigit c = false := by
  by_contra hdigit
  have := isDigit_wordChar (c := c) (by simpa using hdigit)
  rw [isBlank_not_wordChar h] at this
  cases this

theorem binds_of_extendsNumber (h : extendsNumber c cs = true) : binds c = true := by
  simp only [extendsNumber, Bool.or_eq_true, Bool.and_eq_true, beq_iff_eq] at h
  rcases h with hdigit | ⟨rfl, -⟩
  · simp [binds, isDigit_wordChar hdigit]
  · decide

theorem Tight.extendsNumber_eq (h : Tight c cs ds) (hc : binds c = true) :
    extendsNumber c cs = extendsNumber c ds := by
  simp only [extendsNumber]
  rw [h.headIs_eq hc fun c hc => isBlank_not_digit hc]

theorem Tight.number (h : Tight c cs ds) (hmore : extendsNumber c cs = true) :
    numberLength (c :: ds) = numberLength (c :: cs) := by
  have hc := binds_of_extendsNumber hmore
  obtain ⟨hlength, -, q, hq, hbound⟩ := h.run (fun c cs h => binds_of_extendsNumber h)
    (fun c cs ds htight hbinds => htight.extendsNumber_eq hbinds) (.inl hc)
  have hsame := h.extendsNumber_eq hc
  rw [hmore] at hsame
  simp only [numberLength, runLength, hmore, ← hsame, if_true, hlength, List.drop_succ_cons,
    hq.exponent (hbound (.inl hc))]

theorem binds_of_extendsWord (h : extendsWord c cs = true) : binds c = true := by
  simp only [extendsWord, Bool.or_eq_true, Bool.and_eq_true, beq_iff_eq] at h
  rcases h with hword | ⟨rfl, -⟩
  · simp [binds, hword]
  · decide

theorem Tight.extendsWord_eq (h : Tight c cs ds) (hc : binds c = true) :
    extendsWord c cs = extendsWord c ds := by
  simp only [extendsWord]
  rw [h.headIs_eq hc fun c hc => ?_]
  have hunderscore := ne_of_isBlank hc (show isBlank '_' = false by decide)
  simp [isAlphanumeric, isBlank_not_alphabetic hc, isBlank_not_numeric hc, hunderscore]

theorem Tight.word (h : Tight c cs ds) (hc : binds c = true) :
    runLength extendsWord ds = runLength extendsWord cs ∧
      ds.take (runLength extendsWord cs) = cs.take (runLength extendsWord cs) := by
  obtain ⟨hlength, htake, -⟩ := h.run (fun c cs h => binds_of_extendsWord h)
    (fun c cs ds htight hbinds => htight.extendsWord_eq hbinds) (.inl hc)
  exact ⟨hlength, htake⟩

theorem pairSymbol?_eq (c : Char) (cs : List Char) : pairSymbol? c cs =
    if headIs (· == '=') cs then pairSymbol? c ['='] else none := by
  cases cs with
  | nil =>
      unfold pairSymbol?
      split <;> simp_all [headIs]
  | cons d cs =>
      by_cases hd : d = '='
      · subst hd
        unfold pairSymbol?
        split <;> simp_all [headIs]
      · unfold pairSymbol?
        split <;> simp_all [headIs]

theorem Loose.operator_eq (h : Loose cs ds) : operator c ds = operator c cs := by
  have hhead : headIs (· == '=') cs = headIs (· == '=') ds := by
    refine h.headIs_eq (fun c hc => ?_) (fun c hc => ?_)
    · simpa using ne_of_isBlank hc (by decide)
    · simpa using ne_of_startsWord hc (by decide)
  unfold operator
  rw [pairSymbol?_eq c ds, pairSymbol?_eq c cs, hhead]

theorem Loose.isPrefixOf_eq {mark : List Char}
    (hmark : ∀ m ∈ mark, startsWord m = false ∧ isBlank m = false) (h : Loose cs ds) :
    mark.isPrefixOf cs = mark.isPrefixOf ds := by
  induction mark generalizing cs ds with
  | nil => simp
  | cons m mark ih =>
      have hm := hmark m List.mem_cons_self
      cases h with
      | ended hcs =>
          rcases hcs with rfl | hcs
          · rfl
          · cases cs with
            | nil => rfl
            | cons c cs => simp [List.isPrefixOf, Ne.symm (ne_of_isBlank hcs hm.2)]
      | fork hc hd =>
          have hleft := beq_false_of_ne (Ne.symm (ne_of_startsWord hc hm.1))
          have hright := beq_false_of_ne (Ne.symm (ne_of_startsWord hd hm.1))
          simp only [List.isPrefixOf, hleft, hright, Bool.false_and]
      | same hrest =>
          simp only [List.isPrefixOf]
          rw [ih (fun m hm => hmark m (List.mem_cons_of_mem _ hm)) hrest]

variable {previous other : Option Char}

-- What the texts agree on is enough to tell whether a comment begins here.
theorem Loose.comment_none_iff (h : Loose cs ds) (hprevious : previous.all isBlank = other.all isBlank) :
    comment? other c ds = none ↔ comment? previous c cs = none := by
  have hmarks : ∀ mark ∈ ticks, startsWord mark = false ∧ isBlank mark = false := by
    intro mark hmem
    have htick : mark = '\x60' := by simpa [ticks] using hmem
    subst htick
    decide
  have hticks : ticks.isPrefixOf (c :: cs) = ticks.isPrefixOf (c :: ds) :=
    Loose.isPrefixOf_eq hmarks (.same h)
  have hhead : ∀ mark, startsWord mark = false → isBlank mark = false →
      headIs (· == mark) cs = headIs (· == mark) ds := by
    intro mark hword hblank
    refine h.headIs_eq (fun c hc => ?_) (fun c hc => ?_)
    · simpa using ne_of_isBlank hc hblank
    · simpa using ne_of_startsWord hc hword
  unfold comment?
  rw [← hticks, ← hhead '*' (by decide) (by decide), ← hhead '/' (by decide) (by decide),
    ← hprevious]
  split
  · simp
  split
  · simp
  split <;> simp

theorem quoted?_eq_none : quoted? c cs = none ↔ c ≠ '"' ∧ c ≠ '\x27' := by
  unfold quoted?
  split
  · next hquote =>
    constructor
    · intro h
      split at h <;> cases h
    · rintro ⟨hdouble, hsingle⟩
      rcases hquote with rfl | rfl
      · exact absurd rfl hdouble
      · exact absurd rfl hsingle
  · next hquote => simpa using hquote

theorem Tight.digits?_eq (h : Tight c cs ds) : digits? c ds = digits? c cs := by
  unfold digits?
  split
  · next hdigit =>
    have habsolute := (Loose.same (c := c) h.loose).absoluteTime
    have hrelative := (Tight.same (p := c) h).relativeTime
    have hnumber := h.number (by simp [extendsNumber, hdigit])
    rw [habsolute, hrelative, hnumber]
  · rfl

theorem Tight.markedTime?_eq (h : Tight c cs ds) : markedTime? c ds = markedTime? c cs := by
  unfold markedTime?
  split
  · rw [h.relativeTime]
  split
  · next hat =>
    have hbinds : binds c = true := by
      rw [hat]
      decide
    rw [(Tight.same (p := c) h).loneSnap hbinds]
  · rfl

theorem Tight.word?_eq (h : Tight c cs ds) : word? c ds = word? c cs := by
  have hpoint : c = '.' → headIs opensWord ds = headIs opensWord cs ∧
      headIs isDigit ds = headIs isDigit cs := by
    rintro rfl
    exact ⟨(h.headIs_eq (by decide) fun c hc => isBlank_not_opensWord hc).symm,
      (h.headIs_eq (by decide) fun c hc => isBlank_not_digit hc).symm⟩
  have hopens : (opensWord c = true ∨ c = '.' ∧ headIs opensWord ds = true) ↔
      (opensWord c = true ∨ c = '.' ∧ headIs opensWord cs = true) := by
    refine or_congr_right (and_congr_right fun hc => ?_)
    rw [(hpoint hc).1]
  have hdigit : (c = '.' ∧ headIs isDigit ds = true) ↔ (c = '.' ∧ headIs isDigit cs = true) := by
    refine and_congr_right fun hc => ?_
    rw [(hpoint hc).2]
  simp only [word?, hopens, hdigit]
  split
  · next hword =>
    have hbinds : binds c = true := by
      have hstart : startsWord c = true := by
        rcases hword with hopen | ⟨rfl, -⟩
        · simp [startsWord, hopen]
        · decide
      simp [binds, startsWord_wordChar hstart]
    obtain ⟨hlength, htake⟩ := h.word hbinds
    rw [hlength, htake]
  split
  · next hnumber =>
    obtain ⟨rfl, hhead⟩ := hnumber
    rw [h.number (by simp [extendsNumber, hhead])]
  · rfl

-- Outside blanks, comments and strings, the rules look no further than the texts agree.
theorem Tight.lexeme_eq (h : Tight c cs ds) (hprevious : previous.all isBlank = other.all isBlank)
    (hblank : isBlank c = false) (hcomment : comment? previous c cs = none)
    (hquoted : quoted? c cs = none) : lexeme other c ds = lexeme previous c cs := by
  have hquoted' : quoted? c ds = none := quoted?_eq_none.2 (quoted?_eq_none.1 hquoted)
  simp only [lexeme, hblank, Bool.false_eq_true, if_false, hcomment, hquoted,
    (h.loose.comment_none_iff hprevious).2 hcomment, hquoted', h.digits?_eq, h.markedTime?_eq, h.word?_eq,
    h.loose.operator_eq]

end Lexemes

end SearchPipeline.Scan
