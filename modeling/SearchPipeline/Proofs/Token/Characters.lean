import SearchPipeline.Proofs.Token.Lookahead

namespace SearchPipeline.Scan

open Text

section Classes

variable {inClass : Char → Bool} {c : Char} {cs : List Char} {count : Nat}

-- The leading characters, so many of them, are of a class.
def Made (inClass : Char → Bool) (cs : List Char) (count : Nat) : Prop :=
  ∀ c ∈ cs.take count, inClass c = true

theorem made_zero (cs : List Char) : Made inClass cs 0 := by
  intro c hmem
  simp at hmem

theorem Made.imp {inOther : Char → Bool} (himp : ∀ c, inClass c = true → inOther c = true)
    (h : Made inClass cs count) : Made inOther cs count :=
  fun c hmem => himp c (h c hmem)

theorem Made.add {a b : Nat} (ha : Made inClass cs a) (hb : Made inClass (cs.drop a) b) :
    Made inClass cs (a + b) := by
  intro c hmem
  rw [List.take_add, List.mem_append] at hmem
  exact hmem.elim (ha c) (hb c)

theorem Made.cons (hc : inClass c = true) (h : Made inClass cs count) :
    Made inClass (c :: cs) (1 + count) := by
  intro d hmem
  rw [Nat.add_comm, List.take_succ_cons, List.mem_cons] at hmem
  exact hmem.elim (fun hd => hd ▸ hc) (h d)

-- A run consists of characters that go it on.
theorem made_run {goesOn : Char → List Char → Bool}
    (h : ∀ c cs, goesOn c cs = true → inClass c = true) (cs : List Char) :
    Made inClass cs (runLength goesOn cs) := by
  induction cs with
  | nil => exact made_zero []
  | cons c cs ih =>
      simp only [runLength]
      split
      · next hc =>
        rw [Nat.add_comm]
        exact ih.cons (h c cs hc)
      · exact made_zero _

theorem made_class {inRun : Char → Bool} (h : ∀ c, inRun c = true → inClass c = true)
    (cs : List Char) : Made inClass cs (classLength inRun cs) :=
  made_run (fun c _ => h c) cs

-- The length of a time or a number counts the first character, which is there even where the
-- length is zero.
theorem Made.behind (hc : inClass c = true) (h : Made inClass (c :: cs) count) :
    Made inClass (c :: cs) (1 + (count - 1)) := by
  cases count with
  | zero => exact (made_zero cs).cons hc
  | succ count =>
      rw [Nat.add_sub_cancel, Nat.add_comm]
      exact h

end Classes

section Times

variable {cs : List Char} {count : Nat}

-- The characters of a time behind its sign.
def inTime (c : Char) : Bool := isDigit c || isLetter c || c == '/' || c == ':' || c == '@'

theorem inTime_of_digit {c : Char} (h : isDigit c = true) : inTime c = true := by
  simp [inTime, h]

theorem inTime_of_letter {c : Char} (h : isLetter c = true) : inTime c = true := by
  simp [inTime, h]

theorem made_digits (cs : List Char) : Made inTime cs (classLength isDigit cs) :=
  made_class (fun _ => inTime_of_digit) cs

theorem made_letters (cs : List Char) : Made inTime cs (classLength isLetter cs) :=
  made_class (fun _ => inTime_of_letter) cs

theorem made_digitsBetween {low high : Nat} (h : digitsBetween? low high cs = some count) :
    Made inTime cs count := by
  unfold digitsBetween? at h
  simp only at h
  split at h
  · cases h
    exact made_digits cs
  · cases h

theorem made_mark {mark : Char} (hmark : inTime mark = true) (h : mark? mark cs = some count) :
    Made inTime cs count := by
  unfold mark? at h
  split at h
  · next hhead =>
    cases h
    cases cs with
    | nil => cases hhead
    | cons d cs =>
        have hd : d = mark := by simpa [headIs] using hhead
        exact (made_zero cs).cons (hd ▸ hmark)
  · cases h

-- What pieces are made of, a sequence of them is made of.
theorem made_sequence {pieces : List (List Char → Option Nat)}
    (hpieces : ∀ piece ∈ pieces, ∀ cs count, piece cs = some count → Made inTime cs count)
    (h : sequence? pieces cs = some count) : Made inTime cs count := by
  induction pieces generalizing cs count with
  | nil =>
      cases h
      exact made_zero cs
  | cons piece rest ih =>
      simp only [sequence?, bind, Option.bind_eq_some_iff, pure, Option.some.injEq] at h
      obtain ⟨first, hfirst, others, hothers, rfl⟩ := h
      exact (hpieces piece List.mem_cons_self cs first hfirst).add
        (ih (fun piece hpiece => hpieces piece (List.mem_cons_of_mem _ hpiece)) hothers)

theorem made_date (h : date? cs = some count) : Made inTime cs count := by
  refine made_sequence ?_ h
  simp only [List.mem_cons, List.not_mem_nil, or_false]
  rintro piece (rfl | rfl | rfl | rfl | rfl) cs count hpiece
  · exact made_digitsBetween hpiece
  · exact made_mark (by decide) hpiece
  · exact made_digitsBetween hpiece
  · exact made_mark (by decide) hpiece
  · exact made_digitsBetween hpiece

theorem made_timeOfDay (h : timeOfDay? cs = some count) : Made inTime cs count := by
  refine made_sequence ?_ h
  simp only [List.mem_cons, List.not_mem_nil, or_false]
  rintro piece (rfl | rfl | rfl | rfl | rfl | rfl) cs count hpiece
  · exact made_mark (by decide) hpiece
  · exact made_digitsBetween hpiece
  · exact made_mark (by decide) hpiece
  · exact made_digitsBetween hpiece
  · exact made_mark (by decide) hpiece
  · exact made_digitsBetween hpiece

theorem made_absoluteTime (h : absoluteTime? cs = some count) : Made inTime cs count := by
  simp only [absoluteTime?, bind, Option.bind_eq_some_iff, pure, Option.some.injEq] at h
  obtain ⟨date, hdate, rfl⟩ := h
  apply (made_date hdate).add
  cases hday : timeOfDay? (cs.drop date) with
  | none => exact made_zero _
  | some day => exact made_timeOfDay hday

theorem made_snap (h : snap? cs = some count) : Made inTime cs count := by
  unfold snap? at h
  split at h
  · next rest =>
    simp only at h
    split at h
    · cases h
      rw [Nat.add_assoc]
      exact Made.cons (by decide) ((made_letters rest).add (made_digits _))
    · cases h
  · cases h

theorem made_relativeTime (h : relativeTime? cs = some count) : Made inTime cs count := by
  simp only [relativeTime?_eq] at h
  split at h
  · cases h
  obtain ⟨rounding, hrounding, rfl⟩ := Option.map_eq_some_iff.1 (Option.filter_eq_some_iff.1 h).1
  apply ((made_digits cs).add (made_letters _)).add
  split at hrounding
  · exact made_snap hrounding
  · cases hrounding
    exact made_zero _

theorem made_loneSnap (h : loneSnap? cs = some count) : Made inTime cs count := by
  rw [loneSnap?_eq] at h
  exact made_snap (Option.filter_eq_some_iff.1 h).1

end Times

section Tokens

variable {previous : Option Char} {c : Char} {cs : List Char} {kind : Kind} {more count : Nat}

-- The characters of the tokens that are neither strings nor comments.
def inToken (c : Char) : Bool :=
  isBlank c || binds c || "+-*/%^=!><|()[],".toList.contains c

theorem inToken_of_blank (h : isBlank c = true) : inToken c = true := by simp [inToken, h]

theorem inToken_of_binds (h : binds c = true) : inToken c = true := by simp [inToken, h]

theorem inToken_of_digit (h : isDigit c = true) : inToken c = true :=
  inToken_of_binds (by simp [binds, isDigit_wordChar h])

theorem inToken_of_time (h : inTime c = true) : inToken c = true := by
  simp only [inTime, Bool.or_eq_true, beq_iff_eq] at h
  rcases h with (((hdigit | hletter) | rfl) | rfl) | rfl
  · exact inToken_of_digit hdigit
  · exact inToken_of_binds (by simp [binds, isLetter_wordChar hletter])
  all_goals decide

theorem made_sign (cs : List Char) :
    Made inToken cs (if headIs (fun c => c == '+' || c == '-') cs then 1 else 0) := by
  cases cs with
  | nil => exact made_zero []
  | cons c cs =>
      split
      · next hsign =>
        simp only [headIs, Bool.or_eq_true, beq_iff_eq] at hsign
        have hc : inToken c = true := by rcases hsign with rfl | rfl <;> decide
        exact (made_zero cs).cons hc
      · exact made_zero _

theorem made_exponent (cs : List Char) : Made inToken cs (exponentLength cs) := by
  cases cs with
  | nil => exact made_zero []
  | cons e rest =>
      simp only [exponentLength]
      have hsign := made_sign rest
      generalize (if headIs (fun c => c == '+' || c == '-') rest then 1 else 0) = sign at hsign ⊢
      split
      · next hexponent =>
        simp only [Bool.and_eq_true, Bool.or_eq_true, beq_iff_eq] at hexponent
        have he : inToken e = true := by rcases hexponent.1.1 with rfl | rfl <;> decide
        rw [Nat.add_assoc]
        exact (hsign.add (made_class (fun _ => inToken_of_digit) _)).cons he
      · exact made_zero _

theorem made_number (cs : List Char) : Made inToken cs (numberLength cs) :=
  (made_run (fun _ _ h => inToken_of_binds (binds_of_extendsNumber h)) cs).add (made_exponent _)

theorem Lexed.made (h : Lexed previous c cs kind more) (hstring : kind ≠ .string)
    (hcomment : kind ≠ .comment) : Made inToken (c :: cs) (1 + more) := by
  cases h with
  | blank hblank => exact (made_class (fun _ => inToken_of_blank) cs).cons (inToken_of_blank hblank)
  | ticks | block | line => exact absurd rfl hcomment
  | quoted => exact absurd rfl hstring
  | date hdigit hcount =>
      exact ((made_absoluteTime hcount).imp fun _ => inToken_of_time).behind (inToken_of_digit hdigit)
  | relative hdigit hcount =>
      exact ((made_relativeTime hcount).imp fun _ => inToken_of_time).behind (inToken_of_digit hdigit)
  | number hdigit => exact (made_number _).behind (inToken_of_digit hdigit)
  | signed hsign hcount =>
      have hc : inToken c = true := by rcases hsign with rfl | rfl <;> decide
      exact ((made_relativeTime hcount).imp fun _ => inToken_of_time).cons hc
  | snap hat hcount =>
      have hc : inToken c = true := by
        rw [hat]
        decide
      exact ((made_loneSnap hcount).imp fun _ => inToken_of_time).behind hc
  | word hopens =>
      have hc : startsWord c = true := by
        rcases hopens with hopens | ⟨rfl, -⟩
        · simp [startsWord, hopens]
        · decide
      apply (made_run (fun _ _ h => inToken_of_binds (binds_of_extendsWord h)) cs).cons
      exact inToken_of_binds (by simp [binds, startsWord_wordChar hc])
  | point hpoint _ =>
      have hc : inToken c = true := by
        rw [hpoint]
        decide
      exact (made_number _).behind hc
  | pair hpair =>
      have hmarks : inToken c = true ∧ headIs (· == '=') cs = true := by
        refine ⟨?_, (pairSymbol?_eq_some hpair).1⟩
        unfold pairSymbol? at hpair
        split at hpair
        · decide
        · decide
        · decide
        · cases hpair
      cases cs with
      | nil => cases hmarks.2
      | cons d cs =>
          have hd : d = '=' := by simpa [headIs] using hmarks.2
          have hequals : inToken d = true := by
            rw [hd]
            decide
          exact ((made_zero cs).cons hequals).cons hmarks.1
  | symbol hsymbol =>
      have hmarks : ∀ entry ∈ symbols, inToken entry.1 = true := by decide
      exact (made_zero cs).cons (hmarks _ (symbol?_mem hsymbol))

end Tokens

end SearchPipeline.Scan
