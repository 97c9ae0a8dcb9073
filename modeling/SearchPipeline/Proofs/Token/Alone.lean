import SearchPipeline.Proofs.Token.Bytes
import SearchPipeline.Proofs.Token.Language
import SearchPipeline.Proofs.Token.Trimming

namespace SearchPipeline.Scan

open Text

section Digits

variable {digits rest : List Char}

theorem classLength_of_forall {inClass : Char → Bool} {cs : List Char}
    (h : ∀ c ∈ cs, inClass c = true) : classLength inClass cs = cs.length := by
  have hcount : classLength inClass (cs ++ []) = cs.length := classLength_append_iff.2 ⟨h, rfl⟩
  rwa [List.append_nil] at hcount

theorem classLength_digits (hdigits : ∀ c ∈ digits, isDigit c = true)
    (hrest : headIs isDigit rest = false) : classLength isDigit (digits ++ rest) = digits.length :=
  classLength_append_iff.2 ⟨hdigits, hrest⟩

theorem headIs_of_forall {inClass inOther : Char → Bool}
    (himp : ∀ c, inClass c = true → inOther c = false) (h : ∀ c ∈ rest, inClass c = true) :
    headIs inOther rest = false := by
  cases rest with
  | nil => rfl
  | cons c rest => exact himp c (h c List.mem_cons_self)

theorem digitsBetween?_append {low high : Nat} (h : DigitsWithin low high digits)
    (hrest : headIs isDigit rest = false) :
    digitsBetween? low high (digits ++ rest) = some digits.length := by
  rw [digitsBetween?, classLength_digits h.1 hrest]
  exact if_pos h.2

theorem headIs_append_of_forall {more : List Char} {inClass inOther : Char → Bool}
    (himp : ∀ c, inClass c = true → inOther c = false) (hmore : more ≠ [])
    (h : ∀ c ∈ more, inClass c = true) (rest : List Char) : headIs inOther (more ++ rest) = false := by
  rw [headIs_append [] hmore, List.append_nil]
  exact headIs_of_forall himp h

theorem mark?_cons (mark : Char) : mark? mark (mark :: rest) = some 1 := by
  simp [mark?, headIs]

end Digits

section Times

variable {digits unit rounding rest : List Char}

theorem date?_append {date : List Char} (h : DateText date) (hrest : headIs isDigit rest = false) :
    date? (date ++ rest) = some date.length := by
  obtain ⟨day, _, rfl, hday, _, _, rfl, rfl, month, _, rfl, hmonth, _, _, rfl, rfl, year, _, rfl,
    hyear, rfl⟩ := h
  have hslash : ∀ behind, headIs isDigit ('/' :: behind) = false := fun _ => rfl
  simp only [date?, sequence?, List.append_assoc, List.cons_append, List.nil_append, bind, pure,
    digitsBetween?_append hday (hslash _), digitsBetween?_append hmonth (hslash _),
    digitsBetween?_append hyear hrest, mark?_cons, Option.bind_some, List.drop_left,
    List.drop_succ_cons, List.drop_zero, List.length_append, List.length_cons, List.length_nil]
  congr 1
  omega

theorem timeOfDay?_append {time : List Char} (h : TimeOfDayText time)
    (hrest : headIs isDigit rest = false) : timeOfDay? (time ++ rest) = some time.length := by
  obtain ⟨_, _, rfl, rfl, hour, _, rfl, hhour, _, _, rfl, rfl, minute, _, rfl, hminute, _, _, rfl, rfl,
    second, _, rfl, hsecond, rfl⟩ := h
  have hcolon : ∀ behind, headIs isDigit (':' :: behind) = false := fun _ => rfl
  simp only [timeOfDay?, sequence?, List.append_assoc, List.cons_append, List.nil_append, bind, pure,
    digitsBetween?_append hhour (hcolon _), digitsBetween?_append hminute (hcolon _),
    digitsBetween?_append hsecond hrest, mark?_cons, Option.bind_some, List.drop_left,
    List.drop_succ_cons, List.drop_zero, List.length_append, List.length_cons, List.length_nil]
  congr 1
  omega

theorem absoluteTime?_date {date time : List Char} (hdate : DateText date)
    (htime : time = [] ∨ TimeOfDayText time) :
    absoluteTime? (date ++ time) = some (date ++ time).length := by
  have hrest : headIs isDigit time = false := by
    rcases htime with rfl | ⟨_, _, rfl, rfl, -⟩ <;> rfl
  have hlength : (timeOfDay? time).getD 0 = time.length := by
    rcases htime with rfl | htime
    · rfl
    · have hday : timeOfDay? (time ++ []) = some time.length := timeOfDay?_append htime rfl
      rw [List.append_nil] at hday
      rw [hday, Option.getD_some]
  simp only [absoluteTime?, date?_append hdate hrest, bind, Option.bind_some, pure, List.drop_left,
    hlength, List.length_append]

-- Behind the first digits of a date, a slash stands.
theorem absoluteTime?_eq_none (hdigits : ∀ c ∈ digits, isDigit c = true)
    (hrest : headIs isDigit rest = false) (hslash : headIs (· == '/') rest = false) :
    absoluteTime? (digits ++ rest) = none := by
  have hmark : mark? '/' rest = none := by simp [mark?, hslash]
  have hdate : date? (digits ++ rest) = none := by
    simp only [date?, sequence?, digitsBetween?, classLength_digits hdigits hrest]
    split
    · simp only [bind, Option.bind_some, List.drop_left, hmark, Option.bind_none]
    · rfl
  simp [absoluteTime?, hdate]

theorem unit_letters (hunit : String.ofList unit ∈ Keyword.timeUnits) :
    unit ≠ [] ∧ ∀ c ∈ unit, isLetter c = true := by
  have hall : (Keyword.timeUnits.all fun text =>
      !text.toList.isEmpty && text.toList.all isLetter) = true := by decide +kernel
  have hletters := List.all_eq_true.1 hall _ hunit
  rw [String.toList_ofList, Bool.and_eq_true, Bool.not_eq_true', List.all_eq_true] at hletters
  exact ⟨by simpa using hletters.1, hletters.2⟩

theorem isLetter_not_digit {c : Char} (h : isLetter c = true) : isDigit c = false := by
  by_contra hdigit
  have halphabetic := isDigit_not_alphabetic (by simpa using hdigit)
  rw [isLetter_alphabetic h] at halphabetic
  cases halphabetic

theorem isDigit_not_letter {c : Char} (h : isDigit c = true) : isLetter c = false := by
  by_contra hletter
  have hdigit := isLetter_not_digit (by simpa using hletter)
  rw [h] at hdigit
  cases hdigit

theorem snap?_rounding (h : RoundingText rounding) : snap? rounding = some rounding.length := by
  obtain @⟨unit, digits, hunit, hdigits⟩ := h
  have hletters : classLength isLetter (unit ++ digits) = unit.length :=
    classLength_append_iff.2
      ⟨(unit_letters hunit).2, headIs_of_forall (fun _ => isDigit_not_letter) hdigits⟩
  simp only [snap?, hletters, List.take_left, List.drop_left, hunit, if_true,
    classLength_of_forall hdigits, List.length_cons, List.length_append]
  congr 1
  omega

theorem loneSnap?_rounding (h : RoundingText rounding) :
    loneSnap? rounding = some rounding.length := by
  rw [loneSnap?_eq, snap?_rounding h, Option.filter_some, List.drop_length]
  rfl

theorem relativeTime?_unit (hdigits : DigitRun digits)
    (hunit : String.ofList unit ∈ Keyword.timeUnits)
    (hrounding : rounding = [] ∨ RoundingText rounding) :
    relativeTime? (digits ++ (unit ++ rounding)) = some (digits ++ (unit ++ rounding)).length := by
  obtain ⟨hne, hletters⟩ := unit_letters hunit
  have hstart : headIs isDigit (unit ++ rounding) = false :=
    headIs_append_of_forall (fun _ => isLetter_not_digit) hne hletters _
  have hend : headIs isLetter rounding = false := by
    rcases hrounding with rfl | ⟨-, -⟩ <;> rfl
  have hcount : classLength isLetter (unit ++ rounding) = unit.length :=
    classLength_append_iff.2 ⟨hletters, hend⟩
  have hbehind : (if headIs (· == '@') rounding then snap? rounding else some 0) =
      some rounding.length := by
    rcases hrounding with rfl | hrounding
    · rfl
    · rw [snap?_rounding hrounding]
      cases hrounding
      rfl
  have hpositive : digits.length ≠ 0 := mt List.length_eq_zero_iff.1 hdigits.1
  have hdrop : (digits ++ (unit ++ rounding)).drop (digits.length + unit.length) = rounding := by
    rw [← List.drop_drop, List.drop_left, List.drop_left]
  have htotal : digits.length + unit.length + rounding.length =
      (digits ++ (unit ++ rounding)).length := by
    rw [List.length_append, List.length_append, Nat.add_assoc]
  simp only [relativeTime?_eq, classLength_digits hdigits.2 hstart, List.drop_left, hcount,
    List.take_left, hdrop, hbehind, hpositive, hunit, not_true_eq_false, or_self, if_false,
    Option.map_some, htotal, Option.filter_some, List.drop_length]
  rfl

theorem absoluteTime?_unit (hdigits : DigitRun digits)
    (hunit : String.ofList unit ∈ Keyword.timeUnits) (rounding : List Char) :
    absoluteTime? (digits ++ (unit ++ rounding)) = none := by
  obtain ⟨hne, hletters⟩ := unit_letters hunit
  have hslash : ∀ c, isLetter c = true → (c == '/') = false := by
    intro c hc
    rw [beq_eq_false_iff_ne]
    rintro rfl
    cases hc
  exact absoluteTime?_eq_none hdigits.2
    (headIs_append_of_forall (fun _ => isLetter_not_digit) hne hletters _)
    (headIs_append_of_forall hslash hne hletters _)

-- Digits are no time when the letters behind them are no unit.
theorem relativeTime?_eq_none (letters : List Char) (hdigits : ∀ c ∈ digits, isDigit c = true)
    (hletters : ∀ c ∈ letters, isLetter c = true) (hstop : headIs isLetter rest = false)
    (hrest : headIs isDigit (letters ++ rest) = false)
    (hunit : String.ofList letters ∉ Keyword.timeUnits) :
    relativeTime? (digits ++ (letters ++ rest)) = none := by
  have hcount : classLength isLetter (letters ++ rest) = letters.length :=
    classLength_append_iff.2 ⟨hletters, hstop⟩
  simp only [relativeTime?_eq, classLength_digits hdigits hrest, List.drop_left, hcount,
    List.take_left, hunit, not_false_eq_true, or_true, if_true]

end Times

section Numbers

variable {digits groups exponent rest : List Char}

theorem runLength_digits (hdigits : ∀ c ∈ digits, isDigit c = true) (rest : List Char) :
    runLength extendsNumber (digits ++ rest) = digits.length + runLength extendsNumber rest := by
  induction digits with
  | nil => simp
  | cons c digits ih =>
      obtain ⟨hc, hdigits⟩ := List.forall_mem_cons.1 hdigits
      simp only [List.cons_append, runLength, extendsNumber, hc, Bool.true_or, if_true, ih hdigits,
        List.length_cons]
      omega

theorem headIs_digitRun (h : DigitRun digits) (rest : List Char) :
    headIs isDigit (digits ++ rest) = true := by
  obtain ⟨hne, hdigits⟩ := h
  obtain ⟨c, digits, rfl⟩ := List.exists_cons_of_ne_nil hne
  exact hdigits c List.mem_cons_self

theorem runLength_groups (h : PointGroups groups) (rest : List Char) :
    runLength extendsNumber (groups ++ rest) = groups.length + runLength extendsNumber rest := by
  induction h with
  | none => simp
  | @more digits others hdigits _ ih =>
      have hgoes : extendsNumber '.' (digits ++ others ++ rest) = true := by
        rw [List.append_assoc]
        simp [extendsNumber, headIs_digitRun hdigits]
      simp only [List.cons_append, runLength, hgoes, if_true]
      rw [List.append_assoc, runLength_digits hdigits.2, ih, List.length_cons, List.length_append]
      omega

-- Behind the letter of an exponent, no letter stands.
theorem ExponentText.head (h : ExponentText exponent) : exponent = [] ∨
    ∃ e rest, exponent = e :: rest ∧ (e = 'e' ∨ e = 'E') ∧ headIs isLetter rest = false := by
  cases h with
  | none => exact .inl rfl
  | plain he hdigits =>
      exact .inr ⟨_, _, rfl, he, headIs_of_forall (fun _ => isDigit_not_letter) hdigits.2⟩
  | signed he hsign _ =>
      refine .inr ⟨_, _, rfl, he, ?_⟩
      rcases hsign with rfl | rfl <;> rfl

theorem ExponentText.headIs_eq_false {inClass : Char → Bool} (h : ExponentText exponent)
    (hclass : inClass 'e' = false ∧ inClass 'E' = false) : headIs inClass exponent = false := by
  rcases h.head with rfl | ⟨e, rest, rfl, rfl | rfl, -⟩
  · rfl
  · exact hclass.1
  · exact hclass.2

-- The sign of an exponent is taken off before its digits.
theorem exponentLength_cons {e : Char} (sign : List Char) (he : e = 'e' ∨ e = 'E')
    (hsign : (if headIs (fun c => c == '+' || c == '-') (sign ++ digits) then 1 else 0) = sign.length)
    (hdigits : DigitRun digits) :
    exponentLength (e :: (sign ++ digits)) = (e :: (sign ++ digits)).length := by
  have hcount := classLength_of_forall hdigits.2
  have hend : (sign ++ digits).drop (sign.length + digits.length) = [] := by
    rw [← List.length_append, List.drop_length]
  have hmark : (e == 'e' || e == 'E') = true := by simpa using he
  have hpositive := List.length_pos_iff.2 hdigits.1
  simp only [exponentLength, hsign, List.drop_left, hcount, hend, hmark, List.length_cons,
    List.length_append]
  simp only [headIs, hpositive, decide_true, Bool.and_self, Bool.not_false, if_true]
  omega

theorem exponentLength_exponent (h : ExponentText exponent) :
    exponentLength exponent = exponent.length := by
  cases h with
  | none => rfl
  | @plain e digits he hdigits =>
      have hsign : headIs (fun c => c == '+' || c == '-') digits = false := by
        refine headIs_of_forall (fun c (hc : isDigit c = true) => ?_) hdigits.2
        by_contra hmark
        rw [Bool.not_eq_false, Bool.or_eq_true, beq_iff_eq, beq_iff_eq] at hmark
        rcases hmark with rfl | rfl <;> cases hc
      refine exponentLength_cons [] he ?_ hdigits
      rw [List.nil_append, hsign]
      rfl
  | @signed e sign digits he hsign hdigits =>
      refine exponentLength_cons [sign] he ?_ hdigits
      rcases hsign with rfl | rfl <;> rfl

theorem numberLength_number {text : List Char} (h : NumberText text) :
    numberLength text = text.length := by
  have hstop : ∀ {exponent : List Char}, ExponentText exponent →
      runLength extendsNumber exponent = 0 := by
    intro exponent hexponent
    rcases hexponent.head with rfl | ⟨e, rest, rfl, he, -⟩
    · rfl
    · have hgoes : extendsNumber e rest = false := by
        rcases he with rfl | rfl <;> rfl
      simp [runLength, hgoes]
  cases h with
  | @whole digits groups exponent hdigits hgroups hexponent =>
      have hrun : runLength extendsNumber (digits ++ (groups ++ exponent)) =
          (digits ++ groups).length := by
        rw [runLength_digits hdigits.2, runLength_groups hgroups, hstop hexponent, Nat.add_zero,
          List.length_append]
      rw [numberLength, hrun, ← List.append_assoc, List.drop_left, exponentLength_exponent hexponent,
        ← List.length_append]
  | @point groups exponent hgroups _ hexponent =>
      have hrun : runLength extendsNumber (groups ++ exponent) = groups.length := by
        rw [runLength_groups hgroups, hstop hexponent, Nat.add_zero]
      rw [numberLength, hrun, List.drop_left, exponentLength_exponent hexponent, List.length_append]

-- A number that opens with a digit is no time.
theorem times_of_number (hdigits : DigitRun digits) (hgroups : PointGroups groups)
    (hexponent : ExponentText exponent) :
    (absoluteTime? (digits ++ (groups ++ exponent))).or
      (relativeTime? (digits ++ (groups ++ exponent))) = none := by
  have hpoint : ∀ {inClass : Char → Bool}, inClass '.' = false → inClass 'e' = false →
      inClass 'E' = false → headIs inClass (groups ++ exponent) = false := by
    intro inClass hdot he hE
    cases hgroups with
    | none => exact hexponent.headIs_eq_false ⟨he, hE⟩
    | more _ _ => exact hdot
  have hempty : String.ofList [] ∉ Keyword.timeUnits := by decide
  have hrelative : relativeTime? (digits ++ (groups ++ exponent)) = none := by
    cases hgroups with
    | none =>
        rcases hexponent.head with rfl | ⟨e, rest, rfl, rfl | rfl, hstop⟩
        · exact relativeTime?_eq_none [] hdigits.2 (by simp) rfl rfl hempty
        · exact relativeTime?_eq_none ['e'] hdigits.2 (List.forall_mem_singleton.2 rfl) hstop rfl
            (by decide)
        · exact relativeTime?_eq_none ['E'] hdigits.2 (List.forall_mem_singleton.2 rfl) hstop rfl
            (by decide)
    | more _ _ => exact relativeTime?_eq_none [] hdigits.2 (by simp) rfl rfl hempty
  rw [absoluteTime?_eq_none hdigits.2 (hpoint rfl rfl rfl) (hpoint rfl rfl rfl), hrelative]
  rfl

end Numbers

section Words

variable {c : Char} {more rest : List Char}

theorem runLength_wordTail (h : WordTail more) : runLength extendsWord more = more.length := by
  induction h with
  | nil => rfl
  | @char c rest hc _ ih =>
      have hgoes : extendsWord c rest = true := by simp [extendsWord, isWordChar_iff.2 hc]
      simp only [runLength, hgoes, if_true, ih, List.length_cons]
  | @colon c rest hc _ ih =>
      have hgoes : extendsWord ':' (c :: rest) = true := by simpa [extendsWord, headIs] using .inr hc
      rw [runLength, if_pos hgoes, ih]
      rfl

theorem opens_of_wordText (h : WordText (c :: more)) :
    (opensWord c = true ∨ c = '.' ∧ headIs opensWord more = true) ∧ WordTail more := by
  cases h with
  | plain hc htail => exact ⟨.inl (opensWord_iff.2 hc), htail⟩
  | pointed hc htail => exact ⟨.inr ⟨rfl, opensWord_iff.2 hc⟩, htail⟩

theorem quotedLength?_body {quote : Char} {body : List Char} (hquote : quote ≠ '\\')
    (h : QuotedBody quote body) :
    quotedLength? quote (body ++ [quote]) = some (body ++ [quote]).length := by
  induction h with
  | nil =>
      rw [List.nil_append, quotedLength?_cons hquote]
      exact if_pos rfl
  | @plain c rest hc hescape _ ih =>
      rw [List.cons_append, quotedLength?_cons hescape, if_neg hc, ih]
      rfl
  | @escaped c rest _ ih =>
      rw [List.cons_append, List.cons_append, quotedLength?, ih]
      rfl

end Words

section Tokens

variable {before after text more : List Char} {c : Char} {kind : Kind}

-- A text with nothing around it is one token of a kind.
def TakenAs (kind : Kind) (text : List Char) : Prop :=
  ∃ c more, text = c :: more ∧ lexeme none c more = ⟨.ok kind, more.length⟩

theorem takenAs_blank (hne : text ≠ []) (h : ∀ c ∈ text, isBlank c = true) :
    TakenAs .blank text := by
  obtain ⟨c, more, rfl⟩ := List.exists_cons_of_ne_nil hne
  obtain ⟨hc, hmore⟩ := List.forall_mem_cons.1 h
  exact ⟨c, more, rfl, by rw [lexeme_of_blank hc, classLength_of_forall hmore]⟩

theorem takenAs_comment (h : CommentText before text after) : TakenAs .comment text := by
  cases h with
  | @ticks body _ hclosed =>
      obtain ⟨index, hindex, hlength⟩ := (closedBy_iff [] (by decide)).1 hclosed
      rw [List.append_nil] at hindex
      refine ⟨'\x60', '\x60' :: '\x60' :: body, rfl, lexeme_of_comment (by decide) ?_⟩
      have hopened : comment? none '\x60' ('\x60' :: '\x60' :: body) =
          some (blockComment ticks 2 ('\x60' :: '\x60' :: body)) := if_pos rfl
      rw [hopened, blockComment, List.drop_succ_cons, List.drop_succ_cons, List.drop_zero, hindex,
        List.length_cons, List.length_cons, ← hlength]
      simp only [Option.some.injEq, Lexeme.mk.injEq, true_and]
      omega
  | @block body _ hclosed =>
      obtain ⟨index, hindex, hlength⟩ := (closedBy_iff [] (by decide)).1 hclosed
      rw [List.append_nil] at hindex
      refine ⟨'/', '*' :: body, rfl, lexeme_of_comment (by decide) ?_⟩
      have hopened : comment? none '/' ('*' :: body) =
          some (blockComment ['*', '/'] 1 ('*' :: body)) := rfl
      have hcount : ('*' :: body).length = index + ['*', '/'].length + 1 := by
        rw [hlength, List.length_cons]
      rw [hopened, blockComment, List.drop_succ_cons, List.drop_zero, hindex, hcount]
      simp only [Option.some.injEq, Lexeme.mk.injEq, true_and]
      omega
  | @line body _ _ hbody _ =>
      refine ⟨'/', '/' :: body, rfl, lexeme_of_line rfl ?_⟩
      simpa using hbody

theorem takenAs_string (h : StringText text) : TakenAs .string text := by
  obtain @⟨quote, body, hquote, hbody⟩ := h
  refine ⟨quote, body ++ [quote], rfl, ?_⟩
  have hescape : quote ≠ '\\' := by rcases hquote with rfl | rfl <;> decide
  have hlength := quotedLength?_body hescape hbody
  refine lexeme_of_quoted ?_ ?_ ?_
  · rcases hquote with rfl | rfl <;> decide
  · rcases hquote with rfl | rfl <;> simp [comment?, ticks, List.isPrefixOf]
  · simp [quoted?, hquote, hlength]

-- What opens neither a blank nor a comment nor a string is left to the other rules.
theorem lexeme_of_other (hblank : isBlank c = false)
    (hne : c ≠ '\x60' ∧ c ≠ '/' ∧ c ≠ '"' ∧ c ≠ '\x27') : lexeme none c more =
      ((digits? c more).or <| (markedTime? c more).or <| word? c more).getD (operator c more) := by
  obtain ⟨htick, hslash, hquotes⟩ := hne
  have hcomment : comment? none c more = none := by
    simp [comment?, ticks, List.isPrefixOf, Ne.symm htick, hslash]
  simp only [lexeme, hblank, Bool.false_eq_true, if_false, hcomment, quoted?_eq_none.2 hquotes,
    Option.none_or]

-- A text that opens with a digit is a time if one of the rules for times takes it, else a number.
theorem lexeme_of_digit (h : isDigit c = true) : lexeme none c more =
    match (absoluteTime? (c :: more)).or (relativeTime? (c :: more)) with
    | some count => ⟨.ok .time, count - 1⟩
    | none => ⟨.ok .number, numberLength (c :: more) - 1⟩ := by
  have hne : ∀ mark, isDigit mark = false → c ≠ mark := by
    rintro mark hmark rfl
    rw [h] at hmark
    cases hmark
  have hblank : isBlank c = false := by
    by_contra hblank
    have hdigit := isBlank_not_digit (by simpa using hblank)
    rw [h] at hdigit
    cases hdigit
  rw [lexeme_of_other hblank ⟨hne _ (by decide), hne _ (by decide), hne _ (by decide),
    hne _ (by decide)⟩, digits?, if_pos h]
  cases (absoluteTime? (c :: more)).or (relativeTime? (c :: more)) <;> rfl

theorem takenAs_time_of_digit (h : headIs isDigit text = true)
    (htime : (absoluteTime? text).or (relativeTime? text) = some text.length) :
    TakenAs .time text := by
  cases text with
  | nil => cases h
  | cons c more =>
      refine ⟨c, more, rfl, ?_⟩
      rw [lexeme_of_digit h, htime]
      rfl

theorem headIs_of_date {date : List Char} (h : DateText date) (rest : List Char) :
    headIs isDigit (date ++ rest) = true := by
  obtain ⟨day, behind, rfl, ⟨hdigits, hlow, -⟩, -⟩ := h
  rw [List.append_assoc]
  exact headIs_digitRun ⟨List.length_pos_iff.1 hlow, hdigits⟩ _

theorem takenAs_time (h : TimeText text) : TakenAs .time text := by
  cases h with
  | @relative sign digits unit rounding hsign hdigits hunit hrounding =>
      have htime := relativeTime?_unit hdigits hunit hrounding
      rcases hsign with rfl | rfl | rfl
      · refine takenAs_time_of_digit (headIs_digitRun hdigits _) ?_
        rw [List.nil_append, absoluteTime?_unit hdigits hunit rounding, htime]
        rfl
      · refine ⟨'+', digits ++ (unit ++ rounding), rfl, ?_⟩
        rw [lexeme_of_other (by decide) (by decide), markedTime?, htime]
        rfl
      · refine ⟨'-', digits ++ (unit ++ rounding), rfl, ?_⟩
        rw [lexeme_of_other (by decide) (by decide), markedTime?, htime]
        rfl
  | rounding hrounding =>
      have htime := loneSnap?_rounding hrounding
      obtain @⟨unit, digits, -, -⟩ := hrounding
      refine ⟨'@', unit ++ digits, rfl, ?_⟩
      rw [lexeme_of_other (by decide) (by decide), markedTime?, htime]
      rfl
  | @date date time hdate htime =>
      refine takenAs_time_of_digit (headIs_of_date hdate time) ?_
      rw [absoluteTime?_date hdate htime]
      rfl

theorem takenAs_number (h : NumberText text) : TakenAs .number text := by
  have hlength := numberLength_number h
  cases h with
  | @whole digits groups exponent hdigits hgroups hexponent =>
      have htimes := times_of_number hdigits hgroups hexponent
      have hhead := headIs_digitRun hdigits (groups ++ exponent)
      generalize digits ++ (groups ++ exponent) = text at hlength htimes hhead
      cases text with
      | nil => cases hhead
      | cons c more =>
          refine ⟨c, more, rfl, ?_⟩
          rw [lexeme_of_digit hhead, htimes, hlength]
          rfl
  | @point groups exponent hgroups hne _ =>
      cases hgroups with
      | none => exact absurd rfl hne
      | @more digits others hdigits _ =>
          have hhead : headIs isDigit (digits ++ (others ++ exponent)) = true :=
            headIs_digitRun hdigits _
          rw [List.cons_append, List.append_assoc] at hlength ⊢
          refine ⟨'.', _, rfl, ?_⟩
          have hword : headIs opensWord (digits ++ (others ++ exponent)) = false := by
            refine headIs_append_of_forall (fun c (hc : isDigit c = true) => ?_) hdigits.1 hdigits.2 _
            rw [opensWord, isDigit_not_alphabetic hc, Bool.false_or, beq_eq_false_iff_ne]
            rintro rfl
            cases hc
          have hpoint : word? '.' (digits ++ (others ++ exponent)) =
              some ⟨.ok .number, numberLength ('.' :: (digits ++ (others ++ exponent))) - 1⟩ := by
            have hopens : opensWord '.' = false := by decide
            simp [word?, hopens, hword, hhead]
          rw [lexeme_of_other (by decide) (by decide), hpoint, hlength]
          rfl

theorem takenAs_word (h : WordText text) :
    TakenAs (Keyword.classify (String.ofList text)) text := by
  obtain ⟨c, more, rfl⟩ : ∃ c more, text = c :: more := by
    cases h with
    | plain _ _ => exact ⟨_, _, rfl⟩
    | pointed _ _ => exact ⟨_, _, rfl⟩
  obtain ⟨hopens, htail⟩ := opens_of_wordText h
  refine ⟨c, more, rfl, ?_⟩
  rw [lexeme_of_word hopens, runLength_wordTail htail, List.take_length]

theorem takenAs_pair (h : (text, kind) ∈ pairs) : TakenAs kind text := by
  simp only [pairs, List.mem_cons, Prod.mk.injEq, List.not_mem_nil, or_false] at h
  rcases h with ⟨rfl, rfl⟩ | ⟨rfl, rfl⟩ | ⟨rfl, rfl⟩ <;> exact ⟨_, _, rfl, rfl⟩

theorem takenAs_symbol (h : (c, kind) ∈ Lexed.symbols) : TakenAs kind [c] := by
  simp only [Lexed.symbols, List.mem_cons, Prod.mk.injEq, List.not_mem_nil, or_false] at h
  rcases h with ⟨rfl, rfl⟩ | ⟨rfl, rfl⟩ | ⟨rfl, rfl⟩ | ⟨rfl, rfl⟩ | ⟨rfl, rfl⟩ | ⟨rfl, rfl⟩ |
    ⟨rfl, rfl⟩ | ⟨rfl, rfl⟩ | ⟨rfl, rfl⟩ | ⟨rfl, rfl⟩ | ⟨rfl, rfl⟩ | ⟨rfl, rfl⟩ | ⟨rfl, rfl⟩ |
    ⟨rfl, rfl⟩ | ⟨rfl, rfl⟩ | ⟨rfl, rfl⟩ | ⟨rfl, rfl⟩ <;> exact ⟨_, _, rfl, rfl⟩

-- The rules take every text of the language of a kind as that kind.
theorem takenAs_of_lexical (h : Lexical before kind text after) (hkind : kind ≠ .finish) :
    TakenAs kind text := by
  by_cases hword : kind ∈ wordKinds
  · obtain ⟨htext, -, rfl⟩ := (lexical_word hword _ _ _).1 h
    exact takenAs_word htext
  cases kind
  case string => exact takenAs_string h
  case number => exact takenAs_number h
  case time => exact takenAs_time h
  case comment => exact takenAs_comment h
  case blank => exact takenAs_blank h.1 h.2.1
  case finish => exact absurd rfl hkind
  all_goals
    first
    | exact absurd (by decide) hword
    | rcases (lexical_sign (by decide) _ _ _).1 h with hpair | ⟨sign, hsign, rfl⟩
      · exact takenAs_pair hpair
      · exact takenAs_symbol hsign

theorem TakenAs.scans (h : TakenAs kind text) : Scans none 0 text
    [⟨kind, String.ofList text, 0⟩, ⟨.finish, "", byteLength text⟩] := by
  obtain ⟨c, more, rfl, hlexeme⟩ := h
  have hscans : Scans none 0 (c :: (more ++ [])) [⟨kind, String.ofList (c :: more), 0⟩,
      ⟨.finish, "", 0 + byteLength (c :: more)⟩] := .token (by rwa [List.append_nil]) .finish
  rwa [List.append_nil, Nat.zero_add] at hscans

-- The languages of the kinds are those of the rules: a text is one token of a kind exactly if it
-- belongs to the language of the kind.
theorem oneToken_iff_lexical (hkind : kind ≠ .finish) :
    OneToken kind (String.ofList text) ↔ Lexical [] kind text [] := by
  constructor
  · intro h
    obtain ⟨c, more, htext, hlexeme⟩ := h.lexeme
    rw [String.toList_ofList] at htext
    have hlexed : Lexed ([] : List Char).getLast? c (more ++ []) kind more.length := by
      rw [List.append_nil]
      exact lexed_of_lexeme hlexeme
    rw [htext]
    exact hlexed.lexical
  · intro h
    have hscans := (takenAs_of_lexical h hkind).scans
    rw [← String.toList_ofList (l := text)] at hscans
    exact ⟨_, _, tokens_eq_ok_iff.2 hscans, rfl⟩

-- The text of a token is scanned as that token and nothing else, whatever stood around it.
theorem tokens_alone {source : String} {found : List Token} {token : Token}
    (h : Scan.tokens source = .ok found) (hmem : token ∈ found) (hkind : token.kind ≠ .finish) :
    Scan.tokens token.text = .ok [⟨token.kind, token.text, 0⟩,
      ⟨.finish, "", token.text.utf8ByteSize⟩] := by
  rw [tokens_eq_ok_iff] at h ⊢
  obtain ⟨front, behind, hfound⟩ := List.append_of_mem hmem
  obtain ⟨c, more, htext, hlexed⟩ := h.lexed_between hfound hkind
  rw [Option.or_none] at hlexed
  have hscans := (takenAs_of_lexical hlexed.lexical hkind).scans
  rwa [← htext, String.ofList_toList, byteLength_toList] at hscans

theorem tokens_alone_comment :
    Scan.tokens "1e5x //é" = .ok [⟨.number, "1", 0⟩, ⟨.word, "e5x", 1⟩, ⟨.blank, " ", 4⟩,
      ⟨.comment, "//é", 5⟩, ⟨.finish, "", 9⟩] ∧
    Scan.tokens "1" = .ok [⟨.number, "1", 0⟩, ⟨.finish, "", 1⟩] ∧
    Scan.tokens "//é" = .ok [⟨.comment, "//é", 0⟩, ⟨.finish, "", 4⟩] := by
  have htokens : Scan.tokens "1e5x //é" = .ok [⟨.number, "1", 0⟩, ⟨.word, "e5x", 1⟩,
      ⟨.blank, " ", 4⟩, ⟨.comment, "//é", 5⟩, ⟨.finish, "", 9⟩] := by
    decide +kernel
  refine ⟨htokens, ?_, ?_⟩
  · exact @tokens_alone _ _ ⟨.number, "1", 0⟩ htokens (by decide) (by decide)
  · exact @tokens_alone _ _ ⟨.comment, "//é", 5⟩ htokens (by decide) (by decide)

end Tokens

end SearchPipeline.Scan
