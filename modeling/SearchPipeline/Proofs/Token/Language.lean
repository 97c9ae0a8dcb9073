import SearchPipeline.Proofs.Token.Respelling
import Mathlib.Data.List.TakeWhile

namespace SearchPipeline.Scan

open Text

section Languages

-- D+
def DigitRun (text : List Char) : Prop := text ≠ [] ∧ ∀ c ∈ text, isDigit c = true

-- D{low,high}
def DigitsWithin (low high : Nat) (text : List Char) : Prop :=
  (∀ c ∈ text, isDigit c = true) ∧ low ≤ text.length ∧ text.length ≤ high

-- ('.' D+)*
inductive PointGroups : List Char → Prop where
  | none : PointGroups []
  | more {digits rest : List Char} : DigitRun digits → PointGroups rest →
      PointGroups ('.' :: (digits ++ rest))

-- ([eE] [+-]? D+)?
inductive ExponentText : List Char → Prop where
  | none : ExponentText []
  | plain {e : Char} {digits : List Char} : e = 'e' ∨ e = 'E' → DigitRun digits →
      ExponentText (e :: digits)
  | signed {e sign : Char} {digits : List Char} : e = 'e' ∨ e = 'E' → sign = '+' ∨ sign = '-' →
      DigitRun digits → ExponentText (e :: sign :: digits)

-- D+ ('.' D+)* or ('.' D+)+, with an optional exponent
inductive NumberText : List Char → Prop where
  | whole {digits groups exponent : List Char} : DigitRun digits → PointGroups groups →
      ExponentText exponent → NumberText (digits ++ (groups ++ exponent))
  | point {groups exponent : List Char} : PointGroups groups → groups ≠ [] →
      ExponentText exponent → NumberText (groups ++ exponent)

-- '@' unit D*
inductive RoundingText : List Char → Prop where
  | unit {unit digits : List Char} : String.ofList unit ∈ Keyword.timeUnits →
      (∀ c ∈ digits, isDigit c = true) → RoundingText ('@' :: (unit ++ digits))

-- Texts of several languages, one behind the other.
def Concatenation : List (List Char → Prop) → List Char → Prop
  | [], text => text = []
  | language :: others, text =>
      ∃ first rest, text = first ++ rest ∧ language first ∧ Concatenation others rest

-- D{1,2} '/' D{1,2} '/' D{4}
def DateText : List Char → Prop :=
  Concatenation [DigitsWithin 1 2, (· = ['/']), DigitsWithin 1 2, (· = ['/']), DigitsWithin 4 4]

-- ':' D{1,2} ':' D{2} ':' D{2}
def TimeOfDayText : List Char → Prop :=
  Concatenation [(· = [':']), DigitsWithin 1 2, (· = [':']), DigitsWithin 2 2, (· = [':']),
    DigitsWithin 2 2]

inductive TimeText : List Char → Prop where
  -- [+-]? D+ unit, with an optional rounding
  | relative {sign digits unit rounding : List Char} : sign = [] ∨ sign = ['+'] ∨ sign = ['-'] →
      DigitRun digits → String.ofList unit ∈ Keyword.timeUnits →
      rounding = [] ∨ RoundingText rounding → TimeText (sign ++ (digits ++ (unit ++ rounding)))
  | rounding {text : List Char} : RoundingText text → TimeText text
  | date {date time : List Char} : DateText date → time = [] ∨ TimeOfDayText time →
      TimeText (date ++ time)

-- Characters other than the quote and the backslash, and backslashes with any character behind them.
inductive QuotedBody (quote : Char) : List Char → Prop where
  | nil : QuotedBody quote []
  | plain {c : Char} {rest : List Char} : c ≠ quote → c ≠ '\\' → QuotedBody quote rest →
      QuotedBody quote (c :: rest)
  | escaped {c : Char} {rest : List Char} : QuotedBody quote rest →
      QuotedBody quote ('\\' :: c :: rest)

inductive StringText : List Char → Prop where
  | quoted {quote : Char} {body : List Char} : quote = '"' ∨ quote = '\x27' →
      QuotedBody quote body → StringText (quote :: (body ++ [quote]))

-- A text that ends with a mark, where the mark stands nowhere before.
structure ClosedBy (mark text : List Char) : Prop where
  ends : mark <:+ text
  only : ∀ place, mark <+: text.drop place → place + mark.length = text.length

-- A comment, between what stands before and behind it.
inductive CommentText (before : List Char) : List Char → List Char → Prop where
  | ticks {body after : List Char} : ClosedBy ticks body →
      CommentText before (ticks ++ body) after
  | block {body after : List Char} : ClosedBy ['*', '/'] body →
      CommentText before ('/' :: '*' :: body) after
  | line {body after : List Char} : (∀ c, before.getLast? = some c → isBlank c = true) →
      (∀ c ∈ body, c ≠ '\n') → (∀ c, after.head? = some c → c = '\n') →
      CommentText before ('/' :: '/' :: body) after

-- What goes on a word.
inductive WordTail : List Char → Prop where
  | nil : WordTail []
  | char {c : Char} {rest : List Char} : isAlphanumeric c = true ∨ c = '_' ∨ c = '.' →
      WordTail rest → WordTail (c :: rest)
  | colon {c : Char} {rest : List Char} : isAlphanumeric c = true ∨ c = '_' → WordTail (c :: rest) →
      WordTail (':' :: c :: rest)

inductive WordText : List Char → Prop where
  | plain {c : Char} {rest : List Char} : isAlphabetic c = true ∨ c = '_' → WordTail rest →
      WordText (c :: rest)
  | pointed {c : Char} {rest : List Char} : isAlphabetic c = true ∨ c = '_' →
      WordTail (c :: rest) → WordText ('.' :: c :: rest)

-- The comparisons of two characters, each with its kind.
def pairs : List (List Char × Kind) := [(['!', '='], .ne), (['>', '='], .ge), (['<', '='], .le)]

-- The texts of a kind, between what stands before and behind them.
def Lexical (before : List Char) (kind : Kind) (text after : List Char) : Prop :=
  match kind with
  | .string => StringText text
  | .number => NumberText text
  | .time => TimeText text
  | .comment => CommentText before text after
  | .blank => text ≠ [] ∧ (∀ c ∈ text, isBlank c = true) ∧
      ∀ c, after.head? = some c → isBlank c = false
  | .finish => text = [] ∧ after = []
  | kind =>
    if kind ∈ wordKinds then
      WordText text ∧ text.getLast? ≠ some ':' ∧ kind = Keyword.classify (String.ofList text)
    else (text, kind) ∈ pairs ∨ ∃ sign, (sign, kind) ∈ Lexed.symbols ∧ text = [sign]

theorem lexical_word {kind : Kind} (hkind : kind ∈ wordKinds) (before text after : List Char) :
    Lexical before kind text after ↔ WordText text ∧ text.getLast? ≠ some ':' ∧
      kind = Keyword.classify (String.ofList text) := by
  cases kind <;> first | exact Iff.rfl | exact absurd hkind (by decide)

theorem lexical_sign {kind : Kind} (hkind : kind ∈ pairs.map (·.2) ++ Lexed.symbols.map (·.2))
    (before text after : List Char) : Lexical before kind text after ↔
      (text, kind) ∈ pairs ∨ ∃ sign, (sign, kind) ∈ Lexed.symbols ∧ text = [sign] := by
  cases kind <;> first | exact Iff.rfl | exact absurd hkind (by decide)

end Languages

section Numbers

variable {c : Char} {cs : List Char}

theorem takeWhile_digits (cs : List Char) : ∀ c ∈ cs.takeWhile isDigit, isDigit c = true :=
  fun _ hc => List.mem_takeWhile_imp hc

theorem take_classLength (inClass : Char → Bool) (cs : List Char) :
    cs.take (classLength inClass cs) = cs.takeWhile inClass := by
  have hcons : ∀ c cs, classLength inClass (c :: cs) =
      if inClass c then classLength inClass cs + 1 else 0 := fun _ _ => rfl
  induction cs with
  | nil => rfl
  | cons c cs ih =>
      rw [hcons, List.takeWhile_cons]
      by_cases hc : inClass c = true
      · rw [if_pos hc, if_pos hc, List.take_succ_cons, ih]
      · rw [if_neg hc, if_neg hc, List.take_zero]

theorem classLength_eq (inClass : Char → Bool) (cs : List Char) :
    classLength inClass cs = (cs.takeWhile inClass).length := by
  rw [← take_classLength, List.length_take, Nat.min_eq_left (classLength_le _ _)]

theorem drop_classLength (inClass : Char → Bool) (cs : List Char) :
    cs.drop (classLength inClass cs) = cs.dropWhile inClass := by
  rw [classLength_eq]
  nth_rewrite 2 [← List.takeWhile_append_dropWhile (p := inClass) (l := cs)]
  exact List.drop_left

theorem digitRun_takeWhile (h : headIs isDigit cs = true) : DigitRun (cs.takeWhile isDigit) := by
  cases cs with
  | nil => cases h
  | cons c cs =>
      have hc : isDigit c = true := h
      refine ⟨?_, takeWhile_digits _⟩
      simp [hc]

-- What goes on a number consists of its first digits and of groups behind points.
theorem take_extendsNumber (cs : List Char) : ∃ groups, PointGroups groups ∧
    cs.take (runLength extendsNumber cs) = cs.takeWhile isDigit ++ groups := by
  induction cs with
  | nil => exact ⟨[], .none, rfl⟩
  | cons c cs ih =>
      obtain ⟨groups, hgroups, htake⟩ := ih
      by_cases hdigit : isDigit c = true
      · refine ⟨groups, hgroups, ?_⟩
        simp [runLength, extendsNumber, hdigit, htake]
      by_cases hpoint : c = '.' ∧ headIs isDigit cs = true
      · obtain ⟨rfl, hhead⟩ := hpoint
        refine ⟨_, .more (digitRun_takeWhile hhead) hgroups, ?_⟩
        simp [runLength, extendsNumber, hhead, htake, hdigit]
      · refine ⟨[], .none, ?_⟩
        have hstop : extendsNumber c cs = false := by
          simpa [extendsNumber, hdigit] using hpoint
        simp [runLength, hstop, hdigit]

theorem digitRun_take (h : 0 < classLength isDigit cs) :
    DigitRun (cs.take (classLength isDigit cs)) := by
  rw [take_classLength]
  cases cs with
  | nil => cases h
  | cons c cs =>
      refine digitRun_takeWhile ?_
      by_contra hc
      have hnone : classLength isDigit (c :: cs) = 0 := by
        have hstop : isDigit c = false := by simpa [headIs] using hc
        simp [classLength, runLength, hstop]
      omega

theorem exponentText_take (cs : List Char) : ExponentText (cs.take (exponentLength cs)) := by
  cases cs with
  | nil => exact .none
  | cons e rest =>
      generalize hcount : exponentLength (e :: rest) = count
      simp only [exponentLength] at hcount
      generalize hsign : (if headIs (fun c => c == '+' || c == '-') rest then 1 else 0) = sign at hcount
      split at hcount
      swap
      · subst hcount
        exact .none
      next hexponent =>
      simp only [Bool.and_eq_true, Bool.or_eq_true, beq_iff_eq, decide_eq_true_eq] at hexponent
      obtain ⟨⟨he, hdigits⟩, -⟩ := hexponent
      have hrun := digitRun_take hdigits
      rw [← hcount, Nat.add_assoc, Nat.add_comm 1, List.take_succ_cons, List.take_add]
      split at hsign
      · next hhead =>
        subst hsign
        cases rest with
        | nil => cases hhead
        | cons mark rest =>
            rw [headIs, Bool.or_eq_true, beq_iff_eq, beq_iff_eq] at hhead
            exact .signed he hhead hrun
      · subst hsign
        exact .plain he hrun

theorem numberText_take (h : isDigit c = true ∨ c = '.' ∧ headIs isDigit cs = true) :
    NumberText ((c :: cs).take (numberLength (c :: cs))) := by
  obtain ⟨groups, hgroups, htake⟩ := take_extendsNumber (c :: cs)
  rw [numberLength, List.take_add, htake, List.append_assoc]
  rcases h with hdigit | ⟨rfl, hhead⟩
  · exact .whole (digitRun_takeWhile hdigit) hgroups (exponentText_take _)
  · have hnone : ('.' :: cs).takeWhile isDigit = [] :=
      List.takeWhile_cons_of_neg (by decide)
    rw [hnone, List.nil_append] at htake ⊢
    refine .point hgroups ?_ (exponentText_take _)
    rintro rfl
    simp [runLength, extendsNumber, hhead] at htake

theorem numberLength_pos (h : isDigit c = true ∨ c = '.' ∧ headIs isDigit cs = true) :
    1 ≤ numberLength (c :: cs) := by
  have hgoes : extendsNumber c cs = true := by
    rcases h with hdigit | ⟨rfl, hhead⟩
    · simp [extendsNumber, hdigit]
    · simp [extendsNumber, hhead]
  simp only [numberLength, runLength, hgoes, if_true]
  omega

end Numbers

section Times

variable {cs : List Char} {count : Nat}

-- What a piece of a time takes is a text of the language.
def Spells (language : List Char → Prop) (piece : List Char → Option Nat) : Prop :=
  ∀ cs count, piece cs = some count → language (cs.take count)

theorem spells_digitsBetween (low high : Nat) :
    Spells (DigitsWithin low high) (digitsBetween? low high) := by
  intro cs count h
  simp only [digitsBetween?] at h
  split at h
  · next hbounds =>
    cases h
    refine ⟨?_, ?_⟩
    · rw [take_classLength]
      exact takeWhile_digits cs
    · rw [List.length_take, Nat.min_eq_left (classLength_le _ _)]
      exact hbounds
  · cases h

theorem spells_mark (mark : Char) : Spells (· = [mark]) (mark? mark) := by
  intro cs count h
  simp only [mark?] at h
  split at h
  · next hhead =>
    cases h
    cases cs with
    | nil => cases hhead
    | cons c cs =>
        rw [headIs, beq_iff_eq] at hhead
        simp [hhead]
  · cases h

theorem spells_sequence {languages : List (List Char → Prop)}
    {pieces : List (List Char → Option Nat)} (h : List.Forall₂ Spells languages pieces) :
    Spells (Concatenation languages) (sequence? pieces) := by
  induction h with
  | nil =>
      intro cs count hcount
      cases hcount
      exact List.take_zero
  | cons hpiece _ ih =>
      intro cs count hcount
      simp only [sequence?, bind, Option.bind_eq_some_iff, pure, Option.some.injEq] at hcount
      obtain ⟨first, hfirst, others, hothers, rfl⟩ := hcount
      exact ⟨_, _, List.take_add, hpiece cs first hfirst, ih _ _ hothers⟩

theorem spells_date : Spells DateText date? :=
  spells_sequence (.cons (spells_digitsBetween 1 2) (.cons (spells_mark '/')
    (.cons (spells_digitsBetween 1 2) (.cons (spells_mark '/')
      (.cons (spells_digitsBetween 4 4) .nil)))))

theorem spells_timeOfDay : Spells TimeOfDayText timeOfDay? :=
  spells_sequence (.cons (spells_mark ':') (.cons (spells_digitsBetween 1 2) (.cons (spells_mark ':')
    (.cons (spells_digitsBetween 2 2) (.cons (spells_mark ':')
      (.cons (spells_digitsBetween 2 2) .nil))))))

theorem spells_absoluteTime : Spells TimeText absoluteTime? := by
  intro cs count h
  simp only [absoluteTime?, bind, Option.bind_eq_some_iff, pure, Option.some.injEq] at h
  obtain ⟨date, hdate, rfl⟩ := h
  rw [List.take_add]
  refine .date (spells_date cs date hdate) ?_
  cases hday : timeOfDay? (cs.drop date) with
  | none => exact .inl List.take_zero
  | some day => exact .inr (spells_timeOfDay _ day hday)

theorem spells_snap : Spells RoundingText snap? := by
  intro cs count h
  unfold snap? at h
  split at h
  · next rest =>
    simp only at h
    split at h
    · next hunit =>
      cases h
      rw [Nat.add_assoc, Nat.add_comm 1, List.take_succ_cons, List.take_add, take_classLength isDigit]
      exact .unit hunit (takeWhile_digits _)
    · cases h
  · cases h

theorem spells_loneSnap : Spells TimeText loneSnap? := by
  intro cs count h
  rw [loneSnap?_eq] at h
  exact .rounding (spells_snap cs count (Option.filter_eq_some_iff.1 h).1)

-- The sign of a relative time is taken off before its rule is asked.
theorem spells_relativeTime {sign : List Char} (hsign : sign = [] ∨ sign = ['+'] ∨ sign = ['-']) :
    Spells (fun text => TimeText (sign ++ text)) relativeTime? := by
  intro cs count h
  simp only [relativeTime?_eq] at h
  split at h
  · cases h
  next hnone =>
  rw [not_or, not_not] at hnone
  obtain ⟨rounding, hrounding, rfl⟩ := Option.map_eq_some_iff.1 (Option.filter_eq_some_iff.1 h).1
  rw [List.take_add, List.take_add, List.append_assoc]
  refine .relative hsign ⟨?_, ?_⟩ hnone.2 ?_
  · intro hnil
    have hlength := congrArg List.length hnil
    rw [List.length_take, Nat.min_eq_left (classLength_le _ _)] at hlength
    exact hnone.1 hlength
  · rw [take_classLength]
    exact takeWhile_digits cs
  · split at hrounding
    · exact .inr (spells_snap _ _ hrounding)
    · cases hrounding
      exact .inl List.take_zero

end Times

section Marks

variable {mark cs rest : List Char} {index : Nat}

-- A mark is found where it stands first.
theorem indexOf?_eq_some_iff : indexOf? mark cs = some index ↔
    mark <+: cs.drop index ∧ ∀ earlier < index, ¬ mark <+: cs.drop earlier := by
  induction cs generalizing index with
  | nil =>
      by_cases hmark : mark = []
      · subst hmark
        cases index with
        | zero => simp [indexOf?]
        | succ index =>
            refine iff_of_false (by simp [indexOf?]) fun h => ?_
            exact h.2 0 (Nat.succ_pos index) List.nil_prefix
      · simp [indexOf?, hmark]
  | cons c cs ih =>
      by_cases hmatch : mark <+: c :: cs
      · rw [indexOf?, if_pos (List.isPrefixOf_iff_prefix.2 hmatch)]
        cases index with
        | zero => simp [hmatch]
        | succ index => exact iff_of_false (by simp) fun h => h.2 0 (Nat.succ_pos index) hmatch
      · rw [indexOf?, if_neg (mt List.isPrefixOf_iff_prefix.1 hmatch), Option.map_eq_some_iff]
        cases index with
        | zero => simpa using hmatch
        | succ index =>
            simp only [Nat.add_right_cancel_iff, exists_eq_right, ih, List.drop_succ_cons]
            refine and_congr_right fun _ => Iff.intro (fun h earlier hlt => ?_) fun h earlier hlt => ?_
            · cases earlier with
              | zero => exact hmatch
              | succ earlier => exact h earlier (by omega)
            · exact h (earlier + 1) (by omega)

-- A part of a text is closed by a mark exactly if the mark is found at its end.
theorem closedBy_iff (rest : List Char) (hmark : mark ≠ []) : ClosedBy mark cs ↔
    ∃ index, indexOf? mark (cs ++ rest) = some index ∧ index + mark.length = cs.length := by
  have hinside : ∀ place, place + mark.length ≤ cs.length →
      (mark <+: (cs ++ rest).drop place ↔ mark <+: cs.drop place) := by
    intro place hplace
    rw [List.drop_append_of_le_length (by omega)]
    refine ⟨fun h => ?_, fun h => h.trans (List.prefix_append _ _)⟩
    exact List.prefix_of_prefix_length_le h (List.prefix_append _ _) (by rw [List.length_drop]; omega)
  constructor
  · rintro ⟨⟨inner, rfl⟩, honly⟩
    have hlength : inner.length + mark.length = (inner ++ mark).length := by simp
    refine ⟨inner.length, indexOf?_eq_some_iff.2 ⟨?_, fun earlier hlt hmatch => ?_⟩, hlength⟩
    · have hend : (inner ++ mark).drop inner.length = mark := List.drop_left
      exact (hinside _ (Nat.le_of_eq hlength)).2 (by simp [hend])
    · rw [hinside _ (by omega)] at hmatch
      have := honly earlier hmatch
      omega
  · rintro ⟨index, hindex, hlength⟩
    obtain ⟨hmatch, hearlier⟩ := indexOf?_eq_some_iff.1 hindex
    rw [hinside _ (Nat.le_of_eq hlength)] at hmatch
    refine ⟨?_, fun place hplace => ?_⟩
    · have heq := hmatch.eq_of_length (by rw [List.length_drop]; omega)
      rw [heq]
      exact List.drop_suffix _ _
    · have hle := hplace.length_le
      rw [List.length_drop] at hle
      have hpos := List.length_pos_iff.2 hmark
      have hnot : ¬ place < index := fun hlt =>
        hearlier place hlt ((hinside place (by omega)).2 hplace)
      omega

-- A string is taken up to the first quote that no backslash takes with it.
theorem quotedBody_of_quotedLength {quote : Char} {cs : List Char} {count : Nat}
    (h : quotedLength? quote cs = some count) :
    ∃ body, cs.take count = body ++ [quote] ∧ QuotedBody quote body := by
  fun_induction quotedLength? quote cs generalizing count with
  | case1 => cases h
  | case2 c rest ih =>
      obtain ⟨inner, hinner, rfl⟩ := Option.map_eq_some_iff.1 h
      obtain ⟨body, hbody, hquoted⟩ := ih hinner
      exact ⟨'\\' :: c :: body, by simp [hbody], .escaped hquoted⟩
  | case3 rest =>
      cases h
      exact ⟨[], by simp, .nil⟩
  | case4 c rest hescape hc ih =>
      obtain ⟨inner, hinner, rfl⟩ := Option.map_eq_some_iff.1 h
      obtain ⟨body, hbody, hquoted⟩ := ih hinner
      -- a backslash at the very end leaves nothing to close the string
      have hplain : c ≠ '\\' := by
        rintro rfl
        cases rest with
        | nil => cases hinner
        | cons d rest => exact hescape d rest rfl rfl
      exact ⟨c :: body, by simp [hbody], .plain hc hplain hquoted⟩

end Marks

section Words

variable {more rest : List Char}

theorem isWordChar_iff {c : Char} :
    isWordChar c = true ↔ isAlphanumeric c = true ∨ c = '_' ∨ c = '.' := by
  simp [isWordChar, or_assoc]

theorem opensWord_iff {c : Char} : opensWord c = true ↔ isAlphabetic c = true ∨ c = '_' := by
  simp [opensWord]

-- A colon that goes on a word has the next character of the word behind it.
theorem wordTail_of_runLength (h : runLength extendsWord (more ++ rest) = more.length) :
    WordTail more := by
  induction more with
  | nil => exact .nil
  | cons c more ih =>
      have hstop := stopsWord_of_runLength h
      simp only [runLength, List.cons_append, List.length_cons] at h
      split at h
      swap
      · cases h
      next hgoes =>
      have htail := ih (by omega)
      simp only [extendsWord, Bool.or_eq_true, Bool.and_eq_true, beq_iff_eq] at hgoes
      rcases hgoes with hword | ⟨rfl, hhead⟩
      · exact .char (isWordChar_iff.1 hword) htail
      cases more with
      | nil =>
          cases rest with
          | nil => cases hhead
          | cons d rest =>
              rw [List.nil_append, headIs, Bool.or_eq_true, beq_iff_eq] at hhead
              have hgoes := isWordChar_iff.2 (hhead.imp_right .inl)
              simp [stopsWord, extendsWord, hgoes] at hstop
      | cons d more =>
          rw [List.cons_append, headIs, Bool.or_eq_true, beq_iff_eq] at hhead
          exact .colon hhead htail

theorem WordTail.last_ne_colon (h : WordTail more) : more.getLast? ≠ some ':' := by
  induction h with
  | nil => simp
  | @char c rest hc _ ih =>
      cases rest with
      | nil =>
          have hcolon : ¬ (isAlphanumeric ':' = true ∨ ':' = '_' ∨ ':' = '.') := by decide
          rw [List.getLast?_singleton, Ne, Option.some.injEq]
          rintro rfl
          exact hcolon hc
      | cons d rest => rwa [List.getLast?_cons_cons]
  | colon _ _ ih => rwa [List.getLast?_cons_cons]

theorem wordText_of_runLength {c : Char}
    (hopens : opensWord c = true ∨ c = '.' ∧ headIs opensWord (more ++ rest) = true)
    (h : runLength extendsWord (more ++ rest) = more.length) : WordText (c :: more) := by
  have htail := wordTail_of_runLength h
  rcases hopens with hopens | ⟨rfl, hhead⟩
  · exact .plain (opensWord_iff.1 hopens) htail
  cases more with
  | nil =>
      have hstop := stopsWord_of_runLength h
      cases rest with
      | nil => cases hhead
      | cons d rest =>
          have hstart : startsWord d = true := by
            rw [List.nil_append, headIs] at hhead
            simp [startsWord, hhead]
          simp [stopsWord, extendsWord, startsWord_wordChar hstart] at hstop
  | cons d more => exact .pointed (opensWord_iff.1 hhead) htail

theorem WordText.last_ne_colon {text : List Char} (h : WordText text) :
    text.getLast? ≠ some ':' := by
  cases h with
  | @plain c rest hc htail =>
      exact (WordTail.char (hc.imp (fun h => by simp [isAlphanumeric, h]) .inl) htail).last_ne_colon
  | pointed _ htail =>
      rw [List.getLast?_cons_cons]
      exact htail.last_ne_colon

end Words

section Tokens

variable {before : List Char} {c : Char} {more rest : List Char} {kind : Kind}

theorem head_of_stops {inClass : Char → Bool} (h : headIs inClass rest = false) :
    ∀ c, rest.head? = some c → inClass c = false := by
  rintro c hc
  cases rest with
  | nil => cases hc
  | cons d rest =>
      cases hc
      exact h

theorem commentText_of_line (hmore : more.length = classLength (· != '\n') (more ++ rest))
    (hslash : headIs (· == '/') (more ++ rest) = true)
    (hbefore : before.getLast?.all isBlank = true) : CommentText before ('/' :: more) rest := by
  obtain ⟨hall, hstop⟩ := classLength_append_iff.1 hmore.symm
  have hend : ∀ c, rest.head? = some c → c = '\n' := fun c hc => by
    simpa using head_of_stops hstop c hc
  cases more with
  | nil =>
      cases rest with
      | nil => cases hslash
      | cons d rest =>
          obtain rfl := hend d rfl
          cases hslash
  | cons d more =>
      obtain rfl : d = '/' := by simpa [headIs] using hslash
      refine .line (fun c hc => ?_) (fun c hc => ?_) hend
      · simpa [hc] using hbefore
      · simpa using hall c (List.mem_cons_of_mem _ hc)

theorem pairSymbol?_mem {d : Char} (h : pairSymbol? c (d :: rest) = some kind) :
    ([c, d], kind) ∈ pairs := by
  unfold pairSymbol? at h
  split at h
  · next heq =>
    cases heq
    cases h
    decide
  · next heq =>
    cases heq
    cases h
    decide
  · next heq =>
    cases heq
    cases h
    decide
  · cases h

-- Each rule takes a text of the language of its kind.
theorem Lexed.lexical (h : Lexed before.getLast? c (more ++ rest) kind more.length) :
    Lexical before kind (c :: more) rest := by
  generalize hcount : more.length = count at h
  -- the count of a time or a number takes in the first character
  have htake : ∀ {total : Nat}, 1 ≤ total → count = total - 1 →
      (c :: (more ++ rest)).take total = c :: more := by
    intro total hpos htotal
    rw [show total = (c :: more).length by rw [List.length_cons]; omega, ← List.cons_append,
      List.take_left]
  cases h with
  | blank hblank =>
      obtain ⟨hall, hstop⟩ := classLength_append_iff.1 hcount.symm
      refine ⟨List.cons_ne_nil _ _, List.forall_mem_cons.2 ⟨hblank, hall⟩, head_of_stops hstop⟩
  | ticks hticks hindex =>
      obtain ⟨first, others, rfl⟩ := List.exists_cons_of_length_pos (l := more) (by omega)
      rw [List.length_cons] at hcount
      obtain ⟨second, body, rfl⟩ := List.exists_cons_of_length_pos (l := others) (by omega)
      simp only [Scan.ticks, List.cons_append, List.isPrefixOf, Bool.and_eq_true, beq_iff_eq] at hticks
      obtain ⟨rfl, rfl, rfl, -⟩ := hticks
      refine .ticks ((closedBy_iff _ (by decide)).2 ⟨_, hindex, ?_⟩)
      simp only [Scan.ticks, List.length_cons, List.length_nil] at hcount ⊢
      omega
  | block hslash hstar hindex =>
      obtain ⟨first, body, rfl⟩ := List.exists_cons_of_length_pos (l := more) (by omega)
      obtain rfl : first = '*' := by simpa [headIs] using hstar
      subst hslash
      refine .block ((closedBy_iff _ (by decide)).2 ⟨_, hindex, ?_⟩)
      simp only [List.length_cons, List.length_nil] at hcount ⊢
      omega
  | line hslash hhead hbefore =>
      subst hslash
      exact commentText_of_line hcount hhead hbefore
  | quoted hquote hlength =>
      rw [← hcount] at hlength
      obtain ⟨body, hbody, hquoted⟩ := quotedBody_of_quotedLength hlength
      rw [List.take_left] at hbody
      rw [hbody]
      exact .quoted hquote hquoted
  | date _ htime =>
      have hlonger : more ≠ [] := by
        rintro rfl
        have hslash := slash_of_absoluteTime htime
        rw [← hcount] at hslash
        cases hslash
      have hpos := List.length_pos_iff.2 hlonger
      rw [← htake (by omega) rfl]
      exact spells_absoluteTime _ _ htime
  | relative _ htime =>
      rw [← htake (relativeTime?_stops htime).1 rfl]
      exact spells_relativeTime (.inl rfl) _ _ htime
  | number hdigit =>
      rw [← htake (numberLength_pos (.inl hdigit)) rfl]
      exact numberText_take (.inl hdigit)
  | signed hsign htime =>
      have hmark : [c] = [] ∨ [c] = ['+'] ∨ [c] = ['-'] := .inr (by simpa using hsign)
      have htext := spells_relativeTime hmark _ _ htime
      rwa [← hcount, List.take_left] at htext
  | snap _ htime =>
      rw [← htake (loneSnap?_stops htime).1 rfl]
      exact spells_loneSnap _ _ htime
  | word hopens =>
      have htext := wordText_of_runLength hopens hcount.symm
      refine (lexical_word (classify_mem _) _ _ _).2 ⟨htext, htext.last_ne_colon, ?_⟩
      rw [← hcount, List.take_left]
  | point hpoint hhead =>
      rw [← htake (numberLength_pos (.inr ⟨hpoint, hhead⟩)) rfl]
      exact numberText_take (.inr ⟨hpoint, hhead⟩)
  | pair hpair =>
      obtain ⟨d, rfl⟩ := List.length_eq_one_iff.1 hcount
      have hmem := pairSymbol?_mem hpair
      refine (lexical_sign ?_ _ _ _).2 (.inl hmem)
      exact List.mem_append_left _ (List.mem_map_of_mem hmem)
  | symbol hsymbol =>
      obtain rfl := List.length_eq_zero_iff.1 hcount
      have hmem := symbol?_mem hsymbol
      refine (lexical_sign ?_ _ _ _).2 (.inr ⟨c, hmem, rfl⟩)
      exact List.mem_append_right _ (List.mem_map_of_mem hmem)

variable {previous : Option Char} {offset : Nat} {cs : List Char} {found behind : List Token}
  {token : Token}

-- A token among others is what the rules say about the text behind those before it.
theorem Scans.lexed_between {front : List Token} (h : Scans previous offset cs found)
    (hfound : found = front ++ token :: behind) (hkind : token.kind ≠ .finish) : ∃ c more,
    token.text.toList = c :: more ∧
      Lexed ((front.flatMap (·.text.toList)).getLast?.or previous) c
        (more ++ behind.flatMap (·.text.toList)) token.kind more.length := by
  induction h generalizing front with
  | finish =>
      cases front with
      | nil =>
          cases hfound
          exact absurd rfl hkind
      | cons first front => simp at hfound
  | @token previous offset c more rest kind tokens hlexeme hrest ih =>
      cases front with
      | nil =>
          obtain ⟨rfl, rfl⟩ := List.cons.inj hfound
          refine ⟨c, more, String.toList_ofList, ?_⟩
          rw [hrest.texts]
          exact lexed_of_lexeme hlexeme
      | cons first front =>
          obtain ⟨rfl, hfront⟩ := List.cons.inj hfound
          obtain ⟨d, text, htext, hlexed⟩ := ih hfront
          refine ⟨d, text, htext, ?_⟩
          have hlast : (some (lastOf c more)) = (c :: more).getLast? := by
            rw [List.getLast?_eq_some_getLast (List.cons_ne_nil c more), lastOf]
          rwa [List.flatMap_cons, String.toList_ofList, List.getLast?_append, Option.or_assoc,
            ← hlast, Option.some_or]

theorem Scans.text_behind_finish {front : List Token} (h : Scans previous offset cs found)
    (hfound : found = front ++ token :: behind) (hkind : token.kind = .finish) : behind = [] := by
  obtain ⟨before, last, htokens, -, hbefore⟩ := h.ends
  rcases List.eq_nil_or_concat behind with rfl | ⟨others, final, rfl⟩
  · rfl
  · have hmem : token ∈ before := by
      rw [hfound, List.concat_eq_append, ← List.cons_append, ← List.append_assoc] at htokens
      rw [← (List.append_inj' htokens rfl).1]
      simp
    exact absurd hkind (hbefore token hmem)

-- Every token of a text that is scanned without a flaw is a text of its kind, between what the text has
-- before and behind it: the texts of the other tokens.
theorem tokens_lexical {source : String} (h : Scan.tokens source = .ok found) {front : List Token}
    (hfound : found = front ++ token :: behind) :
    ∃ before after, before = front.flatMap (·.text.toList) ∧
      after = behind.flatMap (·.text.toList) ∧
      source.toList = before ++ (token.text.toList ++ after) ∧
      Lexical before token.kind token.text.toList after := by
  rw [tokens_eq_ok_iff] at h
  refine ⟨_, _, rfl, rfl, ?_, ?_⟩
  · rw [← h.texts, hfound, List.flatMap_append, List.flatMap_cons]
  by_cases hkind : token.kind = .finish
  · have htext := h.text_of_finish (by simp [hfound]) hkind
    rw [hkind, htext, h.text_behind_finish hfound hkind]
    exact ⟨rfl, rfl⟩
  · obtain ⟨c, more, htext, hlexed⟩ := h.lexed_between hfound hkind
    rw [Option.or_none] at hlexed
    rw [htext]
    exact hlexed.lexical

theorem tokens_lexical_rounded :
    Scan.tokens "é -7d@w0 //y" = .ok ([⟨.word, "é", 0⟩, ⟨.blank, " ", 2⟩] ++
      ⟨.time, "-7d@w0", 3⟩ :: [⟨.blank, " ", 9⟩, ⟨.comment, "//y", 10⟩, ⟨.finish, "", 13⟩]) ∧
    ∃ before after, before = "é ".toList ∧ after = " //y".toList ∧
      "é -7d@w0 //y".toList = before ++ ("-7d@w0".toList ++ after) ∧
      Lexical before .time "-7d@w0".toList after := by
  have htokens : Scan.tokens "é -7d@w0 //y" = .ok ([⟨.word, "é", 0⟩, ⟨.blank, " ", 2⟩] ++
      ⟨.time, "-7d@w0", 3⟩ :: [⟨.blank, " ", 9⟩, ⟨.comment, "//y", 10⟩, ⟨.finish, "", 13⟩]) := by
    decide +kernel
  exact ⟨htokens, tokens_lexical htokens rfl⟩

end Tokens

end SearchPipeline.Scan
