import SearchPipeline.MacroCall
import SearchPipeline.Proofs.Text.Split
import SearchPipeline.Proofs.Token.Context
import SearchPipeline.Proofs.Token.Language

namespace SearchPipeline.MacroCall

open Text

variable {cs behind gap : List Char}

-- Arguments as they stand behind a name.
def parenthesized : Option (List Char) → List Char
  | none => []
  | some arguments => '(' :: (arguments ++ [')'])

-- A call as it is written.
structure Written where
  name : List Char
  arguments : Option (List Char)
  opens : headIs opensName name = true
  named : ∀ c ∈ name, extendsName c = true
  closed : ∀ text ∈ arguments, ')' ∉ text

namespace Written

variable (written : Written)

-- What stands behind the opening backtick.
def inside : List Char := written.name ++ (parenthesized written.arguments ++ [tick])

def text : List Char := tick :: written.inside

-- What is found of it.
def call : MacroCall where
  name := String.ofList written.name
  arguments := written.arguments.map fun text => String.ofList (stripStart '(' text)

end Written

-- A call written with what was found.
def render (call : MacroCall) : List Char :=
  tick :: (call.name.toList ++ (parenthesized (call.arguments.map String.toList) ++ [tick]))

-- The parentheses around the arguments are taken off, and with them all that open the arguments.
theorem strip_parenthesized (h : ')' ∉ cs) :
    stripEnd ')' (stripStart '(' ('(' :: (cs ++ [')']))) = stripStart '(' cs := by
  have hstart : stripStart '(' (cs ++ [')']) = stripStart '(' cs ++ [')'] := by
    rw [stripStart, stripStart, List.dropWhile_append]
    split
    · next hempty =>
      rw [List.isEmpty_iff.1 hempty]
      rfl
    · rfl
  rw [stripStart_cons_self, hstart]
  exact stripEnd_append_singleton fun hmem => h (List.dropWhile_subset _ hmem)

-- What was found writes the call again just if the arguments begin with no parenthesis.
theorem Written.text_eq_render_iff (written : Written) :
    written.text = written.call.render ↔ ∀ text ∈ written.arguments, text.head? ≠ some '(' := by
  simp only [Written.text, Written.inside, render, Written.call, String.toList_ofList,
    List.cons_inj_right, List.append_cancel_left_eq, List.append_cancel_right_eq]
  cases written.arguments with
  | none => simp [parenthesized]
  | some text =>
      simp only [parenthesized, Option.map_some, String.toList_ofList, List.cons_inj_right,
        List.append_cancel_right_eq, Option.mem_some_iff, forall_eq']
      rw [eq_comm, stripStart_eq_self_iff]

section Reading

theorem eq_cons_of_headIs (h : headIs (· == tick) cs = true) : ∃ behind, cs = tick :: behind := by
  cases cs with
  | nil => cases h
  | cons c behind => exact ⟨behind, congrArg (· :: behind) (beq_iff_eq.1 h)⟩

-- Arguments are read back from between their parentheses.
theorem arguments?_parenthesized {arguments : Option (List Char)}
    (h : ∀ text ∈ arguments, ')' ∉ text) (behind : List Char) :
    arguments? (parenthesized arguments ++ tick :: behind) =
      (arguments.map fun text => String.ofList (stripStart '(' text),
        (parenthesized arguments).length) := by
  cases arguments with
  | none => rfl
  | some text =>
      have hclosed : ')' ∉ text := h text rfl
      have hcount : classLength (· != ')') (text ++ ')' :: tick :: behind) = text.length := by
        refine Scan.classLength_append_iff.2 ⟨fun c hc => ?_, rfl⟩
        exact bne_iff_ne.2 fun hsame => hclosed (hsame ▸ hc)
      have htake : (text ++ ')' :: tick :: behind).take (text.length + 1) = text ++ [')'] :=
        List.take_length_add_append 1
      have hshape : parenthesized (some text) ++ tick :: behind =
          '(' :: (text ++ ')' :: tick :: behind) := by
        simp [parenthesized]
      rw [hshape, arguments?]
      simp only [hcount, htake, strip_parenthesized hclosed]
      simp [parenthesized]

-- Where a backtick follows, the arguments stand as they are written.
theorem exists_parenthesized (h : headIs (· == tick) (cs.drop (arguments? cs).2) = true) :
    ∃ arguments behind, (∀ text ∈ arguments, ')' ∉ text) ∧
      cs = parenthesized arguments ++ tick :: behind := by
  unfold arguments? at h
  split at h
  · next more =>
    dsimp only at h
    -- the run ends before a closing parenthesis, since a backtick stands one character behind it
    rw [List.drop_succ_cons, ← List.drop_drop, Scan.drop_classLength] at h
    have hsplit := List.takeWhile_append_dropWhile (p := (· != ')')) (l := more)
    have hclosed : ')' ∉ more.takeWhile (· != ')') := fun hmem => by
      simpa using List.mem_takeWhile_imp hmem
    cases hrest : more.dropWhile (· != ')') with
    | nil => simp [hrest, headIs] at h
    | cons d rest =>
        have hd : d = ')' := by
          have hhead := List.head_dropWhile_not (p := (· != ')')) (l := more) (by simp [hrest])
          simpa [hrest] using hhead
        obtain ⟨behind, rfl⟩ := eq_cons_of_headIs (by simpa [hrest] using h)
        refine ⟨some (more.takeWhile (· != ')')), behind, by simpa using hclosed, ?_⟩
        rw [hrest, hd] at hsplit
        simpa [parenthesized] using hsplit.symm
  · obtain ⟨behind, rfl⟩ := eq_cons_of_headIs h
    exact ⟨none, behind, by simp, rfl⟩

theorem after?_eq (cs : List Char) : after? cs =
    if headIs opensName cs ∧
        headIs (· == tick) ((cs.dropWhile extendsName).drop (arguments? (cs.dropWhile extendsName)).2)
    then some (⟨String.ofList (cs.takeWhile extendsName), (arguments? (cs.dropWhile extendsName)).1⟩,
      (cs.takeWhile extendsName).length + (arguments? (cs.dropWhile extendsName)).2 + 1)
    else none := by
  rw [after?]
  simp only [← List.drop_drop, Scan.drop_classLength, Scan.take_classLength]
  rw [Scan.classLength_eq]

-- A written call is read as a whole.
theorem after?_inside (written : Written) (behind : List Char) :
    after? (written.inside ++ behind) = some (written.call, written.inside.length) := by
  obtain ⟨name, arguments, hopens, hnamed, hclosed⟩ := written
  have hstop : headIs extendsName (parenthesized arguments ++ tick :: behind) = false := by
    cases arguments <;> rfl
  have hdrop := Scan.drop_classLength extendsName
    (name ++ (parenthesized arguments ++ tick :: behind))
  have htake := Scan.take_classLength extendsName
    (name ++ (parenthesized arguments ++ tick :: behind))
  rw [Scan.classLength_append_iff.2 ⟨hnamed, hstop⟩] at hdrop htake
  rw [List.drop_left] at hdrop
  rw [List.take_left] at htake
  have hhead : headIs opensName (name ++ (parenthesized arguments ++ tick :: behind)) = true := by
    cases name with
    | nil => cases hopens
    | cons c name => exact hopens
  have hshape : Written.inside ⟨name, arguments, hopens, hnamed, hclosed⟩ ++ behind =
      name ++ (parenthesized arguments ++ tick :: behind) := by
    simp [Written.inside]
  rw [hshape, after?_eq, ← hdrop, ← htake, arguments?_parenthesized hclosed, List.drop_left,
    if_pos ⟨hhead, rfl⟩]
  simp [Written.inside, Written.call, Nat.add_assoc]

-- What is read as a call is one that is written there.
theorem exists_written {call : MacroCall} {count : Nat} (h : after? cs = some (call, count)) :
    ∃ (written : Written) (behind : List Char), cs = written.inside ++ behind ∧
      call = written.call ∧ count = written.inside.length := by
  have hread := h
  rw [after?_eq] at h
  split at h
  · next hcall =>
    obtain ⟨arguments, behind, hclosed, hrest⟩ := exists_parenthesized hcall.2
    have hsplit := List.takeWhile_append_dropWhile (p := extendsName) (l := cs)
    have hopens : headIs opensName (cs.takeWhile extendsName) = true := by
      cases cs with
      | nil => exact hcall.1
      | cons c cs =>
          have hc : opensName c = true := hcall.1
          have hextends : extendsName c = true := by
            simp only [opensName, extendsName, Char.isAlphanum, Bool.or_eq_true] at hc ⊢
            exact hc.imp_left .inl
          rw [List.takeWhile_cons_of_pos hextends]
          exact hc
    have hcs : cs = Written.inside ⟨_, arguments, hopens, fun _ => List.mem_takeWhile_imp, hclosed⟩ ++
        behind := by
      rw [hrest] at hsplit
      simpa [Written.inside] using hsplit.symm
    refine ⟨_, behind, hcs, ?_⟩
    rw [hcs, after?_inside] at hread
    simpa [eq_comm] using hread
  · cases h

end Reading

section Rows

variable {parts : List (Written × List Char)}

-- A text of gaps and calls: the first gap, then calls with the gap behind each.
def spread : List Char → List (Written × List Char) → List Char
  | gap, [] => gap
  | gap, (written, next) :: parts => gap ++ (written.text ++ spread next parts)

-- No call begins in the gap, also none that goes on behind it.
def BeginsNone (gap behind : List Char) : Prop :=
  ∀ later, later <:+ gap → later ≠ [] → ∀ written : Written, ¬ written.text <+: later ++ behind

-- In every gap of the row no call begins.
def Leftmost : List Char → List (Written × List Char) → Prop
  | gap, [] => BeginsNone gap []
  | gap, (written, next) :: parts =>
      BeginsNone gap (written.text ++ spread next parts) ∧ Leftmost next parts

theorem BeginsNone.nil (behind : List Char) : BeginsNone [] behind :=
  fun _ hlater hne => absurd (List.suffix_nil.1 hlater) hne

theorem BeginsNone.cons {c : Char} (h : BeginsNone gap behind)
    (hc : ∀ written : Written, ¬ written.text <+: c :: (gap ++ behind)) :
    BeginsNone (c :: gap) behind := by
  intro later hlater hne
  rcases List.suffix_cons_iff.1 hlater with rfl | hlater
  · exact hc
  · exact h later hlater hne

theorem BeginsNone.not_infix (h : BeginsNone gap behind) (written : Written) :
    ¬ written.text <:+: gap := by
  rintro ⟨front, back, rfl⟩
  refine h (written.text ++ back) ?_ (by simp [Written.text]) written ?_
  · rw [List.append_assoc]
    exact List.suffix_append front _
  · rw [List.append_assoc]
    exact List.prefix_append _ _

theorem Leftmost.cons {c : Char} (h : Leftmost gap parts)
    (hc : ∀ written : Written, ¬ written.text <+: c :: spread gap parts) :
    Leftmost (c :: gap) parts := by
  cases parts with
  | nil => exact BeginsNone.cons h (by simpa [spread] using hc)
  | cons part parts => exact ⟨BeginsNone.cons h.1 hc, h.2⟩

theorem spread_cons (c : Char) (gap : List Char) (parts : List (Written × List Char)) :
    spread (c :: gap) parts = c :: spread gap parts := by
  cases parts <;> rfl

theorem Leftmost.not_infix (h : Leftmost gap parts) :
    ∀ between ∈ gap :: parts.map (·.2), ∀ written : Written, ¬ written.text <:+: between := by
  induction parts generalizing gap with
  | nil =>
      rw [List.map_nil, List.forall_mem_singleton]
      exact BeginsNone.not_infix h
  | cons part parts ih =>
      rw [List.forall_mem_cons]
      exact ⟨BeginsNone.not_infix h.1, ih h.2⟩

-- A call that begins with the first character is read behind it.
theorem not_prefix_of_after?_eq_none {c : Char} (h : c = tick → after? cs = none)
    (written : Written) : ¬ written.text <+: c :: cs := by
  rintro ⟨behind, heq⟩
  obtain ⟨rfl, hcs⟩ := List.cons.inj heq
  have hread := after?_inside written behind
  rw [List.append_eq.symm.trans hcs, h rfl] at hread
  cases hread

-- What is left of a text after some characters is a row, and the calls are those of the row.
theorem exists_row (skip : Nat) (cs : List Char) : ∃ gap parts, cs.drop skip = spread gap parts ∧
    callsFrom skip cs = parts.map (·.1.call) ∧ Leftmost gap parts := by
  induction cs generalizing skip with
  | nil => exact ⟨[], [], List.drop_nil, by cases skip <;> rfl, BeginsNone.nil []⟩
  | cons c cs ih =>
      have hpass : (c = tick → after? cs = none) → callsFrom 0 (c :: cs) = callsFrom 0 cs →
          ∃ gap parts, c :: cs = spread gap parts ∧
            callsFrom 0 (c :: cs) = parts.map (·.1.call) ∧ Leftmost gap parts := by
        intro hnone hsame
        obtain ⟨gap, parts, hcs, hcalls, hleftmost⟩ := ih 0
        rw [List.drop_zero] at hcs
        subst hcs
        exact ⟨c :: gap, parts, (spread_cons c gap parts).symm, hsame.trans hcalls,
          hleftmost.cons (not_prefix_of_after?_eq_none hnone)⟩
      cases skip with
      | succ skip => exact ih skip
      | zero =>
          by_cases htick : c = tick
          · cases hafter : after? cs with
            | none => exact hpass (fun _ => hafter) (by simp [callsFrom, hafter])
            | some found =>
                obtain ⟨written, behind, rfl, hcall, hcount⟩ := exists_written hafter
                obtain ⟨gap, parts, hcs, hcalls, hleftmost⟩ := ih found.2
                rw [hcount, List.drop_left] at hcs
                subst hcs htick
                refine ⟨[], (written, gap) :: parts, rfl, ?_, BeginsNone.nil _, hleftmost⟩
                simp [callsFrom, hafter, hcall, hcalls]
          · exact hpass (fun hc => absurd hc htick) (by simp [callsFrom, htick])

-- Keeping the first of equal names is keeping those that were not there before.
theorem foldl_names_eq (names found : List String) :
    names.foldl (fun found name => if name ∈ found then found else found ++ [name]) found =
      found ++ (names.filter (· ∉ found)).eraseDups := by
  induction names generalizing found with
  | nil => simp
  | cons name names ih =>
      rw [List.foldl_cons, ih]
      by_cases hmem : name ∈ found
      · simp [hmem]
      · have hfilter : names.filter (· ∉ found ++ [name]) =
            (names.filter (· ∉ found)).filter (!· == name) := by
          rw [List.filter_filter]
          refine List.filter_congr fun other _ => ?_
          by_cases hother : other = name <;> simp [hother]
        have hkept : (name :: names).filter (· ∉ found) = name :: names.filter (· ∉ found) :=
          List.filter_cons_of_pos (decide_eq_true hmem)
        rw [if_neg hmem, hfilter, hkept, List.eraseDups_cons, List.append_assoc,
          List.singleton_append]

theorem names_eq (source : String) : names source = ((calls source).map (·.name)).eraseDups := by
  have hfold := foldl_names_eq ((calls source).map (·.name)) []
  rw [List.foldl_map] at hfold
  simpa [names] using hfold

-- A text is a row of gaps and calls, and what is found are the calls of the row with their names.
-- Only calls whose arguments begin with a parenthesis are not found as they are written.
theorem calls_row (source : String) : ∃ gap parts, source.toList = spread gap parts ∧
    calls source = parts.map (·.1.call) ∧
    (∀ between ∈ gap :: parts.map (·.2), ∀ written : Written, ¬ written.text <:+: between) ∧
    Leftmost gap parts ∧
    names source = ((calls source).map (·.name)).eraseDups ∧
    ∀ part ∈ parts, part.1.text = part.1.call.render ↔
      ∀ text ∈ part.1.arguments, text.head? ≠ some '(' := by
  obtain ⟨gap, parts, htext, hcalls, hleftmost⟩ := exists_row 0 source.toList
  exact ⟨gap, parts, htext, hcalls, hleftmost.not_infix, hleftmost, names_eq source,
    fun part _ => part.1.text_eq_render_iff⟩

-- The second parenthesis is lost, so that what was found is nowhere in the text.
theorem calls_row_parenthesis : calls "\x60m((a)\x60" = [⟨"m", some "a"⟩] ∧
    (∃ written : Written, "\x60m((a)\x60".toList = written.text ∧ written.name = ['m'] ∧
      written.arguments = some ['(', 'a']) ∧
    ¬ render ⟨"m", some "a"⟩ <:+: "\x60m((a)\x60".toList := by
  refine ⟨by decide +kernel, ⟨⟨['m'], some ['(', 'a'], rfl, ?_, by decide⟩, rfl, rfl, rfl⟩, ?_⟩
  · exact List.forall_mem_singleton.2 rfl
  · decide +kernel

end Rows

end SearchPipeline.MacroCall
