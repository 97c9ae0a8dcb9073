import SearchPipeline.Command.ContextArgument
import SearchPipeline.Proofs.Text.Split
import SearchPipeline.Proofs.Text.Trim

namespace SearchPipeline

namespace ContextValue

variable {texts : List String}

-- A value holds the texts that it is made of, however many there are.
@[simp] theorem values_ofValues : (ofValues texts).values = texts := by
  unfold ofValues
  split <;> rfl

theorem ofValues_eq_single_iff : (∃ text, ofValues texts = .single text) ↔ texts.length = 1 := by
  unfold ofValues
  split
  · simp
  · next hne =>
    refine iff_of_false (by simp) fun hlength => ?_
    obtain ⟨text, rfl⟩ := List.length_eq_one_iff.1 hlength
    exact hne text rfl

end ContextValue

namespace ContextArgument

open Text

-- What stands before the first `=`, or everything if there is none.
def before (argument : String) : List Char := argument.toList.takeWhile (· != '=')

-- What stands behind the first `=`.
def behind (argument : String) : List Char := (argument.toList.dropWhile (· != '=')).tail

-- No `=`, or only blanks before it.
def Keyless (argument : String) : Prop :=
  '=' ∉ argument.toList ∨ ∀ c ∈ before argument, isBlank c = true

instance : DecidablePred Keyless := fun argument =>
  decidable_of_iff ('=' ∉ argument.toList ∨ (before argument).all isBlank = true)
    (or_congr_right List.all_eq_true)

def key (argument : String) : String := String.ofList (trim (before argument))

-- The texts that an argument gives: what stands between the commas, without blanks around it and
-- without what is empty then.
def texts (argument : String) : List String :=
  ((((behind argument).splitOn ',').map trim).filter (!·.isEmpty)).map String.ofList

-- All that the arguments give for a key.
def given (arguments : List String) (name : String) : List String :=
  (arguments.filter (key · = name)).flatMap texts

theorem split?_eq (argument : String) :
    split? argument = if Keyless argument then none else some (key argument, texts argument) := by
  by_cases hmark : '=' ∈ argument.toList
  · have hempty : (trim (before argument)).isEmpty = true ↔ Keyless argument := by
      rw [List.isEmpty_iff, trim_eq_nil_iff, Keyless, or_iff_right (not_not_intro hmark)]
    rw [split?, cut?_of_mem hmark]
    simp only [bind, Option.bind_some]
    by_cases hkeyless : Keyless argument
    · rw [if_pos hkeyless]
      exact if_pos (hempty.2 hkeyless)
    · rw [if_neg hkeyless]
      refine (if_neg (mt hempty.1 hkeyless)).trans ?_
      rw [splitOn_eq]
      rfl
  · rw [split?, cut?_of_not_mem hmark, if_pos (.inl hmark)]
    rfl

section Steps

variable {context : Context} {argument name : String} {arguments : List String}

-- The texts that a context holds for a key.
def held (context : Context) (name : String) : List String :=
  (context[name]?.map ContextValue.values).getD []

-- Reads one argument more.
def step (context : Context) (argument : String) : Except String Context :=
  if Keyless argument then .error argument else .ok (add context (key argument) (texts argument))

theorem parse_eq (arguments : List String) : parse arguments = arguments.foldlM step ∅ := by
  unfold parse
  congr 1
  funext context argument
  rw [split?_eq, step]
  by_cases hkeyless : Keyless argument
  · simp only [if_pos hkeyless]
  · simp only [if_neg hkeyless]

theorem given_cons (first name : String) (arguments : List String) :
    given (first :: arguments) name =
      (if key first = name then texts first else []) ++ given arguments name := by
  by_cases hname : key first = name
  · simp [given, hname]
  · simp [given, hname]

theorem given_eq_nil (h : ¬∃ argument ∈ arguments, key argument = name) :
    given arguments name = [] := by
  have hnone : arguments.filter (key · = name) = [] := by
    rw [List.filter_eq_nil_iff]
    intro argument hmem hname
    exact h ⟨argument, hmem, of_decide_eq_true hname⟩
  rw [given, hnone, List.flatMap_nil]

theorem getElem?_add : (add context (key argument) (texts argument))[name]? =
    if key argument = name then some (.ofValues (held context name ++ texts argument))
    else context[name]? := by
  rw [add, Std.TreeMap.getElem?_insert]
  by_cases hname : key argument = name
  · subst hname
    simp [held]
  · have hother : compare (key argument) name ≠ .eq := fun hsame =>
      hname (Std.compare_eq_iff_eq.1 hsame)
    rw [if_neg hother, if_neg hname]

-- The first argument without a key ends the reading.
theorem foldlM_step_error (h : arguments.find? (Keyless ·) = some argument) :
    arguments.foldlM step context = .error argument := by
  induction arguments generalizing context with
  | nil => cases h
  | cons first arguments ih =>
      rw [List.find?_cons] at h
      rw [List.foldlM_cons, step]
      split at h
      · next hkeyless =>
        rw [if_pos (of_decide_eq_true hkeyless), Option.some.inj h]
        rfl
      · next hkey =>
        rw [if_neg (of_decide_eq_false hkey)]
        exact ih h

-- Reading adds what the arguments give for a key to what is held for it, and leaves the other keys
-- alone.
theorem foldlM_step_ok (context : Context) (h : arguments.find? (Keyless ·) = none) : ∃ later,
    arguments.foldlM step context = .ok later ∧ ∀ name, later[name]? =
      if ∃ argument ∈ arguments, key argument = name then
        some (.ofValues (held context name ++ given arguments name))
      else context[name]? := by
  induction arguments generalizing context with
  | nil => exact ⟨context, rfl, by simp⟩
  | cons first arguments ih =>
      rw [List.find?_cons] at h
      split at h
      · cases h
      next hkey =>
      obtain ⟨later, hlater, hget⟩ := ih (add context (key first) (texts first)) h
      refine ⟨later, ?_, fun name => ?_⟩
      · rw [List.foldlM_cons, step, if_neg (of_decide_eq_false hkey)]
        exact hlater
      · rw [hget, held, getElem?_add, given_cons]
        by_cases hname : key first = name
        · have hfirst : ∃ argument ∈ first :: arguments, key argument = name :=
            ⟨first, List.mem_cons_self, hname⟩
          rw [if_pos hname, if_pos hname, if_pos hfirst]
          by_cases hmore : ∃ argument ∈ arguments, key argument = name
          · rw [if_pos hmore]
            simp
          · rw [if_neg hmore, given_eq_nil hmore, List.append_nil]
        · simp [hname, held]

end Steps

-- What the context of some arguments holds: their keys, and for each key all texts given for it, as
-- a single text exactly when there is one.
structure Gathers (arguments : List String) (context : Context) : Prop where
  keys : ∀ name, name ∈ context ↔ ∃ argument ∈ arguments, key argument = name
  values : ∀ name value, context[name]? = some value → value.values = given arguments name
  single : ∀ name value, context[name]? = some value →
    ((∃ text, value = .single text) ↔ (given arguments name).length = 1)

theorem getElem?_parse {arguments : List String} {context : Context}
    (h : parse arguments = .ok context) (name : String) : context[name]? =
      if ∃ argument ∈ arguments, key argument = name then some (.ofValues (given arguments name))
      else none := by
  have hnone : arguments.find? (Keyless ·) = none := by
    cases hfind : arguments.find? (Keyless ·) with
    | none => rfl
    | some first =>
        rw [parse_eq, foldlM_step_error hfind] at h
        cases h
  obtain ⟨later, hlater, hget⟩ := foldlM_step_ok ∅ hnone
  rw [parse_eq, hlater] at h
  cases h
  simpa [held] using hget name

theorem gathers_parse {arguments : List String} {context : Context}
    (h : parse arguments = .ok context) : Gathers arguments context where
  keys name := by
    rw [Std.TreeMap.mem_iff_isSome_getElem?, getElem?_parse h]
    split <;> simp_all
  values name value hvalue := by
    rw [getElem?_parse h, Option.ite_none_right_eq_some] at hvalue
    rw [← Option.some.inj hvalue.2, ContextValue.values_ofValues]
  single name value hvalue := by
    rw [getElem?_parse h, Option.ite_none_right_eq_some] at hvalue
    rw [← Option.some.inj hvalue.2]
    exact ContextValue.ofValues_eq_single_iff

-- The same error, or contexts with the same content.
inductive Agrees : Except String Context → Except String Context → Prop where
  | error (argument : String) : Agrees (.error argument) (.error argument)
  | ok {first second : Context} : first.Equiv second → Agrees (.ok first) (.ok second)

-- Only the order of arguments with one key counts.
theorem agrees_of_filter {first second : List String}
    (hfind : first.find? (Keyless ·) = second.find? (Keyless ·))
    (hfilter : ∀ name, first.filter (key · = name) = second.filter (key · = name)) :
    Agrees (parse first) (parse second) := by
  cases hkeyless : first.find? (Keyless ·) with
  | some argument =>
      rw [parse_eq, parse_eq, foldlM_step_error hkeyless, foldlM_step_error (hfind ▸ hkeyless)]
      exact .error argument
  | none =>
      obtain ⟨one, hone, -⟩ := foldlM_step_ok ∅ hkeyless
      obtain ⟨other, hother, -⟩ := foldlM_step_ok ∅ (hfind ▸ hkeyless)
      rw [← parse_eq] at hone hother
      rw [hone, hother]
      refine .ok (.of_forall_constGet?_eq fun name => ?_)
      have hsome : (∃ argument ∈ first, key argument = name) ↔
          ∃ argument ∈ second, key argument = name := by
        have hmem := congrArg (∃ argument, argument ∈ ·) (hfilter name)
        simpa using hmem
      rw [getElem?_parse hone, getElem?_parse hother, given, hfilter name, ← given]
      simp only [hsome]

-- The first argument without a key is the error. If there is none, the context gathers what the
-- arguments give. Two neighbours with different keys may change places.
theorem parse_accumulates (arguments : List String) :
    (match arguments.find? (Keyless ·) with
      | some argument => parse arguments = .error argument
      | none => ∃ context, parse arguments = .ok context ∧ Gathers arguments context) ∧
    ∀ front back first second, arguments = front ++ first :: second :: back →
      ¬Keyless first → ¬Keyless second → key first ≠ key second →
      Agrees (parse arguments) (parse (front ++ second :: first :: back)) := by
  constructor
  · split
    · next argument hfind =>
      rw [parse_eq]
      exact foldlM_step_error hfind
    · next hnone =>
      obtain ⟨context, hcontext, -⟩ := foldlM_step_ok ∅ hnone
      rw [← parse_eq] at hcontext
      exact ⟨context, hcontext, gathers_parse hcontext⟩
  · rintro front back first second rfl hfirst hsecond hkeys
    refine agrees_of_filter ?_ fun name => ?_
    · simp [List.find?_append, hfirst, hsecond]
    · by_cases hname : key first = name
      · have hother : key second ≠ name := fun hsame => hkeys (hname.trans hsame.symm)
        simp [List.filter_append, List.filter_cons, hother]
      · simp [List.filter_append, List.filter_cons, hname]

-- Three texts for one key, two of them the same, and between them a value that is an `=`.
theorem parse_accumulates_mixed :
    ([" a = 1,2 ", "b==", "a=,2 ,"].find? (Keyless ·) = none ∧
      given [" a = 1,2 ", "b==", "a=,2 ,"] "a" = ["1", "2", "2"] ∧
      given [" a = 1,2 ", "b==", "a=,2 ,"] "b" = ["="] ∧
      ∃ context, parse [" a = 1,2 ", "b==", "a=,2 ,"] = .ok context ∧
        Gathers [" a = 1,2 ", "b==", "a=,2 ,"] context) ∧
    ¬Keyless "b==" ∧ ¬Keyless "a=,2 ," ∧ key "b==" ≠ key "a=,2 ," ∧
    Agrees (parse [" a = 1,2 ", "b==", "a=,2 ,"]) (parse [" a = 1,2 ", "a=,2 ,", "b=="]) := by
  have hkeyed : [" a = 1,2 ", "b==", "a=,2 ,"].find? (Keyless ·) = none := by decide
  have hfirst : ¬Keyless "b==" := by decide
  have hsecond : ¬Keyless "a=,2 ," := by decide
  have hkeys : key "b==" ≠ key "a=,2 ," := by decide
  obtain ⟨hparse, hswap⟩ := parse_accumulates [" a = 1,2 ", "b==", "a=,2 ,"]
  rw [hkeyed] at hparse
  refine ⟨⟨hkeyed, by decide, by decide, hparse⟩, hfirst, hsecond, hkeys, ?_⟩
  exact hswap [" a = 1,2 "] [] "b==" "a=,2 ," rfl hfirst hsecond hkeys

end ContextArgument

end SearchPipeline
