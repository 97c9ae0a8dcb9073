import SearchPipeline.Pattern.CharSet

namespace SearchPipeline

-- Conditions on a position that read nothing.
inductive Pattern.Anchor where
  | textStart
  | textEnd
  | lineStart
  | lineEnd
  | wordEdge
  | noWordEdge
  | wordStart
  | wordEnd
  | noWordBefore
  | noWordBehind
deriving DecidableEq, Repr

inductive Pattern where
  | empty
  | char (set : Pattern.CharSet)
  | anchor (anchor : Pattern.Anchor)
  | seq (first second : Pattern)
  | alt (left right : Pattern)
  -- At least `low` and at most `high` copies, or without upper bound.
  | copies (inner : Pattern) (low : Nat) (high : Option Nat)
deriving DecidableEq, Repr

namespace Pattern

-- A text whose characters are found by position.
abbrev Subject := Array Char

def wordAt (subject : Subject) (index : Nat) : Bool := (subject[index]?).any Text.isWordCharacter

def wordBefore (subject : Subject) (index : Nat) : Bool :=
  index > 0 && wordAt subject (index - 1)

def Anchor.holds (subject : Subject) (index : Nat) : Anchor → Bool
  | textStart => index == 0
  | textEnd => index == subject.size
  | lineStart => index == 0 || subject[index - 1]? == some '\n'
  | lineEnd => index == subject.size || subject[index]? == some '\n'
  | wordEdge => wordBefore subject index != wordAt subject index
  | noWordEdge => wordBefore subject index == wordAt subject index
  | wordStart => !wordBefore subject index && wordAt subject index
  | wordEnd => wordBefore subject index && !wordAt subject index
  | noWordBefore => !wordBefore subject index
  | noWordBehind => !wordAt subject index

-- The union of two rising lists of positions.
def mergeInto : List Nat → List Nat → List Nat
  | found, [] => found
  | found, index :: rest => mergeInto (insertIndex index found) rest
where
  insertIndex (index : Nat) : List Nat → List Nat
    | [] => [index]
    | first :: rest =>
        if index < first then index :: first :: rest
        else if index = first then first :: rest
        else first :: insertIndex index rest

-- A step made exactly so many times. When it changes nothing any more, it is over.
def stepTimes (step : List Nat → List Nat) : Nat → List Nat → List Nat
  | 0, found => found
  | count + 1, found =>
      let next := step found
      if next = found then found else stepTimes step count next

-- What at most so many steps reach, together with where they start.
def stepUpTo (step : List Nat → List Nat) : Nat → List Nat → List Nat
  | 0, found => found
  | count + 1, found =>
      let next := mergeInto found (step found)
      if next = found then found else stepUpTo step count next

-- The positions reached by reading a pattern from one of the given positions.
def reach (subject : Subject) : Pattern → List Nat → List Nat
  | empty, starts => starts
  | char set, starts =>
      (starts.filter fun index => (subject[index]?).any set.holds).map (· + 1)
  | .anchor condition, starts => starts.filter (condition.holds subject)
  | seq first second, starts => reach subject second (reach subject first starts)
  | alt left right, starts => mergeInto (reach subject left starts) (reach subject right starts)
  | copies inner low high, starts =>
      let least := stepTimes (reach subject inner) low starts
      -- A text has one position more than characters, so that many steps reach everything.
      let more := match high with
        | some high => high - low
        | none => subject.size + 1
      stepUpTo (reach subject inner) more least

-- Whether the pattern occurs anywhere in a text.
def occursIn (pattern : Pattern) (text : String) : Bool :=
  let subject := text.toList.toArray
  !(reach subject pattern (List.range (subject.size + 1))).isEmpty

end Pattern

end SearchPipeline
