import SearchPipeline.Pattern.Engine
import SearchPipeline.Pattern.Match
import SearchPipeline.Pattern.Size
import SearchPipeline.Text.Run

namespace SearchPipeline.Pattern

open Text

-- What can be wrong with a pattern.
inductive Flaw where
  | openGroup
  | strayParenthesis
  | nothingToRepeat
  | badCount
  | openSet
  | badRange
  | badEscape
  | badFlags
  | badName
  | lookAround
  | tooDeep
  | tooLarge
deriving DecidableEq, Repr

def Flaw.message : Flaw → String
  | openGroup => "unclosed group"
  | strayParenthesis => "unopened group"
  | nothingToRepeat => "repetition operator missing expression"
  | badCount => "invalid repetition count"
  | openSet => "unclosed character class"
  | badRange => "invalid character class range"
  | badEscape => "unrecognized escape sequence"
  | badFlags => "unrecognized flags"
  | badName => "invalid group name"
  | lookAround => "look-around is not supported"
  | tooDeep => "nested too deep"
  | tooLarge => "too large when written out"

-- How the characters that follow are meant.
structure Flags where
  ignoreCase : Bool := false
  multiLine : Bool := false
  dotAll : Bool := false
  -- Blanks and comments in the pattern are skipped.
  verbose : Bool := false
deriving DecidableEq, Repr

-- The flag letters, and what each sets. Greediness and the choice of alphabet make no
-- difference to whether a pattern occurs.
def Flags.set? (flags : Flags) (on : Bool) : Char → Option Flags
  | 'i' => some { flags with ignoreCase := on }
  | 'm' => some { flags with multiLine := on }
  | 's' => some { flags with dotAll := on }
  | 'x' => some { flags with verbose := on }
  | 'U' => some flags
  | 'u' => if on then some flags else none
  | _ => none

def Flags.fold (flags : Flags) (set : CharSet) : CharSet :=
  if flags.ignoreCase then .anyCase set else set

def literal (flags : Flags) (c : Char) : Pattern := .char (flags.fold (.single c))

def dot (flags : Flags) : Pattern :=
  .char (if flags.dotAll then .anything else .complement (.single '\n'))

-- Skips the blanks and the comments of a verbose pattern.
def skipVerbose (flags : Flags) (cs : List Char) : List Char :=
  if flags.verbose then skip false cs else cs
where
  skip (comment : Bool) : List Char → List Char
    | [] => []
    | c :: cs =>
        if comment then skip (c != '\n') cs
        else if isBlank c then skip false cs
        else if c = '#' then skip true cs
        else c :: cs

-- Escapes.

-- What a backslash and the character behind it stand for.
inductive Escape where
  | literal (c : Char)
  | set (set : CharSet)
  | anchor (anchor : Anchor)

def hexDigit? (c : Char) : Option Nat :=
  if c.isDigit then some (c.toNat - '0'.toNat)
  else if 'a' ≤ c ∧ c ≤ 'f' then some (c.toNat - 'a'.toNat + 10)
  else if 'A' ≤ c ∧ c ≤ 'F' then some (c.toNat - 'A'.toNat + 10)
  else none

def hexNumber? (digits : List Char) : Option Nat :=
  if digits.isEmpty then none
  else digits.foldlM (fun value c => (hexDigit? c).map (value * 16 + ·)) 0

-- The character with a given code point, if there is one.
def charOf? (code : Nat) : Option Char := if code.isValidChar then some (Char.ofNat code) else none

-- A code point in braces, or in a fixed number of digits.
def hexEscape (width : Nat) (cs : List Char) : Except Flaw (Char × List Char) :=
  let (digits, rest) :=
    match cs with
    | '\x7b' :: cs => (cs.takeWhile (· != '\x7d'), cs.dropWhile (· != '\x7d'))
    | cs => (cs.take width, cs.drop width)
  let braced := headIs (· == '\x7b') cs
  match (hexNumber? digits).bind charOf? with
  | some c =>
      if braced then if rest.isEmpty then .error .badEscape else .ok (c, rest.drop 1)
      else if digits.length = width then .ok (c, rest)
      else .error .badEscape
  | none => .error .badEscape

-- Every unaccented character that is no letter or digit may be escaped for nothing.
def isPunctuation (c : Char) : Bool := c.toNat < 128 && !c.isAlphanum

-- The names of the edges that are written in braces.
def edgeNames : List (List Char × Anchor) :=
  [("\x7bstart\x7d".toList, .wordStart), ("\x7bend\x7d".toList, .wordEnd),
   ("\x7bstart-half\x7d".toList, .noWordBefore), ("\x7bend-half\x7d".toList, .noWordBehind)]

-- A word edge, or one of its kinds by name; anything else in braces is a count.
def wordEdge (cs : List Char) : Escape × List Char :=
  match edgeNames.find? (·.1.isPrefixOf cs) with
  | some (name, found) => (.anchor found, cs.drop name.length)
  | none => (.anchor .wordEdge, cs)

-- What stands behind a backslash.
def escape : List Char → Except Flaw (Escape × List Char)
  | [] => .error .badEscape
  | 'd' :: cs => .ok (.set .digit, cs)
  | 'D' :: cs => .ok (.set (.complement .digit), cs)
  | 'w' :: cs => .ok (.set .word, cs)
  | 'W' :: cs => .ok (.set (.complement .word), cs)
  | 's' :: cs => .ok (.set .blank, cs)
  | 'S' :: cs => .ok (.set (.complement .blank), cs)
  | 'a' :: cs => .ok (.literal '\x07', cs)
  | 'f' :: cs => .ok (.literal '\x0c', cs)
  | 't' :: cs => .ok (.literal '\t', cs)
  | 'n' :: cs => .ok (.literal '\n', cs)
  | 'r' :: cs => .ok (.literal '\r', cs)
  | 'v' :: cs => .ok (.literal '\x0b', cs)
  | 'A' :: cs => .ok (.anchor .textStart, cs)
  | 'z' :: cs => .ok (.anchor .textEnd, cs)
  | 'b' :: cs => .ok (wordEdge cs)
  | 'B' :: cs => .ok (.anchor .noWordEdge, cs)
  | '<' :: cs => .ok (.anchor .wordStart, cs)
  | '>' :: cs => .ok (.anchor .wordEnd, cs)
  | 'x' :: cs => do
      let (c, cs) ← hexEscape 2 cs
      return (.literal c, cs)
  | 'u' :: cs => do
      let (c, cs) ← hexEscape 4 cs
      return (.literal c, cs)
  | 'U' :: cs => do
      let (c, cs) ← hexEscape 8 cs
      return (.literal c, cs)
  | c :: cs => if isPunctuation c then .ok (.literal c, cs) else .error .badEscape

-- Constructs may stand inside one another. What is read keeps the height of its written form:
-- the number of constructs around its innermost part.
structure Built (α : Type) where
  value : α
  height : Nat

-- Parts that stand side by side are one construct, unless there is a single one.
def joinedHeight : List Nat → Nat
  | [] => 0
  | [height] => height
  | heights => heights.foldl max 0 + 1

-- Sets in brackets.

-- One member of a set: a character, which may start a range, or a set of its own.
def setItem : List Char → Except Flaw ((Char ⊕ CharSet) × List Char)
  | [] => .error .openSet
  | '\\' :: cs => do
      match ← escape cs with
      | (.literal c, cs) => return (.inl c, cs)
      | (.set set, cs) => return (.inr set, cs)
      | (.anchor _, _) => throw .badEscape
  | c :: cs => .ok (.inl c, cs)

def itemSet : Char ⊕ CharSet → CharSet
  | .inl c => .single c
  | .inr set => set

-- A member or a range of members. A `-` at the end, or before another `-`, stands for itself.
def setRange (flags : Flags) (cs : List Char) : Except Flaw (CharSet × List Char) := do
  let (low, rest) ← setItem cs
  match skipVerbose flags rest with
  | [] => throw .openSet
  | '-' :: behind =>
    match skipVerbose flags behind with
    | ']' :: _ | '-' :: _ => return (itemSet low, '-' :: behind)
    | behind => do
      let (high, rest) ← setItem behind
      match low, high with
      | .inl low, .inl high =>
        if low ≤ high then return (.range low high, rest) else throw .badRange
      | _, _ => throw .badRange
  | rest => return (itemSet low, rest)

-- A class such as `[:alpha:]` or `[:^alpha:]`, behind its opening bracket and colon. Letters of
-- the other case are added before the complement is taken.
def namedSet? (flags : Flags) (cs : List Char) : Option (CharSet × List Char) := do
  let negated := headIs (· == '^') cs
  let body := if negated then cs.drop 1 else cs
  let length ← indexOf? [':', ']'] body
  let set ← CharSet.named.lookup (String.ofList (body.take length))
  let folded := flags.fold set
  return (if negated then .complement folded else folded, body.drop (length + 2))

inductive SetOp where
  | inter
  | diff
  | symmetricDiff

def SetOp.apply : SetOp → CharSet → CharSet → CharSet
  | inter => .inter
  | diff => .diff
  | symmetricDiff => .symmetricDiff

def setOp? : List Char → Option (SetOp × List Char)
  | '&' :: '&' :: cs => some (.inter, cs)
  | '-' :: '-' :: cs => some (.diff, cs)
  | '~' :: '~' :: cs => some (.symmetricDiff, cs)
  | _ => none

-- The members of a set side by side, and the height of each.
structure Members where
  set : CharSet := .nothing
  heights : List Nat := []

def Members.add (members : Members) (new : Built CharSet) : Members :=
  ⟨.union members.set new.value, new.height :: members.heights⟩

-- The members at hand, combined with what stands before the last operator.
def closeSet (flags : Flags) (before : Option (Built CharSet × SetOp)) (members : Members) :
    Built CharSet :=
  let height := joinedHeight members.heights
  match before with
  | some (left, op) =>
      ⟨op.apply (flags.fold left.value) (flags.fold members.set), max left.height height + 1⟩
  | none => ⟨members.set, height⟩

-- The signs behind an opening bracket: `^` for the complement, then members that would close
-- the set or mean something else further on.
def opening (flags : Flags) (cs : List Char) : Bool × Members × List Char :=
  let cs := skipVerbose flags cs
  let negated := headIs (· == '^') cs
  let cs := if negated then skipVerbose flags (cs.drop 1) else cs
  let dashes := classLength (· == '-') cs
  let cs := cs.drop dashes
  if dashes > 0 then (negated, ⟨.single '-', List.replicate dashes 0⟩, cs)
  else if headIs (· == ']') cs then (negated, ⟨.single ']', [0]⟩, cs.drop 1)
  else (negated, {}, cs)

mutual

-- A set behind its opening bracket.
def set (flags : Flags) : Nat → List Char → Except Flaw (Built CharSet × List Char)
  | 0, _ => .error .openSet
  | fuel + 1, cs => do
    let (negated, first, cs) := opening flags cs
    let (found, cs) ← members flags fuel none first cs
    let folded := flags.fold found.value
    return (⟨if negated then .complement folded else folded, found.height + 1⟩, cs)

-- The rest of a set, through its closing bracket.
def members (flags : Flags) :
    Nat → Option (Built CharSet × SetOp) → Members → List Char →
      Except Flaw (Built CharSet × List Char)
  | 0, _, _, _ => .error .openSet
  | fuel + 1, before, found, cs =>
    let cs := skipVerbose flags cs
    match setOp? cs with
    | some (op, cs) => members flags fuel (some (closeSet flags before found, op)) {} cs
    | none =>
      match cs with
      | ']' :: cs => .ok (closeSet flags before found, cs)
      | '[' :: ':' :: cs =>
        match namedSet? flags cs with
        | some (named, cs) => members flags fuel before (found.add ⟨named, 0⟩) cs
        | none => do
          let (inner, cs) ← set flags fuel (':' :: cs)
          members flags fuel before (found.add inner) cs
      | '[' :: cs => do
          let (inner, cs) ← set flags fuel cs
          members flags fuel before (found.add inner) cs
      | cs => do
          let (range, cs) ← setRange flags cs
          members flags fuel before (found.add ⟨range, 0⟩) cs

end

-- Repetition.

def digits? (cs : List Char) : Option (Nat × List Char) :=
  let cs := cs.dropWhile isBlank
  let digits := cs.takeWhile Char.isDigit
  let value := digits.foldl (fun value c => value * 10 + (c.toNat - '0'.toNat)) 0
  if digits.isEmpty ∨ value ≥ Nat.pow 2 32 then none
  else some (value, (cs.drop digits.length).dropWhile isBlank)

-- A count behind its opening brace: `n`, `n,` or `n,m`.
def count (flags : Flags) (cs : List Char) : Except Flaw ((Nat × Option Nat) × List Char) :=
  match digits? (skipVerbose flags cs) with
  | none => .error .badCount
  | some (low, '\x7d' :: cs) => .ok ((low, some low), cs)
  | some (low, ',' :: cs) =>
    match skipVerbose flags cs with
    | '\x7d' :: cs => .ok ((low, none), cs)
    | cs =>
      match digits? cs with
      | some (high, '\x7d' :: cs) =>
          if low ≤ high then .ok ((low, some high), cs) else .error .badCount
      | _ => .error .badCount
  | some _ => .error .badCount

-- Without the `?` that makes a repetition lazy.
def dropLazy (cs : List Char) : List Char := if headIs (· == '?') cs then cs.drop 1 else cs

-- A repetition sign, with the `?` that makes it lazy.
def repetition? (flags : Flags) (cs : List Char) :
    Option (Except Flaw ((Nat × Option Nat) × List Char)) :=
  match cs with
  | '*' :: cs => some (.ok ((0, none), dropLazy cs))
  | '+' :: cs => some (.ok ((1, none), dropLazy cs))
  | '?' :: cs => some (.ok ((0, some 1), dropLazy cs))
  | '\x7b' :: cs =>
      some ((count flags cs).map fun (found, cs) => (found, dropLazy (skipVerbose flags cs)))
  | _ => none

-- Groups.

-- Flag letters through a colon or a closing parenthesis, which is left to read. Each letter may
-- occur once; those behind a `-` are switched off.
def groupFlags (flags : Flags) (on : Bool) (seen : List Char) :
    List Char → Except Flaw (Flags × List Char × List Char)
  | [] => .error .badFlags
  | '-' :: cs => if on then groupFlags flags false ('-' :: seen) cs else .error .badFlags
  | c :: cs =>
      if c = ':' ∨ c = ')' then
        if seen.head? = some '-' then .error .badFlags else .ok (flags, seen, c :: cs)
      else if c ∈ seen then .error .badFlags
      else
        match flags.set? on c with
        | some flags => groupFlags flags on (c :: seen) cs
        | none => .error .badFlags

def groupName? (cs : List Char) : Option (List Char × List Char) :=
  let name := cs.takeWhile (· != '>')
  let opens (c : Char) : Bool := c == '_' || isAlphabetic c
  let extends_ (c : Char) : Bool :=
    c == '_' || c == '.' || c == '[' || c == ']' || isAlphanumeric c
  if name.length < cs.length ∧ headIs opens name ∧ name.all extends_ then
    some (name, cs.drop (name.length + 1))
  else none

-- What an opening parenthesis opens.
inductive Opener where
  -- A group with its own flags. Names have to differ from one another.
  | group (flags : Flags) (name : Option (List Char))
  -- Flags for the rest of the group around.
  | flags (flags : Flags)

def opener (flags : Flags) (cs : List Char) : Except Flaw (Opener × List Char) :=
  match cs with
  | '?' :: '=' :: _ | '?' :: '!' :: _ | '?' :: '<' :: '=' :: _ | '?' :: '<' :: '!' :: _ =>
      .error .lookAround
  | '?' :: 'P' :: '<' :: cs | '?' :: '<' :: cs =>
    match groupName? cs with
    | some (name, cs) => .ok (.group flags (some name), cs)
    | none => .error .badName
  | '?' :: cs => do
    match ← groupFlags flags true [] cs with
    | (inner, _, ':' :: cs) => return (.group inner none, cs)
    | (inner, seen, _ :: cs) =>
      if seen.isEmpty then throw .nothingToRepeat else return (.flags inner, cs)
    | (_, _, []) => throw .badFlags
  | cs => .ok (.group flags none, cs)

-- What has been read of a sequence, in reverse. Flags leave nothing that could be repeated.
abbrev Items := List (Option (Built Pattern))

def ofItems (items : Items) : Built Pattern :=
  let pattern := items.foldl (fun rest item => match item, rest with
    | none, rest => rest
    | some first, .empty => first.value
    | some first, rest => .seq first.value rest) .empty
  ⟨pattern, joinedHeight (items.map fun item => (item.map (·.height)).getD 0)⟩

-- The last alternative, and those before it in reverse.
def ofAlternatives (last : Built Pattern) (before : List (Built Pattern)) : Built Pattern :=
  ⟨before.foldl (fun rest first => .alt first.value rest) last.value,
   joinedHeight ((last :: before).map (·.height))⟩

-- What reading goes on with: the flags in force, the names of groups, and the text left.
structure State where
  flags : Flags
  names : List (List Char)
  rest : List Char

mutual

-- Alternatives up to the end or to a closing parenthesis, which is left to read, behind those
-- read before.
def alternatives : Nat → List (Built Pattern) → State → Except Flaw (Built Pattern × State)
  | 0, _, _ => .error .openGroup
  | fuel + 1, before, state => do
    let (last, state) ← sequence fuel [] state
    match state.rest with
    | '|' :: cs => alternatives fuel (last :: before) { state with rest := cs }
    | _ => return (ofAlternatives last before, state)

-- A sequence up to a `|`, the end, or a closing parenthesis.
def sequence : Nat → Items → State → Except Flaw (Built Pattern × State)
  | 0, _, _ => .error .openGroup
  | fuel + 1, items, state =>
    let flags := state.flags
    let cs := skipVerbose flags state.rest
    let one (pattern : Pattern) (cs : List Char) :=
      sequence fuel (some ⟨pattern, 0⟩ :: items) { state with rest := cs }
    match repetition? flags cs with
    | some found => do
      match items with
      | some inner :: items =>
          let ((low, high), cs) ← found
          sequence fuel (some ⟨.copies inner.value low high, inner.height + 1⟩ :: items)
            { state with rest := cs }
      | _ => throw .nothingToRepeat
    | none =>
      match cs with
      | [] => .ok (ofItems items, { state with rest := [] })
      | '|' :: _ | ')' :: _ => .ok (ofItems items, { state with rest := cs })
      | '(' :: cs => do
        match ← opener flags (skipVerbose flags cs) with
        | (.flags inner, cs) =>
            sequence fuel (none :: items) { state with flags := inner, rest := cs }
        | (.group inner name, cs) =>
          if name.any (· ∈ state.names) then throw .badName
          let names := name.toList ++ state.names
          let (found, after) ← alternatives fuel [] ⟨inner, names, cs⟩
          match after.rest with
          | ')' :: cs =>
              sequence fuel (some ⟨found.value, found.height + 1⟩ :: items)
                ⟨flags, after.names, cs⟩
          | _ => throw .openGroup
      | '[' :: cs => do
          let (found, cs) ← set flags fuel cs
          sequence fuel (some ⟨.char found.value, found.height⟩ :: items)
            { state with rest := cs }
      | '.' :: cs => one (dot flags) cs
      | '^' :: cs => one (.anchor (if flags.multiLine then .lineStart else .textStart)) cs
      | '$' :: cs => one (.anchor (if flags.multiLine then .lineEnd else .textEnd)) cs
      | '\\' :: cs => do
        match ← escape cs with
        | (.literal c, cs) => one (literal flags c) cs
        | (.set found, cs) => one (.char found) cs
        | (.anchor found, cs) => one (.anchor found) cs
      | c :: cs => one (literal flags c) cs

end

-- Constructs may stand inside one another this deep.
def maxHeight : Nat := 250

-- Reads a whole pattern. It may not be nested too deep, and not take too much room.
def parse (text : String) : Except Flaw Pattern := do
  let cs := text.toList
  let (found, state) ← alternatives (2 * cs.length + 2) [] ⟨{}, [], cs⟩
  if !state.rest.isEmpty then throw .strayParenthesis
  else if found.height > maxHeight then throw .tooDeep
  else if found.value.room > maxRoom then throw .tooLarge
  else return found.value

-- The library that the program runs with. It reads the patterns described above and refuses others,
-- and what holds of configurations does not depend on it.
instance : Engine where
  Compiled := Pattern
  compile text := (parse text).mapError Flaw.message
  occursIn := occursIn

end SearchPipeline.Pattern
