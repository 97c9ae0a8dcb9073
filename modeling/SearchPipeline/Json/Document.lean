import SearchPipeline.Json.Numeral

namespace SearchPipeline.Json

-- A JSON text as it is written. A value that is out of range is wrong only where it is used, so
-- numerals keep their digits here and strings the units they spell.
inductive Document where
  | null
  | bool (value : Bool)
  | number (numeral : Numeral)
  -- Nothing when the text spells half of a surrogate pair.
  | string (text : Option String)
  | list (items : List Document)
  | object (members : List (Option String × Document))
deriving Inhabited

namespace Document

-- One piece of a written string: a character, or a UTF-16 unit given in hexadecimal.
inductive Piece where
  | plain (c : Char)
  | unit (code : Nat)

def isHigh (code : Nat) : Bool := 0xD800 ≤ code && code ≤ 0xDBFF

def isLow (code : Nat) : Bool := 0xDC00 ≤ code && code ≤ 0xDFFF

-- Joins the units of surrogate pairs. A half without its partner has no text.
def characters? : List Piece → Option (List Char)
  | [] => some []
  | .plain c :: rest => (characters? rest).map (c :: ·)
  | [.unit code] => if isHigh code || isLow code then none else some [Char.ofNat code]
  | .unit high :: .unit low :: rest =>
      if isHigh high then
        if isLow low then
          let code := 0x10000 + (high - 0xD800) * 0x400 + (low - 0xDC00)
          (characters? rest).map (Char.ofNat code :: ·)
        else none
      else if isLow high then none
      else (characters? (.unit low :: rest)).map (Char.ofNat high :: ·)
  | .unit code :: rest =>
      if isHigh code || isLow code then none
      else (characters? rest).map (Char.ofNat code :: ·)

def isBlank (c : Char) : Bool := c == ' ' || c == '\n' || c == '\t' || c == '\r'

def skipBlanks (cs : List Char) : List Char := cs.dropWhile isBlank

def hexValue? (c : Char) : Option Nat :=
  if c.isDigit then some (c.toNat - '0'.toNat)
  else if 'a' ≤ c ∧ c ≤ 'f' then some (c.toNat - 'a'.toNat + 10)
  else if 'A' ≤ c ∧ c ≤ 'F' then some (c.toNat - 'A'.toNat + 10)
  else none

def hexUnit? (a b c d : Char) : Option Nat := do
  let a ← hexValue? a
  let b ← hexValue? b
  let c ← hexValue? c
  let d ← hexValue? d
  return ((a * 16 + b) * 16 + c) * 16 + d

def simpleEscape? : Char → Option Char
  | '"' => some '"'
  | '\\' => some '\\'
  | '/' => some '/'
  | 'b' => some '\x08'
  | 'f' => some '\x0c'
  | 'n' => some '\n'
  | 'r' => some '\r'
  | 't' => some '\t'
  | _ => none

-- The pieces of a string behind its opening quote, and what follows the closing one. Control
-- characters have to be escaped.
def pieces? (found : List Piece) : List Char → Option (List Piece × List Char)
  | [] => none
  | '"' :: rest => some (found.reverse, rest)
  | '\\' :: 'u' :: a :: b :: c :: d :: rest => do
      let code ← hexUnit? a b c d
      pieces? (.unit code :: found) rest
  | '\\' :: c :: rest => do
      let plain ← simpleEscape? c
      pieces? (.plain plain :: found) rest
  | c :: rest => if c.toNat < 0x20 then none else pieces? (.plain c :: found) rest

def string? (cs : List Char) : Option (Option String × List Char) := do
  let (found, rest) ← pieces? [] cs
  return ((characters? found).map String.ofList, rest)

def takeDigits (cs : List Char) : List Nat × List Char :=
  ((cs.takeWhile Char.isDigit).map fun c => c.toNat - '0'.toNat, cs.dropWhile Char.isDigit)

-- Whole digits: one at least, and a leading zero stands alone.
def wholeDigits? (cs : List Char) : Option (List Nat × List Char) :=
  match takeDigits cs with
  | ([], _) => none
  | (0 :: _ :: _, _) => none
  | found => some found

def fraction? : List Char → Option (Option (List Nat) × List Char)
  | '.' :: cs =>
    match takeDigits cs with
    | ([], _) => none
    | (digits, rest) => some (some digits, rest)
  | cs => some (none, cs)

def exponentDigits? (below : Bool) (cs : List Char) :
    Option (Option (Bool × List Nat) × List Char) :=
  match takeDigits cs with
  | ([], _) => none
  | (digits, rest) => some (some (below, digits), rest)

def exponent? : List Char → Option (Option (Bool × List Nat) × List Char)
  | c :: cs =>
      if c = 'e' ∨ c = 'E' then
        match cs with
        | '+' :: rest => exponentDigits? false rest
        | '-' :: rest => exponentDigits? true rest
        | rest => exponentDigits? false rest
      else some (none, c :: cs)
  | [] => some (none, [])

def numeral? (cs : List Char) : Option (Numeral × List Char) := do
  let negative := cs.head? == some '-'
  let (whole, cs) ← wholeDigits? (if negative then cs.drop 1 else cs)
  let (fraction, cs) ← fraction? cs
  let (exponent, cs) ← exponent? cs
  return (⟨negative, whole, fraction, exponent⟩, cs)

def literals : List (List Char × Document) :=
  [("null".toList, .null), ("true".toList, .bool true), ("false".toList, .bool false)]

def literal? (cs : List Char) : Option (Document × List Char) :=
  (literals.find? fun (word, _) => word.isPrefixOf cs).map fun (word, value) =>
    (value, cs.drop word.length)

mutual

-- One value at the start of a text, and what follows it. Each level of recursion uses up one
-- unit of fuel, and at least one character for every two of them.
def value? : Nat → List Char → Option (Document × List Char)
  | 0, _ => none
  | fuel + 1, cs =>
    match skipBlanks cs with
    | '"' :: rest => (string? rest).map fun (text, rest) => (.string text, rest)
    | '[' :: rest =>
      match skipBlanks rest with
      | ']' :: rest => some (.list [], rest)
      | rest => (elements? fuel rest).map fun (items, rest) => (.list items, rest)
    | '\x7b' :: rest =>
      match skipBlanks rest with
      | '\x7d' :: rest => some (.object [], rest)
      | rest => (members? fuel rest).map fun (members, rest) => (.object members, rest)
    | rest =>
      (literal? rest).or ((numeral? rest).map fun (numeral, rest) => (.number numeral, rest))

-- The elements of a list through its closing bracket; there is one at least.
def elements? : Nat → List Char → Option (List Document × List Char)
  | 0, _ => none
  | fuel + 1, cs => do
    let (item, rest) ← value? fuel cs
    match skipBlanks rest with
    | ',' :: rest =>
        let (items, rest) ← elements? fuel rest
        return (item :: items, rest)
    | ']' :: rest => return ([item], rest)
    | _ => none

-- The members of an object through its closing brace; there is one at least.
def members? : Nat → List Char → Option (List (Option String × Document) × List Char)
  | 0, _ => none
  | fuel + 1, cs =>
    match skipBlanks cs with
    | '"' :: rest => do
      let (key, rest) ← string? rest
      match skipBlanks rest with
      | ':' :: rest =>
        let (value, rest) ← value? fuel rest
        match skipBlanks rest with
        | ',' :: rest =>
            let (members, rest) ← members? fuel rest
            return ((key, value) :: members, rest)
        | '\x7d' :: rest => return ([(key, value)], rest)
        | _ => none
      | _ => none
    | _ => none

end

-- A whole text that holds one value and nothing else but blanks.
def parse? (text : String) : Option Document := do
  let cs := text.toList
  let (document, rest) ← value? (2 * cs.length + 2) cs
  if (skipBlanks rest).isEmpty then some document else none

end Document

end SearchPipeline.Json
