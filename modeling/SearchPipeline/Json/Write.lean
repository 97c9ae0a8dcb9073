import SearchPipeline.Decimal.Shortest
import SearchPipeline.Json.Value

namespace SearchPipeline.Json

def digitText (value : Nat) : String := String.ofList (Nat.toDigits 10 value)

def zeros (count : Nat) : String := String.ofList (List.replicate count '0')

-- Where a floating-point number is written without exponent. The places are powers of ten of
-- the leading digit.
structure FloatLayout where
  lowestPlace : Int
  highestPlace : Int

-- From 0.00001 to below 10^16 a number is written out.
def floatLayout : FloatLayout := ⟨-5, 15⟩

-- Digits with a point, whose first digit stands at the power of ten `place`. Some digit always
-- stands on both sides of the point.
def positional (digits : String) (place : Int) : String :=
  let count := digits.length
  if place < 0 then "0." ++ zeros ((-place).toNat - 1) ++ digits
  else
    let before := place.toNat + 1
    if count ≤ before then digits ++ zeros (before - count) ++ ".0"
    else
      let cs := digits.toList
      String.ofList (cs.take before) ++ "." ++ String.ofList (cs.drop before)

-- One digit, the others behind a point, and an exponent that always has a sign and no leading
-- zeros.
def scientific (digits : String) (place : Int) : String :=
  let cs := digits.toList
  let behind := cs.drop 1
  let point := if behind.isEmpty then "" else "."
  String.ofList (cs.take 1) ++ point ++ String.ofList behind ++
    (if place < 0 then "e-" else "e+") ++ digitText place.natAbs

def magnitudeText (layout : FloatLayout) (decimal : Decimal) : String :=
  let digits := digitText decimal.digits
  let place := decimal.exponent + digits.length - 1
  if decimal.digits = 0 then "0.0"
  else if layout.lowestPlace ≤ place ∧ place ≤ layout.highestPlace then positional digits place
  else scientific digits place

def floatText (value : Float) : String :=
  let bits := value.toBits
  let sign := if bits.toNat ≥ Nat.pow 2 63 then "-" else ""
  sign ++ magnitudeText floatLayout (Decimal.shortest (.ofBits bits))

def intText (value : Int) : String :=
  if value < 0 then "-" ++ digitText value.natAbs else digitText value.natAbs

-- Only the quote, the backslash and the control characters are escaped.
def escape (c : Char) : List Char :=
  if c = '"' then ['\\', '"']
  else if c = '\\' then ['\\', '\\']
  else if c = '\x08' then ['\\', 'b']
  else if c = '\x0c' then ['\\', 'f']
  else if c = '\n' then ['\\', 'n']
  else if c = '\r' then ['\\', 'r']
  else if c = '\t' then ['\\', 't']
  else if c.toNat < 0x20 then
    ['\\', 'u', '0', '0', Nat.digitChar (c.toNat / 16), Nat.digitChar (c.toNat % 16)]
  else [c]

def quote (text : String) : String :=
  "\"" ++ String.ofList (text.toList.flatMap escape) ++ "\""

def openBrace : String := "\x7b"

def closeBrace : String := "\x7d"

mutual

def compact : Json → String
  | .null => "null"
  | .bool value => if value then "true" else "false"
  | .int value => intText value
  | .float value => floatText value
  | .string text => quote text
  | .list items => "[" ++ compactItems "" items ++ "]"
  | .object members => openBrace ++ compactMembers "" members ++ closeBrace

def compactItems (lead : String) : List Json → String
  | [] => ""
  | item :: rest => lead ++ compact item ++ compactItems "," rest

def compactMembers (lead : String) : List (String × Json) → String
  | [] => ""
  | (key, value) :: rest =>
      lead ++ quote key ++ ":" ++ compact value ++ compactMembers "," rest

end

def newline (depth : Nat) : String := "\n" ++ String.ofList (List.replicate (2 * depth) ' ')

mutual

def prettyAt (depth : Nat) : Json → String
  | .null => "null"
  | .bool value => if value then "true" else "false"
  | .int value => intText value
  | .float value => floatText value
  | .string text => quote text
  | .list [] => "[]"
  | .list (item :: rest) =>
      "[" ++ newline (depth + 1) ++ prettyAt (depth + 1) item ++ prettyItems (depth + 1) rest ++
        newline depth ++ "]"
  | .object [] => openBrace ++ closeBrace
  | .object ((key, value) :: rest) =>
      openBrace ++ newline (depth + 1) ++ quote key ++ ": " ++ prettyAt (depth + 1) value ++
        prettyMembers (depth + 1) rest ++ newline depth ++ closeBrace

def prettyItems (depth : Nat) : List Json → String
  | [] => ""
  | item :: rest => "," ++ newline depth ++ prettyAt depth item ++ prettyItems depth rest

def prettyMembers (depth : Nat) : List (String × Json) → String
  | [] => ""
  | (key, value) :: rest =>
      "," ++ newline depth ++ quote key ++ ": " ++ prettyAt depth value ++
        prettyMembers depth rest

end

def pretty (value : Json) : String := prettyAt 0 value

-- The text in the layout asked for.
def render (indented : Bool) (value : Json) : String :=
  if indented then pretty value else compact value

end SearchPipeline.Json
