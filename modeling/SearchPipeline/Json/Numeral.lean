import SearchPipeline.Json.Value

namespace SearchPipeline.Json

-- `-12.5e-3` has the whole digits 1 and 2, the fraction digit 5, and the exponent digit 3
-- below zero.
structure Numeral where
  negative : Bool
  whole : List Nat
  fraction : Option (List Nat)
  exponent : Option (Bool × List Nat)
deriving DecidableEq, Repr

namespace Numeral

-- The largest word of 64 bits, and where the words with a sign end.
def wordLimit : Nat := Nat.pow 2 64 - 1

def signLimit : Nat := Nat.pow 2 63

def exponentLimit : Nat := Nat.pow 2 31 - 1

-- Reads digits into a significand as long as it fits a word. Gives back how many digits were
-- read and how many were left.
def gather (significand : Nat) : List Nat → Nat × Nat × Nat
  | [] => (significand, 0, 0)
  | digit :: rest =>
      if significand * 10 + digit > wordLimit then (significand, 0, rest.length + 1)
      else
        let (final, read, left) := gather (significand * 10 + digit) rest
        (final, read + 1, left)

-- Digits of an exponent, or nothing when they do not fit.
def exponentValue? (digits : List Nat) : Option Nat :=
  digits.foldlM (fun value digit =>
    if value * 10 + digit > exponentLimit then none else some (value * 10 + digit)) 0

def clampExponent (value : Int) : Int :=
  max (-(exponentLimit : Int) - 1) (min (exponentLimit : Int) value)

def tenPower (exponent : Nat) : Float := Float.ofScientific 1 false exponent

-- Scales down in steps of the largest power of ten there is.
def scaleDown (value : Float) : Nat → Nat → Float
  | 0, _ => value
  | fuel + 1, exponent =>
      if exponent ≤ 308 then value / tenPower exponent
      else if value == 0 then value
      else scaleDown (value / tenPower 308) fuel (exponent - 308)

-- `significand * 10 ^ exponent`, or nothing when it is too large for a double.
def scale? (significand : Nat) (exponent : Int) : Option Float :=
  let value := significand.toUInt64.toFloat
  if exponent < 0 then
    some (scaleDown value ((-exponent).toNat / 308 + 1) (-exponent).toNat)
  else if exponent ≤ 308 then
    let product := value * tenPower exponent.toNat
    if product.isInf then none else some product
  else if value == 0 then some value
  else none

def signed (negative : Bool) (value : Float) : Float := if negative then -value else value

-- The magnitude as a floating-point number. Digits that do not fit the significand count only
-- as powers of ten before the point, and not at all behind it.
def magnitude? (numeral : Numeral) : Option Float :=
  let (whole, _, dropped) := gather 0 numeral.whole
  let (significand, read, _) := gather whole (numeral.fraction.getD [])
  let start : Int := (dropped : Int) - (read : Int)
  match numeral.exponent with
  | none => scale? significand start
  | some (below, digits) =>
    match exponentValue? digits with
    | some value =>
        scale? significand (clampExponent (if below then start - value else start + value))
    | none => if significand ≠ 0 ∧ ¬below then none else some 0.0

-- The whole number of a numeral that spells one.
def wholeValue? (numeral : Numeral) : Option Int :=
  if numeral.fraction.isSome ∨ numeral.exponent.isSome then none
  else
    let (value, _, dropped) := gather 0 numeral.whole
    if dropped > 0 then none
    else if !numeral.negative then some value
    else if 0 < value ∧ value ≤ signLimit then some (-value)
    else none

-- Whole without fraction and exponent if it fits 64 bits; else a float, computed from at most 64
-- bits of the digits and one power of ten.
def value? (numeral : Numeral) : Option Json :=
  match numeral.wholeValue? with
  | some value => some (.int value)
  | none => numeral.magnitude?.map fun value => .float (signed numeral.negative value)

end Numeral

end SearchPipeline.Json
