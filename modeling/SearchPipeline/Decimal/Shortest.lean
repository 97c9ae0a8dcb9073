namespace SearchPipeline

-- A positive number `significand * 2 ^ exponent`.
structure Binary where
  significand : Nat
  exponent : Int
  -- The number below lies half as far away as the number above.
  lowerIsCloser : Bool

-- The magnitude of a finite double, given by its bits.
def Binary.ofBits (bits : UInt64) : Binary :=
  let leading : Nat := Nat.pow 2 52
  let fraction : Nat := bits.toNat % leading
  let scale : Nat := bits.toNat / leading % Nat.pow 2 11
  if scale = 0 then ⟨fraction, -1074, false⟩
  else ⟨fraction + leading, (scale : Int) - 1075, fraction = 0 ∧ scale > 1⟩

-- The positive decimal `digits * 10 ^ exponent`.
structure Decimal where
  digits : Nat
  exponent : Int
deriving DecidableEq, Repr

namespace Decimal

-- A quarter of the distance to the next number, as a fraction of natural numbers with the
-- power of ten `10 ^ grid` taken out: the number is `4 * significand` such quarters.
structure Scaled where
  quarter : Nat
  unit : Nat

def Scaled.of (exponent grid : Int) : Scaled :=
  { quarter := Nat.pow 2 exponent.toNat * Nat.pow 10 (-grid).toNat
    unit := 4 * Nat.pow 2 (-exponent).toNat * Nat.pow 10 grid.toNat }

-- Whether a point of the grid reads back as the number. The interval of the reals that round
-- to it contains its ends exactly when the significand is even.
def readsBack (number : Binary) (scaled : Scaled) (point : Nat) : Bool :=
  let low := (4 * number.significand - (if number.lowerIsCloser then 1 else 2)) * scaled.quarter
  let high := (4 * number.significand + 2) * scaled.quarter
  let here := point * scaled.unit
  if number.significand % 2 = 0 then low ≤ here && here ≤ high else low < here && here < high

-- The point of a grid that reads back and is nearest, of two equally near the even one.
def onGrid? (number : Binary) (grid : Int) : Option Nat :=
  let scaled := Scaled.of number.exponent grid
  let value := 4 * number.significand * scaled.quarter
  let below := value / scaled.unit
  let toBelow := value - below * scaled.unit
  let toAbove := (below + 1) * scaled.unit - value
  let belowFirst := toBelow < toAbove || toBelow == toAbove && below % 2 == 0
  let order := if belowFirst then [below, below + 1] else [below + 1, below]
  order.find? fun point => point > 0 && readsBack number scaled point

-- The first grid that has such a point, going down from `top` through `fuel` powers of ten.
def firstGrid (number : Binary) : Nat → Int → Decimal
  | 0, grid => ⟨(onGrid? number grid).getD 0, grid⟩
  | fuel + 1, grid =>
      match onGrid? number grid with
      | some point => ⟨point, grid⟩
      | none => firstGrid number fuel (grid - 1)

-- No double lies as high as `10 ^ 310`, and every double has a point of its own on the grid
-- of `10 ^ (-342)`.
def shortest (number : Binary) : Decimal :=
  if number.significand = 0 then ⟨0, 0⟩
  else
    let size := (number.significand.log2 : Int) + number.exponent
    let top := size * 30103 / 100000 + 2
    firstGrid number 40 top

end Decimal

end SearchPipeline
