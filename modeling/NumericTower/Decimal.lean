import NumericTower.Numeral.Digit

/-!
# Decimal fractions

A natural number over a power of ten, and its positional form: at least one digit on each side of the
point, no other zero at the end of the fraction.
-/

namespace NumericTower

/-- The number `coefficient / 10 ^ places`. -/
structure Decimal where
  coefficient : Nat
  places : Nat
  deriving DecidableEq, Repr

namespace Decimal

/-- The exact value. -/
def toRat (d : Decimal) : Rat :=
  (d.coefficient : Rat) / (10 : Rat) ^ d.places

/-- The digits before and after the point, at least one before it. -/
def sides (d : Decimal) : List Nat × List Nat :=
  let ds := Numeral.toDigits 10 d.coefficient
  let padded := List.replicate (d.places + 1 - ds.length) 0 ++ ds
  padded.splitAt (padded.length - d.places)

/-- A list of digits without the zeros at its end. -/
def dropZerosAtEnd (ds : List Nat) : List Nat :=
  (ds.reverse.dropWhile (· == 0)).reverse

/-- The digits of the fraction as they are written: no zero at the end unless it is the only one. -/
def fraction (ds : List Nat) : List Nat :=
  match dropZerosAtEnd ds with
  | [] => [0]
  | ds => ds

/-- The positional form. -/
def render (d : Decimal) : String :=
  let (whole, rest) := d.sides
  String.ofList (whole.map Numeral.digitChar ++ '.' :: (fraction rest).map Numeral.digitChar)

end Decimal

end NumericTower
