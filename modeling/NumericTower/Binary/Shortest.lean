import NumericTower.Binary.Basic
import NumericTower.Decimal

/-!
# Shortest decimal text of a float

The text of a float has the fewest digits that read back as the same float. It is positional for
magnitudes from `10 ^ -4` up to `10 ^ 16` and has an exponent otherwise.
-/

namespace NumericTower

/-- The number `coefficient · 10 ^ exponent`. -/
structure Scientific where
  coefficient : Nat
  exponent : Int
  deriving DecidableEq, Repr

namespace Scientific

/-- The digits without the zeros at the end, which the exponent takes over. -/
def digits (d : Scientific) : List Nat :=
  Decimal.dropZerosAtEnd (Numeral.toDigits 10 d.coefficient)

/-- The exponent when the point stands behind the first digit. -/
def order (d : Scientific) : Int :=
  d.exponent + (Numeral.toDigits 10 d.coefficient).length - 1

/-- One digit, the fraction if there is more, and the exponent. -/
def renderExponential (d : Scientific) : String :=
  let mantissa := match d.digits.map Numeral.digitChar with
    | [] => ['0']
    | [c] => [c]
    | c :: cs => c :: '.' :: cs
  String.ofList mantissa ++ "e" ++ Integer.decimal d.order

/-- The positional form. -/
def renderPositional (d : Scientific) : String :=
  (Decimal.mk (d.coefficient * 10 ^ d.exponent.toNat) (-d.exponent).toNat).render

/-- The orders that are written positionally. -/
def isPositional (order : Int) : Bool :=
  -4 ≤ order && order < 16

/-- The text of the number. -/
def render (d : Scientific) : String :=
  if isPositional d.order then d.renderPositional else d.renderExponential

end Scientific

/-- The power of ten with a whole exponent. -/
def tenPow (e : Int) : Rat :=
  if 0 ≤ e then (10 : Rat) ^ e.toNat else ((10 : Rat) ^ e.natAbs)⁻¹

/-- The decimal order of magnitude of a positive rational: the greatest `k` for which `10 ^ k` does not
exceed it. -/
def floorLog10 (q : Rat) : Int :=
  if 1 ≤ q then ((Numeral.toDigits 10 q.floor.toNat).length : Int) - 1
  else -((Numeral.toDigits 10 (q⁻¹.ceil.toNat - 1)).length : Int)

namespace FloatFormat

/-- The value of a rank. The rank of infinity has the value at which the next binade would start. -/
def rankValue (f : FloatFormat) (rank : Nat) : Rat :=
  (Dyadic.ofIntWithPrec (f.significandOf rank) (-f.exponentOf rank)).toRat

/-- Whether a positive rational reads as the float of the rank: it lies between the midpoints to the two
neighbours, and a midpoint goes to the even rank. -/
def readsAs (f : FloatFormat) (rank : Nat) (q : Rat) : Bool :=
  let below := (f.rankValue (rank - 1) + f.rankValue rank) / 2
  let above := (f.rankValue rank + f.rankValue (rank + 1)) / 2
  if rank % 2 = 0 then below ≤ q && q ≤ above else below < q && q < above

/-- The decimal of at most `digits` digits next to the float that reads back: the nearer of its two
neighbours on the grid, the greater one of two equally near. -/
def nearestWithDigits? (f : FloatFormat) (rank digits : Nat) : Option Scientific :=
  let value := f.rankValue rank
  let exponent := floorLog10 value + 1 - digits
  -- On the grid of this many digits the value lies between `low` and `low + 1`.
  let scaled := value / tenPow exponent
  let low := scaled.floor.toNat
  let reads (n : Nat) : Bool := f.readsAs rank (n * tenPow exponent)
  match reads low, reads (low + 1) with
  | true, true => some ⟨if 1 ≤ 2 * (scaled - low) then low + 1 else low, exponent⟩
  | true, false => some ⟨low, exponent⟩
  | false, true => some ⟨low + 1, exponent⟩
  | false, false => none

/-- The shortest decimal that reads back as the positive float of the rank. As many digits as the format
has bits are always enough. -/
def shortest (f : FloatFormat) (rank : Nat) : Scientific :=
  ((List.range f.precision).findSome? fun n => f.nearestWithDigits? rank (n + 1)).getD ⟨0, 0⟩

end FloatFormat

/-- The text of a float. -/
def BinaryFloat.render {f : FloatFormat} : BinaryFloat f → String
  | .nan => "NaN"
  | .infinity negative => if negative then "-inf" else "inf"
  | .finite negative rank _ =>
    (if negative then "-" else "") ++
      if rank = 0 then "0.0" else (f.shortest rank).render

end NumericTower
