import NumericTower.BigReal.Basic
import NumericTower.Decimal

/-!
# Decimal text of a real

A real is written out in decimal. A fraction is rounded to as many digits as the precision warrants, a
half going to the even neighbour; digits before the point are never rounded away.
-/

namespace NumericTower.BigReal

/-- The decimal digits that every real of this precision can hold apart: the whole part of
`(precision - 1) · log10 2`, at least one. -/
def displayDigits (precision : Nat) : Nat :=
  max ((precision - 1) * 30103 / 100000) 1

/-- The exact decimal fraction of the magnitude: `m · 2 ^ -k` is `m · 5 ^ k` over `10 ^ k`. -/
def exactDecimal (x : BigReal) : Decimal :=
  if 0 ≤ x.exponent then ⟨x.mantissa.natAbs * 2 ^ x.exponent.toNat, 0⟩
  else ⟨x.mantissa.natAbs * 5 ^ x.exponent.natAbs, x.exponent.natAbs⟩

/-- Rounds a decimal fraction to `limit` digits, as far as that takes only digits after the point. -/
def roundDecimal (d : Decimal) (limit : Nat) : Decimal :=
  -- Digits before the point are not counted among those that may go.
  let excess := min ((Numeral.toDigits 10 d.coefficient).length - limit) d.places
  ⟨nearestEven d.coefficient (10 ^ excess), d.places - excess⟩

/-- The text of a real. -/
def render (x : BigReal) : String :=
  (if x.isNegative then "-" else "") ++
    (roundDecimal x.exactDecimal (displayDigits x.precision)).render

end NumericTower.BigReal
