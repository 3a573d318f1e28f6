import NumericTower.Number.Fixed
import NumericTower.Rational.Parts

/-!
# Fixed ratios by their parts

A fixed ratio as two bare numbers, each in the range of half the width. Nothing else is asked of them, so that
the denominator is not zero and that there is no common divisor is up to the operations that make one.
-/

namespace NumericTower

/-- A signed numerator and an unsigned denominator of half the width each. -/
structure FixedParts (w : RatioWidth) where
  numerator : Int
  denominator : Nat
  numerator_inSigned : Integer.InSigned w.componentBits numerator
  denominator_lt : denominator < 2 ^ w.componentBits
  deriving DecidableEq

namespace FixedParts

variable {w : RatioWidth}

/-- An exact fraction, if both parts are in range. -/
def ofExact? (w : RatioWidth) (x : Rational.Parts) : Option (FixedParts w) :=
  if h : Integer.InSigned w.componentBits x.numerator ∧ Integer.InUnsigned w.componentBits x.denominator then
    some ⟨x.numerator, x.denominator.toNat, h.1, (Int.toNat_lt h.2.1).2 (by simpa using h.2.2)⟩
  else none

/-- The ratio `n / d`, reduced; none over zero. -/
def ofFraction? (w : RatioWidth) (n : Int) (d : Nat) : Option (FixedParts w) :=
  (Rational.Parts.ofFraction? n d).bind (ofExact? w)

/-- The exact fraction, zero for a zero denominator. -/
def exact (x : FixedParts w) : Rational.Parts :=
  (Rational.Parts.ofFraction? x.numerator x.denominator).getD (.ofInt 0)

/-- The rational that the parts stand for. -/
def value (x : FixedParts w) : Rat :=
  (x.numerator : Rat) / (x.denominator : Rat)

end FixedParts

/-- The parts of a fixed ratio. -/
def FixedRatio.parts {w : RatioWidth} (r : FixedRatio w) : FixedParts w :=
  ⟨r.value.num, r.value.den, r.fits.1, r.fits.2⟩

end NumericTower
