import NumericTower.NumericType.Basic
import NumericTower.Rational

/-!
# Numbers of fixed width

Naturals, integers and ratios that a fixed number of bits holds. A fixed ratio has a signed numerator and
an unsigned denominator of half its width each and is in lowest terms.
-/

namespace NumericTower

/-- A natural number of a fixed width. -/
structure FixedNat (w : IntegralWidth) where
  value : Nat
  value_lt : value < 2 ^ w.bits
  deriving DecidableEq

/-- An integer of a fixed width in two's complement. -/
structure FixedInt (w : IntegralWidth) where
  value : Int
  inSigned : Integer.InSigned w.bits value
  deriving DecidableEq

/-- The rationals whose parts a fixed width holds. -/
def FitsRatio (w : RatioWidth) (q : Rat) : Prop :=
  Integer.InSigned w.componentBits q.num ∧ q.den < 2 ^ w.componentBits

instance (w : RatioWidth) (q : Rat) : Decidable (FitsRatio w q) :=
  inferInstanceAs (Decidable (_ ∧ _))

/-- A ratio of a fixed width. -/
structure FixedRatio (w : RatioWidth) where
  value : Rat
  fits : FitsRatio w value
  deriving DecidableEq

/-- The natural of this width for an integer, if it is in range. -/
def FixedNat.ofInt? (w : IntegralWidth) (z : Int) : Option (FixedNat w) :=
  if h : Integer.InUnsigned w.bits z then
    some ⟨z.toNat, (Int.toNat_lt h.1).2 (by simpa using h.2)⟩
  else none

/-- The integer of this width for an integer, if it is in range. -/
def FixedInt.ofInt? (w : IntegralWidth) (z : Int) : Option (FixedInt w) :=
  if h : Integer.InSigned w.bits z then some ⟨z, h⟩ else none

namespace FixedRatio

/-- The ratio of this width for a rational, if both parts are in range. -/
def ofRat? (w : RatioWidth) (q : Rat) : Option (FixedRatio w) :=
  if h : FitsRatio w q then some ⟨q, h⟩ else none

/-- The ratio `n / d` of this width, reduced; none over zero. -/
def ofFraction? (w : RatioWidth) (n d : Int) : Option (FixedRatio w) :=
  (Rational.ofFraction? n d).bind (ofRat? w)

/-- The signed numerator. -/
def numerator {w : RatioWidth} (r : FixedRatio w) : Int := r.value.num

/-- The denominator. -/
def denominator {w : RatioWidth} (r : FixedRatio w) : Nat := r.value.den

end FixedRatio

end NumericTower
