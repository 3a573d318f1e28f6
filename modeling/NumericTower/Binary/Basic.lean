import NumericTower.BigReal.Basic

/-!
# Binary floats

The floats of a binary interchange format. The non-negative finite floats of a format, in ascending
order, are numbered by their *rank*: zero has rank 0, the least subnormal rank 1, and so on through all
binades. The rank is also the bit pattern without its sign, the least bit of the rank is the least bit
of the significand, and the rank that follows the greatest finite one stands for infinity. Rounding
therefore is: find the rank.
-/

namespace NumericTower

/-- A binary interchange format: significant bits, the hidden one included, and bits of the exponent. -/
structure FloatFormat where
  precision : Nat
  exponentBits : Nat
  two_le_precision : 2 ≤ precision := by decide
  two_le_exponentBits : 2 ≤ exponentBits := by decide
  deriving DecidableEq

namespace FloatFormat

/-- The format of 32 bits. -/
def single : FloatFormat := { precision := 24, exponentBits := 8 }

/-- The format of 64 bits. -/
def double : FloatFormat := { precision := 53, exponentBits := 11 }

/-- Bits of a float, its sign included. -/
def width (f : FloatFormat) : Nat :=
  f.precision + f.exponentBits

/-- The exponent of the least subnormal. -/
def leastExponent (f : FloatFormat) : Int :=
  3 - 2 ^ (f.exponentBits - 1) - f.precision

/-- The ranks of one binade: the significands with the leading bit set. -/
def binade (f : FloatFormat) : Nat :=
  2 ^ (f.precision - 1)

/-- The number of non-negative finite floats, which is the rank of infinity. -/
def finiteCount (f : FloatFormat) : Nat :=
  (2 ^ f.exponentBits - 1) * f.binade

/-- How many binades a rank lies above the subnormal one. The first normal binade has the exponent of
the subnormal one. -/
def shiftOf (f : FloatFormat) (rank : Nat) : Nat :=
  rank / f.binade - 1

/-- The integer significand of a rank. -/
def significandOf (f : FloatFormat) (rank : Nat) : Nat :=
  rank - f.shiftOf rank * f.binade

/-- The exponent of the least bit of the significand of a rank. -/
def exponentOf (f : FloatFormat) (rank : Nat) : Int :=
  f.leastExponent + f.shiftOf rank

/-- The exponent at which a positive value of the given binary order of magnitude is rounded: all
leading bits are kept, and nothing below the least subnormal. -/
def roundingExponent (f : FloatFormat) (magnitude : Int) : Int :=
  max (magnitude + 1 - f.precision) f.leastExponent

/-- The rank nearest to `num / den · 2 ^ e`, a half going to the even neighbour. A value of less than
half the least subnormal is zero without being scaled first. A significand that rounds up to the next
power of two is the first one of the next binade, and the rank says so. -/
def rankOf (f : FloatFormat) (num den : Nat) (e : Int) : Nat :=
  let magnitude := floorLog2 num den + e
  if num = 0 ∨ magnitude + 1 < f.leastExponent then 0
  else
    -- Each step of the rounding exponent skips one binade of ranks.
    let t := f.roundingExponent magnitude
    (t - f.leastExponent).toNat * f.binade + roundAt num den (t - e)

end FloatFormat

/-- A float of a format. All that is no number is one value. -/
inductive BinaryFloat (f : FloatFormat) where
  | nan
  | infinity (negative : Bool)
  | finite (negative : Bool) (rank : Nat) (rank_lt : rank < f.finiteCount)
  deriving DecidableEq

/-- A float of 32 bits. -/
abbrev Float32Bits := BinaryFloat .single

/-- A float of 64 bits. -/
abbrev Float64Bits := BinaryFloat .double

namespace BinaryFloat

variable {f : FloatFormat}

/-- The float of a sign and a rank; every rank from that of infinity on is infinity. -/
def ofRank (negative : Bool) (rank : Nat) : BinaryFloat f :=
  if h : rank < f.finiteCount then .finite negative rank h else .infinity negative

/-- Zero with a sign. -/
def zero (negative : Bool) : BinaryFloat f :=
  ofRank negative 0

/-- The float nearest to `± num / den · 2 ^ e`. -/
def ofQuotient (negative : Bool) (num den : Nat) (e : Int) : BinaryFloat f :=
  ofRank negative (f.rankOf num den e)

/-- The float nearest to `± n · 2 ^ e`. -/
def ofMagnitude (negative : Bool) (n : Nat) (e : Int) : BinaryFloat f :=
  ofQuotient negative n 1 e

/-- The float nearest to an integer. -/
def ofInt (z : Int) : BinaryFloat f :=
  ofMagnitude (decide (z < 0)) z.natAbs 0

/-- Reads a bit pattern. -/
def ofBits (n : Nat) : BinaryFloat f :=
  let sign := 2 ^ (f.width - 1)
  let negative := n / sign % 2 == 1
  let rank := n % sign
  -- What lies above the pattern of infinity is no number.
  if rank ≤ f.finiteCount then ofRank negative rank else .nan

/-- The bit pattern; that of a quiet NaN for all that is no number. -/
def toBits : BinaryFloat f → Nat
  | .nan => f.finiteCount + 2 ^ (f.precision - 2)
  | .infinity negative => (if negative then 2 ^ (f.width - 1) else 0) + f.finiteCount
  | .finite negative rank _ => (if negative then 2 ^ (f.width - 1) else 0) + rank

/-- Whether the float is a number and not infinite. -/
def isFinite : BinaryFloat f → Bool
  | .finite .. => true
  | _ => false

/-- Whether the float is one of the two zeros. -/
def isZero : BinaryFloat f → Bool
  | .finite _ rank _ => rank == 0
  | _ => false

/-- The exact value of a finite float. -/
def toDyadic? : BinaryFloat f → Option Dyadic
  | .finite negative rank _ =>
    some (Dyadic.ofIntWithPrec (Numeral.signed negative (f.significandOf rank)) (-f.exponentOf rank))
  | _ => none

/-- The exact value of a finite float as a rational. -/
def toRat? (x : BinaryFloat f) : Option Rat :=
  x.toDyadic?.map Dyadic.toRat

/-- The place of a float in the order of all numbers of the format; both zeros have the place 0. -/
def position? : BinaryFloat f → Option Int
  | .nan => none
  | .infinity negative => some (Numeral.signed negative f.finiteCount)
  | .finite negative rank _ => some (Numeral.signed negative rank)

/-- The order of two floats; none if either is no number. -/
def compare? (x y : BinaryFloat f) : Option Ordering :=
  match x.position?, y.position? with
  | some a, some b => some (Ord.compare a b)
  | _, _ => none

/-- Equality of numbers: the two zeros are equal, and what is no number equals nothing. -/
def sameNumber (x y : BinaryFloat f) : Bool :=
  compare? x y == some .eq

/-- The nearest float of another format. -/
def convert {g : FloatFormat} : BinaryFloat f → BinaryFloat g
  | .nan => .nan
  | .infinity negative => .infinity negative
  | .finite negative rank _ => ofMagnitude negative (f.significandOf rank) (f.exponentOf rank)

end BinaryFloat

namespace BigReal

/-- The nearest float; zero is positive zero. -/
def toFloat (f : FloatFormat) (x : BigReal) : BinaryFloat f :=
  .ofMagnitude x.isNegative x.mantissa.natAbs x.exponent

/-- The least precision of a real made from a float other than zero: that of the wider format. -/
def leastFloatPrecision : Nat := FloatFormat.double.precision

/-- The exact real of a finite float. A float other than zero gets at least the precision of the wider
format. -/
def ofFloat? {f : FloatFormat} (x : BinaryFloat f) (p : Nat) : Option BigReal :=
  x.toDyadic?.map fun d => if d = 0 then zero p else round d (max p leastFloatPrecision)

/-- The exact real of a float, or the error that the float is not finite. -/
def ofFloat {f : FloatFormat} (x : BinaryFloat f) (p : Nat) : Except NumeralError BigReal :=
  match ofFloat? x p with
  | some r => .ok r
  | none => .error .nonFinite

/-- Whether the value is that of a finite float of the format. -/
def isFloat (f : FloatFormat) (x : BigReal) : Bool :=
  (x.toFloat f).toDyadic? == some x.value

end BigReal

namespace Rational

/-- The float of 64 bits for a rational: the value is rounded to 53 significant bits first, and that real
is then made a float. -/
def toFloat64 (q : Rat) : Float64Bits :=
  (BigReal.ofRat q FloatFormat.double.precision).toFloat .double

/-- The float of 32 bits for a rational, by way of a real of 24 significant bits. -/
def toFloat32 (q : Rat) : Float32Bits :=
  (BigReal.ofRat q FloatFormat.single.precision).toFloat .single

end Rational

end NumericTower
