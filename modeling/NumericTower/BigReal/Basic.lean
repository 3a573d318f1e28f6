import NumericTower.Rational
import NumericTower.Rounding

/-!
# Binary reals of any precision

A real is a dyadic rational together with a precision in significant bits. Every operation computes
exactly and rounds the result once to nearest, a half going to the even neighbour, at the greatest
precision of its operands. Two reals are the same number exactly when their dyadic values are equal,
whatever their precisions.
-/

namespace NumericTower

/-- The significant bits of a dyadic rational; none for zero. -/
def significantBits : Dyadic → Nat
  | .zero => 0
  | .ofOdd n _ _ => bitLength n.natAbs

/-- A dyadic rational with the number of significant bits it may have. -/
structure BigReal where
  /-- The exact value. -/
  value : Dyadic
  /-- The most significant bits that the value may have. -/
  precision : Nat
  two_le_precision : 2 ≤ precision
  significantBits_le : significantBits value ≤ precision

namespace BigReal

/-- The precision of reals for which none is asked. -/
def defaultPrecision : Nat := 256

/-- The least precision that a real can have. -/
def leastPrecision : Nat := 2

/-- The precision that a request for `p` bits gets. -/
def effectivePrecision (p : Nat) : Nat :=
  max p leastPrecision

private theorem natAbs_shiftRight_le (m : Int) (k : Nat) : (m >>> k).natAbs ≤ m.natAbs := by
  rw [Int.shiftRight_eq_div_pow]
  exact Int.natAbs_ediv_le_natAbs m _

/-- Writing an integer of magnitude at most `2 ^ p` over a power of two takes at most `p` significant
bits: only `2 ^ p` itself has one bit more, and it is a power of two. -/
theorem significantBits_ofIntWithPrec_le {m k : Int} {p : Nat} (hp : 0 < p)
    (h : m.natAbs ≤ 2 ^ p) : significantBits (Dyadic.ofIntWithPrec m k) ≤ p := by
  unfold Dyadic.ofIntWithPrec
  split
  · simp only [significantBits]
    omega
  · rename_i hm
    simp only [significantBits, bitLength_le_iff]
    have hle := Nat.le_trans (natAbs_shiftRight_le m m.trailingZeros) h
    have hodd : (m >>> m.trailingZeros) % 2 = 1 := Int.shiftRight_trailingZeros_mod_two hm
    -- What is left after the shift is odd, so it is not `2 ^ p` itself.
    have heven : (2 : Nat) ^ p % 2 = 0 := by
      obtain ⟨q, rfl⟩ : ∃ q, p = q + 1 := ⟨p - 1, by omega⟩
      omega
    omega

/-- The real of value `m · 2 ^ e` when the magnitude of `m` is at most `2 ^ p`. -/
def ofScaled (m : Int) (e : Int) (p : Nat) (h : m.natAbs ≤ 2 ^ effectivePrecision p) : BigReal where
  value := Dyadic.ofIntWithPrec m (-e)
  precision := effectivePrecision p
  two_le_precision := Nat.le_max_right _ _
  significantBits_le :=
    significantBits_ofIntWithPrec_le (Nat.lt_of_lt_of_le (by decide) (Nat.le_max_right p 2)) h

/-- Zero. -/
def zero (p : Nat) : BigReal :=
  ofScaled 0 0 p (by simp)

theorem natAbs_signed (negative : Bool) (n : Nat) :
    (Numeral.signed negative n).natAbs = n := by
  cases negative <;> simp [Numeral.signed]

/-- How many of the low bits of an integer of magnitude `n` do not fit into `p` bits. -/
def excessBits (n p : Nat) : Nat :=
  bitLength n - effectivePrecision p

theorem roundBits_excess_le (n p : Nat) (sticky : Bool) :
    roundBits n (excessBits n p) sticky ≤ 2 ^ effectivePrecision p := by
  apply roundBits_le
  exact Nat.lt_of_lt_of_le (lt_two_pow_bitLength n)
    (Nat.pow_le_pow_right (by omega) (by unfold excessBits; omega))

/-- The value `± n · 2 ^ e` rounded to `p` bits; `sticky` says that bits other than zero are cut off
below `n`. -/
def rounded (negative : Bool) (n : Nat) (e : Int) (sticky : Bool) (p : Nat) : BigReal :=
  ofScaled (Numeral.signed negative (roundBits n (excessBits n p) sticky)) (e + excessBits n p) p
    (by rw [natAbs_signed]; exact roundBits_excess_le n p sticky)

/-- The value `± n · 2 ^ e` rounded to `p` bits. -/
def ofMagnitude (negative : Bool) (n : Nat) (e : Int) (p : Nat) : BigReal :=
  rounded negative n e false p

/-- The bits that a quotient is computed to beyond its precision. -/
def guardBits : Nat := 2

/-- How far the numerator of a quotient is shifted, so that the whole part of the quotient has the bits of
the precision and the guard bits. -/
def quotientShift (num den p : Nat) : Int :=
  (effectivePrecision p + guardBits : Nat) - ((bitLength num : Int) - bitLength den)

/-- The value `± num / den · 2 ^ e` rounded to `p` bits; the denominator is not zero. -/
def ofQuotient (negative : Bool) (num den : Nat) (e : Int) (p : Nat) : BigReal :=
  if num = 0 then zero p
  else
    let shift := quotientShift num den p
    let n := num * 2 ^ shift.toNat
    let d := den * 2 ^ (-shift).toNat
    -- The remainder only matters as being there or not.
    rounded negative (n / d) (e - shift) (n % d != 0) p

/-- The odd integer `m` of the value `m · 2 ^ e`; zero for zero. -/
def mantissa (x : BigReal) : Int :=
  match x.value with
  | .zero => 0
  | .ofOdd n _ _ => n

/-- The exponent `e` of the value `m · 2 ^ e`; zero for zero. -/
def exponent (x : BigReal) : Int :=
  match x.value with
  | .zero => 0
  | .ofOdd _ k _ => -k

/-- Whether the value is below zero. -/
def isNegative (x : BigReal) : Bool :=
  x.mantissa < 0

/-- Whether the value is zero. -/
def isZero (x : BigReal) : Bool :=
  x.mantissa == 0

/-- Whether the value is a whole number. -/
def isInteger (x : BigReal) : Bool :=
  0 ≤ x.exponent

/-- The significant bits of the value. -/
def numBits (x : BigReal) : Nat :=
  significantBits x.value

/-- The magnitude of the binary order of magnitude; zero for zero. -/
def scaleBits (x : BigReal) : Nat :=
  if x.isZero then 0 else (x.exponent + x.numBits - 1).natAbs

/-- The exact value as a rational. -/
def toRat (x : BigReal) : Rat :=
  x.value.toRat

/-- A dyadic rational rounded to `p` bits. -/
def round (d : Dyadic) (p : Nat) : BigReal :=
  match d with
  | .zero => zero p
  | .ofOdd n k _ => ofMagnitude (decide (n < 0)) n.natAbs (-k) p

/-- An integer rounded to `p` bits. -/
def ofInt (z : Int) (p : Nat) : BigReal :=
  ofMagnitude (decide (z < 0)) z.natAbs 0 p

/-- A rational rounded to `p` bits. -/
def ofRat (q : Rat) (p : Nat) : BigReal :=
  ofQuotient (decide (q < 0)) q.num.natAbs q.den 0 p

/-- The value rounded to another precision. -/
def withPrecision (x : BigReal) (p : Nat) : BigReal :=
  round x.value p

theorem significantBits_neg (d : Dyadic) : significantBits (-d) = significantBits d := by
  cases d with
  | zero => rfl
  | ofOdd n k h =>
    show bitLength (-n).natAbs = bitLength n.natAbs
    rw [Int.natAbs_neg]

/-- The negated value. -/
def neg (x : BigReal) : BigReal where
  value := -x.value
  precision := x.precision
  two_le_precision := x.two_le_precision
  significantBits_le := by rw [significantBits_neg]; exact x.significantBits_le

/-- The magnitude. -/
def abs (x : BigReal) : BigReal :=
  if x.isNegative then x.neg else x

/-- The precision of a result of two operands. -/
def jointPrecision (x y : BigReal) : Nat :=
  max x.precision y.precision

/-- The sum, rounded once. -/
def add (x y : BigReal) : BigReal :=
  round (x.value + y.value) (jointPrecision x y)

/-- The difference, rounded once. -/
def sub (x y : BigReal) : BigReal :=
  round (x.value - y.value) (jointPrecision x y)

/-- The product, rounded once. -/
def mul (x y : BigReal) : BigReal :=
  round (x.value * y.value) (jointPrecision x y)

/-- The quotient, rounded once; none by zero. -/
def divide? (x y : BigReal) : Option BigReal :=
  if y.isZero then none
  else some (ofQuotient (x.isNegative != y.isNegative) x.mantissa.natAbs y.mantissa.natAbs
    (x.exponent - y.exponent) (jointPrecision x y))

/-- One, at precision `p`. -/
def one (p : Nat) : BigReal :=
  ofInt 1 p

/-- `acc · base ^ n` by repeated squaring, each product rounded. -/
def powerLoop (acc base : BigReal) (n : Nat) : BigReal :=
  if _h : n = 0 then acc
  else
    let acc' := if n % 2 = 1 then mul acc base else acc
    if n / 2 = 0 then acc' else powerLoop acc' (mul base base) (n / 2)
termination_by n
decreasing_by omega

/-- The whole power, each product rounded to the precision of the base; none for a negative power of
zero. -/
def power? (x : BigReal) (e : Int) : Option BigReal :=
  let r := powerLoop (one x.precision) x e.natAbs
  if e < 0 then divide? (one x.precision) r else some r

/-- The order of the exact values. -/
def compare (x y : BigReal) : Ordering :=
  if x.value < y.value then .lt else if x.value = y.value then .eq else .gt

/-- Whether the exact values are equal. -/
def sameValue (x y : BigReal) : Bool :=
  x.value = y.value

end BigReal

end NumericTower
