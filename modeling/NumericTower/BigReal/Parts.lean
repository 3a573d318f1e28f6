import NumericTower.BigReal.Literal
import NumericTower.Binary.Basic
import NumericTower.Rational.Parts

/-!
# Binary reals by their parts

The arithmetic of reals on a bare mantissa, exponent and precision: how operands are aligned, where bits are
dropped and when the zeros at the end of a mantissa are shifted out. Nothing is asked of the parts, so a
mantissa need not be odd, nor within the precision, unless the operation that made it sees to that.
-/

namespace NumericTower.BigReal

/-- A real by its parts: `mantissa · 2 ^ exponent` at a precision. -/
structure Parts where
  mantissa : Int
  exponent : Int
  precision : Nat
  deriving DecidableEq, Repr

/-- The parts of a real. -/
def parts (x : BigReal) : Parts :=
  ⟨x.mantissa, x.exponent, x.precision⟩

/-- The exact value that is read from a literal, as a fraction in lowest terms; none over zero. -/
def Literal.toFraction? (l : Literal) : Option Rational.Parts :=
  let digits := Numeral.ofDigits l.radix (l.whole ++ l.fraction)
  let unit := l.radix ^ l.places
  if 0 ≤ l.exponent then
    Rational.Parts.ofFraction? (Numeral.signed l.negative (digits * 10 ^ l.exponent.toNat)) unit
  else
    Rational.Parts.ofFraction? (Numeral.signed l.negative digits)
      (unit * 10 ^ l.exponent.natAbs : Nat)

namespace Parts

/-- Zero. -/
def zero (p : Nat) : Parts :=
  ⟨0, 0, effectivePrecision p⟩

/-- The value `± n · 2 ^ e` with the zeros at the end of `n` shifted out. -/
def normalized (negative : Bool) (n : Nat) (e : Int) (p : Nat) : Parts :=
  if n = 0 then zero p
  else
    let shift := Int.trailingZeros n
    ⟨Numeral.signed negative (n >>> shift), e + shift, p⟩

/-- The value `± n · 2 ^ e` rounded to `p` bits; `sticky` says that bits other than zero are cut off
below `n`. -/
def rounded (negative : Bool) (n : Nat) (e : Int) (sticky : Bool) (p : Nat) : Parts :=
  let p := effectivePrecision p
  let drop := bitLength n - p
  -- A carry can make the mantissa a power of two of one bit more, so the zeros go last.
  normalized negative (roundBits n drop sticky) (e + drop) p

/-- The value `m · 2 ^ e` rounded to `p` bits. -/
def ofScaled (m : Int) (e : Int) (p : Nat) : Parts :=
  rounded (decide (m < 0)) m.natAbs e false p

/-- The value `± num / den · 2 ^ e` rounded to `p` bits; the denominator is not zero. -/
def ofQuotient (negative : Bool) (num den : Nat) (e : Int) (p : Nat) : Parts :=
  if num = 0 then zero p
  else
    let shift := quotientShift num den p
    let n := num * 2 ^ shift.toNat
    let d := den * 2 ^ (-shift).toNat
    rounded negative (n / d) (e - shift) (n % d != 0) p

/-- An integer rounded to `p` bits. -/
def ofInt (z : Int) (p : Nat) : Parts :=
  ofScaled z 0 p

/-- A fraction rounded to `p` bits. -/
def ofFraction (q : Rational.Parts) (p : Nat) : Parts :=
  ofQuotient (decide (q.numerator < 0)) q.numerator.natAbs q.denominator.natAbs 0 p

/-- The exact real of a finite float. -/
def ofFloat? {f : FloatFormat} (x : BinaryFloat f) (p : Nat) : Option Parts :=
  match x with
  | .finite negative rank _ =>
    if rank = 0 then some (zero p)
    else some (rounded negative (f.significandOf rank) (f.exponentOf rank) false
      (max p leastFloatPrecision))
  | _ => none

/-- Reads a real literal and rounds its value to `p` bits. -/
def parse (radix : Nat) (cs : List Char) (p : Nat) : Except NumeralError Parts := do
  match (← readLiteral radix cs).toFraction? with
  | some q => return ofFraction q p
  | none => throw .zeroDenominator

/-- The exact value as a fraction. -/
def toFraction (x : Parts) : Rational.Parts :=
  if 0 ≤ x.exponent then .ofInt (x.mantissa <<< x.exponent.toNat)
  else (Rational.Parts.ofFraction? x.mantissa (1 <<< x.exponent.natAbs)).getD (.ofInt 0)

/-- Whether the value is zero. -/
def isZero (x : Parts) : Bool :=
  x.mantissa == 0

/-- Whether the value is below zero. -/
def isNegative (x : Parts) : Bool :=
  x.mantissa < 0

/-- The value rounded to another precision. -/
def withPrecision (x : Parts) (p : Nat) : Parts :=
  rounded x.isNegative x.mantissa.natAbs x.exponent false p

/-- The magnitude. -/
def abs (x : Parts) : Parts :=
  { x with mantissa := x.mantissa.natAbs }

/-- The negated value. -/
def neg (x : Parts) : Parts :=
  { x with mantissa := -x.mantissa }

/-- The lesser exponent of two reals, and their mantissas for it. -/
def aligned (x y : Parts) : Int × Int × Int :=
  let e := min x.exponent y.exponent
  (x.mantissa <<< (x.exponent - e).toNat, y.mantissa <<< (y.exponent - e).toNat, e)

/-- The sum, rounded once. -/
def add (x y : Parts) : Parts :=
  let (a, b, e) := aligned x y
  ofScaled (a + b) e (max x.precision y.precision)

/-- The difference, rounded once. -/
def sub (x y : Parts) : Parts :=
  let (a, b, e) := aligned x y
  ofScaled (a - b) e (max x.precision y.precision)

/-- The product, rounded once. -/
def mul (x y : Parts) : Parts :=
  ofScaled (x.mantissa * y.mantissa) (x.exponent + y.exponent) (max x.precision y.precision)

/-- The quotient, rounded once; none by zero. -/
def divide? (x y : Parts) : Option Parts :=
  if y.isZero then none
  else some (ofQuotient (x.isNegative != y.isNegative) x.mantissa.natAbs y.mantissa.natAbs
    (x.exponent - y.exponent) (max x.precision y.precision))

/-- `acc · base ^ n` by repeated squaring, each product rounded. -/
def powerLoop (acc base : Parts) (n : Nat) : Parts :=
  if _h : n = 0 then acc
  else
    let acc' := if n % 2 = 1 then mul acc base else acc
    if n / 2 = 0 then acc' else powerLoop acc' (mul base base) (n / 2)
termination_by n
decreasing_by omega

/-- The whole power, each product rounded to the precision of the base; none for a negative power of
zero. -/
def power? (x : Parts) (e : Int) : Option Parts :=
  let r := powerLoop (ofInt 1 x.precision) x e.natAbs
  if e < 0 then divide? (ofInt 1 x.precision) r else some r

/-- The order of the aligned mantissas. -/
def compare (x y : Parts) : Ordering :=
  let (a, b, _) := aligned x y
  Ord.compare a b

/-- Whether mantissas and exponents are equal. -/
def same (x y : Parts) : Bool :=
  x.mantissa == y.mantissa && x.exponent == y.exponent

end Parts

end NumericTower.BigReal
