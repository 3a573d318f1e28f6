import NumericTower.BigReal.Parts

/-!
# Exponents of 64 bits

An exponent is stored in 64 bits, and every step of the arithmetic computes one. These are the operations on the
parts of reals once more, without a result as soon as an exponent does not fit. Main statement elsewhere: where
all of them fit, the result is that of the operations whose exponents are of any size.
-/

namespace NumericTower.BigReal.Checked

/-- An exponent that is computed; none if it does not fit into 64 bits. -/
def exponent? (e : Int) : Option Int :=
  if Integer.InSigned 64 e then some e else none

/-- The value `± n · 2 ^ e` with the zeros at the end of `n` shifted out. -/
def normalized (negative : Bool) (n : Nat) (e : Int) (p : Nat) : Option Parts :=
  if n = 0 then some (.zero p)
  else do
    let shift := Int.trailingZeros n
    let e ← exponent? (e + shift)
    return ⟨Numeral.signed negative (n >>> shift), e, p⟩

/-- The value `± n · 2 ^ e` rounded to `p` bits; `sticky` says that bits other than zero are cut off
below `n`. -/
def rounded (negative : Bool) (n : Nat) (e : Int) (sticky : Bool) (p : Nat) : Option Parts := do
  let p := effectivePrecision p
  let drop := bitLength n - p
  let e ← exponent? (e + drop)
  normalized negative (roundBits n drop sticky) e p

/-- The value `m · 2 ^ e` rounded to `p` bits. -/
def ofScaled (m : Int) (e : Int) (p : Nat) : Option Parts :=
  rounded (decide (m < 0)) m.natAbs e false p

/-- The value `± num / den · 2 ^ e` rounded to `p` bits; the denominator is not zero. -/
def ofQuotient (negative : Bool) (num den : Nat) (e : Int) (p : Nat) : Option Parts :=
  if num = 0 then some (.zero p)
  else do
    let shift ← exponent? (quotientShift num den p)
    let n := num * 2 ^ shift.toNat
    let d := den * 2 ^ (-shift).toNat
    let e ← exponent? (e - shift)
    rounded negative (n / d) e (n % d != 0) p

/-- The lesser exponent of two reals, and their mantissas for it. -/
def aligned (x y : Parts) : Option (Int × Int × Int) := do
  let e := min x.exponent y.exponent
  let left ← exponent? (x.exponent - e)
  let right ← exponent? (y.exponent - e)
  return (x.mantissa <<< left.toNat, y.mantissa <<< right.toNat, e)

/-- The sum, rounded once. -/
def add (x y : Parts) : Option Parts := do
  let (a, b, e) ← aligned x y
  ofScaled (a + b) e (max x.precision y.precision)

/-- The difference, rounded once. -/
def sub (x y : Parts) : Option Parts := do
  let (a, b, e) ← aligned x y
  ofScaled (a - b) e (max x.precision y.precision)

/-- The product, rounded once. -/
def mul (x y : Parts) : Option Parts := do
  let e ← exponent? (x.exponent + y.exponent)
  ofScaled (x.mantissa * y.mantissa) e (max x.precision y.precision)

/-- The quotient, rounded once. By zero no exponent is computed, and there is no quotient. -/
def divide? (x y : Parts) : Option (Option Parts) :=
  if y.isZero then some none
  else do
    let e ← exponent? (x.exponent - y.exponent)
    let q ← ofQuotient (x.isNegative != y.isNegative) x.mantissa.natAbs y.mantissa.natAbs e
      (max x.precision y.precision)
    return some q

/-- `acc · base ^ n` by repeated squaring, each product rounded. -/
def powerLoop (acc base : Parts) (n : Nat) : Option Parts :=
  if _h : n = 0 then some acc
  else do
    let acc ← (if n % 2 = 1 then mul acc base else some acc)
    if n / 2 = 0 then return acc
    else
      let square ← mul base base
      powerLoop acc square (n / 2)
termination_by n
decreasing_by omega

/-- The whole power, each product rounded to the precision of the base. There is no negative power of zero. -/
def power? (x : Parts) (e : Int) : Option (Option Parts) := do
  let r ← powerLoop (.ofInt 1 x.precision) x e.natAbs
  if e < 0 then divide? (.ofInt 1 x.precision) r else return some r

/-- The magnitude of the binary order of magnitude; zero for zero. -/
def scaleBits (x : Parts) : Option Nat :=
  if x.isZero then some 0
  else do
    let e ← exponent? (x.exponent + bitLength x.mantissa.natAbs)
    let e ← exponent? (e - 1)
    return e.natAbs

end NumericTower.BigReal.Checked
