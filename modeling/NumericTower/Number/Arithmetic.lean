import NumericTower.BigReal.Checked
import NumericTower.Binary.Arithmetic
import NumericTower.NumericType.Result
import NumericTower.Number.Convert
import NumericTower.Number.Error

/-!
# Arithmetic of numbers

The operands of an operator are brought into the category of the result, computed there, and the result
is put into the narrowest representation from the static type of the result on. Integral and rational
results are exact. Of unbounded reals only the exponents are bounded: there is no result if one that is computed
does not fit into 64 bits.
-/

namespace NumericTower.Number

/-- The bits that an exact power may have. -/
def maxExactBits : Nat := 2 ^ (24 : Nat)

/-- The binary magnitude that a power of an unbounded real may have. -/
def maxRealScale : Nat := 2 ^ (40 : Nat)

/-- The precision that a number asks for: that of an unbounded real. -/
def precision : Number → Nat
  | .bigReal x => x.precision
  | _ => 0

/-- The precision of an unbounded real result: the greatest of the operands' and the requested one. -/
def realPrecision (a b : Number) (requested : Nat) : Nat :=
  max (max requested a.precision) b.precision

/-- An integral result. -/
def integralOp (op : BinaryOp) (a b : Int) : Except OpError Int :=
  match op with
  | .add => .ok (a + b)
  | .sub => .ok (a - b)
  | .mul => .ok (a * b)
  | .mod =>
    match Integer.remainder? a b with
    | some r => .ok r
    | none => .error .divisionByZero
  | _ => .error .undefined

/-- A rational result. -/
def ratioOp (op : BinaryOp) (a b : Rat) : Except OpError Rat :=
  match op with
  | .add => .ok (a + b)
  | .sub => .ok (a - b)
  | .mul => .ok (a * b)
  | .div =>
    match Rational.divide? a b with
    | some q => .ok q
    | none => .error .divisionByZero
  | _ => .error .undefined

/-- A float result. A quotient by either zero is an error. -/
def floatOp {f : FloatFormat} (op : BinaryOp) (a b : BinaryFloat f) :
    Except OpError (BinaryFloat f) :=
  match op with
  | .add => .ok (a.add b)
  | .sub => .ok (a.sub b)
  | .mul => .ok (a.mul b)
  | .div => if b.isZero then .error .divisionByZero else .ok (a.div b)
  | _ => .error .undefined

/-- A result among the unbounded reals, with exponents of any size. -/
def realOp (op : BinaryOp) (a b : BigReal) : Except OpError BigReal :=
  match op with
  | .add => .ok (a.add b)
  | .sub => .ok (a.sub b)
  | .mul => .ok (a.mul b)
  | .div =>
    match a.divide? b with
    | some q => .ok q
    | none => .error .divisionByZero
  | _ => .error .undefined

/-- Whether every exponent that is computed for a result among the unbounded reals fits into 64 bits. -/
def exponentsFit (op : BinaryOp) (a b : BigReal) : Bool :=
  match op with
  | .add => (BigReal.Checked.add a.parts b.parts).isSome
  | .sub => (BigReal.Checked.sub a.parts b.parts).isSome
  | .mul => (BigReal.Checked.mul a.parts b.parts).isSome
  | .div => (BigReal.Checked.divide? a.parts b.parts).isSome
  | _ => true

/-- A result among the unbounded reals, with exponents of 64 bits. -/
def checkedRealOp (op : BinaryOp) (a b : BigReal) : Except OpError BigReal :=
  if exponentsFit op a b then realOp op a b else .error .exponentOverflow

/-- Both operands in a representation, if both have it. -/
def both {α : Type} (a b : Option α) : Except OpError (α × α) :=
  match a, b with
  | some a, some b => .ok (a, b)
  | _, _ => .error .undefined

/-- An exponent that is a whole number of 64 bits. -/
def wholeExponent? (e : Number) : Option Int :=
  e.toRat?.bind fun q =>
    if Rational.isInteger q ∧ Integer.InSigned 64 q.num then some q.num else none

/-- A whole exponent for which powers of floats are computed by multiplication. -/
def smallExponent? (e : Number) : Option Int :=
  (wholeExponent? e).bind fun n => if Integer.InSigned 32 n then some n else none

/-- Refuses a power whose result would need more than `limit` bits when the base needs `bits`. -/
def checkPowerSize (bits : Nat) (n : Int) (limit : Nat) : Except OpError Unit :=
  if limit < bits * n.natAbs then .error .tooLarge else .ok ()

/-- A value, or the error that it is missing. -/
def orError {α : Type} (a : Option α) (e : OpError) : Except OpError α :=
  match a with
  | some a => .ok a
  | none => .error e

/-- A power of an unbounded real, with exponents of 64 bits. -/
def checkedRealPower (b : BigReal) (n : Int) : Except OpError BigReal :=
  if (BigReal.Checked.power? b.parts n).isSome then orError (b.power? n) .divisionByZero
  else .error .exponentOverflow

/-- An exact power in the category of the result type. -/
def exactPower (base : Number) (n : Int) (target : NumericType) : Except OpError Number :=
  if target.kind = .ratio then do
    let q ← orError base.toRat? .undefined
    checkPowerSize (Rational.bits q - 1) n maxExactBits
    return rational (← orError (Rational.power? q n) .undefined) target.width
  else do
    let z ← orError base.toInt? .undefined
    checkPowerSize (Integer.unsignedBits z - 1) n maxExactBits
    -- An exponent above 32 bits gets here with a base of one bit only, a negative one only from a
    -- natural whose sign is not checked.
    if n < 0 ∨ 32 < bitLength n.natAbs then throw .undefined
    let r := z ^ n.toNat
    return if target.kind = .nat then natural r target.width else integer r target.width

/-- The power of a number, for a result of the given type. A negative power of zero is a division by
zero in every category. -/
def power (base exponent : Number) (target : NumericType) : Except OpError Number :=
  if base.toRat?.any (· = 0) ∧ exponent.toRat?.any (· < 0) then .error .divisionByZero
  else
    match base with
    | .real32 b => do
      let e ← orError exponent.toFloat32? .undefined
      return .real32 (match smallExponent? exponent with
        | some n => b.powInt n
        | none => b.powSingle e)
    | .real64 b => do
      let e ← orError exponent.toFloat64? .undefined
      return .real64 (match smallExponent? exponent with
        | some n => b.powInt n
        | none => b.powDouble e)
    | .bigReal b => do
      let n ← orError (wholeExponent? exponent) .undefined
      let scale ← orError (BigReal.Checked.scaleBits b.parts) .exponentOverflow
      checkPowerSize (scale + 1) n maxRealScale
      return .bigReal (← checkedRealPower b n)
    | base => do
      let n ← orError (wholeExponent? exponent) .undefined
      exactPower base n target

/-- The result of an operator other than the power, for a result of the given type. -/
def combine (op : BinaryOp) (a b : Number) (target : NumericType) (p : Nat) :
    Except OpError Number :=
  match target.kind with
  | .nat => do
    let (x, y) ← both a.toInt? b.toInt?
    return natural (← integralOp op x y) target.width
  | .int => do
    let (x, y) ← both a.toInt? b.toInt?
    return integer (← integralOp op x y) target.width
  | .ratio => do
    let (x, y) ← both a.toRat? b.toRat?
    return rational (← ratioOp op x y) target.width
  | .real =>
    if target.width = 32 then do
      let (x, y) ← both a.toFloat32? b.toFloat32?
      return .real32 (← floatOp op x y)
    else if target.width = 64 then do
      let (x, y) ← both a.toFloat64? b.toFloat64?
      return .real64 (← floatOp op x y)
    else do
      let p := realPrecision a b p
      let (x, y) ← both (a.toBigReal? p) (b.toBigReal? p)
      return .bigReal (← checkedRealOp op x y)

/-- The result of an arithmetic operator. An unbounded real result has at least precision `p`. -/
def arithmetic (op : BinaryOp) (a b : Number) (p : Nat) : Except OpError Number :=
  match NumericType.arithmeticResult? op a.type b.type with
  | none => .error .undefined
  | some target => if op = .pow then power a b target else combine op a b target p

/-- The negated number. A natural becomes an integer. -/
def negate (a : Number) : Number :=
  let target := a.type.makeSigned
  match a with
  | .nat _ n => integer (-n.value) target.width
  | .bigNat z => integer (-z) target.width
  | .int _ z => integer (-z.value) target.width
  | .bigInt z => integer (-z) target.width
  | .ratio _ r => rational (-r.value) target.width
  | .bigRatio q => rational (-q) target.width
  | .real32 x => .real32 x.neg
  | .real64 x => .real64 x.neg
  | .bigReal x => .bigReal x.neg

/-- The order of two numbers: exact when both are finite, else that of the nearest floats; none if
either is no number. -/
def compare? (a b : Number) : Option Ordering :=
  match a.toInt?, b.toInt? with
  | some x, some y => some (Ord.compare x y)
  | _, _ =>
    match a.toRat?, b.toRat? with
    | some x, some y => some (Rational.compare x y)
    | _, _ =>
      -- At least one is infinite or no number, and its float says all about it.
      match a.toFloat64?, b.toFloat64? with
      | some x, some y => x.compare? y
      | _, _ => none

end NumericTower.Number
