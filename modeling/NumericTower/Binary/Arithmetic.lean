import NumericTower.Binary.Basic

/-!
# Arithmetic of binary floats

Each operation computes the exact result and takes the float nearest to it. Powers with a whole exponent
multiply by repeated squaring, rounding every product; other powers are those of the machine.
-/

namespace NumericTower.BinaryFloat

variable {f : FloatFormat}

/-- The float with the other sign. -/
def neg : BinaryFloat f → BinaryFloat f
  | .nan => .nan
  | .infinity negative => .infinity (!negative)
  | .finite negative rank h => .finite (!negative) rank h

/-- The sum. An exact sum of zero is negative only if both operands are. -/
def add : BinaryFloat f → BinaryFloat f → BinaryFloat f
  | .nan, _ => .nan
  | _, .nan => .nan
  | .infinity s, .infinity t => if s = t then .infinity s else .nan
  | .infinity s, .finite .. => .infinity s
  | .finite .., .infinity t => .infinity t
  | .finite s m _, .finite t n _ =>
    -- Both operands are whole multiples of the smaller of the two least bits.
    let e := min (f.exponentOf m) (f.exponentOf n)
    let left := Numeral.signed s (f.significandOf m * 2 ^ (f.exponentOf m - e).toNat)
    let right := Numeral.signed t (f.significandOf n * 2 ^ (f.exponentOf n - e).toNat)
    if left + right = 0 then zero (s && t)
    else ofMagnitude (decide (left + right < 0)) (left + right).natAbs e

/-- The difference. -/
def sub (x y : BinaryFloat f) : BinaryFloat f :=
  add x (neg y)

/-- The product; its sign is negative if exactly one operand's is. -/
def mul : BinaryFloat f → BinaryFloat f → BinaryFloat f
  | .nan, _ => .nan
  | _, .nan => .nan
  | .infinity s, .infinity t => .infinity (s != t)
  | .infinity s, .finite t n _ => if n = 0 then .nan else .infinity (s != t)
  | .finite s m _, .infinity t => if m = 0 then .nan else .infinity (s != t)
  | .finite s m _, .finite t n _ =>
    ofMagnitude (s != t) (f.significandOf m * f.significandOf n) (f.exponentOf m + f.exponentOf n)

/-- The quotient; a number other than zero over zero is infinite. -/
def div : BinaryFloat f → BinaryFloat f → BinaryFloat f
  | .nan, _ => .nan
  | _, .nan => .nan
  | .infinity _, .infinity _ => .nan
  | .infinity s, .finite t _ _ => .infinity (s != t)
  | .finite s _ _, .infinity t => zero (s != t)
  | .finite s m _, .finite t n _ =>
    if n = 0 then if m = 0 then .nan else .infinity (s != t)
    else ofQuotient (s != t) (f.significandOf m) (f.significandOf n)
      (f.exponentOf m - f.exponentOf n)

/-- One. -/
def one : BinaryFloat f :=
  ofInt 1

/-- `acc · base ^ n` by repeated squaring, each product rounded. -/
def powerLoop (acc base : BinaryFloat f) (n : Nat) : BinaryFloat f :=
  let acc' := if n % 2 = 1 then mul acc base else acc
  if _h : n / 2 = 0 then acc' else powerLoop acc' (mul base base) (n / 2)
termination_by n
decreasing_by omega

/-- The whole power; a negative exponent inverts the power of its magnitude. -/
def powInt (x : BinaryFloat f) (e : Int) : BinaryFloat f :=
  let r := powerLoop one x e.natAbs
  if e < 0 then div one r else r

/-- The general power of 64-bit floats, as the machine computes it. -/
def powDouble (x y : Float64Bits) : Float64Bits :=
  ofBits ((Float.ofBits (UInt64.ofNat x.toBits)).pow
    (Float.ofBits (UInt64.ofNat y.toBits))).toBits.toNat

/-- The general power of 32-bit floats, as the machine computes it. -/
def powSingle (x y : Float32Bits) : Float32Bits :=
  ofBits ((Float32.ofBits (UInt32.ofNat x.toBits)).pow
    (Float32.ofBits (UInt32.ofNat y.toBits))).toBits.toNat

end NumericTower.BinaryFloat
