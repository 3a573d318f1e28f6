import NumericTower.BigReal.Parts
import NumericTower.Binary.Arithmetic

/-!
# Reals to floats, step by step

A real becomes a float in two steps: the bits of the mantissa that the float has no room for are rounded away
at once, fewer of them being kept below the least normal number, and what is left is scaled by powers of two
that are floats themselves. Scaling takes place in the format of 64 bits, also for a float of 32 bits.
-/

namespace NumericTower

namespace BinaryFloat

/-- A whole power of two. -/
def powerOfTwo (e : Int) : Float64Bits :=
  powInt (ofInt 2) e

/-- The greatest exponent by which a float is scaled at once. -/
def scalingStep : Int := 1000

/-- Beyond this exponent every float but zero is infinite, or zero, after scaling. -/
def scalingLimit : Int := 2200

/-- Scales by steps until what remains of the exponent is no more than one step. -/
def scaleSteps (x : Float64Bits) (e : Int) : Float64Bits :=
  if scalingStep < e then scaleSteps (mul x (powerOfTwo scalingStep)) (e - scalingStep)
  else if e < -scalingStep then scaleSteps (mul x (powerOfTwo (-scalingStep))) (e + scalingStep)
  else mul x (powerOfTwo e)
termination_by e.natAbs
decreasing_by all_goals simp only [scalingStep] at *; omega

/-- The float `x · 2 ^ e`. -/
def scale (x : Float64Bits) (e : Int) : Float64Bits :=
  scaleSteps x (max (-scalingLimit) (min e scalingLimit))

end BinaryFloat

/-- How many leading bits of `n · 2 ^ e` are kept, of which there may be no more than `precision` and none
below `2 ^ least`. -/
def keptBits (precision : Nat) (least : Int) (n : Nat) (e : Int) : Int :=
  min (precision : Int) (e + bitLength n - least)

/-- The bits behind them. -/
def droppedBits (precision : Nat) (least : Int) (n : Nat) (e : Int) : Nat :=
  (bitLength n - keptBits precision least n e).toNat

namespace BigReal.Parts

/-- The value rounded once to `precision` bits, of which none may lie below `2 ^ least`, as a float of
64 bits. -/
def roundToDouble (x : Parts) (precision : Nat) (least : Int) : Float64Bits :=
  let n := x.mantissa.natAbs
  let drop := droppedBits precision least n x.exponent
  let rounded := roundBits n drop false
  if x.isZero then BinaryFloat.zero false
  -- Less than half of the least bit.
  else if keptBits precision least n x.exponent < 0 then BinaryFloat.zero x.isNegative
  else if rounded = 0 then BinaryFloat.zero x.isNegative
  else
    -- An integer of more than 64 bits would be lost, but none has as many.
    let m : Float64Bits := BinaryFloat.ofInt (if rounded < 2 ^ (64 : Nat) then rounded else 0)
    BinaryFloat.scale (if x.isNegative then m.neg else m) (x.exponent + drop)

/-- The nearest float of 64 bits. -/
def toFloat64 (x : Parts) : Float64Bits :=
  x.roundToDouble 53 (-1074)

/-- The nearest float of 32 bits, by way of 64 bits. -/
def toFloat32 (x : Parts) : Float32Bits :=
  (x.roundToDouble 24 (-149)).convert

/-- Whether the exact real of a float is this one again. -/
def isValueOf (x : Parts) (v : Float64Bits) : Bool :=
  (ofFloat? v x.precision).any (·.same x)

/-- Whether the value is that of a finite float of 64 bits. -/
def isFloat64 (x : Parts) : Bool :=
  x.isValueOf x.toFloat64

/-- Whether the value is that of a finite float of 32 bits. -/
def isFloat32 (x : Parts) : Bool :=
  x.isValueOf x.toFloat32.convert

end BigReal.Parts

end NumericTower
