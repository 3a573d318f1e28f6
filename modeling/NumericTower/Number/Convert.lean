import NumericTower.Number.Basic

/-!
# Conversions of numbers

A number as a real of any precision or as a float, and in the representation of another type that holds
all values of its own.
-/

namespace NumericTower.Number

/-- The real of precision `p` for a finite number. -/
def toBigReal? (n : Number) (p : Nat) : Option BigReal :=
  match n with
  | .real32 x => BigReal.ofFloat? x p
  | .real64 x => BigReal.ofFloat? x p
  | .bigReal x => some (x.withPrecision p)
  | n =>
    match n.toInt? with
    | some z => some (.ofInt z p)
    | none => n.toRat?.map (BigReal.ofRat · p)

/-- The nearest float of 64 bits, what is infinite or no number kept. -/
def toFloat64? : Number → Option Float64Bits
  | .real32 x => some x.convert
  | .real64 x => some x
  | .bigReal x => some (x.toFloat .double)
  | n => n.toRat?.map Rational.toFloat64

/-- The nearest float of 32 bits, what is infinite or no number kept. -/
def toFloat32? : Number → Option Float32Bits
  | .real32 x => some x
  | .real64 x => some x.convert
  | .bigReal x => some (x.toFloat .single)
  | n => n.toRat?.map Rational.toFloat32

/-- The number in the representation of another type, if every value of its own type fits there. An
unbounded real gets precision `p`. -/
def convertTo? (n : Number) (target : NumericType) (p : Nat) : Option Number :=
  if n.type = target ∨ n.type.fits target = false then none
  else
    match target.kind with
    | .nat => n.toInt?.map (natural · target.width)
    | .int => n.toInt?.map (integer · target.width)
    | .ratio => n.toRat?.map (rational · target.width)
    | .real =>
      if target.width = 32 then n.toFloat32?.map .real32
      else if target.width = 64 then n.toFloat64?.map .real64
      else (n.toBigReal? p).map .bigReal

end NumericTower.Number
