import NumericTower.Binary.Shortest
import NumericTower.BigReal.Decimal
import NumericTower.NumericType.Lattice
import NumericTower.Number.Fixed

/-!
# Numbers

A number of any category in one of its representations: of fixed width, or unbounded. Each
representation has its own numeric type.
-/

namespace NumericTower

/-- A number in one of its representations. -/
inductive Number where
  | nat (w : IntegralWidth) (n : FixedNat w)
  /-- The unbounded natural. Its sign is not checked. -/
  | bigNat (z : Int)
  | int (w : IntegralWidth) (z : FixedInt w)
  | bigInt (z : Int)
  | ratio (w : RatioWidth) (r : FixedRatio w)
  | bigRatio (q : Rat)
  | real32 (x : Float32Bits)
  | real64 (x : Float64Bits)
  | bigReal (x : BigReal)

namespace Number

/-- The numeric type of the representation. -/
def type : Number → NumericType
  | .nat w _ => ⟨.nat, w.bits, w.bits_lt⟩
  | .bigNat _ => .unbounded .nat
  | .int w _ => ⟨.int, w.bits, w.bits_lt⟩
  | .bigInt _ => .unbounded .int
  | .ratio w _ => ⟨.ratio, w.bits, w.bits_lt⟩
  | .bigRatio _ => .unbounded .ratio
  | .real32 _ => .real32
  | .real64 _ => .real64
  | .bigReal _ => .unbounded .real

/-- The exact integer of a natural or an integer. -/
def toInt? : Number → Option Int
  | .nat _ n => some n.value
  | .bigNat z => some z
  | .int _ z => some z.value
  | .bigInt z => some z
  | _ => none

/-- The exact rational of a finite number. -/
def toRat? : Number → Option Rat
  | .ratio _ r => some r.value
  | .bigRatio q => some q
  | .real32 x => x.toRat?
  | .real64 x => x.toRat?
  | .bigReal x => some x.toRat
  | .nat _ n => some ((n.value : Int) : Rat)
  | .bigNat z => some (z : Rat)
  | .int _ z => some (z.value : Rat)
  | .bigInt z => some (z : Rat)

/-- The text of a number. -/
def render : Number → String
  | .nat _ n => Numeral.render 10 n.value
  | .bigNat z => Integer.decimal z
  | .int _ z => Integer.decimal z.value
  | .bigInt z => Integer.decimal z
  | .ratio _ r => Rational.render r.value
  | .bigRatio q => Rational.render q
  | .real32 x => x.render
  | .real64 x => x.render
  | .bigReal x => x.render

/-- Whether two numbers have the same representation and the same value. A float that is no number is
not the same as itself. -/
def same : Number → Number → Bool
  | .nat v a, .nat w b => v = w && a.value == b.value
  | .bigNat a, .bigNat b => a == b
  | .int v a, .int w b => v = w && a.value == b.value
  | .bigInt a, .bigInt b => a == b
  | .ratio v a, .ratio w b => v = w && a.value == b.value
  | .bigRatio a, .bigRatio b => a == b
  | .real32 a, .real32 b => a.sameNumber b
  | .real64 a, .real64 b => a.sameNumber b
  | .bigReal a, .bigReal b => a.sameValue b
  | _, _ => false

/-- An integer as a signed number of at least `width` bits, in the narrowest representation that holds
it; width 0 asks for the unbounded one. -/
def integer (z : Int) (width : Nat) : Number :=
  if width = 0 then .bigInt z
  else
    ((IntegralWidth.all.filter (width ≤ ·.bits)).findSome? fun w =>
      (FixedInt.ofInt? w z).map (.int w)).getD (.bigInt z)

/-- An integer as a natural of at least `width` bits, in the narrowest representation that holds it;
width 0 asks for the unbounded one. A negative integer is a signed number. -/
def natural (z : Int) (width : Nat) : Number :=
  if z < 0 then integer z width
  else if width = 0 then .bigNat z
  else
    ((IntegralWidth.all.filter (width ≤ ·.bits)).findSome? fun w =>
      (FixedNat.ofInt? w z).map (.nat w)).getD (.bigNat z)

/-- A rational as a ratio of at least `width` bits, in the narrowest representation that holds it; width
0 asks for the unbounded one. -/
def rational (q : Rat) (width : Nat) : Number :=
  if width = 0 then .bigRatio q
  else
    ((RatioWidth.all.filter (width ≤ ·.bits)).findSome? fun w =>
      (FixedRatio.ofRat? w q).map (.ratio w)).getD (.bigRatio q)

end Number

end NumericTower
