import NumericTower.Integer
import NumericTower.Text.Split

/-!
# Rationals

Literals, written forms, partial operations and bit widths of the exact rationals. A `Rat` is always in
lowest terms over a positive denominator, so equality of rationals is equality of their parts.
-/

namespace NumericTower.Rational

/-- The fraction `n / d`; none over zero. -/
def ofFraction? (n d : Int) : Option Rat :=
  if d = 0 then none else some (Rat.divInt n d)

/-- Reads `n/d` or a bare integer, both parts integer literals of `radix`. The radix and that the literal
has more than a sign are checked first, then the numerator, then the denominator. -/
def parse (radix : Nat) (cs : List Char) : Except NumeralError Rat := do
  let _ ← Numeral.splitSign radix cs
  match Text.splitFirst (· == '/') cs with
  | none => return ((← Integer.parse radix cs : Int) : Rat)
  | some (n, d) =>
    let numerator ← Integer.parse radix n
    let denominator ← Integer.parse radix d
    match ofFraction? numerator denominator with
    | some q => return q
    | none => throw .zeroDenominator

/-- A rational as numerator, slash and denominator, both in decimal. -/
def render (q : Rat) : String :=
  Integer.decimal q.num ++ "/" ++ Numeral.render 10 q.den

/-- Bits of the numerator and its sign. -/
def numeratorBits (q : Rat) : Nat :=
  Integer.signedBits q.num

/-- Bits of the denominator, which is positive. -/
def denominatorBits (q : Rat) : Nat :=
  Integer.unsignedBits q.den

/-- Bits that hold either part. -/
def bits (q : Rat) : Nat :=
  max (numeratorBits q) (denominatorBits q)

/-- Whether the value is a whole number. -/
def isInteger (q : Rat) : Bool :=
  q.den == 1

/-- The multiplicative inverse; none of zero. -/
def inverse? (q : Rat) : Option Rat :=
  if q = 0 then none else some q⁻¹

/-- The quotient; none by zero. -/
def divide? (a b : Rat) : Option Rat :=
  if b = 0 then none else some (a / b)

/-- The whole part, toward zero. -/
def truncate (q : Rat) : Int :=
  Int.tdiv q.num q.den

/-- The whole power of a rational. None for a negative power of zero, and none for an exponent whose
magnitude takes more than 32 bits. -/
def power? (q : Rat) (e : Int) : Option Rat :=
  if e < 0 then
    (inverse? q).bind fun r => if bitLength e.natAbs ≤ 32 then some (r ^ e.natAbs) else none
  else if bitLength e.natAbs ≤ 32 then some (q ^ e.natAbs)
  else none

/-- The order of two rationals. -/
def compare (a b : Rat) : Ordering :=
  if a < b then .lt else if a = b then .eq else .gt

end NumericTower.Rational
