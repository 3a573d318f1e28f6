import NumericTower.Rational

/-!
# Rationals by their parts

The arithmetic of fractions on bare numerators and denominators: what is divided out, where the sign goes
and which results are taken as they are. Nothing is asked of the parts, so a fraction is in lowest terms
only if the operation that made it sees to that.
-/

namespace NumericTower.Rational

/-- A fraction by its parts. -/
structure Parts where
  numerator : Int
  denominator : Int
  deriving DecidableEq, Repr

/-- The parts of a rational. -/
def parts (q : Rat) : Parts :=
  ⟨q.num, q.den⟩

namespace Parts

/-- The rational that the parts stand for. -/
def value (x : Parts) : Rat :=
  (x.numerator : Rat) / (x.denominator : Rat)

/-- The fraction `n / d` without its common divisor and with the sign in the numerator; `d` is not zero. -/
def reduce (n d : Int) : Parts :=
  let g : Int := Int.gcd n d
  let (n, d) := if g = 1 then (n, d) else (n.tdiv g, d.tdiv g)
  if d < 0 then ⟨-n, -d⟩ else ⟨n, d⟩

/-- The fraction `n / d`; none over zero. -/
def ofFraction? (n d : Int) : Option Parts :=
  if d = 0 then none else some (reduce n d)

/-- An integer. -/
def ofInt (z : Int) : Parts :=
  ⟨z, 1⟩

/-- Reads `n/d` or a bare integer, both parts integer literals of `radix`. -/
def parse (radix : Nat) (cs : List Char) : Except NumeralError Parts := do
  let _ ← Numeral.splitSign radix cs
  match Text.splitFirst (· == '/') cs with
  | none => return ofInt (← Integer.parse radix cs)
  | some (n, d) =>
    let numerator ← Integer.parse radix n
    let denominator ← Integer.parse radix d
    match ofFraction? numerator denominator with
    | some x => return x
    | none => throw .zeroDenominator

/-- Whether the value is zero. -/
def isZero (x : Parts) : Bool :=
  x.numerator == 0

/-- The magnitude. -/
def abs (x : Parts) : Parts :=
  ⟨x.numerator.natAbs, x.denominator⟩

/-- The negated value. -/
def neg (x : Parts) : Parts :=
  ⟨-x.numerator, x.denominator⟩

/-- The multiplicative inverse; none of zero. -/
def inverse? (x : Parts) : Option Parts :=
  if x.isZero then none else some (reduce x.denominator x.numerator)

/-- The sum, over the product of the denominators. -/
def add (x y : Parts) : Parts :=
  reduce (x.numerator * y.denominator + y.numerator * x.denominator) (x.denominator * y.denominator)

/-- The difference, over the product of the denominators. -/
def sub (x y : Parts) : Parts :=
  reduce (x.numerator * y.denominator - y.numerator * x.denominator) (x.denominator * y.denominator)

/-- The product. -/
def mul (x y : Parts) : Parts :=
  reduce (x.numerator * y.numerator) (x.denominator * y.denominator)

/-- The quotient; none by zero. -/
def divide? (x y : Parts) : Option Parts :=
  if y.isZero then none
  else some (reduce (x.numerator * y.denominator) (x.denominator * y.numerator))

/-- The whole power: a negative one inverts first, and the parts are then raised as they are. None for an
exponent whose magnitude takes more than 32 bits. -/
def power? (x : Parts) (e : Int) : Option Parts :=
  (if e < 0 then x.inverse? else some x).bind fun base =>
    if bitLength e.natAbs ≤ 32 then some ⟨base.numerator ^ e.natAbs, base.denominator ^ e.natAbs⟩
    else none

/-- The order, by multiplying with both denominators. -/
def compare (x y : Parts) : Ordering :=
  Ord.compare (x.numerator * y.denominator) (y.numerator * x.denominator)

end Parts

end NumericTower.Rational
