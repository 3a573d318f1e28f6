import NumericTower.BigReal.Basic

/-!
# Real literals

A real literal has a whole part and a fraction in one radix and, in radix ten only, a decimal exponent.
Its exact value is a rational, which is rounded once. It is that of the written number as long as there are fewer
than `2 ^ 32` digits after the point.
-/

namespace NumericTower.BigReal

/-- The parts of a real literal, its digits in the radix of the literal. -/
structure Literal where
  radix : Nat
  negative : Bool
  whole : List Nat
  fraction : List Nat
  exponent : Int
  deriving DecidableEq, Repr

/-- The exponent of the radix that the digits of a literal are divided by: their number after the point, of which
only the low 32 bits count. -/
def Literal.places (l : Literal) : Nat :=
  l.fraction.length % 2 ^ (32 : Nat)

/-- The exact value that is read from a literal. -/
def Literal.value (l : Literal) : Rat :=
  let digits := Numeral.signed l.negative (Numeral.ofDigits l.radix (l.whole ++ l.fraction))
  let unit : Int := l.radix ^ l.places
  if 0 ≤ l.exponent then Rat.divInt (digits * 10 ^ l.exponent.toNat) unit
  else Rat.divInt digits (unit * 10 ^ l.exponent.natAbs)

/-- Reads the decimal exponent that follows the letter `e`. A magnitude of more than 63 bits is refused
here, before the rest of the literal is looked at. -/
def readExponent (cs : List Char) : Except NumeralError Int := do
  let (negative, rest) ← Numeral.splitSign 10 cs
  let magnitude := Numeral.ofDigits 10 (← Numeral.readDigits 10 rest)
  if 63 < bitLength magnitude then throw .exponentOutOfRange
  return Numeral.signed negative magnitude

/-- Reads the digits of one side of the point; a side with no characters has none. -/
def readSide (radix : Nat) (cs : List Char) : Except NumeralError (List Nat) :=
  if cs.isEmpty then .ok [] else Numeral.readDigits radix cs

/-- Reads the parts of a literal. The exponent is read before the digits, and its 32 bits are checked
after them. -/
def readLiteral (radix : Nat) (cs : List Char) : Except NumeralError Literal := do
  let (negative, rest) ← Numeral.splitSign radix cs
  let (body, exponent) ← match Text.splitFirst (fun c => c == 'e' || c == 'E') rest with
    | some (body, exponent) =>
      if radix = 10 then pure (body, ← readExponent exponent) else pure (rest, 0)
    | none => pure (rest, 0)
  -- One side of the point may be empty, but not both.
  let (whole, fraction) := (Text.splitFirst (· == '.') body).getD (body, [])
  if whole.isEmpty && fraction.isEmpty then throw .empty
  let whole ← readSide radix whole
  let fraction ← readSide radix fraction
  if 32 < bitLength exponent.natAbs then throw .exponentOutOfRange
  return { radix, negative, whole, fraction, exponent }

/-- Reads a real literal and rounds its value to `p` bits. -/
def parse (radix : Nat) (cs : List Char) (p : Nat) : Except NumeralError BigReal := do
  return ofRat (← readLiteral radix cs).value p

end NumericTower.BigReal
