/-!
# Errors of numeric literals

Why a text is no number of the kind asked for.
-/

namespace NumericTower

/-- The reason why a literal, or a float, has no exact value. -/
inductive NumeralError where
  /-- No digit where one is needed. -/
  | empty
  /-- A character that is no digit of the radix. -/
  | invalidDigit (digit : Char) (radix : Nat)
  /-- A radix outside 2 to 36. -/
  | unsupportedRadix (radix : Nat)
  /-- A ratio over zero. -/
  | zeroDenominator
  /-- A decimal exponent of more than 32 bits. -/
  | exponentOutOfRange
  /-- A float that is infinite or no number. -/
  | nonFinite
  deriving DecidableEq, Repr

/-- The text shown for the error. -/
def NumeralError.message : NumeralError → String
  | .empty => "empty numeric literal"
  | .invalidDigit digit radix =>
    "invalid digit '" ++ digit.toString ++ "' for radix " ++ toString radix
  | .unsupportedRadix radix =>
    "unsupported radix " ++ toString radix ++ " (expected 2..=36)"
  | .zeroDenominator => "rational literal has a zero denominator"
  | .exponentOutOfRange => "exponent out of range in real literal"
  | .nonFinite => "cannot represent a non-finite float exactly"

end NumericTower
