import NumericTower.Numeral.Digit
import NumericTower.Numeral.Error
import NumericTower.Text.Blank

/-!
# Reading numerals

The parts that integer, rational and real literals share: a radix from 2 to 36, one optional sign after
the surrounding blanks, and digits with `_` as a separator that is skipped.
-/

namespace NumericTower.Numeral

/-- The radices that have a digit for each value below them. -/
def supportsRadix (radix : Nat) : Bool :=
  2 ≤ radix && radix ≤ 36

/-- Splits a literal into whether it is negative and what follows the sign. The radix is checked first,
then that something follows. -/
def splitSign (radix : Nat) (cs : List Char) : Except NumeralError (Bool × List Char) :=
  if !supportsRadix radix then .error (.unsupportedRadix radix)
  else
    let (negative, rest) := match Text.trim cs with
      | '-' :: rest => (true, rest)
      | '+' :: rest => (false, rest)
      | rest => (false, rest)
    if rest.isEmpty then .error .empty else .ok (negative, rest)

/-- The value of one digit, or the error that names it. -/
def readDigit (radix : Nat) (c : Char) : Except NumeralError Nat :=
  match digitValue? radix c with
  | some d => .ok d
  | none => .error (.invalidDigit c radix)

/-- The digits of `cs`, separators left out. The first character that is no digit is reported; no digits
at all is an error. -/
def readDigits (radix : Nat) (cs : List Char) : Except NumeralError (List Nat) := do
  let ds ← (cs.filter (· ≠ '_')).mapM (readDigit radix)
  if ds.isEmpty then throw .empty else return ds

/-- A magnitude with a sign. -/
def signed (negative : Bool) (magnitude : Nat) : Int :=
  if negative then -(magnitude : Int) else magnitude

end NumericTower.Numeral

namespace NumericTower

/-- A computation in steps succeeds only if all steps do. -/
theorem exists_of_bind_eq_ok {ε α β : Type} {x : Except ε α} {f : α → Except ε β} {r : β}
    (h : (x >>= f) = .ok r) : ∃ v, x = .ok v ∧ f v = .ok r := by
  cases x with
  | error e => exact nomatch h
  | ok v => exact ⟨v, rfl, h⟩

end NumericTower
