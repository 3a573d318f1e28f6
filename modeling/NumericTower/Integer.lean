import NumericTower.Numeral.Basic

/-!
# Integers

Literals, written forms and bit widths of the integers. Arithmetic is that of `Int`, whose remainder is
the Euclidean one.
-/

namespace NumericTower

/-- Bits of the magnitude `n`; none for zero. -/
def bitLength (n : Nat) : Nat :=
  if n = 0 then 0 else n.log2 + 1

/-- A number is below two to the power of its bit length. -/
theorem lt_two_pow_bitLength (n : Nat) : n < 2 ^ bitLength n := by
  unfold bitLength
  split
  · omega
  · exact Nat.lt_log2_self

/-- A positive number is at least two to the power of one less than its bit length. -/
theorem two_pow_le_of_bitLength {n k : Nat} (h : k < bitLength n) : 2 ^ k ≤ n := by
  unfold bitLength at h
  split at h
  · omega
  · rename_i hn
    exact Nat.le_trans (Nat.pow_le_pow_right (by omega) (by omega)) (Nat.log2_self_le hn)

/-- The bit length is the least exponent whose power of two exceeds the number. -/
theorem bitLength_le_iff {n k : Nat} : bitLength n ≤ k ↔ n < 2 ^ k := by
  constructor
  · intro h
    exact Nat.lt_of_lt_of_le (lt_two_pow_bitLength n) (Nat.pow_le_pow_right (by omega) h)
  · intro h
    apply Nat.le_of_not_lt
    intro hk
    exact absurd (two_pow_le_of_bitLength hk) (by omega)

namespace Integer

/-- Reads an integer literal: blanks, at most one sign, digits of `radix` with `_` between them. -/
def parse (radix : Nat) (cs : List Char) : Except NumeralError Int := do
  let (negative, rest) ← Numeral.splitSign radix cs
  let ds ← Numeral.readDigits radix rest
  return Numeral.signed negative (Numeral.ofDigits radix ds)

/-- An integer written in `radix`, with a minus sign if it is negative. -/
def render (radix : Nat) (z : Int) : String :=
  (if z < 0 then "-" else "") ++ Numeral.render radix z.natAbs

/-- An integer in decimal. -/
def decimal (z : Int) : String :=
  render 10 z

/-- Bits of the magnitude, at least one. -/
def unsignedBits (z : Int) : Nat :=
  max (bitLength z.natAbs) 1

/-- Bits of the magnitude, at least one, and a bit for the sign. -/
def signedBits (z : Int) : Nat :=
  unsignedBits z + 1

/-- The integers that `bits` unsigned bits hold. -/
def InUnsigned (bits : Nat) (z : Int) : Prop :=
  0 ≤ z ∧ z < 2 ^ bits

/-- The integers that `bits` bits hold in two's complement. -/
def InSigned (bits : Nat) (z : Int) : Prop :=
  -(2 ^ (bits - 1)) ≤ z ∧ z < 2 ^ (bits - 1)

instance (bits : Nat) (z : Int) : Decidable (InUnsigned bits z) :=
  inferInstanceAs (Decidable (_ ∧ _))

instance (bits : Nat) (z : Int) : Decidable (InSigned bits z) :=
  inferInstanceAs (Decidable (_ ∧ _))

/-- The Euclidean remainder, never negative; none by zero. -/
def remainder? (a b : Int) : Option Int :=
  if b = 0 then none else some (a % b)

end Integer

end NumericTower
