import NumericTower.Power

/-!
# Digits

The letters that stand for digits in a radix up to 36, and the positional value of a list of digits.
Digits are listed most significant first.
-/

namespace NumericTower.Numeral

/-- The value of an ASCII digit or letter: `0`-`9`, then `a`-`z` in either case from ten on. -/
def charValue? (c : Char) : Option Nat :=
  if '0' ≤ c ∧ c ≤ '9' then some (c.toNat - '0'.toNat)
  else if 'a' ≤ c ∧ c ≤ 'z' then some (c.toNat - 'a'.toNat + 10)
  else if 'A' ≤ c ∧ c ≤ 'Z' then some (c.toNat - 'A'.toNat + 10)
  else none

/-- The value of a digit of `radix`, if `c` is one. -/
def digitValue? (radix : Nat) (c : Char) : Option Nat :=
  (charValue? c).filter (· < radix)

/-- The letter of a digit below 36, in lower case. -/
def digitChar (d : Nat) : Char :=
  if d < 10 then Char.ofNat ('0'.toNat + d) else Char.ofNat ('a'.toNat + (d - 10))

/-- The number that a list of digits denotes. -/
def ofDigits (radix : Nat) (ds : List Nat) : Nat :=
  ds.foldl (fun n d => n * radix + d) 0

/-- The digits of `n`, least significant first, at most `count + 1` of them: the last takes what is
left. -/
def digitsFromUnits (radix : Nat) : (count : Nat) → (n : Nat) → List Nat
  | 0, n => [n]
  | count + 1, n =>
    if n < radix then [n] else n % radix :: digitsFromUnits radix count (n / radix)

/-- The digits of `n` in `radix`, with no leading zero. -/
def toDigits (radix n : Nat) : List Nat :=
  (digitsFromUnits radix n.log2 n).reverse

/-- A natural number written in `radix`. -/
def render (radix n : Nat) : String :=
  String.ofList ((toDigits radix n).map digitChar)

@[simp] theorem ofDigits_nil (radix : Nat) : ofDigits radix [] = 0 := rfl

/-- Appending a digit shifts the others by one place. -/
@[simp] theorem ofDigits_append_singleton (radix : Nat) (ds : List Nat) (d : Nat) :
    ofDigits radix (ds ++ [d]) = ofDigits radix ds * radix + d := by
  simp [ofDigits]

private theorem ofDigits_reverse_digitsFromUnits (radix count n : Nat) :
    ofDigits radix (digitsFromUnits radix count n).reverse = n := by
  induction count generalizing n with
  | zero => simp [digitsFromUnits, ofDigits]
  | succ count ih =>
    unfold digitsFromUnits
    split
    · simp [ofDigits]
    · rw [List.reverse_cons, ofDigits_append_singleton, ih, Nat.mul_comm]
      exact Nat.div_add_mod n radix

/-- The digits of a number denote that number. -/
theorem ofDigits_toDigits (radix n : Nat) : ofDigits radix (toDigits radix n) = n :=
  ofDigits_reverse_digitsFromUnits radix n.log2 n

private theorem lt_of_mem_digitsFromUnits {radix count n d : Nat} (hr : 2 ≤ radix)
    (hn : n < 2 ^ (count + 1)) (h : d ∈ digitsFromUnits radix count n) : d < radix := by
  induction count generalizing n with
  | zero =>
    simp only [digitsFromUnits, List.mem_singleton] at h
    omega
  | succ count ih =>
    unfold digitsFromUnits at h
    split at h
    · simp only [List.mem_singleton] at h
      omega
    · rcases List.mem_cons.1 h with rfl | h
      · exact Nat.mod_lt _ (by omega)
      · refine ih ?_ h
        have h2 : n / radix ≤ n / 2 := Nat.div_le_div_left hr (by omega)
        omega

/-- Every digit of a number is below the radix. -/
theorem lt_of_mem_toDigits {radix n d : Nat} (hr : 2 ≤ radix) (h : d ∈ toDigits radix n) :
    d < radix :=
  lt_of_mem_digitsFromUnits hr Nat.lt_log2_self (List.mem_reverse.1 h)

end NumericTower.Numeral
