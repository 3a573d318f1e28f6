import Mathlib
import NumericTower.Numeral.Basic

/-!
# Digits and numbers

A number below a power of the radix has so many digits, its first one is not zero, and digits of which that is
true are the digits of the number that they denote.

## Key results
- `toDigits_eq`: the digits are those of `Nat.digits`, most significant first
- `length_toDigits_le_iff`, `length_digits_spec`: how many there are
- `toDigits_ofDigits`: digits without a zero in front are determined by their number
-/

namespace NumericTower.Numeral

variable {radix n : Nat} {ds : List Nat}

/-- No zero stands in front of other digits. -/
def NoLeadingZero (ds : List Nat) : Prop :=
  ds ≠ [] ∧ (ds.head? = some 0 → ds = [0])

theorem ofDigits_eq (radix : Nat) (ds : List Nat) : ofDigits radix ds = Nat.ofDigits radix ds.reverse := by
  rw [Nat.ofDigits_eq_foldr, List.foldr_reverse, ofDigits]
  congr 1
  funext n d
  rw [mul_comm, add_comm]
  rfl

theorem ofDigits_append (radix : Nat) (ds es : List Nat) :
    ofDigits radix (ds ++ es) = ofDigits radix ds * radix ^ es.length + ofDigits radix es := by
  rw [ofDigits_eq, ofDigits_eq, ofDigits_eq, List.reverse_append, Nat.ofDigits_append, List.length_reverse,
    add_comm, mul_comm]

theorem ofDigits_replicate_zero (radix k : Nat) : ofDigits radix (List.replicate k 0) = 0 := by
  rw [ofDigits_eq, List.reverse_replicate, Nat.ofDigits_replicate_zero]

theorem ofDigits_lt (hr : 2 ≤ radix) (h : ∀ d ∈ ds, d < radix) : ofDigits radix ds < radix ^ ds.length := by
  rw [ofDigits_eq, ← List.length_reverse]
  exact Nat.ofDigits_lt_base_pow_length hr fun d hd => h d (List.mem_reverse.mp hd)

theorem toDigits_zero (radix : Nat) : toDigits radix 0 = [0] := rfl

private theorem digitsFromUnits_eq (hr : 2 ≤ radix) {count : Nat} (hn : n ≠ 0) (hlt : n < 2 ^ (count + 1)) :
    digitsFromUnits radix count n = Nat.digits radix n := by
  induction count generalizing n with
  | zero => rw [digitsFromUnits, Nat.digits_of_lt radix n hn (by omega)]
  | succ count ih =>
    rw [digitsFromUnits]
    split
    case isTrue hsmall => rw [Nat.digits_of_lt radix n hn hsmall]
    case isFalse hlarge =>
      have hquotient : n / radix < 2 ^ (count + 1) :=
        (Nat.div_le_div_left hr two_pos).trans_lt (by omega)
      rw [Nat.digits_def' hr (Nat.pos_of_ne_zero hn), ih (Nat.div_pos (by omega) (by omega)).ne' hquotient]

theorem toDigits_eq (hr : 2 ≤ radix) (hn : n ≠ 0) : toDigits radix n = (Nat.digits radix n).reverse := by
  rw [toDigits, digitsFromUnits_eq hr hn Nat.lt_log2_self]

/-- A number has at most `k` digits exactly if it is below the power of the radix. -/
theorem length_toDigits_le_iff (hr : 2 ≤ radix) {k : Nat} (hk : 0 < k) :
    (toDigits radix n).length ≤ k ↔ n < radix ^ k := by
  by_cases hn : n = 0
  · rw [hn, toDigits_zero, List.length_singleton]
    exact iff_of_true hk (by positivity)
  · rw [toDigits_eq hr hn, List.length_reverse, ← not_lt, Nat.lt_digits_length_iff hr, not_le]

/-- The number of digits is the decimal order of magnitude. -/
theorem length_digits_spec (hn : n ≠ 0) : 0 < (Nat.digits 10 n).length ∧
    10 ^ ((Nat.digits 10 n).length - 1) ≤ n ∧ n < 10 ^ (Nat.digits 10 n).length := by
  have hpos : 0 < (Nat.digits 10 n).length := List.length_pos_iff.mpr (Nat.digits_ne_nil_iff_ne_zero.mpr hn)
  exact ⟨hpos, (Nat.lt_digits_length_iff (by decide) n).mp (by omega), Nat.lt_base_pow_length_digits (by decide)⟩

theorem noLeadingZero_toDigits (hr : 2 ≤ radix) (n : Nat) : NoLeadingZero (toDigits radix n) := by
  by_cases hn : n = 0
  · rw [hn, toDigits_zero]
    exact ⟨List.cons_ne_nil 0 [], fun _ => rfl⟩
  · have hne := Nat.digits_ne_nil_iff_ne_zero (b := radix).mpr hn
    have hlast := Nat.getLast_digit_ne_zero radix hn
    rw [toDigits_eq hr hn]
    refine ⟨List.reverse_ne_nil_iff.mpr hne, fun h => absurd ?_ hlast⟩
    rwa [List.head?_reverse, List.getLast?_eq_getLast_of_ne_nil hne, Option.some.injEq] at h

/-- Digits without a zero in front are the digits of their number. -/
theorem toDigits_ofDigits (hr : 2 ≤ radix) (hds : ∀ d ∈ ds, d < radix) (hzero : NoLeadingZero ds) :
    toDigits radix (ofDigits radix ds) = ds := by
  by_cases hhead : ds.head? = some 0
  · rw [hzero.2 hhead, ofDigits, List.foldl_cons, List.foldl_nil, zero_mul, toDigits_zero]
  · have hlast : ∀ h : ds.reverse ≠ [], ds.reverse.getLast h ≠ 0 := by
      intro h hlast
      apply hhead
      rw [← List.getLast?_reverse, List.getLast?_eq_getLast_of_ne_nil h, hlast]
    have hdigits := Nat.digits_ofDigits radix hr ds.reverse (fun d hd => hds d (List.mem_reverse.mp hd)) hlast
    rw [← ofDigits_eq] at hdigits
    have hn : ofDigits radix ds ≠ 0 := by
      intro hn
      rw [hn, Nat.digits_zero] at hdigits
      exact hzero.1 (List.reverse_eq_nil_iff.mp hdigits.symm)
    rw [toDigits_eq hr hn, hdigits, List.reverse_reverse]

end NumericTower.Numeral
