import Mathlib
import NumericTower.Rounding

/-!
# The nearest point of a grid

What rounding has to do, said without the algorithm: the nearest integer, the even one of two. A number that
is rounded at one bit is also nearest among all numbers that are multiples of that bit or stay below its
leading bit, which is why rounding at a bit is rounding to a number of significant bits.

## Key results
- `nearestInt_roundBits`, `nearestInt_roundAt`: the algorithms find the nearest integer
- `two_zpow_floorLog2_le`, `lt_two_zpow_floorLog2`: the binary order of magnitude
- `NearestInt.of_grid`: from one bit to all numbers with the leading bits
-/

namespace NumericTower

/-- The integer nearest to a rational; of two, the even one. -/
structure NearestInt (x : Rat) (m : Int) : Prop where
  nearest : ∀ k : Int, |(m : Rat) - x| ≤ |k - x|
  even : ∀ k : Int, k ≠ m → |(k : Rat) - x| = |m - x| → Even m

namespace NearestInt

variable {x : Rat} {m : Int}

/-- Within half a step there is no nearer integer, and at half a step one other is as near. -/
theorem of_abs_le (h : |(m : Rat) - x| ≤ 1 / 2) (heven : |(m : Rat) - x| = 1 / 2 → Even m) :
    NearestInt x m := by
  -- Any other integer is a whole step away.
  have hstep : ∀ k : Int, k ≠ m → 1 - |(m : Rat) - x| ≤ |k - x| := by
    intro k hk
    have hone : (1 : Rat) ≤ |(k : Rat) - m| := by
      rw [← Int.cast_sub, ← Int.cast_abs, ← Int.cast_one, Int.cast_le]
      exact Int.one_le_abs (sub_ne_zero.mpr hk)
    have htri := abs_sub_le (k : Rat) x m
    rw [abs_sub_comm x] at htri
    linarith
  constructor
  · intro k
    by_cases hk : k = m
    · rw [hk]
    · have := hstep k hk
      linarith
  · intro k hk htie
    have := hstep k hk
    exact heven (le_antisymm h (by linarith))

/-- Up to the half the lower neighbour is nearest. -/
theorem of_lower {k : Int} {r : Rat} (h0 : 0 ≤ r) (hhalf : r ≤ 1 / 2) (htie : r = 1 / 2 → Even k) :
    NearestInt (k + r) k := by
  have hdist : |(k : Rat) - (k + r)| = r := by
    rw [sub_add_cancel_left, abs_neg, abs_of_nonneg h0]
  exact .of_abs_le (hdist.symm ▸ hhalf) fun h => htie (hdist.symm.trans h)

/-- From the half on the upper neighbour is nearest. -/
theorem of_upper {k : Int} {r : Rat} (h1 : r ≤ 1) (hhalf : 1 / 2 ≤ r) (htie : r = 1 / 2 → Odd k) :
    NearestInt (k + r) (k + 1 : Int) := by
  have hdist : |((k + 1 : Int) : Rat) - (k + r)| = 1 - r := by
    rw [Int.cast_add, Int.cast_one, add_sub_add_left_eq_sub, abs_of_nonneg (by linarith)]
  refine .of_abs_le (by rw [hdist]; linarith) fun h => ?_
  rw [hdist] at h
  exact (htie (by linarith)).add_one

theorem neg (h : NearestInt x m) : NearestInt (-x) (-m) := by
  have habs : ∀ k : Int, |((-k : Int) : Rat) - -x| = |k - x| := by
    intro k
    rw [Int.cast_neg, neg_sub_neg, abs_sub_comm]
  constructor
  · intro k
    rw [habs, ← neg_neg k, habs]
    exact h.nearest (-k)
  · intro k hk htie
    rw [habs, ← neg_neg k, habs] at htie
    exact (h.even (-k) (fun h' => hk (by omega)) htie).neg

/-- A whole bound from above is kept. -/
theorem le_of_le {b : Int} (h : NearestInt x m) (hb : x ≤ b) : m ≤ b := by
  have hnear := h.nearest b
  rw [abs_of_nonneg (sub_nonneg.mpr hb)] at hnear
  have hle := (abs_le.mp hnear).2
  exact_mod_cast (show (m : Rat) ≤ b by linarith)

/-- A whole bound from below is kept. -/
theorem le_of_ge {b : Int} (h : NearestInt x m) (hb : b ≤ x) : b ≤ m := by
  have := h.neg.le_of_le (b := -b) (by push_cast; linarith)
  omega

theorem abs_sub_le_half (h : NearestInt x m) : |(m : Rat) - x| ≤ 1 / 2 :=
  (h.nearest (round x)).trans ((abs_sub_comm _ _).trans_le (abs_sub_round x))

/-- At the middle the nearest integer is the even one. -/
theorem even_of_middle (h : NearestInt x m) (hm : |(m : Rat) - x| = 1 / 2) : Even m := by
  rcases abs_cases ((m : Rat) - x) with ⟨heq, _⟩ | ⟨heq, _⟩
  · refine h.even (m - 1) (by omega) ?_
    rw [hm, Int.cast_sub, Int.cast_one, sub_right_comm, show (m : Rat) - x - 1 = -(1 / 2) by linarith, abs_neg,
      abs_of_pos (by norm_num)]
  · refine h.even (m + 1) (by omega) ?_
    rw [hm, Int.cast_add, Int.cast_one, add_sub_right_comm, show (m : Rat) - x + 1 = 1 / 2 by linarith,
      abs_of_pos (by norm_num)]

/-- A whole number is its own nearest integer. -/
theorem eq_of_eq {b : Int} (h : NearestInt x m) (hb : x = b) : m = b :=
  le_antisymm (h.le_of_le hb.le) (h.le_of_ge hb.ge)

/-- Of two nearest integers both would be even, and the one between them would be nearer. -/
theorem unique {k : Int} (h : NearestInt x m) (hk : NearestInt x k) : m = k := by
  by_contra hne
  have htie : |(m : Rat) - x| = |(k : Rat) - x| := le_antisymm (h.nearest k) (hk.nearest m)
  have hm := Int.even_iff.mp (h.even k (Ne.symm hne) htie.symm)
  have hk' := Int.even_iff.mp (hk.even m hne htie)
  have hapart : (2 : Rat) ≤ |(m : Rat) - k| := by
    have : (2 : Int) ≤ |m - k| := le_abs.mpr (by omega)
    exact_mod_cast this
  have htri := abs_sub_le (m : Rat) x k
  rw [abs_sub_comm x, ← htie] at htri
  have hhalf := h.abs_sub_le_half
  linarith

/-- The nearest integer is nearest also among the numbers of lesser magnitude that a whole number
separates from the rational. -/
theorem nearest_or_below {y : Rat} (h : NearestInt x m)
    (hy : (∃ k : Int, y = k) ∨ ∃ b : Int, |y| < b ∧ (b : Rat) ≤ |x|) :
    |(m : Rat) - x| ≤ |y - x| ∧ (y ≠ m → |y - x| = |(m : Rat) - x| → Even m) := by
  rcases hy with ⟨k, rfl⟩ | ⟨b, hyb, hbx⟩
  · exact ⟨h.nearest k, fun hne => h.even k (by exact_mod_cast hne)⟩
  · -- The bound with the sign of the rational is a nearer integer.
    have hbound : |(m : Rat) - x| ≤ |x| - b := by
      rcases abs_cases x with ⟨hx, _⟩ | ⟨hx, _⟩
      · calc |(m : Rat) - x| ≤ |b - x| := h.nearest b
          _ = |x| - b := by rw [abs_of_nonpos (by linarith), neg_sub, hx]
      · calc |(m : Rat) - x| ≤ |(-b : Int) - x| := h.nearest (-b)
          _ = |x| - b := by
            rw [Int.cast_neg, abs_of_nonneg (by linarith), hx]
            ring
    have hlt : |(m : Rat) - x| < |y - x| := by
      have := abs_sub_abs_le_abs_sub x y
      rw [abs_sub_comm x] at this
      linarith
    exact ⟨hlt.le, fun _ htie => absurd htie hlt.ne'⟩

/-- A number that is rounded at the bit `2 ^ s` is nearest among the multiples of that bit and the numbers
below a multiple that it reaches. -/
theorem of_grid {q c : Rat} {s : Int} (h : NearestInt (q / 2 ^ s) m)
    (hc : (∃ k : Int, c = k * 2 ^ s) ∨ ∃ b : Int, |c| < b * 2 ^ s ∧ b * 2 ^ s ≤ |q|) :
    |m * 2 ^ s - q| ≤ |c - q| ∧ (c ≠ m * 2 ^ s → |c - q| = |m * 2 ^ s - q| → Even m) := by
  have hpos : (0 : Rat) < 2 ^ s := zpow_pos two_pos s
  have hscale : ∀ z : Rat, |z - q| = |z / 2 ^ s - q / 2 ^ s| * 2 ^ s := by
    intro z
    rw [← sub_div, abs_div, abs_of_pos hpos, div_mul_cancel₀ _ hpos.ne']
  have hm : (m : Rat) * 2 ^ s / 2 ^ s = m := mul_div_cancel_right₀ _ hpos.ne'
  have hy : (∃ k : Int, c / 2 ^ s = k) ∨ ∃ b : Int, |c / 2 ^ s| < b ∧ (b : Rat) ≤ |q / 2 ^ s| := by
    refine hc.imp ?_ ?_
    · rintro ⟨k, rfl⟩
      exact ⟨k, mul_div_cancel_right₀ _ hpos.ne'⟩
    · rintro ⟨b, hcb, hbq⟩
      refine ⟨b, ?_, ?_⟩
      · rwa [abs_div, abs_of_pos hpos, div_lt_iff₀ hpos]
      · rwa [abs_div, abs_of_pos hpos, le_div_iff₀ hpos]
  obtain ⟨hle, heven⟩ := h.nearest_or_below hy
  rw [hscale, hscale c, hm]
  refine ⟨mul_le_mul_of_nonneg_right hle hpos.le, fun hne htie => heven ?_ ?_⟩
  · rwa [Ne, div_eq_iff hpos.ne']
  · exact mul_right_cancel₀ hpos.ne' htie

end NearestInt

/-- With no candidate strictly between two neighbours, the nearest one is above the gap exactly from its
middle on, if the lower neighbour loses the tie. -/
theorem le_nearest_iff {v q a c : Rat} (hac : a < c) (hgap : v ≤ a ∨ c ≤ v) (ha : |v - q| ≤ |a - q|)
    (hc : |v - q| ≤ |c - q|) (htie : v = a → |c - q| ≠ |v - q|) : c ≤ v ↔ (a + c) / 2 ≤ q := by
  constructor
  · intro hv
    by_contra! hq
    have hvq : c - q ≤ |v - q| := by
      have := le_abs_self (v - q)
      linarith
    rcases abs_cases (a - q) with ⟨h, _⟩ | ⟨h, _⟩ <;> linarith
  · intro hq
    by_contra! hv
    have hva : v ≤ a := hgap.resolve_right hv.not_ge
    have hvq : |v - q| = q - v := by rw [abs_of_nonpos (by linarith), neg_sub]
    rcases abs_cases (c - q) with ⟨h, _⟩ | ⟨h, _⟩
    · -- The distances are equal, so the lower neighbour is the nearest one.
      exact htie (by linarith) (by linarith)
    · linarith

/-! ### The algorithms -/

/-- A fraction is its whole part and what the remainder adds. -/
theorem div_eq_whole_add (n : Nat) {d : Nat} (hd : 0 < d) :
    (n : Rat) / d = (n / d : Nat) + (n % d : Nat) / d := by
  have hd' : (d : Rat) ≠ 0 := Nat.cast_ne_zero.mpr hd.ne'
  rw [div_eq_iff hd', add_mul, div_mul_cancel₀ _ hd']
  exact_mod_cast (Nat.div_add_mod' n d).symm

theorem nearestInt_nearestEven (n : Nat) {d : Nat} (hd : 0 < d) :
    NearestInt ((n : Rat) / d) (nearestEven n d) := by
  have hd' : (0 : Rat) < d := Nat.cast_pos.mpr hd
  -- The remainder against half the divisor says on which side of the half the fraction is.
  have htie : ((n % d : Nat) : Rat) / d = 1 / 2 ↔ n % d * 2 = d := by
    rw [div_eq_div_iff hd'.ne' two_ne_zero, one_mul]
    exact_mod_cast Iff.rfl
  rw [div_eq_whole_add n hd, ← Int.cast_natCast (n / d)]
  unfold nearestEven
  split
  case isTrue hup =>
    refine .of_upper ?_ ?_ fun h => ?_
    · rw [div_le_one hd']
      exact_mod_cast (Nat.mod_lt n hd).le
    · rw [div_le_div_iff₀ two_pos hd', one_mul]
      exact_mod_cast (show d ≤ n % d * 2 by omega)
    · have := htie.mp h
      exact_mod_cast Nat.odd_iff.mpr (by omega)
  case isFalse hdown =>
    refine .of_lower (by positivity) ?_ fun h => ?_
    · rw [div_le_div_iff₀ hd' two_pos, one_mul]
      exact_mod_cast (show n % d * 2 ≤ d by omega)
    · have := htie.mp h
      exact_mod_cast Nat.even_iff.mpr (by omega)

section

variable {n low k drop : Nat} {f : Rat} {sticky : Bool}

/-- Dropped bits with a fraction behind them reach the half exactly if the bits alone do. -/
theorem half_le_dropped_iff (h0 : 0 ≤ f) (h1 : f < 1) :
    1 / 2 ≤ (low + f) / 2 ^ (k + 1) ↔ 2 ^ k ≤ low := by
  rw [div_le_div_iff₀ two_pos (by positivity), one_mul, pow_succ, mul_le_mul_iff_left₀ two_pos]
  constructor
  · intro h
    have hlt : (2 : Rat) ^ k < low + 1 := h.trans_lt (by linarith)
    exact Nat.lt_succ_iff.mp (by exact_mod_cast hlt)
  · intro h
    have hle : (2 : Rat) ^ k ≤ low := by exact_mod_cast h
    linarith

/-- They are the half exactly if the bits are and there is nothing behind them. -/
theorem dropped_eq_half_iff (h0 : 0 ≤ f) (h1 : f < 1) :
    (low + f) / 2 ^ (k + 1) = 1 / 2 ↔ low = 2 ^ k ∧ f = 0 := by
  constructor
  · intro h
    have hle : (2 : Rat) ^ k ≤ low := by exact_mod_cast (half_le_dropped_iff h0 h1).mp h.ge
    rw [div_eq_div_iff (by positivity) two_ne_zero, one_mul, pow_succ] at h
    have hlow : (low : Rat) = 2 ^ k := by linarith
    exact ⟨by exact_mod_cast hlow, by linarith⟩
  · rintro ⟨rfl, rfl⟩
    push_cast
    rw [add_zero, pow_succ, div_mul_cancel_left₀ (by positivity), one_div]

/-- What is cut off below a magnitude is less than one of it, and only whether it is there matters when
bits of the magnitude itself are dropped. -/
theorem nearestInt_roundBits (h0 : 0 ≤ f) (h1 : f < 1) (hsticky : sticky = true ↔ f ≠ 0)
    (hdrop : sticky = true → drop ≠ 0) :
    NearestInt ((n + f) / 2 ^ drop) (roundBits n drop sticky) := by
  have hclear : ¬sticky = true ↔ f = 0 := by rw [hsticky, not_not]
  unfold roundBits
  split
  case isTrue hzero =>
    have hf : f = 0 := hclear.mp fun h => hdrop h hzero
    rw [hzero, hf, pow_zero, div_one]
    exact .of_lower le_rfl (by norm_num) (fun h => by norm_num at h)
  case isFalse hpos =>
    simp only
    obtain ⟨k, rfl⟩ : ∃ k, drop = k + 1 := ⟨drop - 1, by omega⟩
    set low := n % 2 ^ (k + 1)
    set high := n / 2 ^ (k + 1)
    have hn : ((n : Rat) + f) / 2 ^ (k + 1) = (high : Int) + (low + f) / 2 ^ (k + 1) := by
      have hsplit := div_eq_whole_add n (Nat.two_pow_pos (k + 1))
      push_cast at hsplit
      rw [add_div, hsplit, add_assoc, ← add_div, Int.cast_natCast]
    rw [hn, Nat.add_sub_cancel]
    split
    case isTrue hup =>
      refine .of_upper ?_ ((half_le_dropped_iff h0 h1).mpr (by omega)) fun htie => ?_
      · have hlt : (low : Rat) + 1 ≤ 2 ^ (k + 1) := by
          exact_mod_cast Nat.mod_lt n (Nat.two_pow_pos _)
        rw [div_le_one (by positivity)]
        linarith
      · -- At the half nothing is cut off, so the upper neighbour was taken for being even.
        obtain ⟨hlow, hf⟩ := (dropped_eq_half_iff h0 h1).mp htie
        have hodd : high % 2 = 1 := by
          rcases hup with h | ⟨_, h | h⟩
          · omega
          · exact absurd h (hclear.mpr hf)
          · exact h
        exact_mod_cast Nat.odd_iff.mpr hodd
    case isFalse hdown =>
      rw [not_or, not_and, not_or] at hdown
      refine .of_lower (by positivity) ?_ fun htie => ?_
      · -- Past the half there is something behind the bits of the half, or the bits exceed it.
        by_contra! hgt
        have hlow : low = 2 ^ k :=
          le_antisymm (Nat.not_lt.mp hdown.1) ((half_le_dropped_iff h0 h1).mp hgt.le)
        have hf : f = 0 := hclear.mp (hdown.2 hlow).1
        exact hgt.ne' ((dropped_eq_half_iff h0 h1).mpr ⟨hlow, hf⟩)
      · have hlow := ((dropped_eq_half_iff h0 h1).mp htie).1
        have := (hdown.2 hlow).2
        exact_mod_cast Nat.even_iff.mpr (by omega)

end

/-- A power of two with an integer exponent, as a quotient of two whole ones. -/
theorem two_zpow_eq (k : Int) : (2 : Rat) ^ k = 2 ^ k.toNat / 2 ^ (-k).toNat := by
  rw [← zpow_natCast, ← zpow_natCast, ← zpow_sub₀ two_ne_zero]
  congr 1
  omega

/-- Of two ways to write a number, the one with the lesser exponent has zeros at its end. -/
theorem eq_mul_pow_of_scaled {b n m j : Nat} {e : Int} (hb : b ≠ 0)
    (h : (n : Rat) * (b : Rat) ^ e = m * (b : Rat) ^ (e + j)) : n = m * b ^ j := by
  have hb' : (b : Rat) ≠ 0 := Nat.cast_ne_zero.mpr hb
  rw [zpow_add₀ hb', zpow_natCast, mul_comm ((b : Rat) ^ e), ← mul_assoc] at h
  exact_mod_cast mul_right_cancel₀ (zpow_ne_zero e hb') h

/-- Scaling by whole powers of two in both parts of a fraction. -/
theorem shifted_div (num den : Nat) (s : Int) :
    ((num * 2 ^ s.toNat : Nat) : Rat) / (den * 2 ^ (-s).toNat : Nat) = num / den * 2 ^ s := by
  rw [two_zpow_eq]
  push_cast
  rw [mul_div_mul_comm]

theorem nearestInt_roundAt (num : Nat) {den : Nat} (hden : 0 < den) (s : Int) :
    NearestInt ((num : Rat) / den / 2 ^ s) (roundAt num den s) := by
  have hscale := shifted_div num den (-s)
  rw [neg_neg, zpow_neg, ← div_eq_mul_inv] at hscale
  rw [← hscale]
  exact nearestInt_nearestEven _ (by positivity)

/-! ### The binary order of magnitude -/

variable {num den : Nat}

theorem bitLength_pos (h : 0 < num) : 0 < bitLength num := by
  rw [Nat.pos_iff_ne_zero]
  intro h0
  have := bitLength_le_iff.mp (Nat.le_of_eq h0)
  omega

theorem two_pow_bitLength_sub_one_le (h : 0 < num) : 2 ^ (bitLength num - 1) ≤ num :=
  two_pow_le_of_bitLength (Nat.sub_lt (bitLength_pos h) one_pos)

theorem bitLength_mul_two_pow {n : Nat} (hn : n ≠ 0) (j : Nat) :
    bitLength (n * 2 ^ j) = bitLength n + j := by
  have hlog : (n * 2 ^ j).log2 = n.log2 + j := by
    induction j with
    | zero => rw [pow_zero, mul_one, add_zero]
    | succ j ih => rw [pow_succ', mul_left_comm, Nat.log2_two_mul (by positivity), ih, add_assoc]
  rw [bitLength, bitLength, if_neg hn, if_neg (by positivity), hlog]
  omega

/-- The bit lengths of its parts bound a fraction from below. -/
theorem two_zpow_bitLength_le (hnum : 0 < num) (hden : 0 < den) :
    (2 : Rat) ^ ((bitLength num : Int) - bitLength den - 1) ≤ num / den := by
  have hn : (2 : Rat) ^ (bitLength num - 1) ≤ num := by
    exact_mod_cast two_pow_bitLength_sub_one_le hnum
  have hd : (den : Rat) ≤ 2 ^ bitLength den := by
    exact_mod_cast (lt_two_pow_bitLength den).le
  calc (2 : Rat) ^ ((bitLength num : Int) - bitLength den - 1)
      = 2 ^ (bitLength num - 1) / 2 ^ bitLength den := by
        have := bitLength_pos hnum
        rw [← zpow_natCast, ← zpow_natCast, ← zpow_sub₀ two_ne_zero]
        congr 1
        omega
    _ ≤ num / den := div_le_div₀ (by positivity) hn (Nat.cast_pos.mpr hden) hd

theorem two_zpow_le_div_iff (hden : 0 < den) (k : Int) :
    (2 : Rat) ^ k ≤ num / den ↔ den * 2 ^ k.toNat ≤ num * 2 ^ (-k).toNat := by
  have hd' : (0 : Rat) < den := Nat.cast_pos.mpr hden
  rw [two_zpow_eq, div_le_div_iff₀ (by positivity) hd', mul_comm]
  exact_mod_cast Iff.rfl

/-- The power of two of the order of magnitude does not exceed the fraction. -/
theorem two_zpow_floorLog2_le (hnum : 0 < num) (hden : 0 < den) :
    (2 : Rat) ^ floorLog2 num den ≤ num / den := by
  unfold floorLog2
  simp only
  split
  case isTrue h => exact (two_zpow_le_div_iff hden _).mpr h
  case isFalse => exact two_zpow_bitLength_le hnum hden

/-- The next power of two exceeds the fraction. -/
theorem lt_two_zpow_floorLog2 (hden : 0 < den) :
    (num : Rat) / den < 2 ^ (floorLog2 num den + 1) := by
  rw [← not_le, two_zpow_le_div_iff hden, not_le]
  exact lt_of_floorLog2_lt hden (by omega)

end NumericTower
