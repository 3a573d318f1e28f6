import NumericTower.BigReal.Basic
import NumericTower.Proofs.Rounding.Nearest

/-!
# Correct rounding of binary reals

Every operation on binary reals gives the dyadic rational nearest to the exact result among all that have
so many significant bits, the one with the even mantissa of two. A quotient is rounded from its truncated
whole part and a flag for the remainder; the guard bits make that the same as rounding the exact quotient.

## Key results
- `RoundsTo.of_nearestInt`: rounding at one bit is rounding to a number of significant bits
- `BigReal.rounds_rounded`: cut-off bits that only leave a flag do not matter
- `BigReal.rounds_ofQuotient`: the guard bits of a quotient suffice
- `BigReal.rounds_round`, `BigReal.rounds_divide?`: dyadic rationals and quotients
-/

namespace NumericTower

/-- The mantissa of a dyadic rational written with `p` bits; zero for zero. -/
def fullMantissa (p : Nat) : Dyadic → Int
  | .zero => 0
  | .ofOdd n _ _ => n * 2 ^ (p - bitLength n.natAbs)

/-- The dyadic rational nearest to a rational among all of at most `p` significant bits; of two, the one
whose mantissa of `p` bits is even. -/
structure RoundsTo (p : Nat) (q : Rat) (d : Dyadic) : Prop where
  significantBits_le : significantBits d ≤ p
  nearest : ∀ c : Dyadic, significantBits c ≤ p → |d.toRat - q| ≤ |c.toRat - q|
  even : ∀ c : Dyadic, significantBits c ≤ p → c ≠ d → |c.toRat - q| = |d.toRat - q| →
    Even (fullMantissa p d)

variable {p : Nat} {q : Rat} {d : Dyadic}

/-! ### Dyadic rationals of few bits -/

/-- A mantissa with a bit to spare is even when it is written in full. -/
theorem even_fullMantissa (h : significantBits d < p) : Even (fullMantissa p d) := by
  cases d with
  | zero => exact Even.zero
  | ofOdd n k hn =>
    have hspare : p - bitLength n.natAbs ≠ 0 := Nat.sub_ne_zero_of_lt h
    exact (even_two.pow_of_ne_zero hspare).mul_left n

/-- A dyadic rational of at most `p` significant bits is a multiple of a given bit, or stays below the
numbers whose `p`-th bit that is. -/
theorem multiple_or_below (hp : 0 < p) (h : significantBits d ≤ p) (s : Int) :
    (∃ k : Int, d.toRat = k * 2 ^ s) ∨ |d.toRat| < (2 ^ (p - 1) : Int) * 2 ^ s := by
  cases d with
  | zero => exact .inl ⟨0, by simp [Dyadic.toRat]⟩
  | ofOdd n k hn =>
    rw [Dyadic.toRat_ofOdd_eq_mul_two_pow]
    by_cases hks : s ≤ -k
    · refine .inl ⟨n * 2 ^ (-k - s).toNat, ?_⟩
      push_cast
      rw [← zpow_natCast, mul_assoc, ← zpow_add₀ two_ne_zero]
      congr 2
      omega
    · -- Its last bit is below the given one, so its first one is, too.
      right
      have hpos : (0 : Rat) < 2 ^ (-k) := zpow_pos two_pos _
      have hn : |(n : Rat)| < 2 ^ p := by
        rw [← Int.cast_abs, Int.abs_eq_natAbs]
        exact_mod_cast bitLength_le_iff.mp h
      calc |(n : Rat) * 2 ^ (-k)| = |(n : Rat)| * 2 ^ (-k) := by
            rw [abs_mul, abs_of_pos hpos]
        _ < 2 ^ p * 2 ^ (-k) := mul_lt_mul_of_pos_right hn hpos
        _ ≤ 2 ^ p * 2 ^ (s - 1) :=
            mul_le_mul_of_nonneg_left (zpow_le_zpow_right₀ one_le_two (by omega)) (by positivity)
        _ = (2 ^ (p - 1) : Int) * 2 ^ s := by
            push_cast
            rw [← zpow_natCast, ← zpow_natCast, ← zpow_add₀ two_ne_zero, ← zpow_add₀ two_ne_zero]
            congr 1
            omega

/-- The denominator of a dyadic rational is a power of two. -/
theorem den_toRat (d : Dyadic) : ∃ k, d.toRat.den = 2 ^ k := by
  cases d with
  | zero => exact ⟨0, rfl⟩
  | ofOdd n k hn =>
    have hvalue : (Dyadic.ofOdd n k hn).toRat =
        ((n * 2 ^ (-k).toNat : Int) : Rat) / ((2 ^ k.toNat : Nat) : Int) := by
      rw [Dyadic.toRat_ofOdd_eq_mul_two_pow, two_zpow_eq, neg_neg]
      push_cast
      rw [mul_div_assoc]
    have hdvd := Rat.den_dvd (n * 2 ^ (-k).toNat) ((2 ^ k.toNat : Nat) : Int)
    rw [Rat.divInt_eq_div, ← hvalue, Int.natCast_dvd_natCast, Nat.dvd_prime_pow Nat.prime_two] at hdvd
    obtain ⟨j, _, hj⟩ := hdvd
    exact ⟨j, hj⟩

namespace RoundsTo

/-- A number with few enough bits is its own rounding. -/
theorem of_exact (h : significantBits d ≤ p) (hq : d.toRat = q) : RoundsTo p q d where
  significantBits_le := h
  nearest c _ := by
    rw [hq, sub_self, abs_zero]
    exact abs_nonneg _
  even c _ hne htie := by
    rw [hq, sub_self, abs_zero, abs_eq_zero, sub_eq_zero, ← hq, Dyadic.toRat_inj] at htie
    exact absurd htie hne

/-- Rounding a number at the bit that is its `p`-th one or a higher one rounds it to `p` significant
bits. -/
theorem of_nearestInt {m s : Int} (hp : 2 ≤ p) (h : NearestInt (q / 2 ^ s) m)
    (hle : m.natAbs ≤ 2 ^ p) (hq : (2 ^ (p - 1) : Int) * 2 ^ s ≤ |q|) :
    RoundsTo p q (Dyadic.ofIntWithPrec m (-s)) := by
  have hvalue : (Dyadic.ofIntWithPrec m (-s)).toRat = m * 2 ^ s := by
    rw [Dyadic.toRat_ofIntWithPrec_eq_mul_two_pow, neg_neg]
  have hgrid : ∀ c : Dyadic, significantBits c ≤ p →
      (∃ k : Int, c.toRat = k * 2 ^ s) ∨ ∃ b : Int, |c.toRat| < b * 2 ^ s ∧ b * 2 ^ s ≤ |q| :=
    fun c hc => (multiple_or_below (by omega) hc s).imp_right fun hlt => ⟨2 ^ (p - 1), hlt, hq⟩
  refine ⟨BigReal.significantBits_ofIntWithPrec_le (by omega) hle, fun c hc => ?_, fun c hc hne htie => ?_⟩
  · rw [hvalue]
    exact (h.of_grid (hgrid c hc)).1
  · rw [hvalue] at htie
    rw [Ne, ← Dyadic.toRat_inj, hvalue] at hne
    obtain ⟨j, rfl⟩ := (h.of_grid (hgrid c hc)).2 hne htie
    -- The even integer gives up its last bit, so one bit fewer is enough.
    have hhalf : Dyadic.ofIntWithPrec (j + j) (-s) = Dyadic.ofIntWithPrec j (-(s + 1)) := by
      rw [← Dyadic.toRat_inj, hvalue, Dyadic.toRat_ofIntWithPrec_eq_mul_two_pow, neg_neg,
        zpow_add_one₀ two_ne_zero]
      push_cast
      ring
    have hsmall : j.natAbs ≤ 2 ^ (p - 1) := by
      have : 2 ^ p = 2 ^ (p - 1) * 2 := by rw [← pow_succ, Nat.sub_add_cancel (by omega)]
      omega
    apply even_fullMantissa
    rw [hhalf]
    exact Nat.lt_of_le_of_lt (BigReal.significantBits_ofIntWithPrec_le (by omega) hsmall) (by omega)

end RoundsTo

/-! ### The last step before a power of two -/

@[simp] theorem fullMantissa_neg (p : Nat) (d : Dyadic) :
    fullMantissa p (-d) = -fullMantissa p d := by
  cases d with
  | zero => exact neg_zero.symm
  | ofOdd n k hn =>
    show -n * 2 ^ (p - bitLength (-n).natAbs) = -(n * 2 ^ (p - bitLength n.natAbs))
    rw [Int.natAbs_neg, neg_mul]

/-- The number of `p` bits that are all set, whose mantissa is odd. -/
theorem exists_all_set (hp : 0 < p) (s : Int) :
    ∃ c : Dyadic, significantBits c ≤ p ∧ c.toRat = (2 ^ p - 1) * 2 ^ s ∧ ¬Even (fullMantissa p c) := by
  obtain ⟨k, rfl⟩ : ∃ k, p = k + 1 := ⟨p - 1, by omega⟩
  have hk := Nat.one_le_two_pow (n := k)
  have hcast : (2 ^ (k + 1) - 1 : Int) = (2 ^ (k + 1) - 1 : Nat) := by
    push_cast [Nat.one_le_two_pow (n := k + 1)]
    rfl
  have hodd : (2 ^ (k + 1) - 1 : Int) % 2 = 1 := by omega
  have hbits : bitLength (2 ^ (k + 1) - 1 : Int).natAbs = k + 1 := by
    rw [hcast, Int.natAbs_natCast]
    refine le_antisymm (bitLength_le_iff.mpr (by omega)) ?_
    rw [Nat.succ_le_iff, ← not_le, bitLength_le_iff, pow_succ]
    omega
  refine ⟨.ofOdd (2 ^ (k + 1) - 1) (-s) hodd, hbits.le, ?_, ?_⟩
  · rw [Dyadic.toRat_ofOdd_eq_mul_two_pow, neg_neg]
    push_cast
    rfl
  · rw [fullMantissa, hbits, Nat.sub_self, pow_zero, mul_one, Int.even_iff]
    omega

/-- The power of two that follows the number of `p` bits that are all set. -/
theorem exists_power (hp : 0 < p) (s : Int) :
    ∃ c : Dyadic, significantBits c ≤ p ∧ c.toRat = 2 ^ p * 2 ^ s := by
  refine ⟨.ofIntWithPrec (2 ^ p) (-s), BigReal.significantBits_ofIntWithPrec_le hp ?_, ?_⟩
  · rw [Int.natAbs_pow]
    rfl
  · rw [Dyadic.toRat_ofIntWithPrec_eq_mul_two_pow, neg_neg]
    push_cast
    rfl

/-- There are no bits for a number between the two. -/
theorem all_set_or_power_le (hp : 0 < p) (h : significantBits d ≤ p) (s : Int) :
    d.toRat ≤ (2 ^ p - 1) * 2 ^ s ∨ 2 ^ p * 2 ^ s ≤ d.toRat := by
  have hstep : (0 : Rat) < 2 ^ s := zpow_pos two_pos s
  rcases multiple_or_below hp h s with ⟨j, hj⟩ | hsmall
  · rw [hj]
    rcases lt_or_ge j (2 ^ p) with hj | hj
    · have : (j : Rat) ≤ 2 ^ p - 1 := by exact_mod_cast Int.le_sub_one_of_lt hj
      exact .inl (mul_le_mul_of_nonneg_right this hstep.le)
    · have : (2 : Rat) ^ p ≤ j := by exact_mod_cast hj
      exact .inr (mul_le_mul_of_nonneg_right this hstep.le)
  · left
    have hhalf : (2 ^ (p - 1) : Rat) ≤ 2 ^ p - 1 := by
      have hpow : (2 : Rat) ^ p = 2 ^ (p - 1) * 2 := by rw [← pow_succ, Nat.sub_add_cancel hp]
      have hone : (1 : Rat) ≤ 2 ^ (p - 1) := one_le_pow₀ one_le_two
      linarith
    calc d.toRat ≤ |d.toRat| := le_abs_self _
      _ ≤ 2 ^ (p - 1) * 2 ^ s := by exact_mod_cast hsmall.le
      _ ≤ (2 ^ p - 1) * 2 ^ s := mul_le_mul_of_nonneg_right hhalf hstep.le

namespace RoundsTo

/-- Rounding does not depend on the sign. -/
theorem neg (h : RoundsTo p q d) : RoundsTo p (-q) (-d) := by
  have hbits : ∀ {c : Dyadic}, significantBits c ≤ p → significantBits (-c) ≤ p :=
    fun hc => by rwa [BigReal.significantBits_neg]
  have habs : ∀ c : Dyadic, |c.toRat - -q| = |(-c).toRat - q| := by
    intro c
    rw [Dyadic.toRat_neg, ← neg_add', abs_neg, sub_neg_eq_add]
  have hneg : - -d = d := by
    rw [← Dyadic.toRat_inj, Dyadic.toRat_neg, Dyadic.toRat_neg, neg_neg]
  refine ⟨hbits h.significantBits_le, fun c hc => ?_, fun c hc hne htie => ?_⟩
  · rw [habs, habs, hneg]
    exact h.nearest (-c) (hbits hc)
  · rw [habs, habs, hneg] at htie
    rw [fullMantissa_neg, even_neg]
    refine h.even (-c) (hbits hc) (fun hc' => hne ?_) htie
    rw [← Dyadic.toRat_inj, ← hc', Dyadic.toRat_neg, Dyadic.toRat_neg, neg_neg]

/-- A bound of few enough bits is kept. -/
theorem le_of_le {c : Dyadic} (h : RoundsTo p q d) (hc : significantBits c ≤ p) (hq : q ≤ c.toRat) :
    d.toRat ≤ c.toRat := by
  have hnear := h.nearest c hc
  rw [abs_of_nonneg (sub_nonneg.mpr hq)] at hnear
  linarith [le_abs_self (d.toRat - q)]

/-- A number of few enough bits is rounded to itself only. -/
theorem eq_of_exact {c : Dyadic} (h : RoundsTo p q d) (hc : significantBits c ≤ p)
    (hq : c.toRat = q) : d.toRat = q := by
  have hnear := h.nearest c hc
  rw [hq, sub_self, abs_zero] at hnear
  exact sub_eq_zero.mp (abs_nonpos_iff.mp hnear)

/-- The error is at most half of the last bit that is kept. -/
theorem abs_sub_le (h : RoundsTo p q d) (hp : 0 < p) : |d.toRat - q| ≤ |q| / 2 ^ p := by
  by_cases hq : q = 0
  · have hzero : d.toRat = 0 := hq ▸ h.eq_of_exact (c := 0) (Nat.zero_le p) (Dyadic.toRat_zero.trans hq.symm)
    rw [hzero, hq, sub_zero, abs_zero, zero_div]
  · have hlow : (2 : Rat) ^ Int.log 2 |q| ≤ |q| := Int.zpow_log_le_self one_lt_two (abs_pos.mpr hq)
    have hhigh : |q| < (2 : Rat) ^ (Int.log 2 |q| + 1) := Int.lt_zpow_succ_log_self one_lt_two |q|
    -- The candidate is the nearest multiple of the bit that is the `p`-th one of the number.
    set s := Int.log 2 |q| + 1 - p with hs
    have hstep : (0 : Rat) < 2 ^ s := zpow_pos two_pos s
    have hround := abs_sub_round (q / 2 ^ s)
    set m := round (q / 2 ^ s)
    have hfits : m.natAbs ≤ 2 ^ p := by
      have hbound : |q / 2 ^ s| < 2 ^ p := by
        rw [abs_div, abs_of_pos hstep, div_lt_iff₀ hstep, ← zpow_natCast, ← zpow_add₀ two_ne_zero]
        exact hhigh.trans_eq (by congr 1; omega)
      have hm : (m.natAbs : Rat) < 2 ^ p + 1 := by
        have htri := abs_sub_abs_le_abs_sub (m : Rat) (q / 2 ^ s)
        rw [abs_sub_comm] at htri
        rw [Nat.cast_natAbs, Int.cast_abs]
        linarith
      exact Nat.lt_succ_iff.mp (by exact_mod_cast hm)
    have hvalue : (Dyadic.ofIntWithPrec m (-s)).toRat = m * 2 ^ s := by
      rw [Dyadic.toRat_ofIntWithPrec_eq_mul_two_pow, neg_neg]
    calc |d.toRat - q| ≤ |m * 2 ^ s - q| := by
          rw [← hvalue]
          exact h.nearest _ (BigReal.significantBits_ofIntWithPrec_le hp hfits)
      _ = |q / 2 ^ s - m| * 2 ^ s := by
          rw [← abs_of_pos hstep, ← abs_mul, abs_of_pos hstep, sub_mul, div_mul_cancel₀ _ hstep.ne',
            abs_sub_comm]
      _ ≤ 1 / 2 * 2 ^ s := mul_le_mul_of_nonneg_right hround hstep.le
      _ = 2 ^ Int.log 2 |q| / 2 ^ p := by
          rw [hs, zpow_sub₀ two_ne_zero, zpow_add_one₀ two_ne_zero, zpow_natCast]
          ring
      _ ≤ |q| / 2 ^ p := div_le_div_of_nonneg_right hlow (by positivity)

/-- A power of two is a bound of the rounding as it is one of the number. -/
theorem abs_le_power (hp : 0 < p) (h : RoundsTo p q d) {s : Int} (hq : |q| ≤ 2 ^ s) :
    |d.toRat| ≤ 2 ^ s := by
  obtain ⟨c, hc, hvalue⟩ := exists_power hp (s - p)
  rw [← zpow_natCast, ← zpow_add₀ two_ne_zero, add_sub_cancel] at hvalue
  rw [← hvalue] at hq ⊢
  have hneg := h.neg.le_of_le hc (neg_le.mp (abs_le.mp hq).1)
  rw [Dyadic.toRat_neg] at hneg
  exact abs_le.mpr ⟨neg_le.mp hneg, h.le_of_le hc (abs_le.mp hq).2⟩

theorem power_le_abs (hp : 0 < p) (h : RoundsTo p q d) {s : Int} (hq : 2 ^ s ≤ |q|) :
    2 ^ s ≤ |d.toRat| := by
  obtain ⟨c, hc, hvalue⟩ := exists_power hp (s - p)
  rw [← zpow_natCast, ← zpow_add₀ two_ne_zero, add_sub_cancel] at hvalue
  have hc' : significantBits (-c) ≤ p := by rwa [BigReal.significantBits_neg]
  rw [← hvalue] at hq ⊢
  rcases le_abs.mp hq with hq | hq
  · have := h.neg.le_of_le hc' (by rw [Dyadic.toRat_neg]; linarith)
    rw [Dyadic.toRat_neg, Dyadic.toRat_neg] at this
    exact le_abs.mpr (.inl (neg_le_neg_iff.mp this))
  · have := h.le_of_le hc' (by rw [Dyadic.toRat_neg]; linarith)
    rw [Dyadic.toRat_neg] at this
    exact le_abs.mpr (.inr (by linarith))

/-- Only zero is rounded to zero. -/
theorem toRat_eq_zero_iff (hp : 0 < p) (h : RoundsTo p q d) : d.toRat = 0 ↔ q = 0 := by
  constructor
  · intro hd
    by_contra hq
    -- A power of two below the number stays below what it is rounded to.
    obtain ⟨s, hs, -⟩ := exists_mem_Ico_zpow (abs_pos.mpr hq) (one_lt_two (α := Rat))
    have hle := h.power_le_abs hp hs
    rw [hd, abs_zero] at hle
    exact absurd hle (not_le.mpr (zpow_pos two_pos s))
  · rintro rfl
    exact h.eq_of_exact (c := 0) (Nat.zero_le p) Dyadic.toRat_zero

/-- A rational with few enough bits in its numerator is exact if and only if its denominator is a power of
two. -/
theorem toRat_eq_iff (hp : 0 < p) (h : RoundsTo p q d) (hnum : q.num.natAbs ≤ 2 ^ p) :
    d.toRat = q ↔ ∃ k, q.den = 2 ^ k := by
  constructor
  · rintro rfl
    exact den_toRat d
  · rintro ⟨k, hk⟩
    refine h.eq_of_exact (c := .ofIntWithPrec q.num k)
      (BigReal.significantBits_ofIntWithPrec_le hp hnum) ?_
    rw [Dyadic.toRat_ofIntWithPrec_eq_mul_two_pow, zpow_neg, zpow_natCast, ← div_eq_mul_inv]
    have hden : (2 : Rat) ^ k = q.den := by exact_mod_cast hk.symm
    rw [hden, Rat.num_div_den]

/-- A number reaches the middle between a power of two and the number of `p` bits below it exactly if its
rounding does. -/
theorem middle_le_iff (hp : 0 < p) (h : RoundsTo p q d) (s : Int) :
    (2 ^ (p + 1) - 1) * 2 ^ (s - 1) ≤ d.toRat ↔ (2 ^ (p + 1) - 1) * 2 ^ (s - 1) ≤ q := by
  have hstep : (0 : Rat) < 2 ^ s := zpow_pos two_pos s
  obtain ⟨below, hbelowBits, hbelow, hodd⟩ := exists_all_set hp s
  obtain ⟨power, hpowerBits, hpower⟩ := exists_power hp s
  have hlt : below.toRat < power.toRat := by
    rw [hbelow, hpower]
    exact mul_lt_mul_of_pos_right (sub_one_lt _) hstep
  have hmiddle : (below.toRat + power.toRat) / 2 = (2 ^ (p + 1) - 1) * 2 ^ (s - 1) := by
    rw [hbelow, hpower, zpow_sub_one₀ two_ne_zero]
    ring
  have hgap : d.toRat ≤ below.toRat ∨ power.toRat ≤ d.toRat := by
    rw [hbelow, hpower]
    exact all_set_or_power_le hp h.significantBits_le s
  have hiff : power.toRat ≤ d.toRat ↔ (below.toRat + power.toRat) / 2 ≤ q := by
    refine le_nearest_iff hlt hgap (h.nearest _ hbelowBits) (h.nearest _ hpowerBits) fun heq htie => ?_
    obtain rfl := Dyadic.toRat_inj.mp heq
    exact hodd (h.even _ hpowerBits (fun h => hlt.ne' (congrArg Dyadic.toRat h)) htie)
  rw [← hmiddle, ← hiff]
  constructor
  · intro hle
    exact hgap.resolve_left (by linarith)
  · intro hle
    linarith

end RoundsTo

/-! ### Signs -/

/-- A magnitude with a sign, as a rational. -/
def withSign (negative : Bool) (x : Rat) : Rat :=
  if negative then -x else x

@[simp] theorem abs_withSign (negative : Bool) (x : Rat) : |withSign negative x| = |x| := by
  cases negative with
  | true => exact abs_neg x
  | false => rfl

theorem withSign_natCast (negative : Bool) (n : Nat) :
    withSign negative n = (Numeral.signed negative n : Int) := by
  cases negative with
  | true => exact (Int.cast_neg _).symm
  | false => rfl

theorem withSign_mul (negative : Bool) (x y : Rat) :
    withSign negative (x * y) = withSign negative x * y := by
  cases negative with
  | true => exact (neg_mul x y).symm
  | false => rfl

theorem withSign_div (negative : Bool) (x y : Rat) :
    withSign negative (x / y) = withSign negative x / y := by
  rw [div_eq_mul_inv, withSign_mul, ← div_eq_mul_inv]

/-- An integer is its magnitude with its sign. -/
theorem withSign_natAbs (z : Int) : withSign (decide (z < 0)) z.natAbs = z := by
  rw [Nat.cast_natAbs, Int.cast_abs]
  by_cases h : z < 0
  · rw [decide_eq_true h, abs_of_neg (Int.cast_lt_zero.mpr h)]
    exact neg_neg _
  · rw [decide_eq_false h, abs_of_nonneg (Int.cast_nonneg (Int.not_lt.mp h))]
    rfl

/-- A quotient is negative if the signs of its parts differ. -/
theorem withSign_bne (s t : Bool) (x y : Rat) :
    withSign (s != t) (x / y) = withSign s x / withSign t y := by
  cases s <;> cases t <;> simp [withSign, div_neg, neg_div]

theorem NearestInt.withSign {x : Rat} {n : Nat} (h : NearestInt x n) (negative : Bool) :
    NearestInt (withSign negative x) (Numeral.signed negative n) := by
  cases negative with
  | true => exact h.neg
  | false => exact h

/-! ### Operations -/

namespace BigReal

/-- A real of precision `p` whose value is `q` rounded to `p` significant bits. -/
structure Rounds (p : Nat) (q : Rat) (r : BigReal) : Prop where
  precision : r.precision = p
  value : RoundsTo p q r.value

variable {negative sticky : Bool} {n num den : Nat} {e : Int} {f : Rat}

theorem two_le_effectivePrecision (p : Nat) : 2 ≤ effectivePrecision p :=
  Nat.le_max_right p 2

/-- The effective precision of a precision is itself. -/
theorem effectivePrecision_of_le (h : 2 ≤ p) : effectivePrecision p = p :=
  Nat.max_eq_left h

theorem rounds_zero (p : Nat) : Rounds (effectivePrecision p) 0 (zero p) where
  precision := rfl
  value := .of_exact (zero p).significantBits_le (by simp [zero, ofScaled])

/-- Rounding a magnitude below which `f` is cut off rounds the whole of both, if bits of the magnitude
are dropped whenever there is something cut off. -/
theorem rounds_rounded (h0 : 0 ≤ f) (h1 : f < 1) (hsticky : sticky = true ↔ f ≠ 0)
    (hbits : sticky = true → effectivePrecision p < bitLength n) :
    Rounds (effectivePrecision p) (withSign negative ((n + f) * 2 ^ e))
      (rounded negative n e sticky p) := by
  refine ⟨rfl, ?_⟩
  have hdrop : sticky = true → excessBits n p ≠ 0 := fun h => Nat.sub_ne_zero_of_lt (hbits h)
  by_cases hexcess : excessBits n p = 0
  · -- Nothing is dropped, so nothing was cut off.
    have hf : f = 0 := by
      by_contra hne
      exact hdrop (hsticky.mpr hne) hexcess
    refine .of_exact (rounded negative n e sticky p).significantBits_le ?_
    simp only [rounded, ofScaled, Dyadic.toRat_ofIntWithPrec_eq_mul_two_pow, neg_neg, hexcess, hf,
      roundBits, if_true, Nat.cast_zero, add_zero, withSign_mul, withSign_natCast]
  · have hbits : bitLength n = effectivePrecision p + excessBits n p := by
      unfold excessBits at hexcess ⊢
      omega
    have hp := two_le_effectivePrecision p
    have hnear : NearestInt (withSign negative ((n + f) / 2 ^ excessBits n p))
        (Numeral.signed negative (roundBits n (excessBits n p) sticky)) :=
      (nearestInt_roundBits h0 h1 hsticky hdrop).withSign negative
    refine .of_nearestInt hp ?_ ?_ ?_
    · rw [zpow_add₀ two_ne_zero, zpow_natCast, withSign_mul, ← div_div,
        mul_div_cancel_right₀ _ (zpow_ne_zero e two_ne_zero), ← withSign_div]
      exact hnear
    · rw [natAbs_signed]
      exact roundBits_excess_le n p sticky
    · have hn : (2 : Rat) ^ (bitLength n - 1) ≤ n := by
        exact_mod_cast two_pow_le_of_bitLength (show bitLength n - 1 < bitLength n by omega)
      have hpos : (0 : Rat) < 2 ^ e := zpow_pos two_pos e
      calc ((2 ^ (effectivePrecision p - 1) : Int) : Rat) * 2 ^ (e + (excessBits n p : Int))
          = 2 ^ (bitLength n - 1) * 2 ^ e := by
            push_cast
            rw [← zpow_natCast, ← zpow_natCast, ← zpow_add₀ two_ne_zero, ← zpow_add₀ two_ne_zero]
            congr 1
            omega
        _ ≤ (n + f) * 2 ^ e := mul_le_mul_of_nonneg_right (by linarith) hpos.le
        _ = |withSign negative ((n + f) * 2 ^ e)| := by
            rw [abs_withSign, abs_of_nonneg (by positivity)]

theorem rounds_ofMagnitude (negative : Bool) (n : Nat) (e : Int) (p : Nat) :
    Rounds (effectivePrecision p) (withSign negative (n * 2 ^ e)) (ofMagnitude negative n e p) := by
  have h : Rounds (effectivePrecision p) (withSign negative ((n + 0) * 2 ^ e))
      (rounded negative n e false p) := rounds_rounded le_rfl one_pos (by simp) (by simp)
  rwa [add_zero] at h

/-- The shifted quotient has the bits of the precision and the guard bits at least. -/
theorem lt_bitLength_quotient (hnum : 0 < num) (hden : 0 < den) (p : Nat) :
    effectivePrecision p < bitLength (num * 2 ^ (quotientShift num den p).toNat /
      (den * 2 ^ (-quotientShift num den p).toNat)) := by
  set shift := quotientShift num den p with hshift
  have hd : 0 < den * 2 ^ (-shift).toNat := by positivity
  rw [← not_le, bitLength_le_iff, not_lt, Nat.le_div_iff_mul_le hd]
  -- The lengths alone give a bound that leaves one guard bit.
  have hbound : (2 : Rat) ^ effectivePrecision p ≤
      (num * 2 ^ shift.toNat : Nat) / (den * 2 ^ (-shift).toNat : Nat) := by
    have hshift' : ((effectivePrecision p : Nat) : Int) ≤
        (bitLength num : Int) - bitLength den - 1 + shift := by
      simp only [hshift, quotientShift, guardBits]
      omega
    calc (2 : Rat) ^ effectivePrecision p
        ≤ 2 ^ ((bitLength num : Int) - bitLength den - 1 + shift) := by
          rw [← zpow_natCast]
          exact zpow_le_zpow_right₀ one_le_two hshift'
      _ = 2 ^ ((bitLength num : Int) - bitLength den - 1) * 2 ^ shift := zpow_add₀ two_ne_zero _ _
      _ ≤ num / den * 2 ^ shift :=
          mul_le_mul_of_nonneg_right (two_zpow_bitLength_le hnum hden) (zpow_pos two_pos _).le
      _ = (num * 2 ^ shift.toNat : Nat) / (den * 2 ^ (-shift).toNat : Nat) :=
          (shifted_div num den shift).symm
  rw [le_div_iff₀ (Nat.cast_pos.mpr hd)] at hbound
  exact_mod_cast hbound

/-- A quotient is rounded as the exact one is, though only its truncated whole part and whether there is a
remainder are known. -/
theorem rounds_ofQuotient (negative : Bool) (num : Nat) (hden : 0 < den) (e : Int) (p : Nat) :
    Rounds (effectivePrecision p) (withSign negative (num / den * 2 ^ e))
      (ofQuotient negative num den e p) := by
  unfold ofQuotient
  split
  case isTrue hzero =>
    have h := rounds_zero p
    rwa [hzero, Nat.cast_zero, zero_div, zero_mul, withSign, neg_zero, ite_self]
  case isFalse hnum =>
    simp only
    set shift := quotientShift num den p
    set n := num * 2 ^ shift.toNat
    set d := den * 2 ^ (-shift).toNat
    have hdpos : 0 < d := by positivity
    have hd' : (0 : Rat) < d := Nat.cast_pos.mpr hdpos
    -- What is cut off is the fraction of the remainder.
    have hsplit : (num : Rat) / den * 2 ^ e =
        (((n / d : Nat) : Rat) + (n % d : Nat) / d) * 2 ^ (e - shift) := by
      rw [← div_eq_whole_add n hdpos, shifted_div, mul_assoc, ← zpow_add₀ two_ne_zero,
        add_sub_cancel]
    rw [hsplit]
    refine rounds_rounded (by positivity) ?_ ?_ fun _ => ?_
    · rw [div_lt_one hd']
      exact_mod_cast Nat.mod_lt n hdpos
    · rw [bne_iff_ne, Ne, Ne, div_eq_zero_iff, Nat.cast_eq_zero, Nat.cast_eq_zero]
      simp [hdpos.ne']
    · exact lt_bitLength_quotient (Nat.pos_of_ne_zero hnum) hden p

/-- The exact value by mantissa and exponent. -/
theorem toRat_eq_mantissa (x : BigReal) : x.toRat = x.mantissa * 2 ^ x.exponent := by
  unfold toRat mantissa exponent
  cases x.value with
  | zero => simp [Dyadic.toRat]
  | ofOdd n k hn => exact Dyadic.toRat_ofOdd_eq_mul_two_pow

theorem isNegative_eq (x : BigReal) : x.isNegative = decide (x.toRat < 0) := by
  have hscale : (0 : Rat) < 2 ^ x.exponent := zpow_pos two_pos _
  rw [isNegative, decide_eq_decide, toRat_eq_mantissa, mul_neg_iff]
  simp [hscale, hscale.not_gt]

theorem mantissa_eq_zero_iff (x : BigReal) : x.mantissa = 0 ↔ x.toRat = 0 := by
  rw [toRat_eq_mantissa, mul_eq_zero, Int.cast_eq_zero,
    or_iff_left (zpow_ne_zero _ two_ne_zero)]

theorem isZero_iff (x : BigReal) : x.isZero = true ↔ x.toRat = 0 := by
  rw [isZero, beq_iff_eq, mantissa_eq_zero_iff]

theorem rounds_ofInt (z : Int) (p : Nat) : Rounds (effectivePrecision p) z (ofInt z p) := by
  have h := rounds_ofMagnitude (decide (z < 0)) z.natAbs 0 p
  rwa [zpow_zero, mul_one, withSign_natAbs] at h

theorem rounds_ofRat (q : Rat) (p : Nat) : Rounds (effectivePrecision p) q (ofRat q p) := by
  have h := rounds_ofQuotient (decide (q < 0)) q.num.natAbs q.den_pos 0 p
  have hsign : decide (q < 0) = decide (q.num < 0) := by rw [decide_eq_decide, Rat.num_neg]
  rw [zpow_zero, mul_one, withSign_div, hsign, withSign_natAbs, Rat.num_div_den, ← hsign] at h
  exact h

theorem rounds_round (d : Dyadic) (p : Nat) : Rounds (effectivePrecision p) d.toRat (round d p) := by
  cases d with
  | zero => exact rounds_zero p
  | ofOdd n k hn =>
    have hvalue : (Dyadic.ofOdd n k hn).toRat = n * 2 ^ (-k) := Dyadic.toRat_ofOdd_eq_mul_two_pow
    have h := rounds_ofMagnitude (decide (n < 0)) n.natAbs (-k) p
    rwa [withSign_mul, withSign_natAbs, ← hvalue] at h

/-- The greater precision of two operands is at least two bits already. -/
theorem effectivePrecision_joint (x y : BigReal) :
    effectivePrecision (jointPrecision x y) = max x.precision y.precision :=
  effectivePrecision_of_le (le_max_of_le_left x.two_le_precision)

/-- There is no quotient by zero. -/
theorem divide?_eq_none {x y : BigReal} (hy : y.toRat = 0) : x.divide? y = none := by
  rw [← mantissa_eq_zero_iff] at hy
  simp [divide?, isZero, hy]

theorem rounds_divide? {x y : BigReal} (hy : y.toRat ≠ 0) :
    ∃ r, x.divide? y = some r ∧
      Rounds (max x.precision y.precision) (x.toRat / y.toRat) r := by
  rw [Ne, ← mantissa_eq_zero_iff] at hy
  have hzero : y.isZero = false := by simpa [isZero] using hy
  have h := rounds_ofQuotient (x.isNegative != y.isNegative) x.mantissa.natAbs
    (Int.natAbs_pos.mpr hy) (x.exponent - y.exponent) (jointPrecision x y)
  have hx : withSign x.isNegative x.mantissa.natAbs = x.mantissa := withSign_natAbs x.mantissa
  have hy : withSign y.isNegative y.mantissa.natAbs = y.mantissa := withSign_natAbs y.mantissa
  rw [withSign_mul, withSign_bne, hx, hy, zpow_sub₀ two_ne_zero, ← mul_div_mul_comm,
    ← toRat_eq_mantissa, ← toRat_eq_mantissa, effectivePrecision_joint] at h
  refine ⟨_, ?_, h⟩
  rw [divide?, hzero]
  rfl

theorem rounds_add (x y : BigReal) : Rounds (max x.precision y.precision) (x.toRat + y.toRat) (x.add y) := by
  rw [← effectivePrecision_joint, toRat, toRat, ← Dyadic.toRat_add]
  exact rounds_round (x.value + y.value) (jointPrecision x y)

theorem rounds_sub (x y : BigReal) : Rounds (max x.precision y.precision) (x.toRat - y.toRat) (x.sub y) := by
  rw [← effectivePrecision_joint, toRat, toRat, ← Dyadic.toRat_sub]
  exact rounds_round (x.value - y.value) (jointPrecision x y)

theorem rounds_mul (x y : BigReal) : Rounds (max x.precision y.precision) (x.toRat * y.toRat) (x.mul y) := by
  rw [← effectivePrecision_joint, toRat, toRat, ← Dyadic.toRat_mul]
  exact rounds_round (x.value * y.value) (jointPrecision x y)

end BigReal

end NumericTower
