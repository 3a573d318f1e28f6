import Mathlib
import NumericTower.BigReal.Decimal
import NumericTower.Proofs.BigReal.NormalForm
import NumericTower.Proofs.Decimal.Text

/-!
# What is displayed of a real

The exact decimal fraction of a real that is no integer has an odd coefficient, so it has as many significant
digits as the coefficient. If those are too many, the fraction is rounded at the place that leaves the digits
allowed, or at the units if there are more digits in front of the point. A carry may make one digit more of
it, which the value does not show.

## Key results
- `hasDigits_iff`: the digits of a coefficient that ten does not divide are significant
- `BigReal.roundDecimal_rounds`: where a decimal fraction is rounded
- `BigReal.exists_displayed`: what the text of a real stands for
- `BigReal.display_is_exact_or_rounded_half_even`
-/

namespace NumericTower

variable {n c : Nat} {q v : Rat} {t : Int}

/-- The number has at most `n` significant decimal digits. -/
def HasDigits (n : Nat) (q : Rat) : Prop :=
  ∃ (c : Nat) (t : Int), c < 10 ^ n ∧ |q| = c * 10 ^ t

/-- The `n`-th significant digit of the number has the place `10 ^ t`. -/
structure IsPlace (n : Nat) (q : Rat) (t : Int) : Prop where
  le : (10 : Rat) ^ ((n : Int) - 1 + t) ≤ |q|
  lt : |q| < (10 : Rat) ^ ((n : Int) + t)

/-- The number `v` is `q` rounded at the place `10 ^ t`, a half going to the even neighbour. -/
def RoundsAt (q : Rat) (t : Int) (v : Rat) : Prop :=
  ∃ k : Int, NearestInt (q / 10 ^ t) k ∧ v = k * 10 ^ t

theorem ten_zpow_pos (t : Int) : (0 : Rat) < 10 ^ t :=
  zpow_pos (by norm_num) t

/-- How many digits the number has in front of the point; none if there is only a zero. -/
def integerDigits (q : Rat) : Nat :=
  (Nat.digits 10 ⌊|q|⌋₊).length

/-- What is displayed of a number with `n` digits: the number itself if it is an integer or has no more digits,
and otherwise the number rounded at the `n`-th digit, but never in front of the point. -/
structure Displays (n : Nat) (q v : Rat) : Prop where
  exact : (∃ z : Int, q = z) ∨ HasDigits n q → v = q
  rounded : ¬(∃ z : Int, q = z) → ¬HasDigits n q →
    ∃ t ≤ 0, IsPlace (max n (integerDigits q)) q t ∧ RoundsAt q t v

/-- The digits of a coefficient that ten does not divide are all significant. -/
theorem hasDigits_iff (hq : |q| = c * 10 ^ t) (hc : ¬10 ∣ c) : HasDigits n q ↔ c < 10 ^ n := by
  refine ⟨fun ⟨b, s, hb, hs⟩ => ?_, fun h => ⟨c, t, h, hq⟩⟩
  rw [hq] at hs
  rcases le_or_gt s t with hle | hlt
  · -- The other coefficient has all digits of this one and perhaps zeros at the end.
    obtain ⟨j, rfl⟩ := Int.le.dest hle
    have hb' : b = c * 10 ^ j := eq_mul_pow_of_scaled (by decide) (by exact_mod_cast hs.symm)
    exact (Nat.le_mul_of_pos_right c (by positivity)).trans_lt (hb'.symm.trans_lt hb)
  · -- This one would have a zero at the end.
    obtain ⟨j, rfl⟩ := Int.le.dest hlt.le
    have hc' : c = b * 10 ^ j := eq_mul_pow_of_scaled (by decide) (by exact_mod_cast hs)
    exact absurd (hc' ▸ (dvd_pow_self 10 (by omega)).mul_left b) hc

/-- What is displayed does not depend on the sign. -/
theorem Displays.neg (h : Displays n q v) : Displays n (-q) (-v) := by
  have hinteger : (∃ z : Int, -q = z) ↔ ∃ z : Int, q = z := by
    constructor
    · rintro ⟨z, hz⟩
      exact ⟨-z, by rw [Int.cast_neg, ← hz, neg_neg]⟩
    · rintro ⟨z, hz⟩
      exact ⟨-z, by rw [Int.cast_neg, hz]⟩
  have hdigits : HasDigits n (-q) ↔ HasDigits n q := by rw [HasDigits, HasDigits, abs_neg]
  constructor
  · rw [hinteger, hdigits, neg_inj]
    exact h.exact
  · rw [hinteger, hdigits]
    intro hz hn
    obtain ⟨t, ht, hplace, k, hk, hv⟩ := h.rounded hz hn
    refine ⟨t, ht, ⟨?_, ?_⟩, -k, ?_, ?_⟩
    · rw [integerDigits, abs_neg]
      exact hplace.le
    · rw [integerDigits, abs_neg]
      exact hplace.lt
    · rw [neg_div]
      exact hk.neg
    · rw [hv, Int.cast_neg, neg_mul]

/-- Not all digits are rounded away, so a positive number is displayed as one. -/
theorem Displays.pos (h : Displays n q v) (hn : 0 < n) (hq : 0 < q) : 0 < v := by
  by_cases hexact : (∃ z : Int, q = z) ∨ HasDigits n q
  · rw [h.exact hexact]
    exact hq
  · rw [not_or] at hexact
    obtain ⟨t, -, hplace, k, hk, rfl⟩ := h.rounded hexact.1 hexact.2
    have hunit := ten_zpow_pos t
    have hone : ((1 : Int) : Rat) ≤ q / 10 ^ t := by
      rw [Int.cast_one, one_le_div hunit, ← abs_of_pos hq]
      exact (zpow_le_zpow_right₀ (by norm_num) (by omega)).trans hplace.le
    exact mul_pos (Int.cast_pos.mpr (hk.le_of_ge hone)) hunit

theorem Displays.neg_iff (h : Displays n q v) (hn : 0 < n) : v < 0 ↔ q < 0 := by
  rcases lt_trichotomy q 0 with hq | rfl | hq
  · exact iff_of_true (neg_pos.mp (h.neg.pos hn (neg_pos.mpr hq))) hq
  · rw [h.exact (.inl ⟨0, Int.cast_zero.symm⟩)]
  · exact iff_of_false (h.pos hn hq).not_gt hq.not_gt

namespace BigReal

variable {d : Decimal} {limit : Nat}

/-! ### Rounding a decimal fraction -/

/-- A decimal fraction with few enough digits, or with none behind the point, is left as it is. -/
theorem roundDecimal_eq (hlimit : 0 < limit) (h : d.coefficient < 10 ^ limit ∨ d.places = 0) :
    roundDecimal d limit = d := by
  have hexcess : min ((Numeral.toDigits 10 d.coefficient).length - limit) d.places = 0 := by
    rcases h with h | h
    · rw [Nat.sub_eq_zero_of_le ((Numeral.length_toDigits_le_iff (by decide) hlimit).mpr h), Nat.zero_min]
    · rw [h, Nat.min_zero]
  unfold roundDecimal
  rw [hexcess]
  simp [nearestEven, Nat.mod_one]

theorem integerDigits_toRat (d : Decimal) :
    integerDigits d.toRat = (Nat.digits 10 d.coefficient).length - d.places := by
  have hfloor : ⌊|d.toRat|⌋₊ = d.coefficient / 10 ^ d.places := by
    rw [Decimal.toRat, abs_of_nonneg (by positivity)]
    exact_mod_cast Nat.floor_div_eq_div (K := Rat) d.coefficient (10 ^ d.places)
  rw [integerDigits, hfloor]
  refine eq_of_forall_lt_iff fun k => ?_
  rw [Nat.lt_digits_length_iff (by decide), Nat.le_div_iff_mul_le (by positivity), ← pow_add,
    ← Nat.lt_digits_length_iff (by decide), Nat.lt_sub_iff_add_lt]

/-- Wherever it is cut, the leading digit of a decimal fraction keeps its place. -/
theorem isPlace_toRat (hd : d.coefficient ≠ 0)
    (h : (n : Int) + t = (Nat.digits 10 d.coefficient).length - d.places) : IsPlace n d.toRat t := by
  have hten : (10 : Rat) ≠ 0 := by norm_num
  obtain ⟨hpos, hlow, hhigh⟩ := Numeral.length_digits_spec hd
  set len := (Nat.digits 10 d.coefficient).length
  have hunit := ten_zpow_pos (-(d.places : Int))
  constructor
  · rw [d.abs_toRat, show (n : Int) - 1 + t = (len - 1 : Nat) + -(d.places : Int) by omega, zpow_add₀ hten,
      zpow_natCast]
    exact mul_le_mul_of_nonneg_right (by exact_mod_cast hlow) hunit.le
  · rw [d.abs_toRat, h, sub_eq_add_neg, zpow_add₀ hten, zpow_natCast]
    exact mul_lt_mul_of_pos_right (by exact_mod_cast hhigh) hunit

/-- Cutting places rounds at the last one that is left. -/
theorem roundsAt_toRat {k : Nat} (hk : k ≤ d.places) :
    RoundsAt d.toRat (k - d.places) (Decimal.toRat ⟨nearestEven d.coefficient (10 ^ k), d.places - k⟩) := by
  have hten : (10 : Rat) ≠ 0 := by norm_num
  refine ⟨nearestEven d.coefficient (10 ^ k), ?_, ?_⟩
  · have hscale : d.toRat / 10 ^ ((k : Int) - d.places) = d.coefficient / (10 ^ k : Nat) := by
      rw [Decimal.toRat, zpow_sub₀ hten, zpow_natCast, zpow_natCast, div_div_div_cancel_right₀ (by positivity)]
      push_cast
      rfl
    rw [hscale]
    exact nearestInt_nearestEven d.coefficient (by positivity)
  · have hunit : (10 : Rat) ^ ((k : Int) - d.places) = (10 ^ (d.places - k) : Rat)⁻¹ := by
      rw [← zpow_natCast, ← zpow_neg]
      congr 1
      omega
    rw [hunit, ← div_eq_mul_inv, Decimal.toRat, Int.cast_natCast]

/-- Too many digits are cut at the place that leaves the digits allowed, or at the units. -/
theorem roundDecimal_rounds (hlimit : 0 < limit) (h : 10 ^ limit ≤ d.coefficient) :
    ∃ t ≤ 0, IsPlace (max limit (integerDigits d.toRat)) d.toRat t ∧
      RoundsAt d.toRat t (roundDecimal d limit).toRat := by
  have hd : d.coefficient ≠ 0 := (lt_of_lt_of_le (by positivity) h).ne'
  have hlength : (Numeral.toDigits 10 d.coefficient).length = (Nat.digits 10 d.coefficient).length := by
    rw [Numeral.toDigits_eq (by decide) hd, List.length_reverse]
  have hlimit' : limit < (Nat.digits 10 d.coefficient).length := (Nat.lt_digits_length_iff (by decide) _).mpr h
  unfold roundDecimal
  rw [hlength]
  set len := (Nat.digits 10 d.coefficient).length with hlen
  set excess := min (len - limit) d.places with hexcess
  refine ⟨excess - d.places, by omega, isPlace_toRat hd ?_, roundsAt_toRat (min_le_right _ _)⟩
  -- What is not cut is `limit` digits, or all digits in front of the point.
  rw [integerDigits_toRat]
  omega

/-! ### The exact decimal fraction -/

theorem toRat_exactDecimal (x : BigReal) : x.exactDecimal.toRat = |x.toRat| := by
  rw [abs_toRat]
  unfold exactDecimal Decimal.toRat
  split
  case isTrue he =>
    push_cast
    rw [pow_zero, div_one, ← zpow_natCast, Int.toNat_of_nonneg he]
  case isFalse he =>
    have hten : (10 : Rat) ^ x.exponent.natAbs = 2 ^ x.exponent.natAbs * 5 ^ x.exponent.natAbs := by
      rw [← mul_pow]
      norm_num
    push_cast
    rw [hten, mul_div_mul_right _ _ (by positivity), div_eq_mul_inv, ← zpow_natCast, ← zpow_neg]
    congr 2
    omega

theorem exactDecimal_places {x : BigReal} : x.exactDecimal.places = 0 ↔ 0 ≤ x.exponent := by
  unfold exactDecimal
  split
  case isTrue he => exact iff_of_true rfl he
  case isFalse he => exact iff_of_false (by dsimp only; omega) he

/-- Of a real that is no integer the mantissa is odd, as are the powers of five. -/
theorem not_ten_dvd_coefficient {x : BigReal} (he : ¬0 ≤ x.exponent) : ¬10 ∣ x.exactDecimal.coefficient := by
  have hodd : x.mantissa % 2 = 1 := (Parts.shifted_parts x).resolve_right fun h => he h.2.ge
  intro hten
  have htwo : 2 ∣ x.mantissa.natAbs * 5 ^ x.exponent.natAbs := by
    rw [exactDecimal, if_neg he] at hten
    exact (by decide : 2 ∣ 10).trans hten
  rcases Nat.prime_two.dvd_mul.mp htwo with h | h
  · omega
  · exact absurd (Nat.prime_two.dvd_of_dvd_pow h) (by decide)

theorem abs_eq_integer_iff (x : BigReal) : (∃ z : Int, |x.toRat| = z) ↔ 0 ≤ x.exponent := by
  rw [← toRat_exactDecimal, Decimal.toRat]
  constructor
  · rintro ⟨z, hz⟩
    by_contra he
    have hplaces : x.exactDecimal.places ≠ 0 := fun h => he (exactDecimal_places.mp h)
    rw [div_eq_iff (by positivity)] at hz
    refine not_ten_dvd_coefficient he (Int.natCast_dvd_natCast.mp ?_)
    rw [show (x.exactDecimal.coefficient : Int) = z * 10 ^ x.exactDecimal.places by exact_mod_cast hz]
    exact (dvd_pow_self 10 hplaces).mul_left z
  · intro he
    rw [exactDecimal_places.mpr he, pow_zero, div_one]
    exact ⟨x.exactDecimal.coefficient, (Int.cast_natCast _).symm⟩

theorem displayDigits_pos (p : Nat) : 0 < displayDigits p :=
  le_max_right _ 1

/-- The magnitude is displayed with the digits of the precision. -/
theorem displays_abs (x : BigReal) (hlimit : 0 < limit) :
    Displays limit |x.toRat| (roundDecimal x.exactDecimal limit).toRat := by
  have habs : |(|x.toRat|)| = x.exactDecimal.coefficient * 10 ^ (-(x.exactDecimal.places : Int)) := by
    rw [abs_abs, ← x.exactDecimal.abs_toRat, toRat_exactDecimal, abs_abs]
  constructor
  · intro h
    rw [roundDecimal_eq hlimit ?_, toRat_exactDecimal]
    by_cases he : 0 ≤ x.exponent
    · exact .inr (exactDecimal_places.mpr he)
    · have hdigits := h.resolve_left fun hz => he ((abs_eq_integer_iff x).mp hz)
      exact .inl ((hasDigits_iff habs (not_ten_dvd_coefficient he)).mp hdigits)
  · intro hz hdigits
    have he : ¬0 ≤ x.exponent := fun he => hz ((abs_eq_integer_iff x).mpr he)
    rw [hasDigits_iff habs (not_ten_dvd_coefficient he), not_lt] at hdigits
    rw [← toRat_exactDecimal]
    exact roundDecimal_rounds hlimit hdigits

/-- The text of a real is the canonical form of what is displayed of it. -/
theorem exists_displayed (x : BigReal) :
    ∃ v, Decimal.Writes x.render v ∧ Displays (displayDigits x.precision) x.toRat v := by
  have hlimit := displayDigits_pos x.precision
  have habs := displays_abs x hlimit
  set d := roundDecimal x.exactDecimal (displayDigits x.precision)
  have hnonneg := d.toRat_nonneg
  obtain ⟨v, hv, hdisplays⟩ : ∃ v, |v| = d.toRat ∧ Displays (displayDigits x.precision) x.toRat v := by
    rcases abs_choice x.toRat with h | h
    · exact ⟨d.toRat, abs_of_nonneg hnonneg, h ▸ habs⟩
    · refine ⟨-d.toRat, by rw [abs_neg, abs_of_nonneg hnonneg], ?_⟩
      rw [h] at habs
      simpa only [neg_neg] using habs.neg
  refine ⟨v, ?_, hdisplays⟩
  have hsign : (x.isNegative = true) = (v < 0) := by
    rw [isNegative_eq, decide_eq_true_iff]
    exact propext (hdisplays.neg_iff hlimit).symm
  have hwrites := Decimal.writes_render hv.symm
  rw [render]
  simp only [hsign]
  exact hwrites

/-- The text of a real is a decimal number in canonical form, with a minus sign if it is negative, digits on
both sides of the point and no zeros that could be left out. It is the exact value if that is an integer or has
no more significant digits than the precision warrants. Otherwise it is the value rounded half to even at the
place that leaves so many digits, or at the units if there are more digits in front of the point. -/
theorem display_is_exact_or_rounded_half_even (x : BigReal) :
    ∃ v, Decimal.Writes x.render v ∧
      ((∃ z : Int, x.toRat = z) ∨ HasDigits (displayDigits x.precision) x.toRat → v = x.toRat) ∧
      (¬(∃ z : Int, x.toRat = z) → ¬HasDigits (displayDigits x.precision) x.toRat →
        ∃ t ≤ 0, IsPlace (max (displayDigits x.precision) (integerDigits x.toRat)) x.toRat t ∧
          RoundsAt x.toRat t v) := by
  obtain ⟨v, hwrites, hdisplays⟩ := exists_displayed x
  exact ⟨v, hwrites, hdisplays.exact, hdisplays.rounded⟩

end BigReal

end NumericTower
