import NumericTower.Proofs.BigReal.NormalForm

/-!
# Powers of binary reals

Repeated squaring rounds every product. As long as the mantissa of the power fits into the precision, no
product is changed by that: the squares and the partial products are divisors of the power, and the last
square is made only if the exponent has a bit left for it. A negative power is then rounded once, by the
quotient that inverts it.

## Key results
- `powerLoop_keeps`: what a multiplication and a squaring keep holds of the power
- `powerLoop_exact`: no product is changed if the mantissa of the power fits
- `toRat_powerLoop_eq_zero_iff`: no product vanishes
- `power_is_exact_while_mantissa_fits`
-/

namespace NumericTower.BigReal

variable {x y acc base : BigReal} {p n : Nat} {a b m : Int}

/-! ### The loop -/

/-- The last bit of the exponent is used up, which leaves twice its half. -/
theorem keeps_of_last_bit {I : BigReal → BigReal → Nat → Prop}
    (multiply : ∀ acc base n, I acc base (2 * n + 1) → I (acc.mul base) base (2 * n)) (h : I acc base n) :
    I (if n % 2 = 1 then acc.mul base else acc) base (2 * (n / 2)) := by
  split
  · refine multiply acc base (n / 2) ?_
    rwa [show 2 * (n / 2) + 1 = n by omega]
  · rwa [show 2 * (n / 2) = n by omega]

/-- What holds of the accumulator, the base and the exponent at the start, and is kept by multiplying the
base into the accumulator and by squaring the base, holds of the power when no exponent is left. -/
theorem powerLoop_keeps {I : BigReal → BigReal → Nat → Prop}
    (multiply : ∀ acc base n, I acc base (2 * n + 1) → I (acc.mul base) base (2 * n))
    (square : ∀ acc base n, n ≠ 0 → I acc base (2 * n) → I acc (base.mul base) n)
    (h : I acc base n) : ∃ base', I (powerLoop acc base n) base' 0 := by
  -- By induction on the exponent, of which every round leaves the half.
  induction n using Nat.strong_induction_on generalizing acc base with
  | _ n ih =>
    rw [powerLoop]
    split
    case isTrue hn => exact ⟨base, hn ▸ h⟩
    case isFalse hn =>
      dsimp only
      have hmultiplied := keeps_of_last_bit multiply h
      split
      case isTrue hlast =>
        rw [hlast] at hmultiplied
        exact ⟨base, hmultiplied⟩
      case isFalse hhalf => exact ih (n / 2) (by omega) (square _ _ _ hhalf hmultiplied)

/-! ### Products that are exact -/

/-- A real of precision `p` whose value is an integer `m` times a power of two. -/
def IsScaled (p : Nat) (m : Int) (x : BigReal) : Prop :=
  x.precision = p ∧ ∃ e : Int, x.toRat = m * 2 ^ e

theorem isScaled_mantissa (x : BigReal) : IsScaled x.precision x.mantissa x :=
  ⟨rfl, x.exponent, toRat_eq_mantissa x⟩

theorem rounds_mul_same (hx : x.precision = p) (hy : y.precision = p) :
    Rounds p (x.toRat * y.toRat) (x.mul y) := by
  have hrounds := rounds_mul x y
  rwa [hx, hy, max_self] at hrounds

/-- A rational whose mantissa fits into the precision is rounded to itself. -/
theorem Rounds.toRat_eq {q : Rat} {r : BigReal} {e : Int} (h : Rounds p q r) (hq : q = m * 2 ^ e)
    (hfits : m.natAbs ≤ 2 ^ p) : r.toRat = q := by
  have hp : 0 < p := h.precision ▸ Nat.lt_of_lt_of_le two_pos r.two_le_precision
  refine h.value.eq_of_exact (c := .ofIntWithPrec m (-e)) (significantBits_ofIntWithPrec_le hp hfits) ?_
  rw [Dyadic.toRat_ofIntWithPrec_eq_mul_two_pow, neg_neg, hq]

/-- A product is exact if the product of the mantissas fits. -/
theorem IsScaled.mul (hx : IsScaled p a x) (hy : IsScaled p b y) (hfits : (a * b).natAbs ≤ 2 ^ p) :
    IsScaled p (a * b) (x.mul y) ∧ (x.mul y).toRat = x.toRat * y.toRat := by
  obtain ⟨hxp, e, hxe⟩ := hx
  obtain ⟨hyp, f, hyf⟩ := hy
  have hproduct : x.toRat * y.toRat = (a * b : Int) * 2 ^ (e + f) := by
    rw [hxe, hyf, zpow_add₀ two_ne_zero, Int.cast_mul, mul_mul_mul_comm]
  have hrounds := rounds_mul_same hxp hyp
  have hexact := hrounds.toRat_eq hproduct hfits
  exact ⟨⟨hrounds.precision, e + f, hexact.trans hproduct⟩, hexact⟩

theorem one_exact (hp : 2 ≤ p) : IsScaled p 1 (one p) ∧ (one p).toRat = 1 := by
  have hrounds := rounds_ofInt 1 p
  rw [effectivePrecision_of_le hp] at hrounds
  have hscaled : ((1 : Int) : Rat) = (1 : Int) * 2 ^ (0 : Int) := by simp
  have hexact := hrounds.toRat_eq hscaled (by exact Nat.one_le_two_pow)
  exact ⟨⟨hrounds.precision, 0, hexact.trans hscaled⟩, hexact.trans Int.cast_one⟩

/-- Lower powers of an integer are no greater, the power zero apart. -/
theorem natAbs_pow_le {j k : Nat} (hj : j ≠ 0) (hjk : j ≤ k) : (b ^ j).natAbs ≤ (b ^ k).natAbs := by
  rw [Int.natAbs_pow, Int.natAbs_pow]
  rcases Nat.eq_zero_or_pos b.natAbs with hb | hb
  · rw [hb, zero_pow hj]
    exact Nat.zero_le _
  · exact Nat.pow_le_pow_right hb hjk

/-! ### Powers -/

/-- While the exponent `n` is left, `acc` and `base` have mantissas with a power that fits, and their power is
`q`. -/
def PowerFits (p : Nat) (q : Rat) (acc base : BigReal) (n : Nat) : Prop :=
  ∃ a b : Int, IsScaled p a acc ∧ IsScaled p b base ∧ (b ^ n).natAbs ≤ 2 ^ p ∧
    (a * b ^ n).natAbs ≤ 2 ^ p ∧ acc.toRat * base.toRat ^ n = q

theorem PowerFits.multiply {q : Rat} (h : PowerFits p q acc base (2 * n + 1)) :
    PowerFits p q (acc.mul base) base (2 * n) := by
  obtain ⟨a, b, hacc, hbase, hpower, hproduct, hq⟩ := h
  -- The base is a factor of its power, so no accumulator outgrows the last one.
  have hfits : (a * b).natAbs ≤ 2 ^ p := by
    refine le_trans ?_ hproduct
    rw [Int.natAbs_mul, Int.natAbs_mul]
    have hle := natAbs_pow_le (b := b) one_ne_zero (Nat.le_add_left 1 (2 * n))
    rw [pow_one] at hle
    exact Nat.mul_le_mul_left _ hle
  obtain ⟨hscaled, hexact⟩ := hacc.mul hbase hfits
  refine ⟨a * b, b, hscaled, hbase, ?_, ?_, ?_⟩
  · by_cases hn : 2 * n = 0
    · rw [hn, pow_zero]
      exact Nat.one_le_two_pow
    · exact (natAbs_pow_le hn (Nat.le_succ _)).trans hpower
  · rwa [mul_assoc, ← pow_succ']
  · rw [hexact, mul_assoc, ← pow_succ', hq]

theorem PowerFits.square {q : Rat} (hn : n ≠ 0) (h : PowerFits p q acc base (2 * n)) :
    PowerFits p q acc (base.mul base) n := by
  obtain ⟨a, b, hacc, hbase, hpower, hproduct, hq⟩ := h
  -- An exponent that is not used up has the square of the mantissa in its power.
  have hfits : (b * b).natAbs ≤ 2 ^ p := by
    rw [← pow_two]
    exact (natAbs_pow_le two_ne_zero (by omega)).trans hpower
  obtain ⟨hscaled, hexact⟩ := hbase.mul hbase hfits
  refine ⟨a, b * b, hacc, hscaled, ?_, ?_, ?_⟩
  · rwa [← pow_two, ← pow_mul]
  · rwa [← pow_two, ← pow_mul]
  · rw [hexact, ← pow_two, ← pow_mul, hq]

/-- No product of the loop is changed by rounding if the mantissa of the power fits. -/
theorem powerLoop_exact (x : BigReal) (hfits : (x.mantissa ^ n).natAbs ≤ 2 ^ x.precision) :
    (powerLoop (one x.precision) x n).toRat = x.toRat ^ n ∧
      (powerLoop (one x.precision) x n).precision = x.precision := by
  obtain ⟨hone, hvalue⟩ := one_exact x.two_le_precision
  have hstart : PowerFits x.precision (x.toRat ^ n) (one x.precision) x n := by
    refine ⟨1, x.mantissa, hone, isScaled_mantissa x, hfits, ?_, ?_⟩
    · rwa [one_mul]
    · rw [hvalue, one_mul]
  obtain ⟨base, a, b, hscaled, -, -, -, hpower⟩ :=
    powerLoop_keeps (I := PowerFits x.precision (x.toRat ^ n)) (fun _ _ _ => PowerFits.multiply)
      (fun _ _ _ => PowerFits.square) hstart
  rw [pow_zero, mul_one] at hpower
  exact ⟨hpower, hscaled.1⟩

/-- A product is zero only if a factor is, also when it is rounded. -/
theorem toRat_mul_eq_zero_iff (x y : BigReal) : (x.mul y).toRat = 0 ↔ x.toRat = 0 ∨ y.toRat = 0 := by
  have hp : 0 < max x.precision y.precision :=
    Nat.lt_of_lt_of_le two_pos (le_max_of_le_left x.two_le_precision)
  rw [toRat, (rounds_mul x y).value.toRat_eq_zero_iff hp, mul_eq_zero]

/-- Whether a zero is in the accumulator already or still to be multiplied in. -/
def Vanishes (acc base : BigReal) (n : Nat) : Prop :=
  acc.toRat = 0 ∨ base.toRat = 0 ∧ n ≠ 0

theorem vanishes_multiply : Vanishes (acc.mul base) base (2 * n) ↔ Vanishes acc base (2 * n + 1) := by
  have hn : 2 * n + 1 ≠ 0 := Nat.succ_ne_zero _
  rw [Vanishes, Vanishes, toRat_mul_eq_zero_iff, and_iff_left hn, or_assoc]
  exact or_congr_right (or_iff_left_of_imp And.left)

theorem vanishes_square (hn : n ≠ 0) : Vanishes acc (base.mul base) n ↔ Vanishes acc base (2 * n) := by
  have hn' : 2 * n ≠ 0 := mul_ne_zero two_ne_zero hn
  rw [Vanishes, Vanishes, toRat_mul_eq_zero_iff, or_self, and_iff_left hn, and_iff_left hn']

/-- A power vanishes only with its base, whatever is rounded on the way. -/
theorem toRat_powerLoop_eq_zero_iff (x : BigReal) (n : Nat) :
    (powerLoop (one x.precision) x n).toRat = 0 ↔ x.toRat = 0 ∧ n ≠ 0 := by
  have hone : (one x.precision).toRat ≠ 0 := by
    rw [(one_exact x.two_le_precision).2]
    exact one_ne_zero
  have hstart : Vanishes (one x.precision) x n ↔ x.toRat = 0 ∧ n ≠ 0 := or_iff_right hone
  obtain ⟨base, hend⟩ :=
    powerLoop_keeps (I := fun acc base k => Vanishes acc base k ↔ x.toRat = 0 ∧ n ≠ 0)
      (fun _ _ _ h => vanishes_multiply.trans h) (fun _ _ _ hk h => (vanishes_square hk).trans h) hstart
  exact (or_iff_left (fun h => h.2 rfl)).symm.trans hend

/-- A power is missing only for a negative power of zero. As long as the power of the mantissa fits into the
precision, powers are exact though every product is rounded, and a negative power is the inverse of the exact
power, rounded once. The loop on the parts, which shifts the mantissa of every product, gives the same. -/
theorem power_is_exact_while_mantissa_fits (x : BigReal) (n : Int) :
    (x.power? n = none ↔ x.toRat = 0 ∧ n < 0) ∧
      (bitLength (x.mantissa ^ n.natAbs).natAbs ≤ x.precision →
        (0 ≤ n → ∃ r, x.power? n = some r ∧ r.precision = x.precision ∧ r.toRat = x.toRat ^ n) ∧
        (n < 0 → x.toRat ≠ 0 →
          ∃ r, x.power? n = some r ∧ Rounds x.precision (1 / x.toRat ^ n.natAbs) r)) ∧
      (parts x).power? n = (x.power? n).map parts := by
  have hzero := toRat_powerLoop_eq_zero_iff x n.natAbs
  obtain ⟨hone, hvalue⟩ := one_exact x.two_le_precision
  refine ⟨?_, fun hbits => ?_, parts_power? x n⟩
  -- Only the quotient of a negative power can fail, and its divisor is rounded before.
  · by_cases hn : n < 0
    · have hne : n.natAbs ≠ 0 := by omega
      simp only [power?, hn, if_true, and_true]
      rw [divide?, ← hzero.trans (and_iff_left hne), ← isZero_iff]
      split <;> simp_all
    · simp [power?, hn]
  · have hfits := (bitLength_le_iff.mp hbits).le
    obtain ⟨hexact, hprecision⟩ := powerLoop_exact x hfits
    refine ⟨fun hn => ?_, fun hn hx => ?_⟩
    · refine ⟨_, by rw [power?, if_neg (by omega)], hprecision, hexact.trans ?_⟩
      rw [← zpow_natCast, Int.natAbs_of_nonneg hn]
    · have hne : (powerLoop (one x.precision) x n.natAbs).toRat ≠ 0 := fun h => hx (hzero.mp h).1
      obtain ⟨r, hr, hrounds⟩ := rounds_divide? (x := one x.precision) hne
      rw [hone.1, hprecision, max_self, hvalue, hexact] at hrounds
      exact ⟨r, by rw [power?, if_pos hn, hr], hrounds⟩

/-- The greatest power of three that 53 bits hold is exact, though the last square takes 51 of them, and so is
its inverse before it is rounded. -/
theorem power_is_exact_while_mantissa_fits_thirty_third :
    let x := ofInt (-3) 53
    bitLength (x.mantissa ^ 33).natAbs = 53 ∧ 53 < bitLength (x.mantissa ^ 34).natAbs ∧
      (∃ r, x.power? 33 = some r ∧ r.precision = 53 ∧ r.toRat = x.toRat ^ (33 : Int)) ∧
      ∃ r, x.power? (-33) = some r ∧ Rounds 53 (1 / x.toRat ^ 33) r ∧ (parts x).power? (-33) = some (parts r) := by
  intro x
  have hbits : bitLength (x.mantissa ^ 33).natAbs = 53 := by decide +kernel
  have hnonzero : x.toRat ≠ 0 := by
    rw [Ne, ← mantissa_eq_zero_iff]
    decide +kernel
  refine ⟨hbits, by decide +kernel, ?_, ?_⟩
  · obtain ⟨-, hexact, -⟩ := power_is_exact_while_mantissa_fits x 33
    exact (hexact hbits.le).1 (by decide)
  · obtain ⟨-, hexact, hparts⟩ := power_is_exact_while_mantissa_fits x (-33)
    rw [show (-33 : Int).natAbs = 33 from rfl] at hexact
    obtain ⟨r, hr, hrounds⟩ := (hexact hbits.le).2 (by decide) hnonzero
    rw [hr] at hparts
    exact ⟨r, hr, hrounds, hparts⟩

end NumericTower.BigReal
