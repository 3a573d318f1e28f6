import NumericTower.Proofs.Rounding.Float

/-!
# The nearest float

What it is to round a number once to a binary format, said of the integer significand and the exponent of the
result: no other significand and exponent of the format is nearer, of two as near the even one is taken, and
a number from half a step above the greatest float on is infinite. Reals are rounded so, the subnormal results
included.

## Key results
- `hasForm_of_lt`, `HasForm.exists_rank`: the forms of finite floats are those of the finite ranks
- `isNearest_of_nearestRank`, `IsNearest.nearestRank`: the nearest rank has the nearest form
- `overflow_eq_half_step`: where the infinite numbers begin
- `BigReal.nearest_toFloat`
- `BigReal.isFloat_iff`: the values of finite floats are those that survive
-/

namespace NumericTower

namespace FloatFormat

variable {f : FloatFormat} {q : Rat} {m rank : Nat} {e : Int}

/-- The exponent of the greatest float. -/
def greatestExponent (f : FloatFormat) : Int :=
  f.leastExponent + 2 ^ f.exponentBits - 3

/-- The integer significand and the exponent of a finite float. Only at the least exponent the leading bit may
be missing. -/
structure HasForm (f : FloatFormat) (m : Nat) (e : Int) : Prop where
  lt : m < 2 ^ f.precision
  least_le : f.leastExponent ≤ e
  le_greatest : e ≤ f.greatestExponent
  leading : 2 ^ (f.precision - 1) ≤ m ∨ e = f.leastExponent

/-- The significand and the exponent of the finite float nearest to a magnitude; of two, the one with the even
significand. -/
structure IsNearest (f : FloatFormat) (q : Rat) (m : Nat) (e : Int) : Prop where
  form : f.HasForm m e
  nearest : ∀ {k j}, f.HasForm k j → |(m : Rat) * 2 ^ e - q| ≤ |k * 2 ^ j - q|
  even : ∀ {k j}, f.HasForm k j → (k, j) ≠ (m, e) → |(k : Rat) * 2 ^ j - q| = |m * 2 ^ e - q| → Even m

/-- The least normal float is a power of two. -/
theorem binade_mul_leastExponent (f : FloatFormat) :
    (f.binade : Rat) * 2 ^ f.leastExponent = 2 ^ ((f.precision - 1 : Nat) + f.leastExponent) := by
  rw [zpow_add₀ two_ne_zero, zpow_natCast, FloatFormat.binade]
  push_cast
  rfl

/-! ## Forms and ranks -/

theorem hasForm_of_lt (h : rank < f.finiteCount) :
    f.HasForm (f.significandOf rank) (f.exponentOf rank) := by
  obtain ⟨hrank, hshift, hlt⟩ := f.rank_cases rank
  have hb := f.binade_pos
  have hbits : 2 ^ 2 ≤ 2 ^ f.exponentBits := Nat.pow_le_pow_right two_pos f.two_le_exponentBits
  have hle : f.shiftOf rank ≤ 2 ^ f.exponentBits - 3 := by
    rcases hshift with hzero | hlead
    · omega
    · -- With the leading bit the rank is in the binade after its shift.
      have : (f.shiftOf rank + 1) * f.binade < (2 ^ f.exponentBits - 1) * f.binade := by
        rw [Nat.succ_mul]
        exact lt_of_le_of_lt (by omega) h
      have := lt_of_mul_lt_mul_right this (Nat.zero_le _)
      omega
  have hcast : ((2 ^ f.exponentBits : Nat) : Int) = 2 ^ f.exponentBits := by push_cast; rfl
  refine ⟨f.two_mul_binade ▸ hlt, ?_, ?_, ?_⟩
  · exact Int.le_add_of_nonneg_right (Int.natCast_nonneg _)
  · rw [exponentOf, greatestExponent]
    omega
  · refine hshift.symm.imp id fun hzero => ?_
    rw [exponentOf, hzero, Nat.cast_zero, add_zero]

theorem HasForm.exists_rank (h : f.HasForm m e) :
    ∃ rank < f.finiteCount, f.significandOf rank = m ∧ f.exponentOf rank = e := by
  have hm : m < 2 * f.binade := f.two_mul_binade ▸ h.lt
  have hcast : ((2 ^ f.exponentBits : Nat) : Int) = 2 ^ f.exponentBits := by push_cast; rfl
  have hbits : 2 ^ 2 ≤ 2 ^ f.exponentBits := Nat.pow_le_pow_right two_pos f.two_le_exponentBits
  have hleast := h.least_le
  have hgreatest := h.le_greatest
  rw [greatestExponent] at hgreatest
  set k := (e - f.leastExponent).toNat with hk
  have hshift : f.shiftOf (k * f.binade + m) = k := by
    refine shiftOf_add (h.leading.symm.imp (fun h => ?_) id) hm
    omega
  refine ⟨k * f.binade + m, ?_, ?_, ?_⟩
  · rw [finiteCount_eq]
    have := Nat.mul_le_mul_right f.binade (show k ≤ 2 ^ f.exponentBits - 3 by omega)
    omega
  · rw [significandOf, hshift, Nat.add_sub_cancel_left]
  · rw [exponentOf, hshift]
    omega

theorem even_iff_even_significandOf : Even rank ↔ Even (f.significandOf rank) := by
  conv_lhs => rw [(f.rank_cases rank).1]
  exact ⟨(Nat.even_add.mp · |>.mp (f.even_binade.mul_left _)), (f.even_binade.mul_left _).add⟩

/-- Rounding to nearest among ranks is rounding to nearest among forms. -/
theorem isNearest_of_nearestRank (h : f.NearestRank q rank) (hlt : rank < f.finiteCount) :
    f.IsNearest q (f.significandOf rank) (f.exponentOf rank) where
  form := hasForm_of_lt hlt
  nearest hform := by
    obtain ⟨other, -, rfl, rfl⟩ := hform.exists_rank
    exact h.nearest other
  even hform hne htie := by
    obtain ⟨other, -, rfl, rfl⟩ := hform.exists_rank
    exact even_iff_even_significandOf.mp (h.even other (fun heq => hne (by rw [heq])) htie)

/-- Below the overflow the ranks of no finite floats are no nearer. -/
theorem IsNearest.nearestRank (h : f.IsNearest q (f.significandOf rank) (f.exponentOf rank))
    (hq : 0 ≤ q) (hover : q < f.overflow) : f.NearestRank q rank := by
  have hquotient : (q.num.natAbs : Rat) / q.den * 2 ^ (0 : Int) = q := by
    rw [zpow_zero, mul_one, Nat.cast_natAbs, Int.cast_abs, abs_of_nonneg (by exact_mod_cast Rat.num_nonneg.mpr hq),
      Rat.num_div_den]
  have hnear := f.nearestRank_rankOf q.num.natAbs q.den_pos 0
  have hfinite : f.rankOf q.num.natAbs q.den 0 < f.finiteCount := by
    rwa [← not_le, f.finiteCount_le_rankOf_iff _ q.den_pos, hquotient, not_le]
  rw [hquotient] at hnear
  set other := f.rankOf q.num.natAbs q.den 0
  suffices heq : rank = other from heq ▸ hnear
  by_contra hne
  have htie : |f.valueOf rank - q| = |f.valueOf other - q| :=
    le_antisymm (h.nearest (hasForm_of_lt hfinite)) (hnear.nearest rank)
  have hform : (f.significandOf other, f.exponentOf other) ≠ (f.significandOf rank, f.exponentOf rank) := by
    intro heq
    rw [Prod.mk.injEq] at heq
    exact hne (f.valueOf_strictMono.injective (by rw [valueOf, valueOf, heq.1, heq.2]))
  have heven : Even rank :=
    even_iff_even_significandOf.mpr (h.even (hasForm_of_lt hfinite) hform htie.symm)
  obtain ⟨c, hnearer⟩ := exists_nearer hne heven (hnear.even rank hne htie) htie
  exact (hnear.nearest c).not_gt (htie ▸ hnearer)

/-- Up to the least normal float the nearest float is the nearest multiple of the least one. -/
theorem nearestRank_iff_nearestInt (hq : 0 ≤ q) (hlow : q ≤ f.binade * 2 ^ f.leastExponent) :
    f.NearestRank q rank ↔ NearestInt (q / 2 ^ f.leastExponent) rank := by
  have hstep : (0 : Rat) < 2 ^ f.leastExponent := zpow_pos two_pos _
  have hnearest : ∀ {n : Nat}, NearestInt (q / 2 ^ f.leastExponent) n → f.NearestRank q n := by
    intro n hn
    have hle : (n : Int) ≤ f.binade := hn.le_of_le (by rwa [div_le_iff₀ hstep, Int.cast_natCast])
    have hrank := nearestRank_of_nearestInt (f := f) (k := 0) hq (.inl rfl) (m := n) (by omega)
      (by rwa [Nat.cast_zero, add_zero]) (fun h => absurd rfl h)
    rwa [Nat.zero_mul, Nat.zero_add] at hrank
  refine ⟨fun h => ?_, hnearest⟩
  -- The nearest multiple is a rank, so it is this one.
  set x := q / 2 ^ f.leastExponent with hx
  have hx0 : 0 ≤ x := by positivity
  have hn := nearestInt_nearestEven x.num.natAbs x.den_pos
  rw [Nat.cast_natAbs, abs_of_nonneg (Rat.num_nonneg.mpr hx0), Rat.num_div_den] at hn
  rwa [h.unique (hnearest hn)]

/-! ## Infinity and zero -/

theorem leastNormal_le_overflow (f : FloatFormat) : f.binade * 2 ^ f.leastExponent ≤ f.overflow := by
  have hp := f.two_le_precision
  have hbits : 2 ^ 2 ≤ 2 ^ f.exponentBits := Nat.pow_le_pow_right two_pos f.two_le_exponentBits
  have hcast : ((2 ^ f.exponentBits : Nat) : Int) = 2 ^ f.exponentBits := by push_cast; rfl
  rw [f.binade_mul_leastExponent]
  exact (zpow_le_zpow_right₀ one_le_two (by omega)).trans f.power_le_overflow

/-- The overflow is half a step above the greatest float. -/
theorem overflow_eq_half_step (f : FloatFormat) :
    f.overflow = (2 ^ f.precision - 1) * 2 ^ f.greatestExponent + 2 ^ f.greatestExponent / 2 := by
  rw [overflow, greatestExponent, show f.leastExponent + 2 ^ f.exponentBits - 3 =
    f.leastExponent + 2 ^ f.exponentBits - 4 + 1 by ring, zpow_add_one₀ two_ne_zero]
  ring

/-- Half of the least float is as near to zero, which is even. -/
theorem rankOf_eq_zero {num den : Nat} (hden : 0 < den)
    (h : (num : Rat) / den * 2 ^ e ≤ 2 ^ f.leastExponent / 2) : f.rankOf num den e = 0 := by
  have hstep : (0 : Rat) < 2 ^ f.leastExponent := zpow_pos two_pos _
  have hnear : NearestInt ((num : Rat) / den * 2 ^ e / 2 ^ (f.leastExponent + (0 : Nat))) (0 : Nat) := by
    have hhalf : (num : Rat) / den * 2 ^ e / 2 ^ f.leastExponent ≤ 1 / 2 := by
      rw [div_le_iff₀ hstep]
      linarith
    have h := NearestInt.of_lower (k := 0) (by positivity) hhalf (fun _ => Even.zero)
    rwa [Int.cast_zero, zero_add, ← add_zero f.leastExponent] at h
  have hrank := nearestRank_of_nearestInt (by positivity) (.inl rfl) (Nat.zero_le _) hnear
    (fun h => absurd rfl h)
  rw [(f.nearestRank_rankOf num hden e).unique hrank, Nat.zero_mul]

end FloatFormat

namespace BinaryFloat

variable {f : FloatFormat} {negative : Bool} {n : Nat} {e : Int} {q : Rat}

/-- The float that a rational is rounded to, once and to nearest: infinite from the overflow on, else finite
with the nearest significand and exponent, and always with the sign of the rational. -/
structure Nearest (q : Rat) (x : BinaryFloat f) : Prop where
  infinite : f.overflow ≤ |q| → x = .infinity (decide (q < 0))
  finite : |q| < f.overflow → ∃ rank h, x = .finite (decide (q < 0)) rank h ∧
    f.IsNearest |q| (f.significandOf rank) (f.exponentOf rank)

theorem exists_nearestRank (negative : Bool) (h : n * 2 ^ e < f.overflow) :
    ∃ rank hrank, (ofMagnitude negative n e : BinaryFloat f) = .finite negative rank hrank ∧
      f.NearestRank (n * 2 ^ e) rank := by
  obtain ⟨hrank, heq⟩ := ofMagnitude_of_lt_overflow negative h
  have hnear := f.nearestRank_rankOf n one_pos e
  rw [Nat.cast_one, div_one] at hnear
  exact ⟨_, hrank, heq, hnear⟩

theorem nearest_ofMagnitude (hsign : negative = decide (q < 0)) (hq : |q| = n * 2 ^ e) :
    (ofMagnitude negative n e : BinaryFloat f).Nearest q := by
  subst hsign
  refine ⟨fun h => ofMagnitude_of_overflow_le (hq ▸ h), fun h => ?_⟩
  obtain ⟨rank, hrank, heq, hnear⟩ := exists_nearestRank (decide (q < 0)) (hq ▸ h)
  exact ⟨rank, hrank, heq, FloatFormat.isNearest_of_nearestRank (hq ▸ hnear) hrank⟩

/-- The float of a magnitude is determined by its value. -/
theorem ofMagnitude_congr {m : Nat} {j : Int} (h : (n : Rat) * 2 ^ e = m * 2 ^ j) (negative : Bool) :
    (ofMagnitude negative n e : BinaryFloat f) = ofMagnitude negative m j := by
  have hrank : f.rankOf n 1 e = f.rankOf m 1 j :=
    FloatFormat.rankOf_congr one_pos one_pos (by simpa using h)
  rw [ofMagnitude, ofMagnitude, ofQuotient, ofQuotient, hrank]

/-- The float of the value of a finite float is that float. -/
theorem ofMagnitude_valueOf {rank : Nat} (negative : Bool) (hrank : rank < f.finiteCount)
    (h : (n : Rat) * 2 ^ e = f.valueOf rank) : ofMagnitude negative n e = .finite negative rank hrank := by
  have heq : f.rankOf n 1 e = rank := FloatFormat.rankOf_valueOf one_pos (by simpa using h)
  rw [ofMagnitude, ofQuotient, heq, ofRank, dif_pos hrank]

end BinaryFloat

namespace BigReal

variable {f : FloatFormat}

theorem exists_nearestRank (x : BigReal) (h : |x.toRat| < f.overflow) :
    ∃ rank hrank, x.toFloat f = .finite (decide (x.toRat < 0)) rank hrank ∧
      f.NearestRank |x.toRat| rank := by
  rw [abs_toRat] at h ⊢
  rw [← isNegative_eq]
  exact BinaryFloat.exists_nearestRank x.isNegative h

theorem nearest_toFloat (f : FloatFormat) (x : BigReal) : (x.toFloat f).Nearest x.toRat :=
  BinaryFloat.nearest_ofMagnitude x.isNegative_eq x.abs_toRat

/-- A magnitude of at most half of the least float becomes zero. -/
theorem toFloat_eq_zero {x : BigReal} (h : |x.toRat| ≤ 2 ^ f.leastExponent / 2) :
    x.toFloat f = .zero x.isNegative := by
  have hrank : f.rankOf x.mantissa.natAbs 1 x.exponent = 0 :=
    FloatFormat.rankOf_eq_zero one_pos (by rwa [Nat.cast_one, div_one, ← abs_toRat])
  rw [toFloat, BinaryFloat.ofMagnitude, BinaryFloat.ofQuotient, hrank]
  rfl

theorem isFloat_eq_true_iff {x : BigReal} : x.isFloat f = true ↔ (x.toFloat f).toRat? = some x.toRat := by
  rw [isFloat, beq_iff_eq, BinaryFloat.toRat?, Option.map_eq_some_iff]
  constructor
  · intro h
    exact ⟨x.value, h, rfl⟩
  · rintro ⟨d, hd, hdx⟩
    rw [hd, Dyadic.toRat_inj.mp hdx]

/-- A real is kept by a format exactly if one of the finite floats has its value. -/
theorem isFloat_iff (x : BigReal) : x.isFloat f = true ↔ ∃ v : BinaryFloat f, v.toRat? = some x.toRat := by
  rw [isFloat_eq_true_iff]
  constructor
  · intro h
    exact ⟨x.toFloat f, h⟩
  · rintro ⟨v, hv⟩
    cases v with
    | nan | infinity => exact nomatch hv
    | finite negative rank hrank =>
      have hvalue : withSign negative (f.valueOf rank) = x.toRat := by
        rwa [BinaryFloat.toRat?_finite, Option.some.injEq] at hv
      have habs : x.mantissa.natAbs * 2 ^ x.exponent = f.valueOf rank := by
        rw [← abs_toRat, ← hvalue, abs_withSign, abs_of_nonneg (f.valueOf_nonneg rank)]
      rw [toFloat, BinaryFloat.ofMagnitude_valueOf _ hrank habs, BinaryFloat.toRat?_finite, ← habs,
        ← toRat_eq_withSign]

end BigReal

end NumericTower
