import NumericTower.Binary.Basic
import NumericTower.Proofs.Rounding.BigReal

/-!
# Correct rounding of binary floats

The value of a rank grows with the rank, and the rank of a number is that of the nearest float, the even one
of two. So a number that a float of the format has is kept, and a number becomes infinite exactly from the
middle between the greatest float and the next power of two on.

## Key results
- `FloatFormat.valueOf_strictMono`
- `FloatFormat.nearestRank_rankOf`: the nearest float is found
- `FloatFormat.rankOf_congr`: it depends on the value only
- `FloatFormat.valueOf_rankOf`: what has few enough bits is exact
- `FloatFormat.finiteCount_le_rankOf_iff`: where the infinite numbers begin
- `Rational.saturates_toFloat64`: rounding a rational twice does not move that place
-/

namespace NumericTower.FloatFormat

variable {f : FloatFormat} {k m num den rank : Nat} {e : Int}

/-! ## Values of ranks -/

/-- The value of the float of a rank; for the rank of infinity the one that would follow. -/
def valueOf (f : FloatFormat) (rank : Nat) : Rat :=
  f.significandOf rank * 2 ^ f.exponentOf rank

theorem binade_pos (f : FloatFormat) : 0 < f.binade :=
  Nat.two_pow_pos _

theorem two_mul_binade (f : FloatFormat) : 2 * f.binade = 2 ^ f.precision := by
  have := f.two_le_precision
  rw [binade, ← Nat.pow_succ', Nat.succ_eq_add_one, Nat.sub_add_cancel (by omega)]

theorem even_binade (f : FloatFormat) : Even f.binade := by
  have := f.two_le_precision
  exact even_two.pow_of_ne_zero (by omega)

/-- Within a binade the significand counts; the subnormal numbers have no leading bit. -/
theorem shiftOf_add (hk : k = 0 ∨ f.binade ≤ m) (hm : m < 2 * f.binade) :
    f.shiftOf (k * f.binade + m) = k := by
  have hb := f.binade_pos
  rw [shiftOf, Nat.add_comm, Nat.add_mul_div_right m k hb]
  by_cases hle : f.binade ≤ m
  · have hone : m / f.binade = 1 := Nat.div_eq_of_lt_le (by omega) (by omega)
    omega
  · have hzero : m / f.binade = 0 := Nat.div_eq_of_lt (by omega)
    omega

/-- The value of a rank by its binade; the next power of two may be written with the binade below. -/
theorem valueOf_add (hk : k = 0 ∨ f.binade ≤ m) (hm : m ≤ 2 * f.binade) :
    f.valueOf (k * f.binade + m) = m * 2 ^ (f.leastExponent + k) := by
  have inside : ∀ {k m : Nat}, k = 0 ∨ f.binade ≤ m → m < 2 * f.binade →
      f.valueOf (k * f.binade + m) = m * 2 ^ (f.leastExponent + k) := by
    intro k m hk hm
    rw [valueOf, significandOf, exponentOf, shiftOf_add hk hm, Nat.add_sub_cancel_left]
  rcases Nat.lt_or_eq_of_le hm with hlt | rfl
  · exact inside hk hlt
  · have hb := f.binade_pos
    rw [show k * f.binade + 2 * f.binade = (k + 1) * f.binade + f.binade by ring,
      inside (.inr le_rfl) (by omega)]
    push_cast
    rw [← add_assoc, zpow_add_one₀ two_ne_zero]
    ring

/-- Every rank is a significand in a binade. -/
theorem rank_cases (f : FloatFormat) (rank : Nat) :
    rank = f.shiftOf rank * f.binade + f.significandOf rank ∧
      (f.shiftOf rank = 0 ∨ f.binade ≤ f.significandOf rank) ∧
      f.significandOf rank < 2 * f.binade := by
  have hb := f.binade_pos
  have hdiv := Nat.div_add_mod' rank f.binade
  have hmod := Nat.mod_lt rank hb
  unfold significandOf shiftOf
  generalize rank / f.binade = j at hdiv
  cases j with
  | zero => exact ⟨by omega, .inl rfl, by omega⟩
  | succ j =>
    rw [Nat.succ_mul] at hdiv
    rw [Nat.add_sub_cancel]
    exact ⟨by omega, .inr (by omega), by omega⟩

theorem valueOf_strictMono (f : FloatFormat) : StrictMono f.valueOf := by
  refine strictMono_nat_of_lt_succ fun rank => ?_
  obtain ⟨hrank, hk, hm⟩ := f.rank_cases rank
  rw [hrank, Nat.add_assoc, valueOf_add hk hm.le, valueOf_add (hk.imp_right (by omega)) hm]
  exact mul_lt_mul_of_pos_right (by exact_mod_cast Nat.lt_succ_self _) (zpow_pos two_pos _)

theorem valueOf_nonneg (f : FloatFormat) (rank : Nat) : 0 ≤ f.valueOf rank := by
  unfold valueOf
  positivity

/-! ## Rounding -/

/-- Above the subnormal numbers a number reaches the binade of the bit at which it is rounded. -/
theorem binade_mul_le (hnum : 0 < num) (hden : 0 < den)
    (h : f.leastExponent < f.roundingExponent (floorLog2 num den + e)) :
    f.binade * 2 ^ f.roundingExponent (floorLog2 num den + e) ≤ (num : Rat) / den * 2 ^ e := by
  have hp := f.two_le_precision
  have hbit : f.roundingExponent (floorLog2 num den + e) =
      floorLog2 num den + e + 1 - f.precision := by
    unfold roundingExponent at h ⊢
    omega
  calc (f.binade : Rat) * 2 ^ f.roundingExponent (floorLog2 num den + e)
      = 2 ^ (floorLog2 num den + e) := by
        rw [hbit, binade, Nat.cast_pow, Nat.cast_ofNat, ← zpow_natCast, ← zpow_add₀ two_ne_zero]
        congr 1
        omega
    _ = 2 ^ floorLog2 num den * 2 ^ e := zpow_add₀ two_ne_zero _ _
    _ ≤ num / den * 2 ^ e :=
        mul_le_mul_of_nonneg_right (two_zpow_floorLog2_le hnum hden) (zpow_pos two_pos e).le

/-- A number that reaches a binade is rounded to a significand with the leading bit. -/
theorem binade_le_of_nearestInt {q : Rat} (hnear : NearestInt (q / 2 ^ (f.leastExponent + k)) m)
    (hreach : k ≠ 0 → f.binade * 2 ^ (f.leastExponent + k) ≤ q) : k = 0 ∨ f.binade ≤ m := by
  refine or_iff_not_imp_left.mpr fun hk => ?_
  have hle := hnear.le_of_ge (b := f.binade) (by
    rw [Int.cast_natCast, le_div_iff₀ (zpow_pos two_pos _)]
    exact hreach hk)
  exact_mod_cast hle

/-- The rank of a number is a significand in a binade that is nearest to the number at the bit of that
binade. Above the subnormal numbers the number reaches the binade. -/
theorem rankOf_cases (f : FloatFormat) (num : Nat) (hden : 0 < den) (e : Int) :
    ∃ k m : Nat, f.rankOf num den e = k * f.binade + m ∧ (k = 0 ∨ f.binade ≤ m) ∧
      m ≤ 2 * f.binade ∧ NearestInt (num / den * 2 ^ e / 2 ^ (f.leastExponent + k)) m ∧
      (k ≠ 0 → f.binade * 2 ^ (f.leastExponent + k) ≤ (num : Rat) / den * 2 ^ e) := by
  set magnitude := floorLog2 num den + e with hmag
  have hhigh : (num : Rat) / den * 2 ^ e < 2 ^ (magnitude + 1) := by
    rw [hmag, show floorLog2 num den + e + 1 = floorLog2 num den + 1 + e by ring,
      zpow_add₀ two_ne_zero]
    exact mul_lt_mul_of_pos_right (lt_two_zpow_floorLog2 hden) (zpow_pos two_pos e)
  by_cases hzero : num = 0 ∨ magnitude + 1 < f.leastExponent
  · -- Less than half of the least subnormal.
    refine ⟨0, 0, ?_, .inl rfl, Nat.zero_le _, ?_, fun h => absurd rfl h⟩
    · rw [rankOf, if_pos hzero, Nat.zero_mul]
    · have hsmall : (num : Rat) / den * 2 ^ e / 2 ^ (f.leastExponent + (0 : Nat)) < 1 / 2 := by
        rw [div_lt_div_iff₀ (zpow_pos two_pos _) two_pos, one_mul]
        rcases hzero with rfl | hlow
        · simp only [Nat.cast_zero, zero_div, zero_mul]
          exact zpow_pos two_pos _
        · calc (num : Rat) / den * 2 ^ e * 2 < 2 ^ (magnitude + 1) * 2 :=
                mul_lt_mul_of_pos_right hhigh two_pos
            _ = 2 ^ (magnitude + 1 + 1) := (zpow_add_one₀ two_ne_zero _).symm
            _ ≤ 2 ^ (f.leastExponent + (0 : Nat)) := zpow_le_zpow_right₀ one_le_two (by omega)
      have h := NearestInt.of_lower (k := 0) (by positivity) hsmall.le (fun h => absurd h hsmall.ne)
      rwa [Int.cast_zero, zero_add] at h
  · set t := f.roundingExponent magnitude
    have hbits : magnitude + 1 - f.precision ≤ t := le_max_left _ _
    have hleast : f.leastExponent ≤ t := le_max_right _ _
    have hk : f.leastExponent + (t - f.leastExponent).toNat = t := by omega
    have hnear : NearestInt ((num : Rat) / den * 2 ^ e / 2 ^ (f.leastExponent + (t - f.leastExponent).toNat))
        (roundAt num den (t - e)) := by
      rw [hk]
      have h := nearestInt_roundAt num hden (t - e)
      rwa [zpow_sub₀ two_ne_zero, div_div_eq_mul_div] at h
    have hreach : (t - f.leastExponent).toNat ≠ 0 →
        f.binade * 2 ^ (f.leastExponent + (t - f.leastExponent).toNat) ≤ (num : Rat) / den * 2 ^ e := by
      rw [hk]
      exact fun hne => binade_mul_le (by omega) hden (show f.leastExponent < t by omega)
    refine ⟨(t - f.leastExponent).toNat, roundAt num den (t - e), ?_, binade_le_of_nearestInt hnear hreach, ?_,
      hnear, hreach⟩
    · rw [rankOf, if_neg hzero]
    · rw [two_mul_binade]
      exact roundAt_le hden (by omega)

/-- The values of the ranks are multiples of the bit of a binade, or stay below the binade. -/
theorem valueOf_multiple_or_below (f : FloatFormat) (rank k : Nat) :
    (∃ j : Int, f.valueOf rank = j * 2 ^ (f.leastExponent + k)) ∨
      k ≠ 0 ∧ |f.valueOf rank| < (f.binade : Int) * 2 ^ (f.leastExponent + k) := by
  obtain ⟨_, _, hm⟩ := f.rank_cases rank
  rw [abs_of_nonneg (f.valueOf_nonneg rank), valueOf, exponentOf]
  by_cases hle : k ≤ f.shiftOf rank
  · refine .inl ⟨f.significandOf rank * 2 ^ (f.shiftOf rank - k), ?_⟩
    push_cast
    rw [← zpow_natCast, mul_assoc, ← zpow_add₀ two_ne_zero]
    congr 2
    omega
  · refine .inr ⟨by omega, ?_⟩
    have hsig : (f.significandOf rank : Rat) < 2 * f.binade := by exact_mod_cast hm
    calc (f.significandOf rank : Rat) * 2 ^ (f.leastExponent + f.shiftOf rank)
        < 2 * f.binade * 2 ^ (f.leastExponent + f.shiftOf rank) :=
          mul_lt_mul_of_pos_right hsig (zpow_pos two_pos _)
      _ = f.binade * 2 ^ (f.leastExponent + f.shiftOf rank + 1) := by
          rw [zpow_add_one₀ two_ne_zero]
          ring
      _ ≤ (f.binade : Int) * 2 ^ (f.leastExponent + k) := by
          rw [Int.cast_natCast]
          exact mul_le_mul_of_nonneg_left (zpow_le_zpow_right₀ one_le_two (by omega))
            (Nat.cast_nonneg _)

/-- The rank of the float nearest to a rational; of two, the even one. -/
structure NearestRank (f : FloatFormat) (q : Rat) (rank : Nat) : Prop where
  nearest : ∀ other, |f.valueOf rank - q| ≤ |f.valueOf other - q|
  even : ∀ other, other ≠ rank → |f.valueOf other - q| = |f.valueOf rank - q| → Even rank

/-- Between two even ranks that are as near as each other there is a nearer one. -/
theorem exists_nearer {q : Rat} {a b : Nat} (hne : a ≠ b) (ha : Even a) (hb : Even b)
    (htie : |f.valueOf a - q| = |f.valueOf b - q|) :
    ∃ c, |f.valueOf c - q| < |f.valueOf a - q| := by
  wlog hlt : a < b generalizing a b
  · rw [htie]
    exact this hne.symm hb ha htie.symm (by omega)
  rw [Nat.even_iff] at ha hb
  refine ⟨a + 1, ?_⟩
  have hlow := f.valueOf_strictMono (show a < a + 1 by omega)
  have hhigh := f.valueOf_strictMono (show a + 1 < b by omega)
  rcases abs_cases (f.valueOf a - q) with ⟨h, _⟩ | ⟨h, _⟩ <;>
    rcases abs_cases (f.valueOf b - q) with ⟨h', _⟩ | ⟨h', _⟩ <;>
    rcases abs_cases (f.valueOf (a + 1) - q) with ⟨h'', _⟩ | ⟨h'', _⟩ <;>
    linarith

/-- Of two nearest ranks both would be even. -/
theorem NearestRank.unique {q : Rat} {a b : Nat} (ha : f.NearestRank q a) (hb : f.NearestRank q b) :
    a = b := by
  by_contra hne
  have htie : |f.valueOf a - q| = |f.valueOf b - q| := le_antisymm (ha.nearest b) (hb.nearest a)
  obtain ⟨c, hnearer⟩ :=
    exists_nearer hne (ha.even b (Ne.symm hne) htie.symm) (hb.even a hne htie) htie
  exact (ha.nearest c).not_gt hnearer

/-- The value of a float is nearest to that float. -/
theorem nearestRank_valueOf (f : FloatFormat) (rank : Nat) : f.NearestRank (f.valueOf rank) rank where
  nearest other := by
    rw [sub_self, abs_zero]
    exact abs_nonneg _
  even other hne htie := by
    rw [sub_self, abs_zero, abs_eq_zero, sub_eq_zero] at htie
    exact absurd (f.valueOf_strictMono.injective htie) hne

/-- A significand that is nearest to a number at the bit of its binade is that of the nearest float, if the
number reaches the binade. -/
theorem nearestRank_of_nearestInt {q : Rat} (hq : 0 ≤ q) (hk : k = 0 ∨ f.binade ≤ m)
    (hm : m ≤ 2 * f.binade) (hnear : NearestInt (q / 2 ^ (f.leastExponent + k)) m)
    (hreach : k ≠ 0 → f.binade * 2 ^ (f.leastExponent + k) ≤ q) :
    f.NearestRank q (k * f.binade + m) := by
  have hvalue : f.valueOf (k * f.binade + m) = (m : Int) * 2 ^ (f.leastExponent + k) := by
    rw [valueOf_add hk hm, Int.cast_natCast]
  have hgrid : ∀ rank, (∃ j : Int, f.valueOf rank = j * 2 ^ (f.leastExponent + k)) ∨
      ∃ b : Int, |f.valueOf rank| < b * 2 ^ (f.leastExponent + k) ∧
        b * 2 ^ (f.leastExponent + k) ≤ |q| := by
    refine fun rank => (f.valueOf_multiple_or_below rank k).imp_right fun ⟨hne, hlt⟩ => ⟨f.binade, hlt, ?_⟩
    rw [abs_of_nonneg hq, Int.cast_natCast]
    exact hreach hne
  refine ⟨fun other => ?_, fun other hne htie => ?_⟩
  · rw [hvalue]
    exact (hnear.of_grid (hgrid other)).1
  · have hm : Even (m : Int) := by
      refine (hnear.of_grid (hgrid other)).2 ?_ (by rwa [← hvalue])
      rwa [← hvalue, Ne, f.valueOf_strictMono.injective.eq_iff]
    exact (f.even_binade.mul_left k).add (by exact_mod_cast hm)

/-- The rank of a number is that of the nearest float. -/
theorem nearestRank_rankOf (f : FloatFormat) (num : Nat) (hden : 0 < den) (e : Int) :
    f.NearestRank (num / den * 2 ^ e) (f.rankOf num den e) := by
  obtain ⟨k, m, hrank, hk, hm, hnear, hreach⟩ := f.rankOf_cases num hden e
  rw [hrank]
  exact nearestRank_of_nearestInt (by positivity) hk hm hnear hreach

/-- The rank of a number does not depend on how the number is written. -/
theorem rankOf_congr {num' den' : Nat} {e' : Int} (hden : 0 < den) (hden' : 0 < den')
    (h : (num : Rat) / den * 2 ^ e = num' / den' * 2 ^ e') :
    f.rankOf num den e = f.rankOf num' den' e' :=
  (f.nearestRank_rankOf num hden e).unique (h ▸ f.nearestRank_rankOf num' hden' e')

/-- A number that has no more bits than a significand, the last of them not below that of the least
subnormal, is exact. -/
theorem valueOf_rankOf {c j : Int} (hden : 0 < den) (hq : (num : Rat) / den * 2 ^ e = c * 2 ^ j)
    (hc : c < 2 ^ f.precision) (hj : f.leastExponent ≤ j) :
    f.valueOf (f.rankOf num den e) = num / den * 2 ^ e := by
  obtain ⟨k, m, hrank, hk, hm, hnear, hreach⟩ := f.rankOf_cases num hden e
  -- The number is a multiple of the bit at which it is rounded.
  have hkj : f.leastExponent + k ≤ j := by
    by_contra! hlt
    have hc' : (c : Rat) < 2 * f.binade := by
      exact_mod_cast hc.trans_eq (by exact_mod_cast f.two_mul_binade.symm)
    have : (num : Rat) / den * 2 ^ e < f.binade * 2 ^ (f.leastExponent + k) := by
      calc (num : Rat) / den * 2 ^ e = c * 2 ^ j := hq
        _ < 2 * f.binade * 2 ^ j := mul_lt_mul_of_pos_right hc' (zpow_pos two_pos j)
        _ = f.binade * 2 ^ (j + 1) := by
            rw [zpow_add_one₀ two_ne_zero]
            ring
        _ ≤ f.binade * 2 ^ (f.leastExponent + k) :=
            mul_le_mul_of_nonneg_left (zpow_le_zpow_right₀ one_le_two (by omega)) (Nat.cast_nonneg _)
    exact this.not_ge (hreach (by omega))
  have hwhole : (num : Rat) / den * 2 ^ e / 2 ^ (f.leastExponent + k) =
      (c * 2 ^ (j - (f.leastExponent + k)).toNat : Int) := by
    rw [hq, mul_div_assoc, ← zpow_sub₀ two_ne_zero]
    push_cast
    rw [← zpow_natCast, Int.toNat_of_nonneg (by omega)]
  have hm' := hnear.eq_of_eq hwhole
  rw [hrank, valueOf_add hk hm, ← Int.cast_natCast, hm', ← hwhole,
    div_mul_cancel₀ _ (zpow_ne_zero _ two_ne_zero)]

/-- The float of a float is itself. -/
theorem rankOf_valueOf (hden : 0 < den) (hq : (num : Rat) / den * 2 ^ e = f.valueOf rank) :
    f.rankOf num den e = rank :=
  (f.nearestRank_rankOf num hden e).unique (hq ▸ f.nearestRank_valueOf rank)

/-! ## Infinity -/

/-- The least magnitude that rounds to infinity: the middle between the greatest float and the next power
of two, which is even. -/
def overflow (f : FloatFormat) : Rat :=
  (2 ^ (f.precision + 1) - 1) * 2 ^ (f.leastExponent + 2 ^ f.exponentBits - 4)

theorem finiteCount_eq (f : FloatFormat) :
    f.finiteCount = (2 ^ f.exponentBits - 3) * f.binade + 2 * f.binade := by
  have h : 2 ^ 2 ≤ 2 ^ f.exponentBits := Nat.pow_le_pow_right two_pos f.two_le_exponentBits
  rw [finiteCount, ← Nat.add_mul]
  congr 1
  omega

theorem finiteCount_pos (f : FloatFormat) : 0 < f.finiteCount := by
  have := f.binade_pos
  rw [finiteCount_eq]
  omega

theorem overflow_eq (f : FloatFormat) :
    f.overflow = (f.valueOf (f.finiteCount - 1) + f.valueOf f.finiteCount) / 2 := by
  have hb := f.binade_pos
  have h : 2 ^ 2 ≤ 2 ^ f.exponentBits := Nat.pow_le_pow_right two_pos f.two_le_exponentBits
  -- Both are in the last binade, the greatest float with all bits set.
  have hlast : f.finiteCount - 1 = (2 ^ f.exponentBits - 3) * f.binade + (2 * f.binade - 1) := by
    rw [finiteCount_eq]
    omega
  rw [hlast, finiteCount_eq, valueOf_add (.inr (by omega)) (by omega),
    valueOf_add (.inr (by omega)) le_rfl, ← add_mul, overflow]
  have hexp : f.leastExponent + ((2 ^ f.exponentBits - 3 : Nat) : Int) =
      f.leastExponent + 2 ^ f.exponentBits - 4 + 1 := by
    push_cast [show 3 ≤ 2 ^ f.exponentBits by omega]
    ring
  have hprec : (2 : Rat) ^ (f.precision + 1) = 4 * f.binade := by
    rw [pow_succ, show (2 : Rat) ^ f.precision = 2 * f.binade by exact_mod_cast f.two_mul_binade.symm]
    ring
  rw [hexp, zpow_add_one₀ two_ne_zero, hprec]
  push_cast [show 1 ≤ 2 * f.binade by omega]
  ring

/-- A number becomes infinite from the middle above the greatest float on. -/
theorem finiteCount_le_rankOf_iff (f : FloatFormat) (num : Nat) (hden : 0 < den) (e : Int) :
    f.finiteCount ≤ f.rankOf num den e ↔ f.overflow ≤ num / den * 2 ^ e := by
  have hpos := f.finiteCount_pos
  have hmono := f.valueOf_strictMono
  rw [← hmono.le_iff_le, overflow_eq]
  apply le_nearest_iff
  · exact hmono (Nat.sub_lt hpos one_pos)
  · rcases Nat.lt_or_ge (f.rankOf num den e) f.finiteCount with h | h
    · exact .inl (hmono.monotone (by omega))
    · exact .inr (hmono.monotone h)
  · exact (f.nearestRank_rankOf num hden e).nearest _
  · exact (f.nearestRank_rankOf num hden e).nearest _
  · -- The greatest float is odd.
    intro hgreatest htie
    have hrank := hmono.injective hgreatest
    have heven := (f.nearestRank_rankOf num hden e).even _ (by omega) htie
    have hcount : Even f.finiteCount := f.even_binade.mul_left _
    rw [hrank, Nat.even_iff] at heven
    rw [Nat.even_iff] at hcount
    omega

end NumericTower.FloatFormat

namespace NumericTower

variable {f : FloatFormat} {negative : Bool} {n : Nat} {e : Int} {q : Rat}

namespace FloatFormat

theorem overflow_pos (f : FloatFormat) : 0 < f.overflow := by
  have h : (1 : Rat) < 2 ^ (f.precision + 1) := one_lt_pow₀ one_lt_two (Nat.succ_ne_zero _)
  exact mul_pos (sub_pos.mpr h) (zpow_pos two_pos _)

/-- The overflow is below the power of two that follows the greatest float. -/
theorem overflow_lt (f : FloatFormat) :
    f.overflow < 2 ^ (f.leastExponent + f.precision + 2 ^ f.exponentBits - 3) := by
  rw [show f.leastExponent + f.precision + 2 ^ f.exponentBits - 3 =
    (f.precision + 1 : Nat) + (f.leastExponent + 2 ^ f.exponentBits - 4) by push_cast; ring,
    zpow_add₀ two_ne_zero, zpow_natCast, overflow]
  exact mul_lt_mul_of_pos_right (sub_one_lt _) (zpow_pos two_pos _)

theorem power_le_overflow (f : FloatFormat) :
    2 ^ (f.leastExponent + f.precision + 2 ^ f.exponentBits - 4) ≤ f.overflow := by
  rw [show f.leastExponent + f.precision + 2 ^ f.exponentBits - 4 =
    (f.precision : Nat) + (f.leastExponent + 2 ^ f.exponentBits - 4) by ring,
    zpow_add₀ two_ne_zero, zpow_natCast, overflow]
  refine mul_le_mul_of_nonneg_right ?_ (zpow_pos two_pos _).le
  have : (1 : Rat) ≤ 2 ^ f.precision := one_le_pow₀ one_le_two
  rw [pow_succ]
  linarith

theorem overflow_single_le : single.overflow ≤ double.overflow := by
  refine single.overflow_lt.le.trans (le_trans ?_ double.power_le_overflow)
  exact zpow_le_zpow_right₀ one_le_two (by decide)

/-- The finite floats are those below the overflow. -/
theorem valueOf_lt_overflow_iff (f : FloatFormat) (rank : Nat) :
    f.valueOf rank < f.overflow ↔ rank < f.finiteCount := by
  have hq : ((f.significandOf rank : Nat) : Rat) / (1 : Nat) * 2 ^ f.exponentOf rank =
      f.valueOf rank := by
    rw [Nat.cast_one, div_one, valueOf]
  have h := f.finiteCount_le_rankOf_iff (f.significandOf rank) one_pos (f.exponentOf rank)
  rw [rankOf_valueOf one_pos hq, hq] at h
  rw [← not_le, ← h, not_le]

end FloatFormat

namespace BinaryFloat

theorem toRat?_finite (negative : Bool) (rank : Nat) (h : rank < f.finiteCount) :
    (finite negative rank h : BinaryFloat f).toRat? = some (withSign negative (f.valueOf rank)) := by
  simp only [toRat?, toDyadic?, Option.map_some, Dyadic.toRat_ofIntWithPrec_eq_mul_two_pow, neg_neg,
    FloatFormat.valueOf, withSign_mul, withSign_natCast]

/-- A float stands for a rational as far as it is infinite from the overflow on only. -/
structure Saturates (q : Rat) (x : BinaryFloat f) : Prop where
  above : f.overflow ≤ q → x = .infinity false
  below : q ≤ -f.overflow → x = .infinity true
  within : |q| < f.overflow → x.isFinite = true

theorem saturates_finite {x : BinaryFloat f} (h : x.toRat? = some q) : Saturates q x := by
  cases x with
  | nan | infinity => exact nomatch h
  | finite negative rank hrank =>
    rw [toRat?_finite, Option.some.injEq] at h
    have habs : |q| < f.overflow := by
      rw [← h, abs_withSign, abs_of_nonneg (f.valueOf_nonneg rank), f.valueOf_lt_overflow_iff]
      exact hrank
    rw [abs_lt] at habs
    exact ⟨fun h => absurd h habs.2.not_ge, fun h => absurd h habs.1.not_ge, fun _ => rfl⟩

/-- Where the infinite numbers begin, for a magnitude that is no fraction. -/
theorem finiteCount_le_rankOf_one_iff (f : FloatFormat) (n : Nat) (e : Int) :
    f.finiteCount ≤ f.rankOf n 1 e ↔ f.overflow ≤ n * 2 ^ e := by
  rw [f.finiteCount_le_rankOf_iff n one_pos e, Nat.cast_one, div_one]

theorem ofMagnitude_of_overflow_le (h : f.overflow ≤ n * 2 ^ e) :
    (ofMagnitude negative n e : BinaryFloat f) = .infinity negative :=
  dif_neg (not_lt.mpr ((finiteCount_le_rankOf_one_iff f n e).mpr h))

theorem ofMagnitude_of_lt_overflow (negative : Bool) (h : n * 2 ^ e < f.overflow) :
    ∃ hrank, (ofMagnitude negative n e : BinaryFloat f) = .finite negative (f.rankOf n 1 e) hrank := by
  have hrank : f.rankOf n 1 e < f.finiteCount := by
    rwa [← not_le, finiteCount_le_rankOf_one_iff, not_le]
  exact ⟨hrank, dif_pos hrank⟩

theorem saturates_ofMagnitude (negative : Bool) (n : Nat) (e : Int) :
    Saturates (withSign negative (n * 2 ^ e)) (ofMagnitude negative n e : BinaryFloat f) := by
  have hpos := f.overflow_pos
  have hx : (0 : Rat) ≤ n * 2 ^ e := by positivity
  refine ⟨fun h => ?_, fun h => ?_, fun h => ?_⟩
  · cases negative with
    | true =>
      have h : f.overflow ≤ -(n * 2 ^ e) := h
      linarith
    | false => exact ofMagnitude_of_overflow_le h
  · cases negative with
    | true => exact ofMagnitude_of_overflow_le (neg_le_neg_iff.mp h)
    | false =>
      have h : (n : Rat) * 2 ^ e ≤ -f.overflow := h
      linarith
  · rw [abs_withSign, abs_of_nonneg hx] at h
    obtain ⟨_, heq⟩ := ofMagnitude_of_lt_overflow negative h
    rw [heq]
    rfl

/-- A magnitude of few enough bits, none below the least subnormal and none from the overflow on, is
exact. -/
theorem toRat?_ofMagnitude {c j : Int} (hq : (n : Rat) * 2 ^ e = c * 2 ^ j)
    (hc : c < 2 ^ f.precision) (hj : f.leastExponent ≤ j) (hover : n * 2 ^ e < f.overflow) :
    (ofMagnitude negative n e : BinaryFloat f).toRat? = some (withSign negative (n * 2 ^ e)) := by
  obtain ⟨hrank, heq⟩ := ofMagnitude_of_lt_overflow negative hover
  have hone : (n : Rat) / (1 : Nat) * 2 ^ e = n * 2 ^ e := by rw [Nat.cast_one, div_one]
  rw [heq, toRat?_finite, FloatFormat.valueOf_rankOf one_pos (hone.trans hq) hc hj, hone]

/-- A finite float keeps its value in a format with more bits on all sides. -/
theorem toRat?_convert {g : FloatFormat} (hp : f.precision ≤ g.precision)
    (hleast : g.leastExponent ≤ f.leastExponent) (hover : f.overflow ≤ g.overflow)
    {x : BinaryFloat f} (h : x.isFinite = true) : (x.convert : BinaryFloat g).toRat? = x.toRat? := by
  cases x with
  | nan | infinity => exact nomatch h
  | finite negative rank hrank =>
    obtain ⟨_, _, hm⟩ := f.rank_cases rank
    rw [FloatFormat.two_mul_binade] at hm
    have hexp : f.leastExponent ≤ f.exponentOf rank := Int.le_add_of_nonneg_right (Int.natCast_nonneg _)
    rw [toRat?_finite]
    refine toRat?_ofMagnitude (c := f.significandOf rank) (by rw [Int.cast_natCast]) ?_
      (hleast.trans hexp) ?_
    · exact_mod_cast hm.trans_le (Nat.pow_le_pow_right two_pos hp)
    · exact ((f.valueOf_lt_overflow_iff rank).mpr hrank).trans_le hover

end BinaryFloat

namespace BigReal

/-- The exact value by sign and magnitude. -/
theorem toRat_eq_withSign (x : BigReal) :
    x.toRat = withSign x.isNegative (x.mantissa.natAbs * 2 ^ x.exponent) := by
  have hsign : withSign x.isNegative x.mantissa.natAbs = x.mantissa := withSign_natAbs x.mantissa
  rw [withSign_mul, hsign, toRat_eq_mantissa]

theorem saturates_toFloat (f : FloatFormat) (x : BigReal) : (x.toFloat f).Saturates x.toRat := by
  rw [toRat_eq_withSign]
  exact BinaryFloat.saturates_ofMagnitude _ _ _

theorem abs_toRat (x : BigReal) : |x.toRat| = x.mantissa.natAbs * 2 ^ x.exponent := by
  rw [toRat_eq_withSign, abs_withSign, abs_of_nonneg (by positivity)]

theorem bitLength_mantissa (x : BigReal) : bitLength x.mantissa.natAbs = significantBits x.value := by
  unfold mantissa
  cases x.value <;> rfl

theorem natAbs_mantissa_lt {x : BigReal} {p : Nat} (h : significantBits x.value ≤ p) :
    x.mantissa.natAbs < 2 ^ p := by
  rwa [← bitLength_mantissa, bitLength_le_iff] at h

/-- A real is a float if it has no more bits than a significand and is within the range of the format. -/
theorem toRat?_toFloat {x : BigReal} (hbits : significantBits x.value ≤ f.precision)
    (hexp : f.leastExponent ≤ x.exponent) (hover : |x.toRat| < f.overflow) :
    (x.toFloat f).toRat? = some x.toRat := by
  rw [abs_toRat] at hover
  rw [toRat_eq_withSign]
  refine BinaryFloat.toRat?_ofMagnitude (c := x.mantissa.natAbs) (by rw [Int.cast_natCast]) ?_ hexp hover
  exact_mod_cast natAbs_mantissa_lt hbits

/-- A real of few bits that is not too small has a large enough exponent. -/
theorem le_exponent {x : BigReal} {p h : Nat} (hbits : significantBits x.value ≤ p)
    (hx : (2 : Rat) ^ (-h : Int) ≤ |x.toRat|) : -(p + h : Int) < x.exponent := by
  have hm : (x.mantissa.natAbs : Rat) < 2 ^ p := by
    exact_mod_cast natAbs_mantissa_lt hbits
  have hlt : (2 : Rat) ^ (-h : Int) < 2 ^ (p + x.exponent) := by
    calc (2 : Rat) ^ (-h : Int) ≤ |x.toRat| := hx
      _ = x.mantissa.natAbs * 2 ^ x.exponent := x.abs_toRat
      _ < 2 ^ p * 2 ^ x.exponent := mul_lt_mul_of_pos_right hm (zpow_pos two_pos _)
      _ = 2 ^ (p + x.exponent) := by rw [zpow_add₀ two_ne_zero, zpow_natCast]
  have := (zpow_lt_zpow_iff_right₀ one_lt_two).mp hlt
  omega

end BigReal

/-- Rounding to the precision of the format first does not carry a number over the overflow. -/
theorem RoundsTo.overflow_le_iff {d : Dyadic} (h : RoundsTo f.precision q d) :
    f.overflow ≤ d.toRat ↔ f.overflow ≤ q := by
  have hp := f.two_le_precision
  have hmiddle := h.middle_le_iff (by omega) (f.leastExponent + 2 ^ f.exponentBits - 3)
  rwa [show f.leastExponent + 2 ^ f.exponentBits - 3 - 1 = f.leastExponent + 2 ^ f.exponentBits - 4
    by ring] at hmiddle

/-- The float of a rational is infinite from the overflow on, though the rational is rounded twice. -/
theorem Rational.saturates_toFloat64 (q : Rat) : (Rational.toFloat64 q).Saturates q := by
  have hround : RoundsTo FloatFormat.double.precision q
      (BigReal.ofRat q FloatFormat.double.precision).value :=
    (BigReal.rounds_ofRat q FloatFormat.double.precision).value
  set x := BigReal.ofRat q FloatFormat.double.precision
  have habove : FloatFormat.double.overflow ≤ x.toRat ↔ FloatFormat.double.overflow ≤ q :=
    hround.overflow_le_iff
  have hbelow : x.toRat ≤ -FloatFormat.double.overflow ↔ q ≤ -FloatFormat.double.overflow := by
    rw [le_neg, le_neg (a := q), BigReal.toRat, ← Dyadic.toRat_neg]
    exact hround.neg.overflow_le_iff
  obtain ⟨above, below, within⟩ := BigReal.saturates_toFloat .double x
  refine ⟨fun h => above (habove.mpr h), fun h => below (hbelow.mpr h), fun h => within ?_⟩
  rw [abs_lt, ← not_le, ← not_le] at h ⊢
  exact ⟨fun h' => h.1 (hbelow.mp h'), fun h' => h.2 (habove.mp h')⟩

/-- A rational whose parts have no more than `h` bits becomes a float by rounding it once to the precision
of the format, if the format has room for the bits above and below. -/
theorem Rational.toRat?_toFloat (f : FloatFormat) {h : Nat} (hnum : q.num.natAbs ≤ 2 ^ h)
    (hden : q.den ≤ 2 ^ h) (hleast : f.leastExponent + f.precision + h ≤ 1)
    (htop : h < f.leastExponent + f.precision + 2 ^ f.exponentBits - 4) :
    ∃ d, ((BigReal.ofRat q f.precision).toFloat f).toRat? = some d.toRat ∧
      RoundsTo f.precision q d := by
  have hp := f.two_le_precision
  have hround : RoundsTo f.precision q (BigReal.ofRat q f.precision).value := by
    have h := (BigReal.rounds_ofRat q f.precision).value
    rwa [BigReal.effectivePrecision_of_le hp] at h
  set x := BigReal.ofRat q f.precision
  have hden0 : (0 : Rat) < q.den := Nat.cast_pos.mpr q.den_pos
  have habs : |q| = q.num.natAbs / q.den := by
    calc |q| = |(q.num : Rat) / q.den| := by rw [Rat.num_div_den]
      _ = q.num.natAbs / q.den := by rw [abs_div, abs_of_pos hden0, Nat.cast_natAbs, Int.cast_abs]
  have hupper : |q| ≤ 2 ^ (h : Int) := by
    rw [habs, zpow_natCast]
    have hnum' : (q.num.natAbs : Rat) ≤ 2 ^ h := by exact_mod_cast hnum
    have hden1 : (1 : Rat) ≤ q.den := by exact_mod_cast q.den_pos
    exact (div_le_self (Nat.cast_nonneg _) hden1).trans hnum'
  refine ⟨x.value, BigReal.toRat?_toFloat hround.significantBits_le ?_ ?_, hround⟩
  · by_cases hq : q = 0
    · have hzero : x.value.toRat = 0 :=
        (hround.eq_of_exact (c := 0) (Nat.zero_le _) (Dyadic.toRat_zero.trans hq.symm)).trans hq
      rw [BigReal.exponent, Dyadic.toRat_eq_zero_iff.mp hzero]
      show f.leastExponent ≤ 0
      omega
    · have hlower : (2 : Rat) ^ (-h : Int) ≤ |q| := by
        rw [habs, zpow_neg, zpow_natCast, inv_eq_one_div, div_le_div_iff₀ (by positivity) hden0, one_mul]
        have hnum1 : (1 : Rat) ≤ q.num.natAbs := by
          exact_mod_cast Int.natAbs_pos.mpr (Rat.num_ne_zero.mpr hq)
        have hden' : (q.den : Rat) ≤ 2 ^ h := by exact_mod_cast hden
        nlinarith
      have := BigReal.le_exponent hround.significantBits_le
        (hround.power_le_abs (by omega) hlower)
      omega
  · calc |x.toRat| ≤ 2 ^ (h : Int) := hround.abs_le_power (by omega) hupper
      _ < 2 ^ (f.leastExponent + f.precision + 2 ^ f.exponentBits - 4) :=
          zpow_lt_zpow_right₀ one_lt_two htop
      _ ≤ f.overflow := f.power_le_overflow

end NumericTower
