import NumericTower.Proofs.Rounding.NearestFloat

/-!
# Rationals are rounded twice

A rational becomes a float by way of a real with the precision of the format. Among the subnormal floats, which
have fewer bits, the real is rounded again. The second rounding only goes wrong if the first one ends at the
middle between two neighbours: then the even one is taken, on whichever side of the middle the rational is.

## Key results
- `RoundsTo.nearestRank_of_normal`: above the subnormal floats the second rounding changes nothing
- `RoundsTo.nearestInt_of_not_movedToMiddle`, `RoundsTo.not_nearestInt_of_movedToMiddle`: below, it is wrong
  exactly at the middles
- `RoundsTo.nearest_iff`: both together, infinite floats and signs included
- `Rational.ratio_is_rounded_once_unless_moved_to_middle`
-/

namespace NumericTower

namespace FloatFormat

/-- The magnitude `q` was moved to `d`, the middle between two neighbouring subnormal floats, from the side of
the odd one. -/
def MovedToMiddle (f : FloatFormat) (q d : Rat) : Prop :=
  ∃ k : Nat, d = (k + 1 / 2) * 2 ^ f.leastExponent ∧ (Even k → d < q) ∧ (Odd k → q < d)

end FloatFormat

variable {f : FloatFormat} {p m rank : Nat} {q : Rat} {d : Dyadic} {e : Int}

/-- A mantissa that has all bits with its leading one is the full mantissa. -/
theorem fullMantissa_eq (hlead : 2 ^ (p - 1) ≤ m) (hlt : m < 2 ^ p) (h : d.toRat = m * 2 ^ e) :
    fullMantissa p d = m := by
  have hm : 0 < m := (Nat.two_pow_pos _).trans_le hlead
  cases d with
  | zero =>
    have hpos : (0 : Rat) < m * 2 ^ e := by positivity
    exact absurd h hpos.ne
  | ofOdd n k hn =>
    rw [Dyadic.toRat_ofOdd_eq_mul_two_pow] at h
    have hn0 : 0 < n := by
      have : (0 : Rat) < n * 2 ^ (-k) := h ▸ by positivity
      exact_mod_cast pos_of_mul_pos_left this (zpow_pos two_pos _).le
    obtain ⟨a, rfl⟩ := Int.eq_ofNat_of_zero_le hn0.le
    rw [Int.cast_natCast] at h
    rcases le_or_gt e (-k) with hle | hlt'
    · obtain ⟨j, hj⟩ := Int.le.dest hle
      have hmul : m = a * 2 ^ j := eq_mul_pow_of_scaled two_ne_zero (by rw [hj]; exact_mod_cast h.symm)
      have hbits : bitLength m = p := by
        refine le_antisymm (bitLength_le_iff.mpr hlt) ?_
        by_contra! hshort
        exact (bitLength_le_iff.mp (Nat.le_sub_one_of_lt hshort)).not_ge hlead
      rw [hmul, bitLength_mul_two_pow (by omega)] at hbits
      rw [fullMantissa, Int.natAbs_natCast, hmul, show p - bitLength a = j by omega]
      push_cast
      rfl
    · -- An odd number has no zeros at its end.
      obtain ⟨j, hj⟩ := Int.le.dest hlt'.le
      have hmul : a = m * 2 ^ j := eq_mul_pow_of_scaled two_ne_zero (by rw [hj]; exact_mod_cast h)
      have heven : Even a := hmul ▸ (even_two.pow_of_ne_zero (by omega)).mul_left m
      rw [Nat.even_iff] at heven
      omega

namespace RoundsTo

theorem le_of_ge {c : Dyadic} (h : RoundsTo p q d) (hc : significantBits c ≤ p) (hq : c.toRat ≤ q) :
    c.toRat ≤ d.toRat := by
  have hneg := h.neg.le_of_le (c := -c) (by rwa [BigReal.significantBits_neg])
    (by rw [Dyadic.toRat_neg]; exact neg_le_neg hq)
  rw [Dyadic.toRat_neg, Dyadic.toRat_neg] at hneg
  exact neg_le_neg_iff.mp hneg

/-- Rounding keeps zero and signs. -/
theorem nonneg (h : RoundsTo p q d) (hq : 0 ≤ q) : 0 ≤ d.toRat := by
  have := h.le_of_ge (c := 0) (Nat.zero_le p) (by rwa [Dyadic.toRat_zero])
  rwa [Dyadic.toRat_zero] at this

theorem pos (h : RoundsTo p q d) (hp : 0 < p) (hq : 0 < q) : 0 < d.toRat := by
  refine lt_of_le_of_ne (h.nonneg hq.le) fun h0 => ?_
  have hlow := h.power_le_abs hp (Int.zpow_log_le_self one_lt_two (abs_pos.mpr hq.ne'))
  rw [← h0, abs_zero] at hlow
  exact hlow.not_gt (zpow_pos two_pos _)

/-- Below the least normal float the middles between neighbours have few enough bits to be kept, so no rational
is rounded over one of them. -/
theorem middle_spec {k : Nat} (h : RoundsTo f.precision q d) (hk : k < f.binade) :
    (q / 2 ^ f.leastExponent ≤ k + 1 / 2 → d.toRat / 2 ^ f.leastExponent ≤ k + 1 / 2) ∧
      (k + 1 / 2 ≤ q / 2 ^ f.leastExponent → k + 1 / 2 ≤ d.toRat / 2 ^ f.leastExponent) ∧
      (q / 2 ^ f.leastExponent = k + 1 / 2 → d.toRat = q) := by
  have hstep : (0 : Rat) < 2 ^ f.leastExponent := zpow_pos two_pos _
  have hbits : significantBits (.ofIntWithPrec (2 * k + 1) (-(f.leastExponent - 1))) ≤ f.precision := by
    have hp := f.two_le_precision
    have hb := f.two_mul_binade
    exact BigReal.significantBits_ofIntWithPrec_le (by omega) (by omega)
  have hvalue : (Dyadic.ofIntWithPrec (2 * k + 1) (-(f.leastExponent - 1))).toRat =
      (k + 1 / 2) * 2 ^ f.leastExponent := by
    rw [Dyadic.toRat_ofIntWithPrec_eq_mul_two_pow, neg_neg, zpow_sub_one₀ two_ne_zero]
    push_cast
    ring
  rw [div_le_iff₀ hstep, div_le_iff₀ hstep, le_div_iff₀ hstep, le_div_iff₀ hstep, div_eq_iff hstep.ne', ← hvalue]
  exact ⟨h.le_of_le hbits, h.le_of_ge hbits, fun hq => h.eq_of_exact hbits hq.symm⟩

theorem le_leastNormal (h : RoundsTo f.precision q d) (hq : 0 ≤ q)
    (hlow : q < f.binade * 2 ^ f.leastExponent) : d.toRat / 2 ^ f.leastExponent ≤ f.binade := by
  have hp := f.two_le_precision
  rw [div_le_iff₀ (zpow_pos two_pos _), f.binade_mul_leastExponent]
  refine (le_abs_self _).trans (h.abs_le_power (by omega) ?_)
  rw [abs_of_nonneg hq, ← f.binade_mul_leastExponent]
  exact hlow.le

theorem leastNormal_le (h : RoundsTo f.precision q d) (hq : f.binade * 2 ^ f.leastExponent ≤ q) :
    f.binade * 2 ^ f.leastExponent ≤ d.toRat := by
  have hp := f.two_le_precision
  have hq0 : 0 ≤ q := le_trans (by positivity) hq
  rw [f.binade_mul_leastExponent] at hq ⊢
  have hlow := h.power_le_abs (by omega) (hq.trans (le_abs_self q))
  rwa [abs_of_nonneg (h.nonneg hq0)] at hlow

/-- The rational is not above the middle that follows the nearest multiple, if it was not moved to that. -/
theorem le_middle (h : RoundsTo f.precision q d) (hlow : q < f.binade * 2 ^ f.leastExponent)
    (hnear : NearestInt (d.toRat / 2 ^ f.leastExponent) m) (hmoved : ¬f.MovedToMiddle q d.toRat) :
    q / 2 ^ f.leastExponent ≤ m + 1 / 2 := by
  have hstep : (0 : Rat) < 2 ^ f.leastExponent := zpow_pos two_pos _
  have hx : q / 2 ^ f.leastExponent < f.binade := (div_lt_iff₀ hstep).mpr hlow
  have hhalf := abs_le.mp hnear.abs_sub_le_half
  rw [Int.cast_natCast] at hhalf
  by_contra! hgt
  have hm : m < f.binade := by exact_mod_cast (show (m : Rat) < f.binade by linarith)
  have hmiddle : d.toRat / 2 ^ f.leastExponent = m + 1 / 2 :=
    le_antisymm (by linarith) ((h.middle_spec hm).2.1 hgt.le)
  have heven : Even (m : Int) := hnear.even_of_middle (by
    rw [hmiddle, Int.cast_natCast, sub_add_cancel_left, abs_neg, abs_of_pos (by norm_num)])
  refine hmoved ⟨m, (div_eq_iff hstep.ne').mp hmiddle, fun _ => ?_, fun hodd => ?_⟩
  · rwa [← hmiddle, div_lt_div_iff_of_pos_right hstep] at hgt
  · exact absurd (by exact_mod_cast heven) (Nat.not_even_iff_odd.mpr hodd)

/-- The rational is not below the middle before the nearest multiple, if it was not moved to that. -/
theorem middle_le {k : Nat} (h : RoundsTo f.precision q d) (hd : d.toRat / 2 ^ f.leastExponent ≤ f.binade)
    (hnear : NearestInt (d.toRat / 2 ^ f.leastExponent) (k + 1 : Nat)) (hmoved : ¬f.MovedToMiddle q d.toRat) :
    k + 1 / 2 ≤ q / 2 ^ f.leastExponent := by
  have hstep : (0 : Rat) < 2 ^ f.leastExponent := zpow_pos two_pos _
  have hhalf := abs_le.mp hnear.abs_sub_le_half
  push_cast at hhalf
  by_contra! hlt
  have hk : k < f.binade := by exact_mod_cast (show (k : Rat) < f.binade by linarith)
  have hmiddle : d.toRat / 2 ^ f.leastExponent = k + 1 / 2 :=
    le_antisymm ((h.middle_spec hk).1 hlt.le) (by linarith)
  have heven : Even ((k + 1 : Nat) : Int) := hnear.even_of_middle (by
    rw [hmiddle]
    push_cast
    rw [add_sub_add_left_eq_sub, abs_of_pos (by norm_num)]
    norm_num)
  refine hmoved ⟨k, (div_eq_iff hstep.ne').mp hmiddle, fun hk' => ?_, fun _ => ?_⟩
  · exact absurd (by exact_mod_cast heven) (Nat.not_even_iff_odd.mpr hk'.add_one)
  · rwa [← hmiddle, div_lt_div_iff_of_pos_right hstep] at hlt

/-- Below the least normal float the nearest multiple of the least one stays the nearest, if the rational was
not moved to a middle. -/
theorem nearestInt_of_not_movedToMiddle (h : RoundsTo f.precision q d) (hq : 0 ≤ q)
    (hlow : q < f.binade * 2 ^ f.leastExponent) (hnear : NearestInt (d.toRat / 2 ^ f.leastExponent) m)
    (hmoved : ¬f.MovedToMiddle q d.toRat) : NearestInt (q / 2 ^ f.leastExponent) m := by
  have hstep : (0 : Rat) < 2 ^ f.leastExponent := zpow_pos two_pos _
  have hx : q / 2 ^ f.leastExponent < f.binade := (div_lt_iff₀ hstep).mpr hlow
  have hupper := h.le_middle hlow hnear hmoved
  -- A rational that is a middle itself is not moved at all.
  have hexact : ∀ k : Nat, q / 2 ^ f.leastExponent = k + 1 / 2 → d.toRat = q := by
    intro k hk
    have hlt : k < f.binade := by exact_mod_cast (show (k : Rat) < f.binade by linarith)
    exact (h.middle_spec hlt).2.2 hk
  have htie : d.toRat = q → |((m : Int) : Rat) - q / 2 ^ f.leastExponent| = 1 / 2 → Even (m : Int) := by
    intro heq hhalf
    exact hnear.even_of_middle (by rwa [heq])
  cases m with
  | zero =>
    have hx0 : 0 ≤ q / 2 ^ f.leastExponent := by positivity
    refine .of_abs_le ?_ fun _ => Even.zero
    rw [abs_le]
    push_cast at hupper ⊢
    constructor <;> linarith
  | succ k =>
    have hlower := h.middle_le (h.le_leastNormal hq hlow) hnear hmoved
    push_cast at hupper htie ⊢
    refine .of_abs_le (by push_cast; rw [abs_le]; constructor <;> linarith) fun hhalf => ?_
    push_cast at hhalf
    refine htie ?_ hhalf
    rcases abs_cases ((k : Rat) + 1 - q / 2 ^ f.leastExponent) with ⟨habs, _⟩ | ⟨habs, _⟩
    · exact hexact k (by linarith)
    · exact hexact (k + 1) (by push_cast; linarith)

/-- Below the least normal float the nearest multiple of the least one changes if the rational was moved to a
middle. -/
theorem not_nearestInt_of_movedToMiddle (hnear : NearestInt (d.toRat / 2 ^ f.leastExponent) m)
    (hmoved : f.MovedToMiddle q d.toRat) : ¬NearestInt (q / 2 ^ f.leastExponent) m := by
  intro h
  have hstep : (0 : Rat) < 2 ^ f.leastExponent := zpow_pos two_pos _
  obtain ⟨k, hmiddle, hlow, hhigh⟩ := hmoved
  rw [← div_lt_div_iff_of_pos_right hstep] at hlow hhigh
  rw [← div_eq_iff hstep.ne'] at hmiddle
  rw [hmiddle] at hlow hhigh hnear
  have hhalf := abs_le.mp h.abs_sub_le_half
  -- The middle became the even one of its neighbours, but the rational is nearer to the other one.
  rcases Nat.even_or_odd k with heven | hodd
  · have hm : (m : Int) = k :=
      hnear.unique (.of_lower (by norm_num) le_rfl fun _ => by exact_mod_cast heven)
    rw [hm, Int.cast_natCast] at hhalf
    linarith [hlow heven]
  · have hm : (m : Int) = k + 1 :=
      hnear.unique (.of_upper (by norm_num) le_rfl fun _ => by exact_mod_cast hodd)
    rw [hm] at hhalf
    push_cast at hhalf
    linarith [hhigh hodd]

/-- From the least normal float on the bits that are kept first are those of a float. -/
theorem exists_valueOf (h : RoundsTo f.precision q d) (hq : f.binade * 2 ^ f.leastExponent ≤ q) :
    ∃ rank, f.valueOf rank = d.toRat ∧ f.binade ≤ f.significandOf rank := by
  have hp := f.two_le_precision
  have hlow := h.leastNormal_le hq
  have hpos : (0 : Rat) < f.binade * 2 ^ f.leastExponent :=
    mul_pos (Nat.cast_pos.mpr f.binade_pos) (zpow_pos two_pos _)
  obtain ⟨n, j, hvalue, hbits⟩ : ∃ (n : Nat) (j : Int), d.toRat = n * 2 ^ j ∧ n < 2 ^ f.precision := by
    cases d with
    | zero => exact absurd hlow hpos.not_ge
    | ofOdd n j hn =>
      rw [Dyadic.toRat_ofOdd_eq_mul_two_pow] at hlow ⊢
      have hn0 : 0 < n := by
        exact_mod_cast pos_of_mul_pos_left (hpos.trans_le hlow) (zpow_pos two_pos _).le
      refine ⟨n.natAbs, -j, ?_, bitLength_le_iff.mp h.significantBits_le⟩
      rw [Nat.cast_natAbs, abs_of_pos hn0]
  -- With a lower exponent so few bits would not reach the least normal float.
  have hj : f.leastExponent ≤ j := by
    by_contra! hlt
    refine hlow.not_gt ?_
    calc d.toRat = n * 2 ^ j := hvalue
      _ < 2 ^ f.precision * 2 ^ j := mul_lt_mul_of_pos_right (by exact_mod_cast hbits) (zpow_pos two_pos j)
      _ = 2 ^ (f.precision + j) := by rw [zpow_add₀ two_ne_zero, zpow_natCast]
      _ ≤ 2 ^ ((f.precision - 1 : Nat) + f.leastExponent) := zpow_le_zpow_right₀ one_le_two (by omega)
      _ = f.binade * 2 ^ f.leastExponent := f.binade_mul_leastExponent.symm
  have hrank : f.valueOf (f.rankOf n 1 j) = d.toRat := by
    have hone : (n : Rat) / (1 : Nat) * 2 ^ j = n * 2 ^ j := by rw [Nat.cast_one, div_one]
    rw [FloatFormat.valueOf_rankOf (c := n) (j := j) one_pos (by rw [hone, Int.cast_natCast])
      (by exact_mod_cast hbits) hj, hone, hvalue]
  refine ⟨_, hrank, (f.rank_cases _).2.1.elim (fun hzero => ?_) id⟩
  rw [← hrank, FloatFormat.valueOf, FloatFormat.exponentOf, hzero, Nat.cast_zero, add_zero] at hlow
  exact_mod_cast le_of_mul_le_mul_right hlow (zpow_pos two_pos _)

/-- From the least normal float on the second rounding changes nothing. -/
theorem nearestRank_of_normal (h : RoundsTo f.precision q d) (hq : f.binade * 2 ^ f.leastExponent ≤ q)
    (hrank : f.NearestRank d.toRat rank) : f.NearestRank q rank := by
  obtain ⟨kept, hvalue, hlead⟩ := h.exists_valueOf hq
  obtain rfl : rank = kept := hrank.unique (hvalue ▸ f.nearestRank_valueOf kept)
  -- All floats have few enough bits to be candidates of the first rounding.
  have hcandidate : ∀ other, ∃ c : Dyadic, significantBits c ≤ f.precision ∧ c.toRat = f.valueOf other := by
    intro other
    refine ⟨.ofIntWithPrec (f.significandOf other) (-f.exponentOf other), ?_, ?_⟩
    · refine BigReal.significantBits_ofIntWithPrec_le (by have := f.two_le_precision; omega) ?_
      rw [Int.natAbs_natCast, ← f.two_mul_binade]
      exact (f.rank_cases other).2.2.le
    · rw [Dyadic.toRat_ofIntWithPrec_eq_mul_two_pow, neg_neg, Int.cast_natCast, FloatFormat.valueOf]
  refine ⟨fun other => ?_, fun other hne htie => ?_⟩
  · obtain ⟨c, hbits, hc⟩ := hcandidate other
    rw [hvalue, ← hc]
    exact h.nearest c hbits
  · obtain ⟨c, hbits, hc⟩ := hcandidate other
    rw [hvalue, ← hc] at htie
    have heven := h.even c hbits (fun heq => hne ?_) htie
    · rw [fullMantissa_eq hlead (f.two_mul_binade ▸ (f.rank_cases rank).2.2) (hvalue.symm.trans rfl)] at heven
      exact FloatFormat.even_iff_even_significandOf.mpr (by exact_mod_cast heven)
    · exact f.valueOf_strictMono.injective (by rw [hvalue, ← heq, hc])

theorem not_movedToMiddle_of_normal (h : RoundsTo f.precision q d)
    (hq : f.binade * 2 ^ f.leastExponent ≤ q) : ¬f.MovedToMiddle q d.toRat := by
  rintro ⟨k, hmiddle, -⟩
  obtain ⟨rank, hvalue, -⟩ := h.exists_valueOf hq
  rcases f.valueOf_multiple_or_below rank 0 with ⟨j, hj⟩ | ⟨hne, -⟩
  · rw [hvalue, hmiddle, Nat.cast_zero, add_zero] at hj
    have hwhole : (2 * k + 1 : Int) = 2 * j := by
      have hj' : (k + 1 / 2 : Rat) = j := mul_right_cancel₀ (zpow_ne_zero _ two_ne_zero) hj
      exact_mod_cast (show (2 * k + 1 : Rat) = 2 * j by linarith)
    omega
  · exact absurd rfl hne

/-- The second rounding of a magnitude gives the nearest float, if it was not moved to a middle. -/
theorem nearestRank_iff (h : RoundsTo f.precision q d) (hq : 0 ≤ q) (hrank : f.NearestRank d.toRat rank) :
    f.NearestRank q rank ↔ ¬f.MovedToMiddle q d.toRat := by
  rcases le_or_gt (f.binade * 2 ^ f.leastExponent : Rat) q with hnormal | hlow
  · exact iff_of_true (h.nearestRank_of_normal hnormal hrank) (h.not_movedToMiddle_of_normal hnormal)
  · have hd := h.le_leastNormal hq hlow
    rw [div_le_iff₀ (zpow_pos two_pos _)] at hd
    rw [FloatFormat.nearestRank_iff_nearestInt (h.nonneg hq) hd] at hrank
    rw [FloatFormat.nearestRank_iff_nearestInt hq hlow.le]
    exact ⟨fun hnear hmoved => not_nearestInt_of_movedToMiddle hrank hmoved hnear,
      h.nearestInt_of_not_movedToMiddle hq hlow hrank⟩

/-- A magnitude is rounded to the magnitude. -/
theorem exists_abs (h : RoundsTo p q d) : ∃ c, RoundsTo p |q| c ∧ c.toRat = |d.toRat| := by
  rcases le_total 0 q with hq | hq
  · exact ⟨d, by rwa [abs_of_nonneg hq], (abs_of_nonneg (h.nonneg hq)).symm⟩
  · have hd := h.neg.nonneg (neg_nonneg.mpr hq)
    rw [Dyadic.toRat_neg] at hd
    exact ⟨-d, by rw [abs_of_nonpos hq]; exact h.neg, by
      rw [Dyadic.toRat_neg, abs_of_nonpos (neg_nonneg.mp hd)]⟩

theorem neg_iff (h : RoundsTo p q d) (hp : 0 < p) : d.toRat < 0 ↔ q < 0 := by
  constructor
  · intro hd
    by_contra! hq
    exact (h.nonneg hq).not_gt hd
  · intro hq
    have := h.neg.pos hp (neg_pos.mpr hq)
    rwa [Dyadic.toRat_neg, neg_pos] at this

/-- A real that a rational was rounded to, with the precision of a format, becomes the float nearest to the
rational exactly if the rational was not moved to a middle. -/
theorem nearest_iff {x : BigReal} (h : RoundsTo f.precision q x.value) :
    (x.toFloat f).Nearest q ↔ ¬f.MovedToMiddle |q| |x.toRat| := by
  have hsign : decide (x.toRat < 0) = decide (q < 0) :=
    decide_eq_decide.mpr (h.neg_iff (Nat.lt_of_lt_of_le two_pos f.two_le_precision))
  obtain ⟨c, hc, hvalue⟩ : ∃ c, RoundsTo f.precision |q| c ∧ c.toRat = |x.toRat| := h.exists_abs
  have hover := hc.overflow_le_iff
  rw [hvalue] at hover
  rcases lt_or_ge |q| f.overflow with hfinite | hinfinite
  · obtain ⟨rank, hrank, heq, hnear⟩ := x.exists_nearestRank (lt_of_not_ge (hover.not.mpr hfinite.not_ge))
    rw [← hvalue] at hnear
    rw [← hvalue, ← hc.nearestRank_iff (abs_nonneg q) hnear]
    constructor
    · intro hx
      obtain ⟨other, hother, heq', hform⟩ := hx.finite hfinite
      obtain ⟨-, rfl⟩ := BinaryFloat.finite.inj (heq.symm.trans heq')
      exact hform.nearestRank (abs_nonneg q) hfinite
    · intro hq
      exact ⟨fun h => absurd h hfinite.not_ge, fun _ =>
        ⟨rank, hrank, hsign ▸ heq, FloatFormat.isNearest_of_nearestRank hq hrank⟩⟩
  · -- Both are infinite, and no rational from the least normal float on is moved to a middle.
    have hx := BigReal.nearest_toFloat f x
    refine iff_of_true ⟨fun _ => hsign ▸ hx.infinite (hover.mpr hinfinite),
      fun h => absurd h hinfinite.not_gt⟩ ?_
    rw [← hvalue]
    exact hc.not_movedToMiddle_of_normal (f.leastNormal_le_overflow.trans hinfinite)

end RoundsTo

/-- The float of a rational is the one that the rational, rounded to 53 bits, is nearest to. It is the one
nearest to the rational itself unless those 53 bits end at the middle between two neighbouring subnormal floats,
of which the odd one was nearer; so it is for all rationals that are not below the least normal float. -/
theorem Rational.ratio_is_rounded_once_unless_moved_to_middle (q : Rat) :
    RoundsTo 53 q (BigReal.ofRat q 53).value ∧
      (Rational.toFloat64 q).Nearest (BigReal.ofRat q 53).toRat ∧
      ((Rational.toFloat64 q).Nearest q ↔
        ¬FloatFormat.double.MovedToMiddle |q| |(BigReal.ofRat q 53).toRat|) ∧
      ((2 : Rat) ^ (-1022 : Int) ≤ |q| → (Rational.toFloat64 q).Nearest q) := by
  have hround : RoundsTo FloatFormat.double.precision q (BigReal.ofRat q 53).value :=
    (BigReal.rounds_ofRat q 53).value
  have hiff : (Rational.toFloat64 q).Nearest q ↔ _ := hround.nearest_iff
  refine ⟨hround, BigReal.nearest_toFloat _ _, hiff, fun hq => hiff.mpr ?_⟩
  obtain ⟨c, hc, hvalue⟩ := hround.exists_abs
  have hnormal := FloatFormat.double.binade_mul_leastExponent
  rw [show |(BigReal.ofRat q 53).toRat| = c.toRat from hvalue.symm]
  exact hc.not_movedToMiddle_of_normal (hnormal.trans_le hq)

/-- A rational a little above half of the least subnormal float becomes zero: it was moved to the half. -/
theorem Rational.ratio_above_middle_becomes_zero :
    ¬(Rational.toFloat64 ((2 ^ 53 + 1) / 2 ^ 1128)).Nearest ((2 ^ 53 + 1) / 2 ^ 1128) := by
  intro h
  have hzero : Rational.toFloat64 ((2 ^ 53 + 1) / 2 ^ 1128) = .zero false := by decide +kernel
  obtain ⟨rank, hrank, heq, hform⟩ := h.finite (by decide +kernel)
  obtain ⟨-, rfl⟩ := BinaryFloat.finite.inj (hzero.symm.trans heq)
  -- The least subnormal float is nearer than zero.
  have hnear := hform.nearest (k := 1) (j := FloatFormat.double.leastExponent)
    ⟨by decide, le_rfl, by decide, .inr rfl⟩
  exact absurd hnear (by decide +kernel)

end NumericTower
