import NumericTower.BigReal.FloatSteps
import NumericTower.Proofs.BigReal.NormalForm
import NumericTower.Proofs.Rounding.NearestFloat

/-!
# Scaling loses nothing

A real is made a float by rounding its mantissa and scaling what is left. All rounding is done by then: the
mantissa has no more bits than the format, its last one is not below that of the least subnormal, and so every
product with a power of two is exact until it is infinite. So the steps give the nearest float.

## Key results
- `BinaryFloat.powerOfTwo_eq`: powers of two are exact
- `BinaryFloat.scale_ofMagnitude`: so is every step of the scaling
- `rankOf_roundBits`: the bits that are kept are those of the nearest float
- `BigReal.toFloat64_parts`, `BigReal.toFloat32_parts`: the steps give the nearest float
- `BigReal.reals_become_nearest_floats`
-/

namespace NumericTower

namespace FloatFormat

variable {f : FloatFormat} {n : Nat} {e : Int}

/-- A number that a finite float of the format has. -/
def IsValue (f : FloatFormat) (q : Rat) : Prop :=
  ∃ rank < f.finiteCount, f.valueOf rank = q

theorem isValue_of_le (hn : n ≤ 2 ^ f.precision) (he : f.leastExponent ≤ e)
    (hover : n * 2 ^ e < f.overflow) : f.IsValue (n * 2 ^ e) := by
  have hvalue : f.valueOf (f.rankOf n 1 e) = n * 2 ^ e := by
    -- All bits set and one more carry over to a power of two.
    have hform : ∃ c j : Int, (n : Rat) / (1 : Nat) * 2 ^ e = c * 2 ^ j ∧ c < 2 ^ f.precision ∧
        f.leastExponent ≤ j := by
      rw [Nat.cast_one, div_one]
      rcases Nat.lt_or_eq_of_le hn with hlt | rfl
      · exact ⟨n, e, by rw [Int.cast_natCast], by exact_mod_cast hlt, he⟩
      · refine ⟨1, f.precision + e, ?_, ?_, by omega⟩
        · rw [zpow_add₀ two_ne_zero, zpow_natCast, Int.cast_one, one_mul]
          push_cast
          rfl
        · exact one_lt_pow₀ one_lt_two (Nat.ne_of_gt (Nat.lt_of_lt_of_le two_pos f.two_le_precision))
    obtain ⟨c, j, hq, hc, hj⟩ := hform
    have h := valueOf_rankOf one_pos hq hc hj
    rwa [Nat.cast_one, div_one] at h
  exact ⟨_, (f.valueOf_lt_overflow_iff _).mp (hvalue.symm ▸ hover), hvalue⟩

end FloatFormat

namespace BinaryFloat

variable {f : FloatFormat} {s t : Bool} {m n : Nat} {a e j : Int}

/-! ## Products and powers of two -/

/-- The product of two floats is the float of the product of their values. -/
theorem mul_ofMagnitude (hm : f.IsValue (m * 2 ^ e)) (hn : f.IsValue (n * 2 ^ j)) :
    mul (ofMagnitude s m e) (ofMagnitude t n j : BinaryFloat f) = ofMagnitude (s != t) (m * n) (e + j) := by
  obtain ⟨a, ha, hva⟩ := hm
  obtain ⟨b, hb, hvb⟩ := hn
  rw [ofMagnitude_valueOf s ha hva.symm, ofMagnitude_valueOf t hb hvb.symm]
  refine ofMagnitude_congr ?_ _
  push_cast
  calc (f.significandOf a : Rat) * f.significandOf b * 2 ^ (f.exponentOf a + f.exponentOf b)
      = f.valueOf a * f.valueOf b := by
        rw [zpow_add₀ two_ne_zero, mul_mul_mul_comm]
        rfl
    _ = m * n * 2 ^ (e + j) := by rw [hva, hvb, zpow_add₀ two_ne_zero, mul_mul_mul_comm]

theorem mul_infinity {rank : Nat} (hrank : rank < f.finiteCount) (h0 : rank ≠ 0) :
    mul (.infinity s) (.finite t rank hrank : BinaryFloat f) = .infinity (s != t) :=
  if_neg h0

theorem isValue_power (h : |e| ≤ scalingStep) :
    FloatFormat.double.IsValue ((1 : Nat) * 2 ^ e) := by
  rw [scalingStep, abs_le] at h
  refine FloatFormat.isValue_of_le (by decide) (h.1.trans' (by decide)) ?_
  rw [Nat.cast_one, one_mul]
  exact (zpow_lt_zpow_right₀ one_lt_two (h.2.trans_lt (by decide))).trans_le
    FloatFormat.double.power_le_overflow

/-- A power of two that is a finite float is not zero. -/
theorem exists_power (h : |e| ≤ scalingStep) :
    ∃ rank hrank, rank ≠ 0 ∧ FloatFormat.double.valueOf rank = 2 ^ e ∧
      (ofMagnitude t 1 e : Float64Bits) = .finite t rank hrank := by
  obtain ⟨rank, hrank, hvalue⟩ := isValue_power h
  refine ⟨rank, hrank, ?_, by rw [hvalue, Nat.cast_one, one_mul], ofMagnitude_valueOf t hrank hvalue.symm⟩
  rintro rfl
  have hpos : (0 : Rat) < (1 : Nat) * 2 ^ e := by positivity
  exact hpos.ne (by rw [← hvalue]; simp [FloatFormat.valueOf, FloatFormat.significandOf])

/-- Repeated squaring of a power of two is exact as long as the result is no greater than a step. -/
theorem powerLoop_powers (a b n : Nat) (h : (a + b * n : Nat) ≤ scalingStep) :
    powerLoop (ofMagnitude false 1 a) (ofMagnitude false 1 b : Float64Bits) n =
      ofMagnitude false 1 (a + b * n : Nat) := by
  have hmul : ∀ i k : Nat, (i : Int) ≤ scalingStep → (k : Int) ≤ scalingStep →
      mul (ofMagnitude false 1 i) (ofMagnitude false 1 k : Float64Bits) =
        ofMagnitude false 1 (i + k : Nat) := by
    intro i k hi hk
    exact mul_ofMagnitude (isValue_power (by rwa [Nat.abs_cast])) (isValue_power (by rwa [Nat.abs_cast]))
  induction n using Nat.strongRecOn generalizing a b with
  | ind n ih =>
    rw [powerLoop]
    -- What the last bit of the exponent multiplies into the result.
    have hacc : (if n % 2 = 1 then mul (ofMagnitude false 1 a) (ofMagnitude false 1 b : Float64Bits)
        else ofMagnitude false 1 a) = ofMagnitude false 1 (a + b * (n % 2) : Nat) := by
      rcases Nat.mod_two_eq_zero_or_one n with h0 | h1
      · rw [if_neg (by omega), h0, Nat.mul_zero, Nat.add_zero]
      · have hb : b ≤ b * n := Nat.le_mul_of_pos_right b (by omega)
        rw [if_pos h1, h1, Nat.mul_one, hmul a b (by omega) (by omega)]
    have hsplit : b * (n % 2) + (b + b) * (n / 2) = b * n := by
      rw [← Nat.two_mul, Nat.mul_comm 2, Nat.mul_assoc, ← Nat.mul_add, Nat.mod_add_div]
    rw [hacc]
    split
    case isTrue hlast => rw [← hsplit, hlast, Nat.mul_zero, Nat.add_zero]
    case isFalse hmore =>
      have hb : b + b ≤ (b + b) * (n / 2) := Nat.le_mul_of_pos_right _ (Nat.pos_of_ne_zero hmore)
      rw [hmul b b (by omega) (by omega), ih (n / 2) (by omega) _ _ (by omega), Nat.add_assoc, hsplit]

theorem powerOfTwo_eq (h : |e| ≤ scalingStep) : powerOfTwo e = ofMagnitude false 1 e := by
  have hnat : (e.natAbs : Int) ≤ scalingStep := by rwa [← Int.abs_eq_natAbs]
  have hbase : (ofInt 2 : Float64Bits) = ofMagnitude false 1 (1 : Nat) :=
    ofMagnitude_congr (by norm_num) false
  have hloop := powerLoop_powers 0 1 e.natAbs (by rwa [Nat.zero_add, Nat.one_mul])
  rw [Nat.zero_add, Nat.one_mul, ← hbase] at hloop
  have hpower : powerLoop one (ofInt 2 : Float64Bits) e.natAbs = ofMagnitude false 1 e.natAbs := hloop
  rw [powerOfTwo, powInt, hpower]
  split
  case isTrue hneg =>
    -- A negative power is the inverse of a positive one, and both are floats.
    obtain ⟨a, ha, -, hva, hone⟩ := exists_power (t := false) (e := 0) (by decide)
    obtain ⟨b, hb, hb0, hvb, hinv⟩ := exists_power (t := false) (e := e.natAbs) (by rwa [Nat.abs_cast])
    have hone' : (one : Float64Bits) = .finite false a ha := hone
    rw [hone', hinv]
    refine (if_neg hb0).trans ?_
    rw [ofMagnitude, ofQuotient, ofQuotient]
    congr 1
    refine FloatFormat.rankOf_congr (Nat.pos_of_ne_zero fun h0 => ?_) one_pos ?_
    · have hpos : (0 : Rat) < 2 ^ (e.natAbs : Int) := zpow_pos two_pos _
      exact hpos.ne (by rw [← hvb, FloatFormat.valueOf, h0, Nat.cast_zero, zero_mul])
    · calc (FloatFormat.double.significandOf a : Rat) / FloatFormat.double.significandOf b *
            2 ^ (FloatFormat.double.exponentOf a - FloatFormat.double.exponentOf b)
          = FloatFormat.double.valueOf a / FloatFormat.double.valueOf b := by
            rw [zpow_sub₀ two_ne_zero, div_mul_div_comm]
            rfl
        _ = (1 : Nat) / (1 : Nat) * 2 ^ e := by
            rw [hva, hvb, ← zpow_sub₀ two_ne_zero, Nat.cast_one, div_one, one_mul]
            congr 1
            omega
  case isFalse hpos => rw [Int.natAbs_of_nonneg (by omega)]

/-! ## Scaling -/

/-- Scaling by a power of two is exact if nothing falls below the least subnormal, infinite or not. Only what
is not infinite yet is made smaller. -/
theorem mul_powerOfTwo (hn : 0 < n) (hbits : n ≤ 2 ^ 53) (ha : -1074 ≤ a) (hstep : |e| ≤ scalingStep)
    (hdown : 0 ≤ e ∨ a ≤ 0) :
    mul (ofMagnitude s n a) (powerOfTwo e) = ofMagnitude s n (a + e) := by
  have hn' : (0 : Rat) < n := Nat.cast_pos.mpr hn
  rw [powerOfTwo_eq hstep]
  rcases lt_or_ge ((n : Rat) * 2 ^ a) FloatFormat.double.overflow with hfinite | hover
  · have h := mul_ofMagnitude (s := s) (t := false) (FloatFormat.isValue_of_le hbits ha hfinite)
      (isValue_power hstep)
    rwa [Nat.mul_one, Bool.bne_false] at h
  · -- A number beyond all floats is above one, so it is not scaled down.
    have he : 0 ≤ e := by
      refine hdown.resolve_right fun h0 => hover.not_gt ?_
      calc (n : Rat) * 2 ^ a ≤ 2 ^ 53 * 1 :=
            mul_le_mul (by exact_mod_cast hbits) (zpow_le_one_of_nonpos₀ one_le_two h0) (zpow_pos two_pos _).le
              (by positivity)
        _ = 2 ^ (53 : Int) := by rw [mul_one, zpow_ofNat]
        _ < FloatFormat.double.overflow :=
            (zpow_lt_zpow_right₀ one_lt_two (by decide)).trans_le FloatFormat.double.power_le_overflow
    have hover' : FloatFormat.double.overflow ≤ n * 2 ^ (a + e) := by
      rw [zpow_add₀ two_ne_zero, ← mul_assoc]
      exact hover.trans (le_mul_of_one_le_right (by positivity) (one_le_zpow₀ one_le_two he))
    obtain ⟨rank, hrank, h0, -, hpower⟩ := exists_power (t := false) hstep
    rw [ofMagnitude_of_overflow_le hover, ofMagnitude_of_overflow_le hover', hpower, mul_infinity hrank h0,
      Bool.bne_false]

/-- All steps of the scaling are exact: the exponents that are passed lie between the first and the last. -/
theorem scaleSteps_ofMagnitude (hn : 0 < n) (hbits : n ≤ 2 ^ 53) (ha : -1074 ≤ a) (hae : -1074 ≤ a + e)
    (hdown : 0 ≤ e ∨ a ≤ 0) : scaleSteps (ofMagnitude s n a) e = ofMagnitude s n (a + e) := by
  induction h : e.natAbs using Nat.strongRecOn generalizing a e with
  | ind k ih =>
    rw [scaleSteps]
    split
    case isTrue hup =>
      rw [scalingStep] at hup
      rw [mul_powerOfTwo hn hbits ha (by decide) (.inl (by decide)),
        ih _ (by rw [scalingStep]; omega) (by rw [scalingStep]; omega) (by omega)
          (.inl (by rw [scalingStep]; omega)) rfl]
      congr 1
      omega
    case isFalse hle =>
      split
      case isTrue hlow =>
        rw [scalingStep] at hlow
        rw [mul_powerOfTwo hn hbits ha (by decide) (.inr (by omega)),
          ih _ (by rw [scalingStep]; omega) (by rw [scalingStep]; omega) (by omega)
            (.inr (by rw [scalingStep]; omega)) rfl]
        congr 1
        omega
      case isFalse hge => exact mul_powerOfTwo hn hbits ha (abs_le.mpr (by omega)) hdown

theorem scale_ofMagnitude (hn : 0 < n) (hbits : n ≤ 2 ^ 53) (he : -1074 ≤ e) :
    scale (ofMagnitude s n 0) e = ofMagnitude s n e := by
  have hclamped : scale (ofMagnitude s n 0) e = ofMagnitude s n (0 + max (-scalingLimit) (min e scalingLimit)) := by
    refine scaleSteps_ofMagnitude hn hbits (by decide) ?_ (.inr le_rfl)
    rw [scalingLimit]
    omega
  rw [hclamped, zero_add]
  rcases le_or_gt e scalingLimit with hle | hgt
  · rw [scalingLimit] at hle ⊢
    congr 1
    omega
  · -- Beyond the limit both are infinite.
    have hinfinite : ∀ j : Int, scalingLimit ≤ j → (ofMagnitude s n j : Float64Bits) = .infinity s := by
      intro j hj
      refine ofMagnitude_of_overflow_le (FloatFormat.double.overflow_lt.le.trans ?_)
      have hone : (1 : Rat) ≤ n := Nat.one_le_cast.mpr hn
      calc (2 : Rat) ^ _ ≤ 2 ^ j := zpow_le_zpow_right₀ one_le_two (le_trans (by decide) hj)
        _ ≤ n * 2 ^ j := le_mul_of_one_le_left (zpow_pos two_pos _).le hone
    rw [hinfinite e hgt.le, hinfinite _ (by rw [scalingLimit] at hgt ⊢; omega)]

/-- A float whose bits the narrower format has is converted to the float of the same value there. -/
theorem convert_ofMagnitude {g : FloatFormat} (hbits : n ≤ 2 ^ f.precision) (he : f.leastExponent ≤ e)
    (hover : g.overflow ≤ f.overflow) :
    ((ofMagnitude s n e : BinaryFloat f).convert : BinaryFloat g) = ofMagnitude s n e := by
  rcases lt_or_ge ((n : Rat) * 2 ^ e) f.overflow with hfinite | hinfinite
  · obtain ⟨rank, hrank, hvalue⟩ := FloatFormat.isValue_of_le hbits he hfinite
    rw [ofMagnitude_valueOf s hrank hvalue.symm]
    exact ofMagnitude_congr hvalue s
  · rw [ofMagnitude_of_overflow_le hinfinite, ofMagnitude_of_overflow_le (hover.trans hinfinite)]
    rfl

@[simp] theorem ofMagnitude_zero (s : Bool) (e : Int) : (ofMagnitude s 0 e : BinaryFloat f) = zero s := by
  simp [ofMagnitude, ofQuotient, FloatFormat.rankOf, zero]

theorem neg_ofMagnitude : (ofMagnitude s n e : BinaryFloat f).neg = ofMagnitude (!s) n e := by
  unfold ofMagnitude ofQuotient ofRank
  split <;> rfl

/-- An integer with a sign. -/
theorem signed_ofInt (s : Bool) (n : Nat) :
    (if s then (ofInt n : BinaryFloat f).neg else ofInt n) = ofMagnitude s n 0 := by
  have hint : (ofInt n : BinaryFloat f) = ofMagnitude false n 0 := by
    rw [ofInt, decide_eq_false (by omega), Int.natAbs_natCast]
  rw [hint, neg_ofMagnitude]
  cases s <;> rfl

end BinaryFloat

/-! ## The bits that are kept -/

section

variable {f : FloatFormat} {n : Nat} {e : Int}

theorem rankOf_of_keptBits_neg (h : keptBits f.precision f.leastExponent n e < 0) : f.rankOf n 1 e = 0 := by
  have hlow : e + bitLength n - f.leastExponent < 0 := by
    have := f.two_le_precision
    rw [keptBits] at h
    omega
  have hn : (n : Rat) < 2 ^ bitLength n := by exact_mod_cast lt_two_pow_bitLength n
  apply FloatFormat.rankOf_eq_zero one_pos
  rw [Nat.cast_one, div_one]
  calc (n : Rat) * 2 ^ e ≤ 2 ^ bitLength n * 2 ^ e :=
        mul_le_mul_of_nonneg_right hn.le (zpow_pos two_pos e).le
    _ = 2 ^ (bitLength n + e) := by rw [zpow_add₀ two_ne_zero, zpow_natCast]
    _ ≤ 2 ^ (f.leastExponent - 1) := zpow_le_zpow_right₀ one_le_two (by omega)
    _ = 2 ^ f.leastExponent / 2 := zpow_sub_one₀ two_ne_zero _

theorem roundBits_droppedBits_le (f : FloatFormat) (n : Nat) (e : Int) :
    roundBits n (droppedBits f.precision f.leastExponent n e) false ≤ 2 ^ f.precision := by
  refine roundBits_le (Nat.lt_of_lt_of_le (lt_two_pow_bitLength n) (Nat.pow_le_pow_right two_pos ?_))
  rw [droppedBits, keptBits]
  omega

theorem leastExponent_le_add (f : FloatFormat) (n : Nat) (e : Int) :
    f.leastExponent ≤ e + droppedBits f.precision f.leastExponent n e := by
  rw [droppedBits, keptBits]
  omega

/-- The bits that are kept, rounded, are a significand of the nearest float. -/
theorem rankOf_roundBits (hn : 0 < n) :
    f.rankOf (roundBits n (droppedBits f.precision f.leastExponent n e) false) 1
      (e + droppedBits f.precision f.leastExponent n e) = f.rankOf n 1 e := by
  by_cases hdrop : droppedBits f.precision f.leastExponent n e = 0
  · rw [hdrop, roundBits, if_pos rfl, Nat.cast_zero, add_zero]
  · set drop := droppedBits f.precision f.leastExponent n e with hdef
    set m := roundBits n drop false
    have hq : (n : Rat) / (1 : Nat) * 2 ^ e = n * 2 ^ e := by rw [Nat.cast_one, div_one]
    have hleast := leastExponent_le_add f n e
    -- The binade of the bit at which the magnitude is rounded.
    obtain ⟨k, hk⟩ : ∃ k : Nat, e + drop = f.leastExponent + k := ⟨(e + drop - f.leastExponent).toNat, by omega⟩
    have hnear : NearestInt ((n : Rat) * 2 ^ e / 2 ^ (f.leastExponent + k)) m := by
      have hround : NearestInt (((n : Rat) + 0) / 2 ^ drop) m :=
        nearestInt_roundBits le_rfl one_pos (by simp) (by simp)
      rwa [add_zero, ← zpow_natCast, ← mul_div_mul_right (n : Rat) _ (zpow_ne_zero e two_ne_zero),
        ← zpow_add₀ two_ne_zero, add_comm (drop : Int), hk] at hround
    have hreach : k ≠ 0 → f.binade * 2 ^ (f.leastExponent + k) ≤ (n : Rat) * 2 ^ e := by
      intro hk0
      have hbits : drop + f.precision = bitLength n := by
        rw [droppedBits, keptBits] at hdef
        omega
      have hp := f.two_le_precision
      have hlead : (2 : Rat) ^ (bitLength n - 1) ≤ n := by exact_mod_cast two_pow_bitLength_sub_one_le hn
      calc (f.binade : Rat) * 2 ^ (f.leastExponent + k) = 2 ^ (bitLength n - 1) * 2 ^ e := by
            rw [← hk, FloatFormat.binade, Nat.cast_pow, Nat.cast_ofNat, ← zpow_natCast, ← zpow_natCast,
              ← zpow_add₀ two_ne_zero, ← zpow_add₀ two_ne_zero]
            congr 1
            omega
        _ ≤ n * 2 ^ e := mul_le_mul_of_nonneg_right hlead (zpow_pos two_pos e).le
    have hbinade : k = 0 ∨ f.binade ≤ m := FloatFormat.binade_le_of_nearestInt hnear hreach
    have hm : m ≤ 2 * f.binade := f.two_mul_binade ▸ roundBits_droppedBits_le f n e
    have hrank := f.nearestRank_rankOf n one_pos e
    rw [hq] at hrank
    rw [hrank.unique (FloatFormat.nearestRank_of_nearestInt (by positivity) hbinade hm hnear hreach)]
    apply FloatFormat.rankOf_valueOf one_pos
    rw [FloatFormat.valueOf_add hbinade hm, hk, Nat.cast_one, div_one]

end

namespace BigReal

variable {f : FloatFormat}

/-- The steps end at a float of 64 bits whose value the narrower format rounds the real to. -/
theorem exists_roundToDouble (x : BigReal) (hp : f.precision ≤ 53) (hleast : -1074 ≤ f.leastExponent) :
    ∃ n e, (parts x).roundToDouble f.precision f.leastExponent = .ofMagnitude x.isNegative n e ∧
      n ≤ 2 ^ f.precision ∧ f.leastExponent ≤ e ∧
      x.toFloat f = .ofMagnitude x.isNegative n e := by
  have hkeep : x.toFloat f = .ofRank x.isNegative (f.rankOf x.mantissa.natAbs 1 x.exponent) := rfl
  set n := x.mantissa.natAbs with hn
  set drop := droppedBits f.precision f.leastExponent n x.exponent with hdrop
  have hbits : roundBits n drop false ≤ 2 ^ f.precision := roundBits_droppedBits_le f n x.exponent
  have hleast' : f.leastExponent ≤ x.exponent + drop := leastExponent_le_add f n x.exponent
  have hzero : ∀ s, (BinaryFloat.ofMagnitude s 0 f.leastExponent : Float64Bits) = .zero s := by simp
  unfold Parts.roundToDouble
  dsimp only
  rw [show (parts x).mantissa.natAbs = n from rfl, show (parts x).exponent = x.exponent from rfl, ← hdrop]
  split
  case isTrue h =>
    have hm : x.mantissa = 0 := beq_iff_eq.mp h
    have hsign : x.isNegative = false := by simp [isNegative, hm]
    refine ⟨0, f.leastExponent, ?_, Nat.zero_le _, le_rfl, ?_⟩
    · rw [hsign, hzero]
    · rw [BinaryFloat.ofMagnitude_zero, toFloat, hm, Int.natAbs_zero, BinaryFloat.ofMagnitude_zero]
  case isFalse h =>
    have hpos : 0 < n := by
      exact Int.natAbs_pos.mpr fun h0 => h (beq_iff_eq.mpr h0)
    split
    case isTrue hsmall =>
      refine ⟨0, f.leastExponent, (hzero _).symm, Nat.zero_le _, le_rfl, ?_⟩
      rw [BinaryFloat.ofMagnitude_zero, hkeep, rankOf_of_keptBits_neg hsmall]
      rfl
    case isFalse hkept =>
      have hrank := rankOf_roundBits (f := f) (e := x.exponent) hpos
      refine ⟨roundBits n drop false, x.exponent + drop, ?_, hbits, hleast', ?_⟩
      · split
        case isTrue h0 => rw [h0, BinaryFloat.ofMagnitude_zero]; rfl
        case isFalse h0 =>
          have hlt : roundBits n drop false < 2 ^ 64 :=
            hbits.trans_lt (Nat.pow_lt_pow_right one_lt_two (by omega))
          rw [if_pos hlt, show (parts x).isNegative = x.isNegative from rfl, BinaryFloat.signed_ofInt]
          exact BinaryFloat.scale_ofMagnitude (Nat.pos_of_ne_zero h0)
            (hbits.trans (Nat.pow_le_pow_right two_pos hp)) (hleast.trans hleast')
      · rw [hkeep, ← hrank]
        rfl

theorem toFloat64_parts (x : BigReal) : (parts x).toFloat64 = x.toFloat .double := by
  obtain ⟨n, e, hsteps, -, -, hfloat⟩ := x.exists_roundToDouble (f := .double) (by decide) (by decide)
  exact hsteps.trans hfloat.symm

theorem toFloat32_parts (x : BigReal) : (parts x).toFloat32 = x.toFloat .single := by
  obtain ⟨n, e, hsteps, hbits, he, hfloat⟩ := x.exists_roundToDouble (f := .single) (by decide) (by decide)
  have hconvert : ((BinaryFloat.ofMagnitude x.isNegative n e : Float64Bits).convert : Float32Bits) =
      .ofMagnitude x.isNegative n e :=
    BinaryFloat.convert_ofMagnitude (hbits.trans (by decide)) (he.trans' (by decide))
      FloatFormat.overflow_single_le
  rw [hfloat, ← hconvert, ← hsteps]
  rfl

/-! ## There and back -/

/-- The real of a finite float has its value, whatever precision is asked for. -/
theorem exists_ofFloat? {v : BinaryFloat f} {q : Rat} (hv : v.toRat? = some q) (hp : f.precision ≤ 53)
    (p : Nat) : ∃ r, ofFloat? v p = some r ∧ r.toRat = q := by
  obtain ⟨d, hd, rfl⟩ := Option.map_eq_some_iff.mp hv
  have hbits : significantBits d ≤ f.precision := by
    cases v with
    | nan | infinity => exact nomatch hd
    | finite negative rank hrank =>
      cases hd
      refine significantBits_ofIntWithPrec_le (Nat.lt_of_lt_of_le two_pos f.two_le_precision) ?_
      rw [natAbs_signed, ← f.two_mul_binade]
      exact (f.rank_cases rank).2.2.le
  refine ⟨_, by rw [ofFloat?, hd, Option.map_some], ?_⟩
  split
  case isTrue h0 => rw [toRat_zero, h0, Dyadic.toRat_zero]
  case isFalse h0 =>
    refine (rounds_round d _).value.eq_of_exact (hbits.trans (hp.trans ?_)) rfl
    exact (Nat.le_max_right p _).trans (Nat.le_max_left _ _)

theorem isValueOf_parts {x : BigReal} {v : Float64Bits} :
    (parts x).isValueOf v = true ↔ v.toRat? = some x.toRat := by
  rw [Parts.isValueOf, parts_ofFloat?]
  cases hv : v.toRat? with
  | none =>
    have hnone : ofFloat? v (parts x).precision = none := by
      rw [ofFloat?, Option.map_eq_none_iff.mp hv, Option.map_none]
    rw [hnone]
    exact iff_of_false Bool.false_ne_true (Option.some_ne_none _).symm
  | some q =>
    obtain ⟨r, hr, rfl⟩ := exists_ofFloat? hv (by decide) (parts x).precision
    rw [hr, Option.some.injEq]
    show (parts r).same (parts x) = true ↔ _
    rw [same_parts, sameValue, decide_eq_true_iff, toRat, toRat, Dyadic.toRat_inj]

theorem isFloat64_parts (x : BigReal) : (parts x).isFloat64 = x.isFloat .double := by
  rw [Bool.eq_iff_iff, isFloat_eq_true_iff, Parts.isFloat64, isValueOf_parts, toFloat64_parts]

theorem isFloat32_parts (x : BigReal) : (parts x).isFloat32 = x.isFloat .single := by
  have hwiden : ((x.toFloat .single).convert : Float64Bits).toRat? = (x.toFloat .single).toRat? := by
    cases h : x.toFloat .single with
    | nan | infinity => rfl
    | finite => exact BinaryFloat.toRat?_convert (by decide) (by decide) FloatFormat.overflow_single_le rfl
  rw [Bool.eq_iff_iff, isFloat_eq_true_iff, Parts.isFloat32, isValueOf_parts, toFloat32_parts, hwiden]

/-- The steps that make a real a float of 64 or 32 bits give the float that the real is rounded to once: of
the nearest significand and exponent, the even ones of two, zero from half of the least subnormal down, and
infinite from half a step above the greatest float on. A real survives exactly if one of the finite floats has
its value, and each of those survives as a real of any precision. -/
theorem reals_become_nearest_floats (x : BigReal) :
    ((parts x).toFloat64.Nearest x.toRat ∧ (parts x).toFloat32.Nearest x.toRat) ∧
      (x.toFloat .double = (parts x).toFloat64 ∧ x.toFloat .single = (parts x).toFloat32) ∧
      (∀ f : FloatFormat,
        f.overflow = (2 ^ f.precision - 1) * 2 ^ f.greatestExponent + 2 ^ f.greatestExponent / 2) ∧
      (|x.toRat| ≤ 2 ^ FloatFormat.double.leastExponent / 2 →
        (parts x).toFloat64 = .zero x.isNegative) ∧
      (|x.toRat| ≤ 2 ^ FloatFormat.single.leastExponent / 2 →
        (parts x).toFloat32 = .zero x.isNegative) ∧
      (x.isFloat .double = (parts x).isFloat64 ∧ x.isFloat .single = (parts x).isFloat32) ∧
      ((parts x).isFloat64 = true ↔ ∃ v : Float64Bits, v.toRat? = some x.toRat) ∧
      ((parts x).isFloat32 = true ↔ ∃ v : Float32Bits, v.toRat? = some x.toRat) ∧
      ∀ (v : Float64Bits) (q : Rat) (p : Nat), v.toRat? = some q →
        ∃ r, ofFloat? v p = some r ∧ (parts r).toFloat64.toRat? = some q := by
  rw [toFloat64_parts, toFloat32_parts, isFloat64_parts, isFloat32_parts]
  refine ⟨⟨nearest_toFloat _ x, nearest_toFloat _ x⟩, ⟨rfl, rfl⟩, FloatFormat.overflow_eq_half_step,
    toFloat_eq_zero, toFloat_eq_zero, ⟨rfl, rfl⟩, isFloat_iff x, isFloat_iff x, fun v q p hv => ?_⟩
  obtain ⟨r, hr, rfl⟩ := exists_ofFloat? hv (by decide) p
  refine ⟨r, hr, ?_⟩
  rw [toFloat64_parts]
  exact isFloat_eq_true_iff.mp ((isFloat_iff r).mpr ⟨v, hv⟩)

end BigReal

end NumericTower
