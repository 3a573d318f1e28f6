import Mathlib
import NumericTower.BigReal.Parts
import NumericTower.Proofs.BigReal.Literal
import NumericTower.Proofs.Rational.LowestTerms
import NumericTower.Proofs.Rounding.Float

/-!
# Reals in normal form

Arithmetic on the parts of reals shifts the zeros at the end of every mantissa out after it is rounded, so a
mantissa is odd or zero, and its parts are determined by its value. Rounding does not see such zeros, so the
parts that come out are those of the running reals, and equality of parts, equality of values and the order
of aligned mantissas say the same about two reals, whatever their precisions.

## Key results
- `Parts.eq_parts`: the value determines parts without zeros to shift out
- `ofMagnitude_congr`: rounding does not depend on how a value is scaled
- `parts_add`, `parts_divide?` and the like: operations on parts and on reals agree
- `results_are_rounded_once`
- `Calculation.byParts_eq`: everything composed of operations agrees as well
- `reals_stay_in_normal_form`
-/

namespace NumericTower

/-- Zeros at the end of the bits that are dropped change nothing. -/
theorem roundBits_mul_two_pow (n drop j : Nat) :
    roundBits (n * 2 ^ j) (drop + j) false = roundBits n drop false := by
  have hnear : ∀ m k : Nat, NearestInt (((m : Rat) + 0) / 2 ^ k) (roundBits m k false) :=
    fun m k => nearestInt_roundBits le_rfl one_pos (by simp) (by simp)
  have hscale : (((n * 2 ^ j : Nat) : Rat) + 0) / 2 ^ (drop + j) = (n + 0) / 2 ^ drop := by
    push_cast
    rw [add_zero, add_zero, pow_add, mul_div_mul_right _ _ (by positivity)]
  have h := hnear (n * 2 ^ j) (drop + j)
  rw [hscale] at h
  exact_mod_cast h.unique (hnear n drop)

/-- The sign of a number other than zero can be told. -/
theorem withSign_inj {s t : Bool} {x : Rat} (hx : 0 < x) (h : withSign s x = withSign t x) : s = t := by
  cases s <;> cases t <;> simp only [withSign, if_true, Bool.false_eq_true, if_false] at h ⊢ <;> linarith

namespace BigReal

variable {n : Nat} {e : Int} {p : Nat}

/-- A real is its value and its precision. -/
theorem eq_of_toRat {x y : BigReal} (hvalue : x.toRat = y.toRat) (hprecision : x.precision = y.precision) :
    x = y := by
  have hvalue' := Dyadic.toRat_inj.mp hvalue
  cases x
  cases y
  congr

theorem toRat_ofScaled {m : Int} (h : m.natAbs ≤ 2 ^ effectivePrecision p) :
    (ofScaled m e p h).toRat = m * 2 ^ e := by
  rw [toRat, ofScaled, Dyadic.toRat_ofIntWithPrec_eq_mul_two_pow, neg_neg]

@[simp] theorem toRat_zero (p : Nat) : (zero p).toRat = 0 := by
  rw [zero, toRat_ofScaled, Int.cast_zero, zero_mul]

theorem toRat_rounded (negative : Bool) (n : Nat) (e : Int) (sticky : Bool) (p : Nat) :
    (rounded negative n e sticky p).toRat =
      withSign negative (roundBits n (excessBits n p) sticky * 2 ^ (e + excessBits n p)) := by
  rw [rounded, toRat_ofScaled, withSign_mul, withSign_natCast]

/-! ### Rounding does not depend on how a value is scaled -/

theorem ofMagnitude_mul_two_pow (negative : Bool) (n j : Nat) (e : Int) (p : Nat) :
    ofMagnitude negative (n * 2 ^ j) e p = ofMagnitude negative n (e + j) p := by
  refine eq_of_toRat ?_ rfl
  by_cases hfits : bitLength n ≤ effectivePrecision p
  · -- Nothing of `n` is dropped, so its value is exact and there is no other rounding of it.
    have hexact : (ofMagnitude negative n (e + j) p).toRat = withSign negative ((n * 2 ^ j : Nat) * 2 ^ e) := by
      rw [ofMagnitude, toRat_rounded, excessBits, Nat.sub_eq_zero_of_le hfits, roundBits, if_pos rfl,
        Nat.cast_zero, add_zero, zpow_add₀ two_ne_zero, zpow_natCast]
      push_cast
      ring_nf
    rw [hexact]
    have hrounds := (rounds_ofMagnitude negative (n * 2 ^ j) e p).value
    exact hrounds.eq_of_exact (ofMagnitude negative n (e + j) p).significantBits_le hexact
  · -- The zeros at the end are dropped with the bits that are too many.
    have hn : n ≠ 0 := by
      rintro rfl
      exact hfits (Nat.zero_le _)
    have hexcess : excessBits (n * 2 ^ j) p = excessBits n p + j := by
      rw [excessBits, excessBits, bitLength_mul_two_pow hn]
      omega
    rw [ofMagnitude, ofMagnitude, toRat_rounded, toRat_rounded, hexcess, roundBits_mul_two_pow]
    congr 3
    push_cast
    ring

theorem ofMagnitude_congr {n m : Nat} {e f : Int} (h : (n : Rat) * 2 ^ e = m * 2 ^ f) (negative : Bool)
    (p : Nat) : ofMagnitude negative n e p = ofMagnitude negative m f p := by
  wlog hle : e ≤ f generalizing n m e f
  · exact (this h.symm (by omega)).symm
  · obtain ⟨j, rfl⟩ := Int.le.dest hle
    have hn : n = m * 2 ^ j := eq_mul_pow_of_scaled two_ne_zero (by exact_mod_cast h)
    rw [hn, ofMagnitude_mul_two_pow]

/-- However a dyadic rational is given by sign, magnitude and scale, it is rounded alike. -/
theorem ofMagnitude_eq_round {d : Dyadic} {negative : Bool} (h : d.toRat = withSign negative (n * 2 ^ e))
    (p : Nat) : ofMagnitude negative n e p = round d p := by
  have hscale : (0 : Rat) < 2 ^ e := zpow_pos two_pos e
  cases d with
  | zero =>
    have hn : n = 0 := by
      have habs := congrArg (|·|) h
      rw [abs_withSign, show Dyadic.zero.toRat = 0 from rfl, abs_zero, abs_of_nonneg (by positivity)] at habs
      exact_mod_cast (mul_eq_zero.mp habs.symm).resolve_right hscale.ne'
    refine eq_of_toRat ?_ rfl
    rw [hn, ofMagnitude, toRat_rounded, roundBits]
    simp [bitLength, excessBits, round, withSign]
  | ofOdd m k hm =>
    have hvalue : (Dyadic.ofOdd m k hm).toRat = withSign (decide (m < 0)) (m.natAbs * 2 ^ (-k)) := by
      rw [withSign_mul, withSign_natAbs]
      exact Dyadic.toRat_ofOdd_eq_mul_two_pow
    have hmagnitude : (n : Rat) * 2 ^ e = m.natAbs * 2 ^ (-k) := by
      have habs := congrArg (|·|) (h.symm.trans hvalue)
      rwa [abs_withSign, abs_withSign, abs_of_nonneg (by positivity), abs_of_nonneg (by positivity)] at habs
    have hm0 : m ≠ 0 := by omega
    have hpos : (0 : Rat) < m.natAbs * 2 ^ (-k) := by positivity
    have hsign : decide (m < 0) = negative := by
      rw [hvalue, hmagnitude] at h
      exact withSign_inj hpos h
    rw [round, hsign]
    exact ofMagnitude_congr hmagnitude negative p

/-! ### What determines the parts -/

namespace Parts

/-- The rational that the parts stand for. -/
def value (x : Parts) : Rat :=
  x.mantissa * 2 ^ x.exponent

/-- The mantissa has no zeros at its end to shift out, and zero has the exponent zero. -/
def Shifted (x : Parts) : Prop :=
  x.mantissa % 2 = 1 ∨ x.mantissa = 0 ∧ x.exponent = 0

@[simp] theorem value_parts (x : BigReal) : (parts x).value = x.toRat :=
  (toRat_eq_mantissa x).symm

theorem shifted_parts (x : BigReal) : (parts x).Shifted := by
  unfold Shifted parts BigReal.mantissa BigReal.exponent
  dsimp only
  cases x.value with
  | zero => exact .inr ⟨rfl, rfl⟩
  | ofOdd m k hm => exact .inl hm

/-- Nothing but the zeros at its end tells the mantissas of one value apart. -/
theorem eq_parts {x : Parts} {r : BigReal} (h : x.Shifted) (hvalue : x.value = r.toRat)
    (hprecision : x.precision = r.precision) : x = parts r := by
  obtain ⟨m, e, p⟩ := x
  simp only [Shifted, value] at h hvalue hprecision
  unfold parts BigReal.mantissa BigReal.exponent
  rcases h with hodd | ⟨rfl, rfl⟩
  · have hr : r.value = .ofOdd m (-e) hodd := by
      rw [← Dyadic.toRat_inj, Dyadic.toRat_ofOdd_eq_mul_two_pow, neg_neg, hvalue, toRat]
    simp only [hr, hprecision, neg_neg]
  · have hr : r.value = .zero := by
      rw [← Dyadic.toRat_inj, ← toRat, ← hvalue, Int.cast_zero, zero_mul]
      rfl
    simp only [hr, hprecision]

/-- Shifting the zeros at the end out leaves an odd number, and nothing else is lost. -/
theorem shiftRight_trailingZeros {n : Nat} (hn : n ≠ 0) :
    (n >>> Int.trailingZeros n) % 2 = 1 ∧ (n >>> Int.trailingZeros n) * 2 ^ Int.trailingZeros n = n := by
  have hne : (n : Int) ≠ 0 := Int.natCast_ne_zero.mpr hn
  constructor
  · exact_mod_cast Int.shiftRight_trailingZeros_mod_two hne
  · rw [Nat.shiftRight_eq_div_pow]
    exact Nat.div_mul_cancel (by exact_mod_cast Int.two_pow_trailingZeros_dvd hne)

variable (negative : Bool) (n : Nat) (e : Int) (p : Nat)

theorem shifted_normalized : (normalized negative n e p).Shifted := by
  unfold normalized
  split
  · exact .inr ⟨rfl, rfl⟩
  case isFalse hn =>
    have hodd := (shiftRight_trailingZeros hn).1
    left
    cases negative <;> simp only [Numeral.signed, if_true, Bool.false_eq_true, if_false] <;> omega

theorem value_normalized : (normalized negative n e p).value = withSign negative (n * 2 ^ e) := by
  unfold normalized
  split
  case isTrue hn => simp [hn, value, zero, withSign]
  case isFalse hn =>
    have hshift := (shiftRight_trailingZeros hn).2
    set k := Int.trailingZeros n
    rw [value, ← withSign_natCast, ← withSign_mul, zpow_add₀ two_ne_zero, zpow_natCast,
      mul_comm (2 ^ e : Rat), ← mul_assoc]
    congr 2
    exact_mod_cast hshift

theorem precision_normalized (hp : 2 ≤ p) : (normalized negative n e p).precision = p := by
  unfold normalized
  split
  · exact effectivePrecision_of_le hp
  · rfl

/-- A carry can leave zeros at the end of the rounded magnitude, which are shifted out. -/
theorem rounded_eq (sticky : Bool) :
    rounded negative n e sticky p = parts (BigReal.rounded negative n e sticky p) := by
  refine eq_parts (shifted_normalized _ _ _ _) ?_ ?_
  · rw [rounded, value_normalized, toRat_rounded]
    rfl
  · exact precision_normalized _ _ _ _ (two_le_effectivePrecision p)

theorem ofQuotient_eq (num den : Nat) :
    ofQuotient negative num den e p = parts (BigReal.ofQuotient negative num den e p) := by
  unfold ofQuotient BigReal.ofQuotient
  split
  · rfl
  · exact rounded_eq _ _ _ _ _

/-- A magnitude that is rounded as it stands gives the parts of the rounded dyadic rational. -/
theorem rounded_eq_round {d : Dyadic} (h : d.toRat = withSign negative (n * 2 ^ e)) :
    rounded negative n e false p = parts (round d p) := by
  rw [rounded_eq, ← ofMagnitude_eq_round h p, ofMagnitude]

theorem ofScaled_eq_round {m : Int} {d : Dyadic} (h : d.toRat = m * 2 ^ e) :
    ofScaled m e p = parts (round d p) := by
  refine rounded_eq_round _ _ _ _ ?_
  rw [h, withSign_mul, withSign_natAbs]

end Parts

/-! ### Operations on the parts of reals -/

section

variable (x y : BigReal) (p : Nat)

theorem parts_ofInt (z : Int) : Parts.ofInt z p = parts (ofInt z p) := by
  rw [Parts.ofInt, Parts.ofScaled, Parts.rounded_eq, ofInt, ofMagnitude]

theorem parts_ofRat (q : Rat) : Parts.ofFraction (Rational.parts q) p = parts (ofRat q p) := by
  rw [Parts.ofFraction, Parts.ofQuotient_eq, ofRat]
  simp only [Rational.parts, Rat.num_neg, Int.natAbs_natCast]

/-- A float other than zero is rounded from its significand. -/
theorem parts_ofFloat? {f : FloatFormat} (v : BinaryFloat f) :
    Parts.ofFloat? v p = (ofFloat? v p).map parts := by
  cases v with
  | nan | infinity => rfl
  | finite negative rank hrank =>
    obtain ⟨d, hd⟩ : ∃ d, BinaryFloat.toDyadic? (.finite negative rank hrank) = some d := ⟨_, rfl⟩
    have hvalue : d.toRat = withSign negative (f.valueOf rank) := by
      cases hd
      rw [Dyadic.toRat_ofIntWithPrec_eq_mul_two_pow, neg_neg, FloatFormat.valueOf, withSign_mul,
        withSign_natCast]
    have hzero : d = 0 ↔ rank = 0 := by
      rw [← Dyadic.toRat_inj, Dyadic.toRat_zero, hvalue, ← abs_eq_zero, abs_withSign,
        abs_of_nonneg (f.valueOf_nonneg rank), ← f.valueOf_strictMono.injective.eq_iff (b := 0)]
      simp [FloatFormat.valueOf, FloatFormat.significandOf]
    rw [Parts.ofFloat?, ofFloat?, hd, Option.map_some, Option.map_some, Parts.rounded_eq_round _ _ _ _ hvalue]
    simp only [hzero]
    split <;> rfl

theorem parts_withPrecision : (parts x).withPrecision p = parts (x.withPrecision p) :=
  Parts.rounded_eq_round _ _ _ _ (toRat_eq_withSign x)

theorem parts_neg : (parts x).neg = parts x.neg := by
  unfold Parts.neg parts mantissa exponent neg
  dsimp only
  cases x.value <;> rfl

theorem parts_abs : (parts x).abs = parts x.abs := by
  unfold abs
  split
  case isTrue hneg =>
    have hnonpos : x.mantissa ≤ 0 := (of_decide_eq_true hneg).le
    rw [← parts_neg, Parts.abs, Parts.neg, parts, Int.ofNat_natAbs_of_nonpos hnonpos]
  case isFalse hneg =>
    have hnonneg : 0 ≤ x.mantissa := not_lt.mp fun h => hneg (decide_eq_true h)
    rw [Parts.abs, parts, Int.natAbs_of_nonneg hnonneg]

/-- The mantissas for the lesser exponent stand for the same values. -/
theorem aligned_values (x y : Parts) : ∃ a b e : Int, Parts.aligned x y = (a, b, e) ∧
    x.value = a * 2 ^ e ∧ y.value = b * 2 ^ e := by
  have hshift : ∀ (m f e : Int), e ≤ f → (m * 2 ^ f : Rat) = (m <<< (f - e).toNat : Int) * 2 ^ e := by
    intro m f e he
    rw [Int.shiftLeft_eq, Int.cast_mul, mul_assoc]
    push_cast
    rw [← zpow_natCast, ← zpow_add₀ two_ne_zero]
    congr 2
    omega
  exact ⟨_, _, _, rfl, hshift _ _ _ (min_le_left _ _), hshift _ _ _ (min_le_right _ _)⟩

theorem parts_add : (parts x).add (parts y) = parts (x.add y) := by
  obtain ⟨a, b, e, haligned, hx, hy⟩ := aligned_values (parts x) (parts y)
  rw [Parts.value_parts] at hx hy
  rw [Parts.add, haligned]
  refine Parts.ofScaled_eq_round _ _ ?_
  rw [Dyadic.toRat_add, Int.cast_add, add_mul, ← hx, ← hy, toRat, toRat]

theorem parts_sub : (parts x).sub (parts y) = parts (x.sub y) := by
  obtain ⟨a, b, e, haligned, hx, hy⟩ := aligned_values (parts x) (parts y)
  rw [Parts.value_parts] at hx hy
  rw [Parts.sub, haligned]
  refine Parts.ofScaled_eq_round _ _ ?_
  rw [Dyadic.toRat_sub, Int.cast_sub, sub_mul, ← hx, ← hy, toRat, toRat]

theorem parts_mul : (parts x).mul (parts y) = parts (x.mul y) := by
  refine Parts.ofScaled_eq_round _ _ ?_
  rw [Dyadic.toRat_mul, ← toRat, ← toRat, toRat_eq_mantissa, toRat_eq_mantissa, Int.cast_mul,
    zpow_add₀ two_ne_zero, mul_mul_mul_comm]
  rfl

theorem parts_divide? : (parts x).divide? (parts y) = (x.divide? y).map parts := by
  unfold Parts.divide? divide?
  rw [Parts.ofQuotient_eq, apply_ite (Option.map parts)]
  rfl

theorem parts_powerLoop (acc base : BigReal) (n : Nat) :
    Parts.powerLoop (parts acc) (parts base) n = parts (powerLoop acc base n) := by
  -- The loop halves the exponent; every product in it is rounded, so both loops round alike.
  induction n using Nat.strong_induction_on generalizing acc base with
  | _ n ih =>
    rw [Parts.powerLoop, powerLoop]
    split
    · rfl
    · dsimp only
      rw [parts_mul, parts_mul, ← apply_ite parts]
      by_cases hlast : n / 2 = 0
      · rw [if_pos hlast, if_pos hlast]
      · rw [if_neg hlast, if_neg hlast]
        exact ih (n / 2) (by omega) _ _

theorem parts_power? (e : Int) : (parts x).power? e = (x.power? e).map parts := by
  unfold Parts.power? power?
  dsimp only
  rw [parts_ofInt, parts_powerLoop, parts_divide?, apply_ite (Option.map parts)]
  rfl

theorem compare_eq_cmp : compare x y = cmp x.toRat y.toRat := by
  rw [← Rational.compare_eq_cmp]
  simp only [compare, Rational.compare, toRat, Dyadic.toRat_lt_toRat_iff, Dyadic.toRat_inj]

theorem compare_parts : (parts x).compare (parts y) = compare x y := by
  obtain ⟨a, b, e, haligned, hx, hy⟩ := aligned_values (parts x) (parts y)
  rw [Parts.value_parts] at hx hy
  rw [Parts.compare, haligned, compare_eq_cmp, hx, hy, cmp_mul_pos_right (zpow_pos two_pos e),
    Int.cast_strictMono.cmp_map_eq, cmp_eq_compare]

theorem same_parts : (parts x).same (parts y) = sameValue x y := by
  rw [Parts.same, sameValue, Bool.eq_iff_iff, Bool.and_eq_true, beq_iff_eq, beq_iff_eq, decide_eq_true_iff]
  constructor
  · rintro ⟨hm, he⟩
    rw [← Dyadic.toRat_inj, ← toRat, ← toRat, ← Parts.value_parts, ← Parts.value_parts, Parts.value,
      Parts.value, hm, he]
  · intro h
    simp only [parts, mantissa, exponent, h, and_self]

theorem toFraction_parts : (parts x).toFraction = Rational.parts x.toRat := by
  rw [← Parts.value_parts, Parts.value, Parts.toFraction]
  split
  case isTrue he =>
    rw [Rational.parts_ofInt, Int.shiftLeft_eq, Int.cast_mul]
    push_cast
    rw [← zpow_natCast, Int.toNat_of_nonneg he]
  case isFalse he =>
    rw [Nat.one_shiftLeft, Rational.parts_ofFraction?, Rational.ofFraction?, if_neg (by positivity), Option.map_some,
      Option.getD_some, Rat.divInt_eq_div]
    congr 1
    push_cast
    rw [← zpow_natCast, div_eq_mul_inv, ← zpow_neg]
    congr 2
    omega

end

/-! ### Rounding -/

/-- The parts of a real that a number is rounded to. -/
def Parts.Rounds (p : Nat) (q : Rat) (x : Parts) : Prop :=
  ∃ r, x = parts r ∧ BigReal.Rounds p q r

/-- Integers, rationals and reals of another precision, sums, differences, products and quotients are the
exact results rounded once, to the precision asked for, which is at least two bits, or to the greatest
precision of the operands. There is no quotient by zero. It is so for the operations on the parts, which align
and shift mantissas, and for those on the reals. -/
theorem results_are_rounded_once (x y : BigReal) (z : Int) (q : Rat) (p : Nat) :
    (Rounds (max p 2) z (ofInt z p) ∧
      Rounds (max p 2) q (ofRat q p) ∧
      Rounds (max p 2) x.toRat (x.withPrecision p) ∧
      Rounds (max x.precision y.precision) (x.toRat + y.toRat) (x.add y) ∧
      Rounds (max x.precision y.precision) (x.toRat - y.toRat) (x.sub y) ∧
      Rounds (max x.precision y.precision) (x.toRat * y.toRat) (x.mul y) ∧
      (y.toRat = 0 → x.divide? y = none) ∧
      (y.toRat ≠ 0 → ∃ r, x.divide? y = some r ∧
        Rounds (max x.precision y.precision) (x.toRat / y.toRat) r)) ∧
    (Parts.ofInt z p).Rounds (max p 2) z ∧
      (Parts.ofFraction (Rational.parts q) p).Rounds (max p 2) q ∧
      ((parts x).withPrecision p).Rounds (max p 2) x.toRat ∧
      ((parts x).add (parts y)).Rounds (max x.precision y.precision) (x.toRat + y.toRat) ∧
      ((parts x).sub (parts y)).Rounds (max x.precision y.precision) (x.toRat - y.toRat) ∧
      ((parts x).mul (parts y)).Rounds (max x.precision y.precision) (x.toRat * y.toRat) ∧
      (y.toRat = 0 → (parts x).divide? (parts y) = none) ∧
      (y.toRat ≠ 0 → ∃ r, (parts x).divide? (parts y) = some r ∧
        r.Rounds (max x.precision y.precision) (x.toRat / y.toRat)) := by
  refine ⟨⟨rounds_ofInt z p, rounds_ofRat q p, rounds_round x.value p, rounds_add x y, rounds_sub x y, rounds_mul x y,
    divide?_eq_none, rounds_divide?⟩, ⟨_, parts_ofInt p z, rounds_ofInt z p⟩, ⟨_, parts_ofRat p q, rounds_ofRat q p⟩,
    ⟨_, parts_withPrecision x p, rounds_round x.value p⟩, ⟨_, parts_add x y, rounds_add x y⟩,
    ⟨_, parts_sub x y, rounds_sub x y⟩, ⟨_, parts_mul x y, rounds_mul x y⟩, fun hy => ?_, fun hy => ?_⟩
  · rw [parts_divide?, divide?_eq_none hy, Option.map_none]
  · obtain ⟨r, hr, hrounds⟩ := rounds_divide? (x := x) hy
    refine ⟨parts r, ?_, r, rfl, hrounds⟩
    rw [parts_divide?, hr, Option.map_some]

section

variable (x y : BigReal) (p : Nat)

/-! ### Literals -/

theorem Literal.toFraction?_eq {l : Literal} (hradix : l.radix ≠ 0) :
    l.toFraction? = some (Rational.parts l.value) := by
  have hsigned : ∀ n k : Nat, Numeral.signed l.negative (n * k) = Numeral.signed l.negative n * k := by
    intro n k
    cases l.negative <;> simp [Numeral.signed]
  unfold Literal.toFraction? Literal.value
  dsimp only
  split
  · rw [Rational.parts_ofFraction?, Rational.ofFraction?, if_neg (by positivity), hsigned]
    push_cast
    rfl
  · rw [Rational.parts_ofFraction?, Rational.ofFraction?, if_neg (by positivity)]
    push_cast
    rfl

theorem parts_parse (radix : Nat) (cs : List Char) :
    Parts.parse radix cs p = (parse radix cs p).map parts := by
  unfold Parts.parse parse
  cases hl : readLiteral radix cs with
  | error e => rfl
  | ok l =>
    obtain ⟨hradix, hle⟩ := radix_of_readLiteral hl
    dsimp only [bind, Except.bind]
    rw [Literal.toFraction?_eq (by omega)]
    simp only [parts_ofRat]
    rfl

end

/-! ### Everything composed of them -/

/-- Reals made from numbers and literals and operations on them, composed in any way. -/
inductive Calculation where
  | zero (p : Nat)
  | integer (z : Int) (p : Nat)
  | fraction (c : Rational.Calculation) (p : Nat)
  | float {f : FloatFormat} (v : BinaryFloat f) (p : Nat)
  | literal (radix : Nat) (cs : List Char) (p : Nat)
  | withPrecision (s : Calculation) (p : Nat)
  | abs (s : Calculation)
  | neg (s : Calculation)
  | add (s t : Calculation)
  | sub (s t : Calculation)
  | mul (s t : Calculation)
  | divide (s t : Calculation)
  | power (s : Calculation) (e : Int)

namespace Calculation

/-- The parts that the operations on parts give, if they give any. -/
def byParts : Calculation → Option Parts
  | zero p => some (.zero p)
  | integer z p => some (.ofInt z p)
  | fraction c p => c.byParts.map fun q => .ofFraction q p
  | float v p => Parts.ofFloat? v p
  | literal radix cs p => (Parts.parse radix cs p).toOption
  | withPrecision s p => s.byParts.map fun x => x.withPrecision p
  | abs s => s.byParts.map Parts.abs
  | neg s => s.byParts.map Parts.neg
  | add s t => s.byParts.bind fun x => t.byParts.map x.add
  | sub s t => s.byParts.bind fun x => t.byParts.map x.sub
  | mul s t => s.byParts.bind fun x => t.byParts.map x.mul
  | divide s t => s.byParts.bind fun x => t.byParts.bind x.divide?
  | power s e => s.byParts.bind fun x => x.power? e

/-- The real that the operations on reals give, if they give one. -/
def real? : Calculation → Option BigReal
  | zero p => some (.zero p)
  | integer z p => some (.ofInt z p)
  | fraction c p => c.value?.map fun q => .ofRat q p
  | float v p => ofFloat? v p
  | literal radix cs p => (parse radix cs p).toOption
  | withPrecision s p => s.real?.map fun x => x.withPrecision p
  | abs s => s.real?.map BigReal.abs
  | neg s => s.real?.map BigReal.neg
  | add s t => s.real?.bind fun x => t.real?.map x.add
  | sub s t => s.real?.bind fun x => t.real?.map x.sub
  | mul s t => s.real?.bind fun x => t.real?.map x.mul
  | divide s t => s.real?.bind fun x => t.real?.bind x.divide?
  | power s e => s.real?.bind fun x => x.power? e

/-- A calculation by parts gives the parts of the real that it gives otherwise, and neither gives anything
where the other does not. -/
theorem byParts_eq (s : Calculation) : s.byParts = s.real?.map parts := by
  induction s with
  | zero p => rfl
  | integer z p => exact congrArg some (parts_ofInt p z)
  | fraction c p =>
    simp only [byParts, real?, Rational.Calculation.byParts_eq]
    cases c.value? <;> simp [parts_ofRat]
  | float v p => exact parts_ofFloat? p v
  | literal radix cs p =>
    simp only [byParts, real?, parts_parse]
    cases parse radix cs p <;> rfl
  | withPrecision s p ih =>
    simp only [byParts, real?, ih]
    cases s.real? <;> simp [parts_withPrecision]
  | abs s ih =>
    simp only [byParts, real?, ih]
    cases s.real? <;> simp [parts_abs]
  | neg s ih =>
    simp only [byParts, real?, ih]
    cases s.real? <;> simp [parts_neg]
  | add s t ihs iht =>
    simp only [byParts, real?, ihs, iht]
    cases s.real? <;> cases t.real? <;> simp [parts_add]
  | sub s t ihs iht =>
    simp only [byParts, real?, ihs, iht]
    cases s.real? <;> cases t.real? <;> simp [parts_sub]
  | mul s t ihs iht =>
    simp only [byParts, real?, ihs, iht]
    cases s.real? <;> cases t.real? <;> simp [parts_mul]
  | divide s t ihs iht =>
    simp only [byParts, real?, ihs, iht]
    cases s.real? <;> cases t.real? <;> simp [parts_divide?]
  | power s e ih =>
    simp only [byParts, real?, ih]
    cases s.real? <;> simp [parts_power?]

end Calculation

/-- Whatever is calculated of reals, by parts, has an odd mantissa or is zero with the exponent zero, has no
more bits than its precision, and a precision of two bits at least; it is what the running operations give.
So equal parts, equality in the order and equal fractions are the same, whatever the precisions, and the
order is that of the exact values. -/
theorem reals_stay_in_normal_form {s t : Calculation} {x y : Parts} (hx : s.byParts = some x)
    (hy : t.byParts = some y) :
    (x.mantissa % 2 = 1 ∨ x.mantissa = 0 ∧ x.exponent = 0) ∧
      bitLength x.mantissa.natAbs ≤ x.precision ∧
      2 ≤ x.precision ∧
      (∃ a b, s.real? = some a ∧ t.real? = some b ∧ parts a = x ∧ parts b = y ∧
        a.sameValue b = x.same y ∧ a.compare b = x.compare y ∧ Rational.parts a.toRat = x.toFraction) ∧
      x.toFraction.value = x.mantissa * 2 ^ x.exponent ∧
      (x.same y = true ↔ x.compare y = .eq) ∧
      (x.same y = true ↔ x.toFraction = y.toFraction) ∧
      x.compare y = cmp x.toFraction.value y.toFraction.value := by
  rw [Calculation.byParts_eq, Option.map_eq_some_iff] at hx hy
  obtain ⟨a, ha, rfl⟩ := hx
  obtain ⟨b, hb, rfl⟩ := hy
  have hsame : a.sameValue b = true ↔ a.toRat = b.toRat := by
    rw [sameValue, decide_eq_true_iff, toRat, toRat, Dyadic.toRat_inj]
  rw [same_parts, compare_parts, toFraction_parts, toFraction_parts, Rational.Parts.value_parts,
    Rational.Parts.value_parts, compare_eq_cmp, cmp_eq_eq_iff, hsame]
  refine ⟨Parts.shifted_parts a, ?_, a.two_le_precision, ?_, toRat_eq_mantissa a, Iff.rfl, ?_, rfl⟩
  · exact (bitLength_mantissa a).trans_le a.significantBits_le
  · exact ⟨a, b, ha, hb, rfl, rfl, rfl, compare_eq_cmp a b, rfl⟩
  · constructor
    · intro h
      rw [h]
    · intro h
      rw [← Rational.Parts.value_parts a.toRat, h, Rational.Parts.value_parts]

/-- Rounding to fewer bits carries over all of them, and the zeros it leaves are shifted out: the power of
two is the same one at another precision. -/
theorem reals_stay_in_normal_form_after_carry :
    let s : Calculation := .withPrecision (.literal 16 ['f', 'f', '.', '8'] 64) 8
    let t : Calculation := .mul (.integer 16 4) (.divide (.integer (-32) 53) (.integer (-2) 3))
    s.byParts = some ⟨1, 8, 8⟩ ∧ t.byParts = some ⟨1, 8, 53⟩ ∧
      Parts.compare ⟨1, 8, 8⟩ ⟨1, 8, 53⟩ = .eq ∧
      Parts.toFraction ⟨1, 8, 8⟩ = Parts.toFraction ⟨1, 8, 53⟩ ∧
      ∃ a b, s.real? = some a ∧ t.real? = some b ∧ a.sameValue b = true := by
  intro s t
  have hs : s.byParts = some ⟨1, 8, 8⟩ := by decide +kernel
  have ht : t.byParts = some ⟨1, 8, 53⟩ := by decide +kernel
  obtain ⟨-, -, -, ⟨a, b, ha, hb, -, -, hsame, -, -⟩, -, horder, hfraction, -⟩ :=
    reals_stay_in_normal_form hs ht
  exact ⟨hs, ht, horder.mp rfl, hfraction.mp rfl, a, b, ha, hb, hsame⟩

end BigReal

end NumericTower
