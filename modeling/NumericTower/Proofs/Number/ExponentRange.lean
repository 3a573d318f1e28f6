import NumericTower.Proofs.BigReal.Literal
import NumericTower.Proofs.Number.RealPrecision

/-!
# How far the exponents of unbounded reals get

Only powers have their size checked. Every other operation may double the order of magnitude, so what is
counted is how many of them are done on top of each other since the last power: numbers that are read or
converted, and powers, start from at most `2 ^ 40` powers of two, and the exponents fit into 64 bits for
twenty-two operations more. Nothing checks the operations that follow, and the program stops in one of them.

## Key results
- `within_value` / `within_float`: the magnitudes of literals and of floats
- `Scaled.operate` / `Scaled.power`: one operation
- `scaled_of_derived`: any number of them
- `exponents_fit_for_twenty_two_operations`
-/

namespace NumericTower

open NumericType

namespace BigReal

variable {radix n k : Nat} {cs : List Char} {l : Literal} {q : Rat}

/-! ### Numbers to start from -/

/-- A literal is within the magnitude that its digits and its exponent have room for. -/
theorem within_value (h : readLiteral radix cs = .ok l) (hcs : cs.length ≤ n) :
    Within (12 * n + 4 * 2 ^ 32) l.value := by
  obtain ⟨⟨hlow, hhigh⟩, hspells⟩ := readLiteral_eq_ok_iff.mp h
  have htrim := Text.length_trim_le cs
  generalize Text.trim cs = ts at hspells htrim
  obtain @⟨sign, body, es, whole, fraction, exponent, hbody, hexponent⟩ := hspells
  obtain ⟨hlength, hdigits⟩ := hbody.digits
  rw [List.length_append, List.length_append] at htrim
  -- Six bits are enough for a digit of any radix, and four for the base of the exponent.
  have hunit : Within 6 (radix : Int) := .intCast (bitLength_le_iff.mpr (by omega))
  have hnumber : Within (6 * n)
      (Numeral.signed (sign == some true) (Numeral.ofDigits radix (whole ++ fraction)) : Int) := by
    refine .intCast (bitLength_le_iff.mpr ?_)
    rw [natAbs_signed]
    calc Numeral.ofDigits radix (whole ++ fraction) < radix ^ (whole ++ fraction).length :=
          Numeral.ofDigits_lt hlow hdigits
      _ ≤ (2 ^ 6) ^ (whole ++ fraction).length := Nat.pow_le_pow_left (by omega) _
      _ ≤ (2 ^ 6) ^ n := by
          refine Nat.pow_le_pow_right (by decide) ?_
          rw [List.length_append]
          omega
      _ = 2 ^ (6 * n) := (pow_mul 2 6 n).symm
  have hten : Within 4 (10 : Int) := .intCast (by decide)
  have hvalue := (hnumber.div (hunit.pow (fraction.length % 2 ^ 32))).mul (hten.zpow exponent)
  have hplaces := Nat.mod_le fraction.length (2 ^ 32)
  have hsize := hexponent.natAbs_lt
  rw [Literal.value_eq]
  exact_mod_cast hvalue.mono (by omega)

/-- A finite float is a multiple of the least one, and below the power of two that follows the greatest one. -/
theorem within_float {f : FloatFormat} {x : BinaryFloat f} (hleast : -(k : Int) ≤ f.leastExponent)
    (htop : f.leastExponent + f.precision + 2 ^ f.exponentBits - 3 ≤ k) (h : x.toRat? = some q) : Within k q := by
  cases x with
  | nan | infinity => exact nomatch h
  | finite negative rank hrank =>
    rw [BinaryFloat.toRat?_finite, Option.some.injEq] at h
    subst h
    -- The exponent of the significand is not below the least one, so the rest of it can be multiplied in.
    obtain ⟨j, hj⟩ := Int.le.dest (hleast.trans (Int.le_add_of_nonneg_right (Int.natCast_nonneg (f.shiftOf rank))))
    refine .of_multiple (m := Numeral.signed negative (f.significandOf rank) * 2 ^ j) ?_ ?_
    · rw [FloatFormat.valueOf, withSign_mul, withSign_natCast, FloatFormat.exponentOf, ← hj,
        zpow_add₀ two_ne_zero, zpow_natCast]
      push_cast
      ring
    · rw [abs_withSign, abs_of_nonneg (f.valueOf_nonneg rank)]
      calc f.valueOf rank ≤ f.overflow := ((f.valueOf_lt_overflow_iff rank).mpr hrank).le
        _ ≤ 2 ^ (f.leastExponent + f.precision + 2 ^ f.exponentBits - 3) := f.overflow_lt.le
        _ ≤ 2 ^ (k : Int) := zpow_le_zpow_right₀ one_le_two htop

end BigReal

namespace Number

open BigReal

/-- The number is computed, with at most `d` operations on top of each other since the last power or the numbers to
start from: literals, floats, and exact numbers of up to `2 ^ 39` bits in both parts. -/
inductive Derived : Nat → Number → Prop
  | literal {radix cs p x} : cs.length < 2 ^ 32 → p < 2 ^ 32 → BigReal.parse radix cs p = .ok x →
      Derived 0 (.bigReal x)
  | real32 (x) : Derived 0 (.real32 x)
  | real64 (x) : Derived 0 (.real64 x)
  | exact {n q} : n.type.kind ≠ .real → n.toRat? = some q → bitLength q.num.natAbs ≤ 2 ^ 39 →
      bitLength q.den ≤ 2 ^ 39 → Derived 0 n
  | operate {c d a b op p r} : Derived c a → Derived d b → p < 2 ^ 32 → op ≠ .pow →
      Value.binaryOp op (.number a) (.number b) p = .ok (.number (.bigReal r)) →
      Derived (max c d + 1) (.bigReal r)
  | power {c a b p r} : Derived c a →
      Value.binaryOp .pow (.number a) (.number b) p = .ok (.number (.bigReal r)) → Derived 0 (.bigReal r)

/-! ### One operation -/

variable {a b n : Number} {op : BinaryOp} {c d k p : Nat} {r s u v : BigReal} {step : Step}

/-- The bounds that an operation keeps, if it is not the last of too many. -/
structure Scaled (d : Nat) (n : Number) : Prop where
  precision_lt : n.precision < 2 ^ 32
  within : d ≤ 22 → ∀ q, n.toRat? = some q → Within (2 ^ (40 + d)) q

/-- A number that is no unbounded real has no precision. -/
theorem Scaled.of_within (hn : ∀ x, n ≠ .bigReal x) (h : ∀ q, n.toRat? = some q → Within (2 ^ 40) q) : Scaled 0 n where
  precision_lt := by
    cases n with
    | bigReal x => exact absurd rfl (hn x)
    | nat | bigNat | int | bigInt | ratio | bigRatio | real32 | real64 => exact Nat.two_pow_pos 32
  within _ := h

/-- An unbounded real of a number is its value, rounded to the precision that is asked for or to that of the wider
floats. -/
theorem of_toBigReal? (h : n.toBigReal? p = some u) :
    ∃ q b, n.toRat? = some q ∧ b ≤ max p leastFloatPrecision ∧ Rounds b q u := by
  obtain ⟨q, hq⟩ : ∃ q, n.toRat? = some q := by
    cases n with
    | real32 x | real64 x =>
      cases x with
      | nan | infinity => exact nomatch h
      | finite => exact ⟨_, rfl⟩
    | nat | bigNat | int | bigInt | ratio | bigRatio | bigReal => exact ⟨_, rfl⟩
  obtain ⟨u', b, hu', -, hb, hrounds⟩ := exists_toBigReal? hq p
  cases hu'.symm.trans h
  exact ⟨q, b, hq, hb, hrounds⟩

theorem Scaled.of_toBigReal? (hn : Scaled d n) (hp : p < 2 ^ 32) (h : n.toBigReal? p = some u) :
    u.precision < 2 ^ 32 ∧ (d ≤ 22 → Within (2 ^ (40 + d)) u.toRat) := by
  obtain ⟨q, b, hq, hb, hrounds⟩ := Number.of_toBigReal? h
  refine ⟨?_, fun hd => hrounds.within (hn.within hd q hq)⟩
  rw [hrounds.precision]
  exact hb.trans_lt (max_lt hp (by decide))

/-- An operation doubles the order of magnitude at most, unless the precision is greater still. -/
theorem within_realOp (hu : Within k u.toRat) (hv : Within k v.toRat) (hpu : u.precision ≤ k) (hpv : v.precision ≤ k)
    (h : realOp op u v = .ok s) : Within (k + k) s.toRat := by
  obtain ⟨q, hq, hrounds⟩ := rounds_realOp h
  refine hrounds.within ?_
  cases op <;> simp only [realOp, reduceCtorEq] at h
  · exact hq ▸ (within_add hu hv hpu hpv).1
  · exact hq ▸ (within_add hu hv hpu hpv).2
  · exact hq ▸ hu.mul hv
  · exact hq ▸ hu.div hv

theorem Scaled.realPrecision_lt (ha : Scaled c a) (hb : Scaled d b) (hp : p < 2 ^ 32) :
    realPrecision a b p < 2 ^ 32 :=
  max_lt (max_lt hp ha.precision_lt) hb.precision_lt

/-- The result of an operation on operands within the bounds. -/
theorem Scaled.realOp (ha : Scaled c a) (hb : Scaled d b) (hp : p < 2 ^ 32) (hu : a.toBigReal? p = some u)
    (hv : b.toBigReal? p = some v) (h : realOp op u v = .ok s) : Scaled (max c d + 1) (.bigReal s) := by
  obtain ⟨hpu, hwu⟩ := ha.of_toBigReal? hp hu
  obtain ⟨hpv, hwv⟩ := hb.of_toBigReal? hp hv
  refine ⟨?_, fun hd q hq => ?_⟩
  · obtain ⟨q, -, hrounds⟩ := rounds_realOp h
    exact hrounds.precision.trans_lt (max_lt hpu hpv)
  · cases hq
    -- Both operands are within the greater of their bounds, which the precisions do not reach.
    have hk : ∀ {m n : Nat}, m ≤ n → (2 : Nat) ^ m ≤ 2 ^ n := fun hmn => Nat.pow_le_pow_right two_pos hmn
    have hu' := (hwu (by omega)).mono (hk (by omega : 40 + c ≤ 40 + max c d))
    have hv' := (hwv (by omega)).mono (hk (by omega : 40 + d ≤ 40 + max c d))
    have hw := within_realOp hu' hv' (hpu.le.trans (hk (by omega))) (hpv.le.trans (hk (by omega))) h
    rwa [← two_mul, ← pow_succ'] at hw

/-- An unbounded real that is the result of an operator, by those of the operands. -/
theorem Scaled.operate (ha : Scaled c a) (hb : Scaled d b) (hp : p < 2 ^ 32) (hop : op ≠ .pow)
    (h : Value.binaryOp op (.number a) (.number b) p = .ok (.number (.bigReal r))) :
    Scaled (max c d + 1) (.bigReal r) := by
  obtain ⟨-, u, v, hu, hv, hr⟩ := of_binaryOp_eq_bigReal hop h
  exact ha.realOp hb (ha.realPrecision_lt hb hp) hu hv hr

/-- The exponents of an operation on operands within the bounds. -/
theorem Scaled.inSigned_exponents (ha : Scaled c a) (hb : Scaled d b) (hp : p < 2 ^ 32) (hc : c ≤ 21) (hd : d ≤ 21)
    (hu : a.toBigReal? p = some step.left) (hv : b.toBigReal? p = some step.right) :
    ∀ e ∈ step.exponents, Integer.InSigned 64 e := by
  obtain ⟨hpu, hwu⟩ := ha.of_toBigReal? hp hu
  obtain ⟨hpv, hwv⟩ := hb.of_toBigReal? hp hv
  have hleft : 2 ^ (40 + c) ≤ 2 ^ 61 := Nat.pow_le_pow_right two_pos (by omega)
  have hright : 2 ^ (40 + d) ≤ 2 ^ 61 := Nat.pow_le_pow_right two_pos (by omega)
  have hreach : step.reach (2 ^ (40 + c)) (2 ^ (40 + d)) (2 ^ 32) ≤ 2 ^ 62 := by
    cases step <;> simp only [Step.reach] <;> omega
  exact fun e he => Step.Bounded.inSigned_exponents
    ⟨_, _, hwu (by omega), hwv (by omega), hreach, hpu.le, hpv.le⟩ (by decide) he

/-- The exponents for the order of magnitude of a base within the bounds. -/
theorem Scaled.inSigned_scaleExponents (ha : Scaled c a) (hc : c ≤ 22) {e : Int}
    (he : e ∈ if op = .pow then (realPower? a b).elim [] fun xe => (parts xe.1).scaleExponents else []) :
    Integer.InSigned 64 e := by
  split at he
  case isFalse => exact absurd he List.not_mem_nil
  case isTrue =>
    cases hx : realPower? a b with
    | none =>
      rw [hx] at he
      exact absurd he List.not_mem_nil
    | some xe =>
      rw [hx] at he
      obtain ⟨rfl, -, -⟩ := realPower?_eq_some_iff.mp hx
      exact BigReal.inSigned_scaleExponents (ha.within hc _ rfl) (Nat.pow_le_pow_right two_pos (by omega))
        (ha.precision_lt.le.trans (by decide)) e he

/-- The result of a power, whatever its base took: its size has been checked. -/
theorem Scaled.power (ha : Scaled c a)
    (h : Value.binaryOp .pow (.number a) (.number b) p = .ok (.number (.bigReal r))) : Scaled 0 (.bigReal r) := by
  obtain ⟨x, e, hx, hsize, hr⟩ := of_binaryOp_pow_eq_bigReal h
  obtain ⟨rfl, -, -⟩ := realPower?_eq_some_iff.mp hx
  refine ⟨(precision_power? hr).trans_lt ha.precision_lt, fun _ q hq => ?_⟩
  cases hq
  exact within_power? hsize hr

/-! ### Any number of operations -/

/-- Every number that is computed is within the bounds for the operations that it took. -/
theorem scaled_of_derived (h : Derived d n) : Scaled d n := by
  -- By induction on how the number is computed: a power forgets the bound of its base.
  induction h with
  | @literal _ _ p _ hcs hp hx =>
    obtain ⟨l, hl, rfl⟩ := parse_eq_ok_iff.mp hx
    have hrounds := rounds_ofRat l.value p
    refine ⟨?_, fun _ q hq => ?_⟩
    · exact hrounds.precision.trans_lt (max_lt hp (by decide))
    · cases hq
      exact hrounds.within ((within_value hl hcs.le).mono (by decide))
  | real32 x =>
    refine .of_within nofun fun q hq => ?_
    exact (within_float (f := .single) (k := 149) (by decide) (by decide) hq).mono (by decide)
  | real64 x =>
    refine .of_within nofun fun q hq => ?_
    exact (within_float (f := .double) (k := 1074) (by decide) (by decide) hq).mono (by decide)
  | @exact n q hk hq hnum hden =>
    refine .of_within (fun x hx => hk (hx ▸ rfl)) fun q' hq' => ?_
    cases hq.symm.trans hq'
    have hdiv := (Within.intCast hnum).div (.intCast (z := q.den) hden)
    rw [Int.cast_natCast, Rat.num_div_den] at hdiv
    exact hdiv.mono (by decide)
  | operate _ _ hp hop hr iha ihb => exact iha.operate ihb hp hop hr
  | power _ hr ih => exact ih.power hr

/-- A step of an operator is one of a power whose size is not refused, or it is on the unbounded reals of the
operands. -/
theorem mem_realSteps (h : step ∈ realSteps op a b p) :
    (op = .pow ∧ ∃ x e, a = .bigReal x ∧ checkPowerSize (x.scaleBits + 1) e maxRealScale = .ok () ∧
        step ∈ powerSteps x e) ∨
      (op ≠ .pow ∧ a.toBigReal? (realPrecision a b p) = some step.left ∧
        b.toBigReal? (realPrecision a b p) = some step.right) := by
  unfold realSteps at h
  split at h
  case isTrue hop =>
    split at h
    case h_1 x e hx =>
      split at h
      case h_1 hsize => exact .inl ⟨hop, x, e, (realPower?_eq_some_iff.mp hx).1, hsize, h⟩
      case h_2 => exact absurd h List.not_mem_nil
    case h_2 => exact absurd h List.not_mem_nil
  case isFalse hop =>
    rw [Option.mem_toList, realOperation?] at h
    split at h
    case isTrue =>
      obtain ⟨u, hu, h⟩ := Option.bind_eq_some_iff.mp h
      obtain ⟨v, hv, h⟩ := Option.bind_eq_some_iff.mp h
      refine .inr ⟨hop, hu.trans ?_, hv.trans ?_⟩ <;> cases op <;> cases h <;> rfl
    case isFalse => cases h

/-- The operation that an operator stands for gives its result. -/
theorem result_realStep? (h : Number.realOp op u v = .ok r) : (realStep? op u v).bind Step.result = some r := by
  cases op <;> simp only [Number.realOp, Except.ok.injEq, reduceCtorEq] at h
  · exact congrArg some h
  · exact congrArg some h
  · exact congrArg some h
  · show u.divide? v = some r
    cases hr : u.divide? v with
    | none =>
      rw [hr] at h
      cases h
    | some s =>
      rw [hr] at h
      exact congrArg some (Except.ok.inj h)

/-- The last step of an operator gives the result. -/
theorem getLast?_realSteps (hop : op ≠ .pow) (ht : arithmeticResult? op a.type b.type = some (.unbounded .real))
    (hu : a.toBigReal? (realPrecision a b p) = some u) (hv : b.toBigReal? (realPrecision a b p) = some v)
    (h : Number.realOp op u v = .ok r) : (realSteps op a b p).getLast?.bind Step.result = some r := by
  rw [realSteps_of_ne_pow hop, realOperation?_eq ht hu hv, ← result_realStep? h]
  cases realStep? op u v <;> rfl

theorem getLast?_realSteps_pow {x : BigReal} {e : Int} (hx : realPower? a b = some (x, e)) (h0 : e ≠ 0)
    (hsize : checkPowerSize (x.scaleBits + 1) e maxRealScale = .ok ()) :
    (realSteps .pow a b p).getLast?.bind Step.result = x.power? e := by
  rw [realSteps, if_pos rfl, hx]
  dsimp only
  rw [hsize]
  exact getLast?_powerSteps x h0

end Number

/-! ### Powers of two -/

namespace BigReal

/-- A power of two in 256 bits. -/
def powerOfTwo (e : Int) : BigReal :=
  ofScaled 1 e 256 (by decide)

variable {e : Int}

theorem toRat_powerOfTwo (e : Int) : (powerOfTwo e).toRat = 2 ^ e := by
  simp [powerOfTwo, ofScaled, toRat, Dyadic.toRat_ofIntWithPrec_eq_mul_two_pow]

theorem eq_powerOfTwo {x : BigReal} (h : Rounds 256 (2 ^ e) x) : x = powerOfTwo e := by
  refine eq_of_toRat ?_ h.precision
  rw [h.toRat_eq (m := 1) (by rw [Int.cast_one, one_mul]) (by decide), toRat_powerOfTwo]

theorem mul_powerOfTwo (e f : Int) : (powerOfTwo e).mul (powerOfTwo f) = powerOfTwo (e + f) := by
  refine eq_powerOfTwo ?_
  rw [zpow_add₀ two_ne_zero, ← toRat_powerOfTwo, ← toRat_powerOfTwo]
  exact rounds_mul_same rfl rfl

theorem withPrecision_powerOfTwo (e : Int) : (powerOfTwo e).withPrecision 256 = powerOfTwo e :=
  eq_powerOfTwo (toRat_powerOfTwo e ▸ rounds_round (powerOfTwo e).value 256)

theorem parse_two : parse 10 ['2'] 256 = .ok (powerOfTwo 1) := by
  refine parse_eq_ok_iff.mpr ⟨⟨10, false, [2], [], 0⟩, rfl, (eq_powerOfTwo ?_).symm⟩
  have hvalue : (⟨10, false, [2], [], 0⟩ : Literal).value = 2 ^ (1 : Int) := by decide +kernel
  rw [hvalue]
  exact rounds_ofRat _ 256

theorem parts_powerOfTwo (e : Int) : parts (powerOfTwo e) = ⟨1, e, 256⟩ := by
  refine (Parts.eq_parts (.inl rfl) ?_ rfl).symm
  rw [toRat_powerOfTwo, Parts.value, Int.cast_one, one_mul]

/-- Two, squared `k` times. -/
def squaredTwo (k : Nat) : BigReal :=
  powerOfTwo (2 ^ k)

end BigReal

namespace Number

open BigReal

theorem toBigReal?_powerOfTwo (e : Int) : (bigReal (powerOfTwo e)).toBigReal? 256 = some (powerOfTwo e) :=
  congrArg some (withPrecision_powerOfTwo e)

theorem realSteps_powerOfTwo (e f : Int) :
    realSteps .mul (.bigReal (powerOfTwo e)) (.bigReal (powerOfTwo f)) 256 =
      [.product (powerOfTwo e) (powerOfTwo f)] := by
  rw [realSteps_of_ne_pow (by decide), realOperation?_eq rfl (toBigReal?_powerOfTwo e) (toBigReal?_powerOfTwo f)]
  rfl

/-- For a product of powers of two the sum of their exponents is computed, and nothing is left to be dropped or
shifted. -/
theorem mem_computedExponents_powerOfTwo {e f g : Int} :
    g ∈ computedExponents .mul (.bigReal (powerOfTwo e)) (.bigReal (powerOfTwo f)) 256 ↔ g = e + f := by
  have hexcess : excessBits (1 * 1 : Int).natAbs (max 256 256) = 0 := by decide
  have hbits : roundBits (1 * 1 : Int).natAbs 0 false = 1 := by decide
  have hzeros : Int.trailingZeros (1 : Nat) = 0 := by decide
  have hexponents : (parts (powerOfTwo e)).mulExponents (parts (powerOfTwo f)) = [e + f, e + f, e + f] := by
    rw [parts_powerOfTwo, parts_powerOfTwo]
    unfold Parts.mulExponents Parts.roundedExponents
    dsimp only
    rw [hexcess, hbits, if_neg one_ne_zero, hzeros, Nat.cast_zero, add_zero, add_zero]
  rw [computedExponents, if_neg (by decide), List.nil_append, realSteps_powerOfTwo, List.flatMap_singleton,
    Step.exponents, hexponents]
  simp only [List.mem_cons, List.not_mem_nil, or_false, or_self]

theorem binaryOp_powerOfTwo {e f : Int} (h : Integer.InSigned 64 (e + f)) :
    Value.binaryOp .mul (.number (.bigReal (powerOfTwo e))) (.number (.bigReal (powerOfTwo f))) 256 =
      .ok (.number (.bigReal (powerOfTwo (e + f)))) := by
  rw [Value.binaryOp_number rfl,
    arithmetic_bigReal (by decide) rfl (toBigReal?_powerOfTwo e) (toBigReal?_powerOfTwo f),
    orOverflow_of_fits fun g hg => mem_computedExponents_powerOfTwo.mp hg ▸ h, realOp, mul_powerOfTwo]
  rfl

theorem binaryOp_powerOfTwo_overflow {e f : Int} (h : ¬Integer.InSigned 64 (e + f)) :
    Value.binaryOp .mul (.number (.bigReal (powerOfTwo e))) (.number (.bigReal (powerOfTwo f))) 256 =
      .error .exponentOverflow := by
  rw [Value.binaryOp_number rfl, (arithmetic_eq_exponentOverflow_iff _ _ _ _).mpr
    ⟨_, mem_computedExponents_powerOfTwo.mpr rfl, h⟩]
  rfl

theorem binaryOp_squaredTwo {k : Nat} (hk : k < 62) :
    Value.binaryOp .mul (.number (.bigReal (squaredTwo k))) (.number (.bigReal (squaredTwo k))) 256 =
      .ok (.number (.bigReal (squaredTwo (k + 1)))) := by
  have hdouble : (2 : Int) ^ k + 2 ^ k = 2 ^ (k + 1) := by rw [pow_succ, mul_two]
  have hle : (2 : Int) ^ (k + 1) ≤ 2 ^ 62 := pow_le_pow_right₀ one_le_two hk
  have hpos : (0 : Int) < 2 ^ (k + 1) := by positivity
  have hfits : Integer.InSigned 64 ((2 : Int) ^ k + 2 ^ k) := by
    rw [hdouble]
    exact ⟨by omega, by omega⟩
  rw [squaredTwo, binaryOp_powerOfTwo hfits, hdouble, squaredTwo]

theorem derived_squaredTwo {k : Nat} (hk : k ≤ 62) : Derived k (.bigReal (squaredTwo k)) := by
  induction k with
  | zero => exact .literal (by decide) (by decide) parse_two
  | succ k ih =>
    have hsquare := Derived.operate (ih (by omega)) (ih (by omega)) (by decide) (by decide) (binaryOp_squaredTwo hk)
    rwa [max_self] at hsquare

end Number

/-- On numbers that are computed with no more than twenty-one operations on top of each other since the last power,
and in a power always, all exponents that are computed for the operations among the unbounded reals fit into 64 bits.
From such numbers no operator stops at one that does not, and whatever result there is, is that of the arithmetic whose
exponents are of any size: what the last of the operations gives, if there is one. -/
theorem exponents_fit_for_twenty_two_operations {a b : Number} {op : BinaryOp} {c d p : Nat}
    (ha : Number.Derived c a) (hb : Number.Derived d b) (hp : p < 2 ^ 32) (hfew : op = .pow ∨ c ≤ 21 ∧ d ≤ 21) :
    (∀ s ∈ Number.realSteps op a b p, ∀ e ∈ s.exponents, Integer.InSigned 64 e) ∧
      (c ≤ 21 → Value.binaryOp op (.number a) (.number b) p ≠ .error .exponentOverflow) ∧
      ∀ r, Value.binaryOp op (.number a) (.number b) p = .ok (.number (.bigReal r)) →
        ((op = .pow ∧ ∃ x e, a = .bigReal x ∧ Number.wholeExponent? b = some e ∧ x.power? e = some r) ∨
          (op ≠ .pow ∧ ∃ u v, a.toBigReal? (Number.realPrecision a b p) = some u ∧
            b.toBigReal? (Number.realPrecision a b p) = some v ∧ Number.realOp op u v = .ok r)) ∧
        (op ≠ .pow ∨ Number.wholeExponent? b ≠ some 0 →
          (Number.realSteps op a b p).getLast?.bind BigReal.Step.result = some r) := by
  have hsa := Number.scaled_of_derived ha
  have hsb := Number.scaled_of_derived hb
  have hsteps : ∀ s ∈ Number.realSteps op a b p, ∀ e ∈ s.exponents, Integer.InSigned 64 e := by
    intro s hs
    rcases Number.mem_realSteps hs with ⟨-, x, n, rfl, hsize, hmem⟩ | ⟨hop, hu, hv⟩
    · exact BigReal.inSigned_exponents_powerSteps hsize (hsa.precision_lt.le.trans (by decide)) hmem
    · obtain ⟨hc, hd⟩ := hfew.resolve_left hop
      exact hsa.inSigned_exponents hsb (hsa.realPrecision_lt hsb hp) hc hd hu hv
  refine ⟨hsteps, fun hc hover => ?_, fun r hr => ?_⟩
  · obtain ⟨e, he, hexceeds⟩ := (Number.binaryOp_number_eq_exponentOverflow_iff op a b p).mp hover
    rcases List.mem_append.mp he with he | he
    · exact hexceeds (hsa.inSigned_scaleExponents (by omega) he)
    · obtain ⟨s, hs, he⟩ := List.mem_flatMap.mp he
      exact hexceeds (hsteps s hs e he)
  · by_cases hop : op = .pow
    · subst hop
      obtain ⟨x, e, hx, hsize, hpower⟩ := Number.of_binaryOp_pow_eq_bigReal hr
      obtain ⟨hbase, -, he⟩ := Number.realPower?_eq_some_iff.mp hx
      refine ⟨.inl ⟨rfl, x, e, hbase, he, hpower⟩, fun h => ?_⟩
      have h0 : e ≠ 0 := by
        rintro rfl
        exact h.elim (fun h => h rfl) fun h => h he
      exact (Number.getLast?_realSteps_pow hx h0 hsize).trans hpower
    · obtain ⟨ht, u, v, hu, hv, hresult⟩ := Number.of_binaryOp_eq_bigReal hop hr
      exact ⟨.inr ⟨hop, u, v, hu, hv, hresult⟩, fun _ => Number.getLast?_realSteps hop ht hu hv hresult⟩

/-- The last square of two of which this is known has the exponent `2 ^ 22`. -/
theorem exponents_fit_for_twenty_two_operations_squares :
    Number.Derived 21 (.bigReal (.squaredTwo 21)) ∧ 256 < 2 ^ 32 ∧ (BinaryOp.mul = .pow ∨ 21 ≤ 21 ∧ 21 ≤ 21) ∧
      (∀ s ∈ Number.realSteps .mul (.bigReal (.squaredTwo 21)) (.bigReal (.squaredTwo 21)) 256,
        ∀ e ∈ s.exponents, Integer.InSigned 64 e) ∧
      Number.realOp .mul (.squaredTwo 21) (.squaredTwo 21) = .ok (.squaredTwo 22) ∧
      (Number.realSteps .mul (.bigReal (.squaredTwo 21)) (.bigReal (.squaredTwo 21)) 256).getLast?.bind
        BigReal.Step.result = some (.squaredTwo 22) := by
  have hderived := Number.derived_squaredTwo (k := 21) (by decide)
  have hfew : BinaryOp.mul = .pow ∨ 21 ≤ 21 ∧ 21 ≤ 21 := .inr ⟨le_rfl, le_rfl⟩
  obtain ⟨hexponents, -, hresult⟩ :=
    exponents_fit_for_twenty_two_operations (p := 256) hderived hderived (by decide) hfew
  obtain ⟨hvalue, hlast⟩ := hresult _ (Number.binaryOp_squaredTwo (by decide))
  refine ⟨hderived, by decide, hfew, hexponents, ?_, hlast (.inl (by decide))⟩
  obtain ⟨hpow, -⟩ | ⟨-, u, v, hu, hv, h⟩ := hvalue
  · exact nomatch hpow
  · cases (Number.toBigReal?_powerOfTwo _).symm.trans hu
    cases (Number.toBigReal?_powerOfTwo _).symm.trans hv
    exact h

/-- Sixty-two squares of two are there, and the exponent that is computed for the next one does not fit into 64 bits:
there the program stops. -/
theorem squares_of_two_leave_exponents :
    BigReal.parse 10 ['2'] 256 = .ok (.squaredTwo 0) ∧
      (∀ k < 62, Value.binaryOp .mul (.number (.bigReal (.squaredTwo k))) (.number (.bigReal (.squaredTwo k))) 256 =
        .ok (.number (.bigReal (.squaredTwo (k + 1))))) ∧
      (∃ s ∈ Number.realSteps .mul (.bigReal (.squaredTwo 62)) (.bigReal (.squaredTwo 62)) 256,
        ∃ e ∈ s.exponents, ¬Integer.InSigned 64 e) ∧
      Value.binaryOp .mul (.number (.bigReal (.squaredTwo 62))) (.number (.bigReal (.squaredTwo 62))) 256 =
        .error .exponentOverflow := by
  refine ⟨BigReal.parse_two, fun k hk => Number.binaryOp_squaredTwo hk, ?_,
    Number.binaryOp_powerOfTwo_overflow (by decide)⟩
  -- The first exponent that is computed for a product is the sum of those of the operands.
  refine ⟨_, (Number.realSteps_powerOfTwo _ _).symm ▸ List.mem_singleton_self _, 2 ^ 62 + 2 ^ 62, ?_, by decide⟩
  rw [BigReal.Step.exponents, BigReal.parts_powerOfTwo]
  exact List.mem_cons_self

end NumericTower
