import Mathlib
import NumericTower.Proofs.Number.ResultType
import NumericTower.Proofs.Rational.LowestTerms

/-!
# Exact powers

A power of a natural, an integer or a ratio is exact, or it is refused. What it is refused for is checked
one after the other: a negative power of zero, an exponent of more than 64 bits, an estimate of the size
that is too great, and last, where the result is a whole number, an exponent of more than 32 bits, which
only bases of magnitude one and zero get to.

## Key results
- `exactPower_ratio` / `exactPower_integral`: powers in the two categories
- `arithmetic_pow`: the checks of an exact power in their order, and its value
- `exponentTooLong_iff`: what is refused for its exponent alone
- `exact_powers_unless_exponent_is_too_long`
-/

namespace NumericTower

open NumericType

/-! ### Static types of powers -/

theorem NumericKind.ne_of_isIntegral {k : NumericKind} (h : k.isIntegral = true) :
    k ≠ .ratio ∧ k ≠ .real := by
  constructor <;> rintro rfl <;> exact absurd h Bool.false_ne_true

theorem NumericKind.eq_ratio_of_not_isIntegral {k : NumericKind} (hreal : k ≠ .real)
    (h : k.isIntegral = false) : k = .ratio := by
  cases k <;> first | rfl | exact absurd rfl hreal | exact absurd h.symm Bool.false_ne_true

namespace NumericType

variable {r s t : NumericType}

/-- The category of an exact power: a signed exponent can invert a whole base. -/
def powerKind (base exponent : NumericKind) : NumericKind :=
  if base.isIntegral = true ∧ exponent = .int then .ratio else base

theorem powResult?_exact (hr : r.kind ≠ .real) :
    powResult? r s =
      if s.kind.isIntegral = true then some (.unbounded (powerKind r.kind s.kind)) else none := by
  unfold powResult? powerKind
  cases hrk : r.kind <;> cases hsk : s.kind <;> first | rfl | exact absurd hrk hr

/-- A power is whole if its base is, and its exponent is a natural number. -/
theorem isIntegral_powerKind {k l : NumericKind} (hl : l.isIntegral = true) :
    (powerKind k l).isIntegral = true ↔ k.isIntegral = true ∧ l = .nat := by
  cases k <;> cases l <;> first | exact absurd hl Bool.false_ne_true | decide

theorem integral_of_powResult (hr : r.kind ≠ .real) (ht : powResult? r s = some t)
    (hk : t.kind.isIntegral = true) : r.kind.isIntegral = true ∧ s.kind = .nat := by
  rw [powResult?_exact hr] at ht
  split at ht
  case isTrue hs =>
    rw [Option.some.injEq] at ht
    rw [← ht] at hk
    exact (isIntegral_powerKind hs).mp hk
  case isFalse => exact nomatch ht

end NumericType

namespace Number

variable {a e : Number} {t : NumericType} {x : Rat} {z n : Int}

/-- The bits that every factor of an exact power adds to the estimate of its size. They are one less than a
part of the base has, the sign of a numerator counting as a bit. -/
def bitsPerFactor (kind : NumericKind) (x : Rat) : Nat :=
  if kind = .ratio then Rational.bits x - 1 else Integer.unsignedBits x.num - 1

/-- The size of an exact power by the estimate. -/
def estimatedBits (kind : NumericKind) (x : Rat) (n : Int) : Nat :=
  bitsPerFactor kind x * n.natAbs

/-- A whole base of magnitude one, or zero, is estimated not to grow. -/
theorem bitsPerFactor_eq_zero_iff {kind : NumericKind} (hk : kind ≠ .ratio) :
    bitsPerFactor kind (z : Rat) = 0 ↔ z.natAbs ≤ 1 := by
  have hbits : bitLength z.natAbs ≤ 1 ↔ z.natAbs ≤ 1 := by
    rw [bitLength_le_iff]
    omega
  rw [bitsPerFactor, if_neg hk, Rat.num_intCast, Integer.unsignedBits, ← hbits]
  omega

/-- A ratio is always estimated to grow, because its sign counts. -/
theorem bitsPerFactor_pos (x : Rat) : 0 < bitsPerFactor .ratio x := by
  simp only [bitsPerFactor, if_true, Rational.bits, Rational.numeratorBits, Integer.signedBits,
    Integer.unsignedBits]
  omega

/-- As a ratio a whole base is estimated by one bit more. -/
theorem bitsPerFactor_ratio_intCast (z : Int) :
    bitsPerFactor .ratio (z : Rat) = Integer.unsignedBits z := by
  have hden : Rational.denominatorBits (z : Rat) = 1 := by
    rw [Rational.denominatorBits, Rat.den_intCast]
    rfl
  rw [bitsPerFactor, if_pos rfl, Rational.bits, hden, Rational.numeratorBits, Rat.num_intCast,
    Integer.signedBits]
  omega

/-! ### Powers by their exact values -/

/-- An exact value in the representation of a type that is no real. -/
def ofExact (t : NumericType) (x : Rat) : Number :=
  match t.kind with
  | .nat => natural x.num t.width
  | .int => integer x.num t.width
  | _ => rational x t.width

theorem toRat?_ofExact (h : t.kind.isIntegral = true → ∃ z : Int, x = z) :
    (ofExact t x).toRat? = some x := by
  unfold ofExact
  cases hk : t.kind with
  | nat =>
    obtain ⟨z, rfl⟩ := h (hk ▸ rfl)
    exact toRat?_of_toInt? (toInt?_natural z t.width)
  | int =>
    obtain ⟨z, rfl⟩ := h (hk ▸ rfl)
    exact toRat?_of_toInt? (toInt?_integer z t.width)
  | ratio | real => exact toRat?_rational x t.width

theorem intCast_zpow (hn : 0 ≤ n) : (z : Rat) ^ n = (z ^ n.toNat : Int) := by
  rw [Int.cast_pow, ← zpow_natCast, Int.toNat_of_nonneg hn]

theorem checkPowerSize_eq (bits limit : Nat) (n : Int) :
    checkPowerSize bits n limit = if limit < bits * n.natAbs then .error .tooLarge else .ok () := rfl

/-- A rational power has nothing against it but its size: an exponent that is too long makes it too large. -/
theorem exactPower_ratio (ht : t.kind = .ratio) (hx : a.toRat? = some x) (hzero : ¬(x = 0 ∧ n < 0)) :
    exactPower a n t =
      if maxExactBits < estimatedBits t.kind x n then .error .tooLarge else .ok (ofExact t (x ^ n)) := by
  have hbits : Rational.bits x - 1 = bitsPerFactor t.kind x := by rw [bitsPerFactor, if_pos ht]
  unfold exactPower
  rw [if_pos ht, hx]
  dsimp only [orError, bind, Except.bind]
  rw [hbits, checkPowerSize_eq, ← estimatedBits]
  by_cases hsize : maxExactBits < estimatedBits t.kind x n
  · rw [if_pos hsize, if_pos hsize]
  · rw [if_neg hsize, if_neg hsize]
    -- Every factor is estimated by a bit at least, so an exponent that passes is short enough.
    have hlength : ¬2 ^ 32 - 1 < n.natAbs := by
      have hpos : 0 < bitsPerFactor t.kind x := ht ▸ bitsPerFactor_pos x
      have hfactor := Nat.le_mul_of_pos_left n.natAbs hpos
      rw [estimatedBits, maxExactBits] at hsize
      omega
    rw [Rational.power?_eq, if_neg (not_or.mpr ⟨hzero, hlength⟩)]
    simp only [ofExact, ht]
    rfl

/-- A whole power is refused for its size first, and only then for the sign or the length of its exponent. -/
theorem exactPower_integral (ht : t.kind.isIntegral = true) (hz : a.toInt? = some z) :
    exactPower a n t =
      if maxExactBits < estimatedBits t.kind z n then .error .tooLarge
      else if n < 0 ∨ 2 ^ 32 ≤ n then .error .undefined
      else .ok (ofExact t ((z : Rat) ^ n)) := by
  have hratio := (NumericKind.ne_of_isIntegral ht).1
  have hbits : Integer.unsignedBits z - 1 = bitsPerFactor t.kind z := by
    rw [bitsPerFactor, if_neg hratio, Rat.num_intCast]
  have hlength : (n < 0 ∨ 32 < bitLength n.natAbs) ↔ (n < 0 ∨ 2 ^ 32 ≤ n) := by
    have hlong : 32 < bitLength n.natAbs ↔ 2 ^ 32 ≤ n.natAbs := by
      rw [← not_le, bitLength_le_iff, not_lt]
    omega
  unfold exactPower
  rw [if_neg hratio, hz]
  dsimp only [orError, bind, Except.bind]
  rw [hbits, checkPowerSize_eq, ← estimatedBits]
  simp only [hlength]
  by_cases hsize : maxExactBits < estimatedBits t.kind z n
  · rw [if_pos hsize, if_pos hsize]
  · rw [if_neg hsize, if_neg hsize]
    by_cases hn : n < 0 ∨ 2 ^ 32 ≤ n
    · rw [if_pos hn, if_pos hn]
      rfl
    · rw [if_neg hn, if_neg hn, intCast_zpow (by omega), ofExact, Rat.num_intCast]
      cases hk : t.kind with
      | nat | int => rfl
      | ratio | real =>
        rw [hk] at ht
        exact absurd ht Bool.false_ne_true

/-- The exponent is read as a whole number of 64 bits. -/
theorem wholeExponent?_eq (hn : e.toInt? = some n) :
    wholeExponent? e = if Integer.InSigned 64 n then some n else none := by
  have hinteger : Rational.isInteger (n : Rat) = true := by
    rw [Rational.isInteger, Rat.den_intCast]
    rfl
  simp only [wholeExponent?, toRat?_of_toInt? hn, Option.bind_some, hinteger, Rat.num_intCast, true_and]

/-- A power of anything but a real is exact, if it is no division by zero. -/
theorem power_eq_exactPower (ha : a.type.kind ≠ .real) (hx : a.toRat? = some x)
    (hn : e.toInt? = some n) :
    power a e t =
      if x = 0 ∧ n < 0 then .error .divisionByZero
      else if Integer.InSigned 64 n then exactPower a n t else .error .undefined := by
  have hzero : (a.toRat?.any (· = 0) = true ∧ e.toRat?.any (· < 0) = true) ↔ x = 0 ∧ n < 0 := by
    simp [hx, toRat?_of_toInt? hn]
  have hwhole : (orError (wholeExponent? e) .undefined >>= fun n => exactPower a n t) =
      if Integer.InSigned 64 n then exactPower a n t else .error .undefined := by
    rw [wholeExponent?_eq hn]
    split <;> rfl
  rw [← hwhole]
  unfold power
  simp only [hzero]
  cases a with
  | real32 | real64 | bigReal => exact absurd rfl ha
  | nat | bigNat | int | bigInt | ratio | bigRatio => rfl

/-- A power in a whole category has a whole base. -/
theorem exists_whole_base (ha : a.type.kind ≠ .real) (hx : a.toRat? = some x)
    (ht : powResult? a.type e.type = some t) (hk : t.kind.isIntegral = true) :
    ∃ z : Int, a.toInt? = some z ∧ x = z := by
  obtain ⟨z, hz⟩ := exists_toInt? (integral_of_powResult ha ht hk).1
  exact ⟨z, hz, Option.some.inj (hx.symm.trans (toRat?_of_toInt? hz))⟩

/-- The checks of an exact power in their order, and the exact value that is put into the static type if it
passes all of them. -/
theorem arithmetic_pow (ha : a.type.kind ≠ .real) (hx : a.toRat? = some x) (hn : e.toInt? = some n)
    (ht : powResult? a.type e.type = some t) (p : Nat) :
    arithmetic .pow a e p =
      if x = 0 ∧ n < 0 then .error .divisionByZero
      else if ¬Integer.InSigned 64 n then .error .undefined
      else if maxExactBits < estimatedBits t.kind x n then .error .tooLarge
      else if t.kind.isIntegral = true ∧ (n < 0 ∨ 2 ^ 32 ≤ n) then .error .undefined
      else .ok (ofExact t (x ^ n)) := by
  simp only [arithmetic, arithmeticResult?, ht, if_true, power_eq_exactPower ha hx hn, ite_not]
  by_cases hzero : x = 0 ∧ n < 0
  · rw [if_pos hzero, if_pos hzero]
  · rw [if_neg hzero, if_neg hzero]
    congr 1
    -- The category of the result decides what is raised: the integers or the rationals.
    cases hk : t.kind.isIntegral with
    | true =>
      obtain ⟨z, hz, rfl⟩ := exists_whole_base ha hx ht hk
      rw [exactPower_integral hk hz]
      simp only [true_and]
    | false =>
      have hratio := NumericKind.eq_ratio_of_not_isIntegral (of_powResult ha ht).2.1 hk
      rw [exactPower_ratio hratio hx hzero]
      simp only [Bool.false_eq_true, false_and, if_false]

/-- A power in a whole category is a whole number. -/
theorem exists_whole_power (ha : a.type.kind ≠ .real) (hx : a.toRat? = some x)
    (ht : powResult? a.type e.type = some t) (hk : t.kind.isIntegral = true) (hn : 0 ≤ n) :
    ∃ z : Int, x ^ n = z := by
  obtain ⟨z, -, rfl⟩ := exists_whole_base ha hx ht hk
  exact ⟨z ^ n.toNat, intCast_zpow hn⟩

/-! ### Exponents that are too long -/

/-- An exponent that no exact power is computed with, though the power is no division by zero: one of more
than 64 bits, or one of more than 32 bits on a whole base that does not grow. -/
def ExponentTooLong (t : NumericType) (x : Rat) (n : Int) : Prop :=
  ¬Integer.InSigned 64 n ∨ t.kind.isIntegral = true ∧ |x| ≤ 1 ∧ 2 ^ 32 ≤ n

instance (t : NumericType) (x : Rat) (n : Int) : Decidable (ExponentTooLong t x n) :=
  inferInstanceAs (Decidable (_ ∨ _))

/-- A natural exponent is not negative. -/
theorem nonneg_of_natural (hp : e.Proper) (he : e.type.kind = .nat) (hn : e.toInt? = some n) : 0 ≤ n := by
  have hholds : InRange e.type.kind e.type.width n := holds_of_toInt? hp hn
  rw [he] at hholds
  exact hholds.1

/-- An exponent is too long exactly if a check other than that of the size refuses it. -/
theorem exponentTooLong_iff (ha : a.type.kind ≠ .real) (hx : a.toRat? = some x) (hp : e.Proper)
    (hn : e.toInt? = some n) (ht : powResult? a.type e.type = some t) :
    ExponentTooLong t x n ↔ ¬Integer.InSigned 64 n ∨
      t.kind.isIntegral = true ∧ estimatedBits t.kind x n ≤ maxExactBits ∧ (n < 0 ∨ 2 ^ 32 ≤ n) := by
  refine or_congr_right (and_congr_right fun hk => ?_)
  obtain ⟨z, -, rfl⟩ := exists_whole_base ha hx ht hk
  have hn0 := nonneg_of_natural hp (integral_of_powResult ha ht hk).2 hn
  have hratio := (NumericKind.ne_of_isIntegral hk).1
  have habs : |(z : Rat)| ≤ 1 ↔ bitsPerFactor t.kind (z : Rat) = 0 := by
    rw [bitsPerFactor_eq_zero_iff hratio, ← Int.cast_abs, Int.abs_eq_natAbs]
    exact_mod_cast Iff.rfl
  rw [habs, estimatedBits, maxExactBits]
  constructor
  · rintro ⟨h0, hlong⟩
    rw [h0, zero_mul]
    exact ⟨Nat.zero_le _, .inr hlong⟩
  · rintro ⟨hsize, hlong⟩
    have hlong' : 2 ^ 32 ≤ n := hlong.resolve_left (by omega)
    refine ⟨?_, hlong'⟩
    -- With a bit for every factor the size would be too great.
    by_contra hpos
    have := Nat.le_mul_of_pos_left n.natAbs (Nat.pos_of_ne_zero hpos)
    omega

/-- What is refused for its exponent is refused whatever its size, so the order of the two checks is not seen. -/
theorem arithmetic_pow_of_proper (ha : a.type.kind ≠ .real) (hx : a.toRat? = some x) (hp : e.Proper)
    (hn : e.toInt? = some n) (ht : powResult? a.type e.type = some t) (p : Nat) :
    arithmetic .pow a e p =
      if x = 0 ∧ n < 0 then .error .divisionByZero
      else if ExponentTooLong t x n then .error .undefined
      else if maxExactBits < estimatedBits t.kind x n then .error .tooLarge
      else .ok (ofExact t (x ^ n)) := by
  simp only [arithmetic_pow ha hx hn ht, exponentTooLong_iff ha hx hp hn ht]
  congr 1
  by_cases h64 : Integer.InSigned 64 n
  · by_cases hsize : maxExactBits < estimatedBits t.kind x n
    · simp only [h64, hsize, not_true, if_false, if_true, false_or, not_le.mpr hsize, false_and, and_false]
    · simp only [h64, hsize, not_true, if_false, false_or, not_lt.mp hsize, true_and]
  · simp only [h64, not_false_eq_true, if_true, true_or]

/-- The exact value of a power that is computed. -/
theorem toRat?_exactPower (ha : a.type.kind ≠ .real) (hx : a.toRat? = some x) (hp : e.Proper)
    (hn : e.toInt? = some n) (ht : powResult? a.type e.type = some t) :
    (ofExact t (x ^ n)).toRat? = some (x ^ n) :=
  toRat?_ofExact fun hk =>
    exists_whole_power ha hx ht hk (nonneg_of_natural hp (integral_of_powResult ha ht hk).2 hn)

end Number

/-- A power of a natural, an integer or a ratio with a whole exponent is a division by zero exactly for a
negative power of zero. Any other has the exact value and the static type, unless its exponent is too long
for any power, or else the power is estimated too large. -/
theorem exact_powers_unless_exponent_is_too_long {a e : Number} (ha : a.type.kind ≠ .real)
    (he : e.type.kind.isIntegral = true) (hpa : a.Proper) (hpe : e.Proper) (p : Nat) :
    ∃ x n t, a.toRat? = some x ∧ e.toInt? = some n ∧ powResult? a.type e.type = some t ∧
      (Value.binaryOp .pow (.number a) (.number e) p = .error .divisionByZero ↔ x = 0 ∧ n < 0) ∧
      (Value.binaryOp .pow (.number a) (.number e) p = .error .undefined ↔
        ¬(x = 0 ∧ n < 0) ∧ Number.ExponentTooLong t x n) ∧
      (Value.binaryOp .pow (.number a) (.number e) p = .error .tooLarge ↔
        ¬(x = 0 ∧ n < 0) ∧ ¬Number.ExponentTooLong t x n ∧
          Number.maxExactBits < Number.estimatedBits t.kind x n) ∧
      (¬(x = 0 ∧ n < 0) → ¬Number.ExponentTooLong t x n →
        Number.estimatedBits t.kind x n ≤ Number.maxExactBits →
        ∃ m, Value.binaryOp .pow (.number a) (.number e) p = .ok (.number m) ∧ m.type = t ∧
          m.toRat? = some (x ^ n)) := by
  obtain ⟨x, hx⟩ := Number.exists_toRat? ha
  obtain ⟨n, hn⟩ := Number.exists_toInt? he
  obtain ⟨t, ht⟩ : ∃ t, powResult? a.type e.type = some t := ⟨_, by rw [powResult?_exact ha, if_pos he]⟩
  refine ⟨x, n, t, hx, hn, ht, ?_⟩
  have hpower := Number.arithmetic_pow_of_proper ha hx hpe hn ht p
  rw [Value.binaryOp_number rfl]
  -- The checks one after the other, each with the outcome that no later one can change.
  by_cases hzero : x = 0 ∧ n < 0
  · rw [hpower, if_pos hzero]
    simp [Except.map, hzero]
  · by_cases hlong : Number.ExponentTooLong t x n
    · rw [hpower, if_neg hzero, if_pos hlong]
      simp [Except.map, hzero, hlong]
    · by_cases hsize : Number.maxExactBits < Number.estimatedBits t.kind x n
      · rw [hpower, if_neg hzero, if_neg hlong, if_pos hsize]
        simp [Except.map, hzero, hlong, hsize]
      · rw [if_neg hzero, if_neg hlong, if_neg hsize] at hpower
        have htype : (Number.ofExact t (x ^ n)).type = t := by
          refine Number.type_power hpa ht (b := e) ?_
          rw [← hpower]
          simp only [Number.arithmetic, arithmeticResult?, ht, if_true]
        have hvalue := Number.toRat?_exactPower ha hx hpe hn ht
        rw [hpower]
        refine ⟨?_, ?_, ?_, fun _ _ _ => ⟨_, rfl, htype, hvalue⟩⟩ <;> simp [Except.map, hzero, hlong, hsize]

/-- Minus one to the greatest exponent of 32 bits, the last one for which its power is computed. -/
theorem exact_powers_unless_exponent_is_too_long_last_of_minus_one :
    (Number.int .bits16 ⟨-1, by decide⟩).type.kind ≠ .real ∧
      (Number.nat .bits32 ⟨4294967295, by decide⟩).type.kind.isIntegral = true ∧
      (Number.int .bits16 ⟨-1, by decide⟩).Proper ∧ (Number.nat .bits32 ⟨4294967295, by decide⟩).Proper ∧
      ∃ m, Value.binaryOp .pow (.number (.int .bits16 ⟨-1, by decide⟩))
          (.number (.nat .bits32 ⟨4294967295, by decide⟩)) 256 = .ok (.number m) ∧
        m.type = .unbounded .int ∧ m.toRat? = some (-1) := by
  refine ⟨by decide, rfl, trivial, trivial, ?_⟩
  obtain ⟨x, n, t, hx, hn, ht, -, -, -, hexact⟩ := exact_powers_unless_exponent_is_too_long
    (a := .int .bits16 ⟨-1, by decide⟩) (e := .nat .bits32 ⟨4294967295, by decide⟩)
    (by decide) rfl trivial trivial 256
  cases hx
  cases hn
  cases ht
  obtain ⟨m, hm, htype, hvalue⟩ := hexact (by decide +kernel) (by decide +kernel) (by decide +kernel)
  refine ⟨m, hm, htype, hvalue.trans (congrArg some ?_)⟩
  have hodd : Odd ((4294967295 : Nat) : Int) := by decide
  exact hodd.neg_one_zpow

/-- Powers of two with an exponent of 64 bits would be too large, but are not defined; the powers of minus one
do not grow at all, and end at the exponents of 32 bits. -/
theorem power_is_undefined_for_long_exponents :
    powResult? (Number.nat .bits16 ⟨2, by decide⟩).type (Number.nat .bits64 ⟨2 ^ 63, by decide⟩).type =
        some (.unbounded .nat) ∧
      Value.binaryOp .pow (.number (.nat .bits16 ⟨2, by decide⟩))
        (.number (.nat .bits64 ⟨2 ^ 63, by decide⟩)) 256 = .error .undefined ∧
      powResult? (Number.int .bits16 ⟨-1, by decide⟩).type (Number.nat .bits64 ⟨2 ^ 32, by decide⟩).type =
        some (.unbounded .int) ∧
      Value.binaryOp .pow (.number (.int .bits16 ⟨-1, by decide⟩))
        (.number (.nat .bits64 ⟨2 ^ 32, by decide⟩)) 256 = .error .undefined := by
  have htwo := Number.arithmetic_pow_of_proper (a := .nat .bits16 ⟨2, by decide⟩)
    (e := .nat .bits64 ⟨2 ^ 63, by decide⟩) (by decide) rfl trivial rfl rfl 256
  have hminus := Number.arithmetic_pow_of_proper (a := .int .bits16 ⟨-1, by decide⟩)
    (e := .nat .bits64 ⟨2 ^ 32, by decide⟩) (by decide) rfl trivial rfl rfl 256
  rw [if_neg (by decide +kernel), if_pos (by decide +kernel)] at htwo hminus
  refine ⟨rfl, ?_, rfl, ?_⟩
  · rw [Value.binaryOp_number rfl, htwo]
    rfl
  · rw [Value.binaryOp_number rfl, hminus]
    rfl

end NumericTower
