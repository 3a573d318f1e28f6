import NumericTower.Proofs.Number.Power

/-!
# Sizes of exact powers

The check of an exact power estimates its size without one bit of the base, which for a ratio is the sign of
the numerator. So powers of magnitude one are not refused when they are whole numbers, but they are when they
are ratios, and no result has more than twice the bits of the limit.

## Key results
- `bitLength_pow_le_two_mul`: an estimate that leaves a bit of the base out is exceeded twice at most
- `arithmetic_pow_natural` / `arithmetic_pow_signed`: a whole base with either kind of exponent
- `powers_agree_unless_sign_bit_decides`
- `exact_powers_are_bounded`
-/

namespace NumericTower

open NumericType

/-! ### Sizes of powers -/

variable {m k limit : Nat}

theorem bitLength_pow_le (hk : k ≠ 0) : bitLength (m ^ k) ≤ bitLength m * k := by
  rw [bitLength_le_iff, pow_mul]
  exact Nat.pow_lt_pow_left (lt_two_pow_bitLength m) hk

/-- An estimate that leaves a bit of the base out is exceeded twice at most. -/
theorem bitLength_pow_le_two_mul (hlimit : 0 < limit) (h : (bitLength m - 1) * k ≤ limit) :
    bitLength (m ^ k) ≤ 2 * limit := by
  by_cases hm : bitLength m ≤ 1
  · -- A base of one bit does not grow, so nothing is missed by leaving its bit out.
    have hone : m ^ k ≤ 1 := pow_le_one₀ (Nat.zero_le m) (by rw [bitLength_le_iff] at hm; omega)
    have : bitLength (m ^ k) ≤ 1 := bitLength_le_iff.mpr (by omega)
    omega
  · by_cases hk : k = 0
    · have : bitLength (m ^ k) ≤ 1 := bitLength_le_iff.mpr (by rw [hk, pow_zero]; decide)
      omega
    · calc bitLength (m ^ k) ≤ bitLength m * k := bitLength_pow_le hk
        _ ≤ 2 * (bitLength m - 1) * k := Nat.mul_le_mul_right k (by omega)
        _ = 2 * ((bitLength m - 1) * k) := Nat.mul_assoc 2 _ k
        _ ≤ 2 * limit := Nat.mul_le_mul_left 2 h

namespace Number

variable {a e : Number} {x : Rat} {z n : Int}

/-! ### Whole bases -/

section Whole

variable {n : Nat}

/-- A whole base with a natural exponent is raised as an integer. -/
theorem arithmetic_pow_natural (ha : a.type.kind.isIntegral = true) (hz : a.toInt? = some z)
    (he : e.type.kind = .nat) (hn : e.toInt? = some (n : Int)) (hn32 : n < 2 ^ 32) (p : Nat) :
    arithmetic .pow a e p =
      if maxExactBits < (Integer.unsignedBits z - 1) * n then .error .tooLarge
      else .ok (ofExact (.unbounded a.type.kind) ((z : Rat) ^ n)) := by
  obtain ⟨hratio, hreal⟩ := NumericKind.ne_of_isIntegral ha
  have ht : powResult? a.type e.type = some (.unbounded a.type.kind) := by
    rw [powResult?_exact hreal, he, powerKind]
    simp [NumericKind.isIntegral]
  have h64 : Integer.InSigned 64 (n : Int) := by
    constructor <;> omega
  have hlength : ¬((n : Int) < 0 ∨ 2 ^ 32 ≤ (n : Int)) := by omega
  rw [arithmetic_pow hreal (toRat?_of_toInt? hz) hn ht, if_neg (by omega), if_neg (not_not.mpr h64),
    estimatedBits, bitsPerFactor, Int.natAbs_natCast, zpow_natCast]
  simp only [unbounded, hratio, hlength, and_false, if_false, Rat.num_intCast]

/-- With a signed exponent it is raised as a ratio, and the sign of the numerator counts. -/
theorem arithmetic_pow_signed (ha : a.type.kind.isIntegral = true) (hz : a.toInt? = some z)
    (he : e.type.kind = .int) (hn : e.toInt? = some (n : Int)) (hn32 : n < 2 ^ 32) (p : Nat) :
    arithmetic .pow a e p =
      if maxExactBits < Integer.unsignedBits z * n then .error .tooLarge
      else .ok (ofExact (.unbounded .ratio) ((z : Rat) ^ n)) := by
  have hreal := (NumericKind.ne_of_isIntegral ha).2
  have ht : powResult? a.type e.type = some (.unbounded .ratio) := by
    rw [powResult?_exact hreal, he, if_pos (show NumericKind.int.isIntegral = true from rfl), powerKind,
      if_pos ⟨ha, rfl⟩]
  have h64 : Integer.InSigned 64 (n : Int) := by
    constructor <;> omega
  rw [arithmetic_pow hreal (toRat?_of_toInt? hz) hn ht, if_neg (by omega), if_neg (not_not.mpr h64),
    estimatedBits, unbounded, bitsPerFactor_ratio_intCast, Int.natAbs_natCast, zpow_natCast]
  simp only [NumericKind.isIntegral, Bool.false_eq_true, false_and, if_false]

end Whole

/-! ### The size of the result -/

/-- Neither part of a base is longer than the estimate of a factor by more than a bit. -/
theorem bitLength_le_bitsPerFactor {kind : NumericKind} (h : kind.isIntegral = true → x.den = 1)
    (hreal : kind ≠ .real) :
    bitLength x.num.natAbs - 1 ≤ bitsPerFactor kind x ∧ bitLength x.den - 1 ≤ bitsPerFactor kind x := by
  by_cases hk : kind = .ratio
  · simp only [bitsPerFactor, hk, if_true, Rational.bits, Rational.numeratorBits, Rational.denominatorBits,
      Integer.signedBits, Integer.unsignedBits, Int.natAbs_natCast]
    omega
  · have hden : x.den = 1 := h (by cases kind <;> first | rfl | exact absurd rfl hk | exact absurd rfl hreal)
    have hone : bitLength 1 = 1 := rfl
    rw [bitsPerFactor, if_neg hk, Integer.unsignedBits, hden, hone]
    omega

/-- The parts of a power are powers of the parts, which a negative exponent swaps. -/
theorem parts_zpow (hzero : ¬(x = 0 ∧ n < 0)) :
    ((x ^ n).num.natAbs = x.num.natAbs ^ n.natAbs ∧ (x ^ n).den = x.den ^ n.natAbs) ∨
      ((x ^ n).num.natAbs = x.den ^ n.natAbs ∧ (x ^ n).den = x.num.natAbs ^ n.natAbs) := by
  by_cases hn : 0 ≤ n
  · left
    have hpow : x ^ n = x ^ n.natAbs := by rw [← zpow_natCast, Int.natAbs_of_nonneg hn]
    rw [hpow, Rat.num_pow, Rat.den_pow, Int.natAbs_pow]
    exact ⟨rfl, rfl⟩
  · right
    have hx : x ≠ 0 := fun h => hzero ⟨h, not_le.mp hn⟩
    have hpow : x ^ n = x⁻¹ ^ n.natAbs := by
      rw [inv_pow, ← zpow_natCast, ← zpow_neg]
      congr 1
      omega
    have hnum : x⁻¹.num.natAbs = x.den := by
      rw [Rat.num_inv, Int.natAbs_mul, Int.natAbs_sign_of_ne_zero (Rat.num_ne_zero.mpr hx), one_mul,
        Int.natAbs_natCast]
    rw [hpow, Rat.num_pow, Rat.den_pow, Int.natAbs_pow, hnum, Rat.den_inv_of_ne_zero hx]
    exact ⟨rfl, rfl⟩

/-- A power that passes the check of its size has parts of twice the limit at most. -/
theorem bitLength_zpow_le (hzero : ¬(x = 0 ∧ n < 0))
    (hnum : (bitLength x.num.natAbs - 1) * n.natAbs ≤ limit)
    (hden : (bitLength x.den - 1) * n.natAbs ≤ limit) (hlimit : 0 < limit) :
    bitLength (x ^ n).num.natAbs ≤ 2 * limit ∧ bitLength (x ^ n).den ≤ 2 * limit := by
  have hnum' := bitLength_pow_le_two_mul hlimit hnum
  have hden' := bitLength_pow_le_two_mul hlimit hden
  rcases parts_zpow hzero with ⟨hn, hd⟩ | ⟨hn, hd⟩
  · rw [hn, hd]
    exact ⟨hnum', hden'⟩
  · rw [hn, hd]
    exact ⟨hden', hnum'⟩

/-- A result comes after a check that was passed. -/
theorem ite_error_eq_ok_iff {α : Type} {c : Prop} [Decidable c] {err : OpError} {r : Except OpError α}
    {v : α} : (if c then .error err else r) = .ok v ↔ ¬c ∧ r = .ok v := by
  split <;> simp [*]

/-- What a power that is computed has been checked for, and the number it is. -/
theorem of_arithmetic_pow_eq_ok {m : Number} {p : Nat} (ha : a.type.kind ≠ .real)
    (h : arithmetic .pow a e p = .ok m) :
    ∃ x n t, a.toRat? = some x ∧ powResult? a.type e.type = some t ∧ ¬(x = 0 ∧ n < 0) ∧
      estimatedBits t.kind x n ≤ maxExactBits ∧ (t.kind.isIntegral = true → 0 ≤ n) ∧
      m = ofExact t (x ^ n) := by
  have hresult := powResult?_exact (s := e.type) ha
  split at hresult
  case isFalse =>
    -- Without a whole exponent there is no result type.
    simp only [arithmetic, arithmeticResult?, hresult] at h
    cases h
  case isTrue he =>
    obtain ⟨x, hx⟩ := exists_toRat? ha
    obtain ⟨n, hn⟩ := exists_toInt? he
    rw [arithmetic_pow ha hx hn hresult] at h
    simp only [ite_error_eq_ok_iff, not_not] at h
    obtain ⟨hzero, -, hsize, hlength, hm⟩ := h
    refine ⟨x, n, _, hx, hresult, hzero, not_lt.mp hsize, fun hk => ?_, (Except.ok.inj hm).symm⟩
    exact not_lt.mp fun hneg => hlength ⟨hk, .inl hneg⟩

end Number

/-! ### The two kinds of exponents -/

/-- Two results are numbers of the same exact value, in whatever representations, or both are refused for
their size. -/
def SameOutcome (r s : Except OpError Value) : Prop :=
  (∃ v w q, r = .ok (.number v) ∧ s = .ok (.number w) ∧ v.toRat? = some q ∧ w.toRat? = some q) ∨
    (r = .error .tooLarge ∧ s = .error .tooLarge)

/-- A whole base has the same powers with natural and with signed exponents, except where the bit for the sign
takes the estimate beyond the limit: there the power is refused for the signed exponent only. -/
theorem powers_agree_unless_sign_bit_decides {a e f : Number} {n : Nat}
    (ha : a.type.kind.isIntegral = true) (he : e.type.kind = .nat) (hf : f.type.kind = .int)
    (hen : e.toInt? = some (n : Int)) (hfn : f.toInt? = some (n : Int)) (hn : n < 2 ^ 32) (p : Nat) :
    ∃ z, a.toInt? = some z ∧
      (SameOutcome (Value.binaryOp .pow (.number a) (.number e) p)
          (Value.binaryOp .pow (.number a) (.number f) p) ↔
        ¬((Integer.unsignedBits z - 1) * n ≤ Number.maxExactBits ∧
          Number.maxExactBits < Integer.unsignedBits z * n)) ∧
      ((Integer.unsignedBits z - 1) * n ≤ Number.maxExactBits →
        Number.maxExactBits < Integer.unsignedBits z * n →
        Value.binaryOp .pow (.number a) (.number f) p = .error .tooLarge ∧
          ∃ v, Value.binaryOp .pow (.number a) (.number e) p = .ok (.number v) ∧
            v.toRat? = some ((z : Rat) ^ n)) := by
  obtain ⟨z, hz⟩ := Number.exists_toInt? ha
  have hwhole : ∀ t : NumericType, (Number.ofExact t ((z : Rat) ^ n)).toRat? = some ((z : Rat) ^ n) :=
    fun t => Number.toRat?_ofExact fun _ => ⟨z ^ n, (Int.cast_pow z n).symm⟩
  have hle : (Integer.unsignedBits z - 1) * n ≤ Integer.unsignedBits z * n :=
    Nat.mul_le_mul_right n (Nat.sub_le _ 1)
  refine ⟨z, hz, ?_⟩
  rw [Value.binaryOp_number rfl, Value.binaryOp_number rfl, Number.arithmetic_pow_natural ha hz he hen hn,
    Number.arithmetic_pow_signed ha hz hf hfn hn]
  -- The estimate for the signed exponent is never the smaller one, so three cases are left.
  by_cases hsigned : Number.maxExactBits < Integer.unsignedBits z * n
  · by_cases hnatural : Number.maxExactBits < (Integer.unsignedBits z - 1) * n
    · rw [if_pos hnatural, if_pos hsigned]
      refine ⟨iff_of_true (.inr ⟨rfl, rfl⟩) fun h => ?_, fun h => ?_⟩
      · exact absurd hnatural (not_lt.mpr h.1)
      · exact absurd hnatural (not_lt.mpr h)
    · rw [if_neg hnatural, if_pos hsigned]
      refine ⟨iff_of_false ?_ (not_not.mpr ⟨not_lt.mp hnatural, hsigned⟩), fun _ _ => ⟨rfl, _, rfl, hwhole _⟩⟩
      rintro (⟨_, _, _, -, hs, -⟩ | ⟨hr, -⟩)
      · exact nomatch hs
      · exact nomatch hr
  · have hnatural : ¬Number.maxExactBits < (Integer.unsignedBits z - 1) * n :=
      fun h => hsigned (h.trans_le hle)
    rw [if_neg hnatural, if_neg hsigned]
    refine ⟨iff_of_true (.inl ⟨_, _, _, rfl, rfl, hwhole _, hwhole _⟩) fun h => hsigned h.2, ?_⟩
    exact fun _ h => absurd h hsigned

/-- The greatest power of three that is not refused for a signed exponent. -/
theorem powers_agree_unless_sign_bit_decides_three :
    (Number.nat .bits16 ⟨3, by decide⟩).type.kind.isIntegral = true ∧
      (Number.nat .bits32 ⟨2 ^ 23, by decide⟩).type.kind = .nat ∧
      (Number.int .bits32 ⟨2 ^ 23, by decide⟩).type.kind = .int ∧
      (Number.nat .bits32 ⟨2 ^ 23, by decide⟩).toInt? = some ((2 ^ 23 : Nat) : Int) ∧
      (Number.int .bits32 ⟨2 ^ 23, by decide⟩).toInt? = some ((2 ^ 23 : Nat) : Int) ∧ 2 ^ 23 < 2 ^ 32 ∧
      SameOutcome
        (Value.binaryOp .pow (.number (.nat .bits16 ⟨3, by decide⟩))
          (.number (.nat .bits32 ⟨2 ^ 23, by decide⟩)) 256)
        (Value.binaryOp .pow (.number (.nat .bits16 ⟨3, by decide⟩))
          (.number (.int .bits32 ⟨2 ^ 23, by decide⟩)) 256) := by
  refine ⟨rfl, rfl, rfl, rfl, rfl, by decide, ?_⟩
  obtain ⟨z, hz, hiff, -⟩ := powers_agree_unless_sign_bit_decides
    (a := .nat .bits16 ⟨3, by decide⟩) (e := .nat .bits32 ⟨2 ^ 23, by decide⟩)
    (f := .int .bits32 ⟨2 ^ 23, by decide⟩) (n := 2 ^ 23) rfl rfl rfl rfl rfl (by decide) 256
  cases hz
  exact hiff.mpr (by decide +kernel)

/-- One does not grow, but its powers with signed exponents end. -/
theorem power_of_one_is_too_large :
    (∃ v, Value.binaryOp .pow (.number (.nat .bits16 ⟨1, by decide⟩))
          (.number (.nat .bits32 ⟨2 ^ 24 + 1, by decide⟩)) 256 = .ok (.number v) ∧ v.toRat? = some 1) ∧
      Value.binaryOp .pow (.number (.nat .bits16 ⟨1, by decide⟩))
        (.number (.int .bits32 ⟨2 ^ 24 + 1, by decide⟩)) 256 = .error .tooLarge := by
  have hnatural := Number.arithmetic_pow_natural (a := .nat .bits16 ⟨1, by decide⟩)
    (e := .nat .bits32 ⟨2 ^ 24 + 1, by decide⟩) (n := 2 ^ 24 + 1) rfl rfl rfl rfl (by decide) 256
  have hsigned := Number.arithmetic_pow_signed (a := .nat .bits16 ⟨1, by decide⟩)
    (e := .int .bits32 ⟨2 ^ 24 + 1, by decide⟩) (n := 2 ^ 24 + 1) rfl rfl rfl rfl (by decide) 256
  rw [if_neg (by decide +kernel)] at hnatural
  rw [if_pos (by decide +kernel)] at hsigned
  rw [Value.binaryOp_number rfl, Value.binaryOp_number rfl, hnatural, hsigned]
  refine ⟨⟨_, rfl, ?_⟩, rfl⟩
  rw [Nat.cast_one, Int.cast_one, one_pow]
  exact Number.toRat?_ofExact fun _ => ⟨1, Int.cast_one.symm⟩

/-! ### Bounds -/

/-- No power of a natural, an integer or a ratio has a numerator or a denominator of more than twice the bits of
the limit, whatever the exponent. -/
theorem exact_powers_are_bounded {a e : Number} {p : Nat} {v : Value} (ha : a.type.kind ≠ .real)
    (h : Value.binaryOp .pow (.number a) (.number e) p = .ok v) :
    ∃ m q, v = .number m ∧ m.toRat? = some q ∧ bitLength q.num.natAbs ≤ 2 ^ 25 ∧
      bitLength q.den ≤ 2 ^ 25 := by
  obtain ⟨m, hm, rfl⟩ : ∃ m, Number.arithmetic .pow a e p = .ok m ∧ .number m = v := by
    rw [Value.binaryOp_number rfl] at h
    cases hm : Number.arithmetic .pow a e p with
    | error err =>
      rw [hm] at h
      exact nomatch h
    | ok m =>
      rw [hm] at h
      exact ⟨m, rfl, Except.ok.inj h⟩
  obtain ⟨x, n, t, hx, ht, hzero, hsize, hn, rfl⟩ := Number.of_arithmetic_pow_eq_ok ha hm
  have hvalue : (Number.ofExact t (x ^ n)).toRat? = some (x ^ n) :=
    Number.toRat?_ofExact fun hk => Number.exists_whole_power ha hx ht hk (hn hk)
  have hwhole : t.kind.isIntegral = true → x.den = 1 := by
    intro hk
    obtain ⟨z, -, rfl⟩ := Number.exists_whole_base ha hx ht hk
    exact Rat.den_intCast z
  -- One estimate covers both parts of the base, so an inverted power is bounded like any other.
  obtain ⟨hnum, hden⟩ := Number.bitLength_le_bitsPerFactor hwhole (Number.of_powResult ha ht).2.1
  have hbound := Number.bitLength_zpow_le hzero ((Nat.mul_le_mul_right n.natAbs hnum).trans hsize)
    ((Nat.mul_le_mul_right n.natAbs hden).trans hsize) (by decide)
  exact ⟨_, x ^ n, rfl, hvalue, hbound⟩

/-- The greatest power of three that is computed, which has more bits than the limit of the estimate. -/
theorem exact_powers_are_bounded_three :
    (Number.nat .bits16 ⟨3, by decide⟩).type.kind ≠ .real ∧
      ∃ v, Value.binaryOp .pow (.number (.nat .bits16 ⟨3, by decide⟩))
          (.number (.nat .bits32 ⟨2 ^ 24, by decide⟩)) 256 = .ok v ∧
        ∃ m q, v = .number m ∧ m.toRat? = some q ∧ bitLength q.num.natAbs ≤ 2 ^ 25 ∧
          bitLength q.den ≤ 2 ^ 25 := by
  have hpower := Number.arithmetic_pow_natural (a := .nat .bits16 ⟨3, by decide⟩)
    (e := .nat .bits32 ⟨2 ^ 24, by decide⟩) (n := 2 ^ 24) rfl rfl rfl rfl (by decide) 256
  rw [if_neg (by decide +kernel)] at hpower
  have hok : ∃ v, Value.binaryOp .pow (.number (.nat .bits16 ⟨3, by decide⟩))
      (.number (.nat .bits32 ⟨2 ^ 24, by decide⟩)) 256 = .ok v := by
    rw [Value.binaryOp_number rfl, hpower]
    exact ⟨_, rfl⟩
  obtain ⟨v, hv⟩ := hok
  exact ⟨by decide, v, hv, exact_powers_are_bounded (by decide) hv⟩

end NumericTower
