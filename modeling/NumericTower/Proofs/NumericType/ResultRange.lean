import Mathlib
import NumericTower.Proofs.Number.ResultType
import NumericTower.Proofs.NumericType.Narrowest

/-!
# Integral results never overflow

The type of a sum, a difference, a product or a remainder of integral operands holds the exact result of all their
values. No bit is given away: at operands of one category and width no narrower representable type does. The extreme
values show it, the greatest and the least ones of the width, and operands of different types are carried over to
their common width first. Where the width of the result is beyond the limit of widths, no representable type is as
wide, and the unbounded type is the result.

## Key results
- `HoldsResults.resultBits_le_nat`, `HoldsResults.resultBits_le_int`: the extreme values need all the bits of a result
- `holdsResults_iff`: which widths hold all results
- `NumericType.hasRoom_iff_resultBits`: room for the grown common width, by the bits alone
- `integral_results_never_overflow`
-/

namespace NumericTower

open NumericType

/-- The bits that the results need at operands of `w` bits. -/
def resultBits : BinaryOp → Nat → Nat
  | .add, w | .sub, w => w + 1
  | .mul, w => w * 2
  | _, w => w

/-- The integers of `v` bits hold the exact results of all integers of `w` bits. -/
def HoldsResults (op : BinaryOp) (kind : NumericKind) (w v : Nat) : Prop :=
  ∀ x y z : Int, InRange kind w x → InRange kind w y → ExactResult op x y z → InRange kind v z

variable {op : BinaryOp} {kind : NumericKind} {w v : Nat} {x y z : Int}

theorem le_resultBits (op : BinaryOp) (w : Nat) : w ≤ resultBits op w := by
  unfold resultBits
  split <;> omega

/-! ### The bits of a result -/

/-- The bits of the results hold them. -/
theorem inRange_resultBits (h : Number.integralOp op x y = .ok z) (hsub : op = .sub → kind = .int) (hw : w ≠ 0)
    (hx : InRange kind w x) (hy : InRange kind w y) : InRange kind (resultBits op w) z := by
  rcases integralOp_eq_ok_iff.mp h with ⟨rfl, rfl⟩ | ⟨rfl, rfl⟩ | ⟨rfl, rfl⟩ | ⟨rfl, hy0, rfl⟩
  · exact hx.add hy hw
  · cases hsub rfl
    exact hx.sub hy hw
  · exact hx.mul hy hw
  · exact hy.emod hw hy0

/-- The results of all integers of a category are all of its natural numbers, too, so no bounded type holds them. -/
theorem HoldsResults.width_ne_zero (h : HoldsResults op kind w v)
    (hop : op = .add ∨ op = .sub ∨ op = .mul ∨ op = .mod) (hk : kind.isIntegral = true) (hv : v ≠ 0) : w ≠ 0 := by
  rintro rfl
  have htop : (0 : Int) ≤ 2 ^ v := by positivity
  have hin : ∀ {n : Int}, 0 ≤ n → InRange kind 0 n := InRange.of_nonneg hk
  -- The power of two that is out of reach is a result.
  refine InRange.not_two_pow hv (?_ : InRange kind v (2 ^ v))
  rcases hop with rfl | rfl | rfl | rfl
  · simpa only [add_zero] using h _ _ _ (hin htop) (hin le_rfl) (Int.cast_add _ _)
  · simpa only [sub_zero] using h _ _ _ (hin htop) (hin le_rfl) (Int.cast_sub _ _)
  · simpa only [mul_one] using h _ _ _ (hin htop) (hin zero_le_one) (Int.cast_mul _ _)
  · have hmod : (2 : Int) ^ v % (2 ^ v + 1) = 2 ^ v := Int.emod_eq_of_lt htop (lt_add_one _)
    exact hmod ▸ h _ _ _ (hin htop) (hin (by omega)) (Number.exactResult_mod (y := 2 ^ v + 1) (by omega))

/-- The greatest natural numbers need all the bits of a result. -/
theorem HoldsResults.resultBits_le_nat (h : HoldsResults op .nat w v)
    (hop : op = .add ∨ op = .sub ∨ op = .mul ∨ op = .mod) (hsub : op ≠ .sub) (hw : 2 ≤ w) (hv : v ≠ 0) :
    resultBits op w ≤ v := by
  obtain ⟨n, rfl⟩ : ∃ n, w = n + 1 := ⟨w - 1, by omega⟩
  have hgreatest := InRange.greatest_nat (n + 1)
  have htwo : (2 : Int) ≤ 2 ^ n := le_self_pow₀ (by decide) (by omega)
  have hpow : ∀ m, v ≤ m → (2 : Int) ^ v ≤ 2 ^ m := fun m hm => pow_le_pow_right₀ (by decide) hm
  rw [pow_succ] at hgreatest
  by_contra hlt
  rcases hop with rfl | rfl | rfl | rfl
  · -- Twice the greatest number takes one bit more.
    have hz := (h _ _ _ hgreatest hgreatest (Int.cast_add _ _)).2 hv
    have hle := hpow (n + 1) (by simp only [resultBits] at hlt; omega)
    rw [pow_succ] at hle
    omega
  · exact hsub rfl
  · -- Its square is closer to the power of twice the bits than to half of that.
    have hz := (h _ _ _ hgreatest hgreatest (Int.cast_mul _ _)).2 hv
    have hle := hpow (n + n + 1) (by simp only [resultBits] at hlt; omega)
    rw [pow_succ, pow_add] at hle
    nlinarith only [hz, hle, htwo]
  · -- The greatest remainder is one less than the greatest divisor.
    have hnext : InRange .nat (n + 1) (2 ^ n * 2 - 2) := ⟨by omega, fun h => by have := hgreatest.2 h; omega⟩
    have hz := (h _ _ _ hnext hgreatest (Number.exactResult_mod (by omega))).2 hv
    rw [Int.emod_eq_of_lt (by omega) (by omega)] at hz
    have hle := hpow n (by simp only [resultBits] at hlt; omega)
    omega

/-- The least integers need all the bits of a result. -/
theorem HoldsResults.resultBits_le_int (h : HoldsResults op .int w v)
    (hop : op = .add ∨ op = .sub ∨ op = .mul ∨ op = .mod) (hw : 2 ≤ w) (hv : v ≠ 0) : resultBits op w ≤ v := by
  obtain ⟨n, rfl⟩ : ∃ n, w = n + 1 := ⟨w - 1, by omega⟩
  obtain ⟨m, rfl⟩ : ∃ m, v = m + 1 := ⟨v - 1, by omega⟩
  have hleast := InRange.least_int (n + 1)
  have hgreatest := InRange.greatest_int (n + 1)
  have htwo : (2 : Int) ≤ 2 ^ n := le_self_pow₀ (by decide) (by omega)
  have hpow : ∀ k, m ≤ k → (2 : Int) ^ m ≤ 2 ^ k := fun k hk => pow_le_pow_right₀ (by decide) hk
  rw [Nat.add_sub_cancel] at hleast hgreatest
  by_contra hlt
  rcases hop with rfl | rfl | rfl | rfl
  · -- Twice the least integer is the least one of one bit more.
    have hz := InRange.inSigned_succ_iff.mp (h _ _ _ hleast hleast (Int.cast_add _ _) hv)
    have hle := hpow n (by simp only [resultBits] at hlt; omega)
    omega
  · -- The least integer less the greatest one comes within one of that.
    have hz := InRange.inSigned_succ_iff.mp (h _ _ _ hleast hgreatest (Int.cast_sub _ _) hv)
    have hle := hpow n (by simp only [resultBits] at hlt; omega)
    omega
  · -- The square of the least integer is a power of two, which the positive numbers just lack without the last bit.
    have hz := InRange.inSigned_succ_iff.mp (h _ _ _ hleast hleast (Int.cast_mul _ _) hv)
    have hle := hpow (n + n) (by simp only [resultBits] at hlt; omega)
    rw [pow_add] at hle
    nlinarith only [hz, hle]
  · -- The divisor of the greatest magnitude is the least one, and leaves the greatest integer as it is.
    have hz := InRange.inSigned_succ_iff.mp (h _ _ _ hgreatest hleast (Number.exactResult_mod (by omega)) hv)
    rw [Int.emod_neg, Int.emod_eq_of_lt (by omega) (by omega)] at hz
    have hle := hpow (n - 1) (by simp only [resultBits] at hlt; omega)
    have hhalf : (2 : Int) ^ n = 2 ^ (n - 1) * 2 := by rw [← pow_succ, Nat.sub_add_cancel (by omega)]
    omega

/-- The integers of so many bits hold all results exactly if the bits of the results are among them. -/
theorem holdsResults_iff (hop : op = .add ∨ op = .sub ∨ op = .mul ∨ op = .mod)
    (hk : kind.isIntegral = true) (hsub : op = .sub → kind = .int) (hv : 2 ≤ v) :
    HoldsResults op kind w v ↔ w ≠ 0 ∧ resultBits op w ≤ v := by
  constructor
  · intro h
    have hw := h.width_ne_zero hop hk (by omega)
    refine ⟨hw, ?_⟩
    rcases Nat.lt_or_ge w 2 with hone | htwo
    · -- One bit is too few for extreme values, and two are enough for its results.
      obtain rfl : w = 1 := by omega
      have hle : resultBits op 1 ≤ 2 := by cases op <;> decide
      exact hle.trans hv
    · rcases NumericKind.isIntegral_iff.mp hk with rfl | rfl
      · exact h.resultBits_le_nat hop (fun h => nomatch hsub h) htwo (by omega)
      · exact h.resultBits_le_int hop htwo (by omega)
  · rintro ⟨hw, hle⟩ x y z hx hy hz
    have hbits : resultBits op w ≠ 0 := by
      have := le_resultBits op w
      omega
    exact (inRange_resultBits (Number.integralOp_of_exactResult hop hz) hsub hw hx hy).mono hbits hle

namespace NumericType

variable {a b s t : NumericType} {grow : Nat → Option Nat}

/-! ### The common width -/

/-- The bits in which a category holds the integers of both types, or 0 if one of them is unbounded. -/
def commonBits (a b : NumericType) (kind : NumericKind) : Nat :=
  if a.width = 0 ∨ b.width = 0 then 0 else max (a.kind.bitsIn kind a.width) (b.kind.bitsIn kind b.width)

theorem commonBits_ne_zero_iff : commonBits a b kind ≠ 0 ↔ a.width ≠ 0 ∧ b.width ≠ 0 := by
  have hbits := a.kind.le_bitsIn kind a.width
  unfold commonBits
  split <;> omega

/-- Which fixed types have room for the common width once it has grown, if it grows by whole widths: no type is as
wide as a width beyond the limit. -/
theorem hasRoom_iff_resultBits (hs : s ∈ fixed kind) (hk : kind.isIntegral = true) (ha : a.kind.level ≤ kind.level)
    (hb : b.kind.level ≤ kind.level)
    (hgrow : ∀ w v, w < widthLimit → (grow w = some v ↔ resultBits op w < widthLimit ∧ v = resultBits op w)) :
    HasRoom a b kind grow s ↔ commonBits a b kind ≠ 0 ∧ resultBits op (commonBits a b kind) ≤ s.width := by
  have hreal : kind ≠ .real := by
    rintro rfl
    exact nomatch hk
  rw [commonBits_ne_zero_iff]
  constructor
  · rintro ⟨ha0, hb0, wa, wb, w, hwa, hwb, hw, hle⟩
    obtain ⟨halt, rfl⟩ := (lift?_eq_some_iff ha0 ha hreal).mp hwa
    obtain ⟨hblt, rfl⟩ := (lift?_eq_some_iff hb0 hb hreal).mp hwb
    obtain ⟨-, rfl⟩ := (hgrow _ _ (max_lt halt hblt)).mp hw
    rw [commonBits, if_neg (not_or.mpr ⟨ha0, hb0⟩)]
    exact ⟨⟨ha0, hb0⟩, hle⟩
  · rintro ⟨⟨ha0, hb0⟩, hle⟩
    rw [commonBits, if_neg (not_or.mpr ⟨ha0, hb0⟩)] at hle
    -- The result is within the limit, and so are the widths that it grew from.
    have hlimit := hle.trans_lt s.width_lt
    have hmax := (le_resultBits _ _).trans_lt hlimit
    obtain ⟨halt, hblt⟩ := max_lt_iff.mp hmax
    exact ⟨ha0, hb0, _, _, _, (lift?_eq_some_iff ha0 ha hreal).mpr ⟨halt, rfl⟩,
      (lift?_eq_some_iff hb0 hb hreal).mpr ⟨hblt, rfl⟩, (hgrow _ _ hmax).mpr ⟨hlimit, rfl⟩, hle⟩

/-- The type of a result is one of the grown common width. -/
theorem arithmeticResult?_eq_widen (hop : op = .add ∨ op = .sub ∨ op = .mul ∨ op = .mod)
    (hk : (a.kind.join b.kind).isIntegral = true) :
    ∃ grow, arithmeticResult? op a b = some (widen a b (resultKind op (a.kind.join b.kind)) grow) ∧
      ∀ w v, w < widthLimit → (grow w = some v ↔ resultBits op w < widthLimit ∧ v = resultBits op w) := by
  rcases hop with rfl | rfl | rfl | rfl
  · refine ⟨_, rfl, fun w v _ => ?_⟩
    rw [sumWidth?, if_pos hk]
    exact checkedWidth?_eq_some_iff
  · refine ⟨_, rfl, fun w v _ => ?_⟩
    rw [sumWidth?, if_pos ((isIntegral_differenceKind _).trans hk)]
    exact checkedWidth?_eq_some_iff
  · refine ⟨_, rfl, fun w v _ => ?_⟩
    rw [productWidth?, if_pos hk]
    exact checkedWidth?_eq_some_iff
  · -- The common width of a remainder does not grow, and it is within the limit already.
    refine ⟨some, ?_, fun w v hw => ?_⟩
    · rw [arithmeticResult?, if_pos hk]
      rfl
    · rw [Option.some_inj]
      exact ⟨fun h => ⟨h ▸ hw, h.symm⟩, fun h => h.2.symm⟩

end NumericType

/-- The type of a sum, a difference, a product or a remainder of integral operands holds the exact results of all
their values, whatever the widths. It is the narrowest type of its category that holds the results of all operands
of their common width. -/
theorem integral_results_never_overflow (op : BinaryOp) (a b : NumericType)
    (hop : op = .add ∨ op = .sub ∨ op = .mul ∨ op = .mod) (ha : a.kind.isIntegral = true)
    (hb : b.kind.isIntegral = true) :
    ∃ t, arithmeticResult? op a b = some t ∧
      (∀ x y : Int, a.Holds x → b.Holds y → (op = .mod → y ≠ 0) →
        ∃ z : Int, (∀ q : Rat, ExactResult op x y q ↔ q = z) ∧ t.Holds z) ∧
      IsNarrowest (resultKind op (a.kind.join b.kind))
        (fun s => HoldsResults op s.kind (commonBits a b s.kind) s.width) t := by
  have hjoin := isIntegral_join.mpr ⟨ha, hb⟩
  have hkind := isIntegral_resultKind hop hjoin
  have hlevel := level_le_resultKind op (a.kind.join b.kind)
  obtain ⟨grow, ht, hgrow⟩ := arithmeticResult?_eq_widen hop hjoin
  refine ⟨_, ht, fun x y hx hy hy0 => ?_, ?_⟩
  · obtain ⟨z, hz⟩ := Number.exists_integralOp hop hy0
    exact ⟨z, Number.exactResult_iff hz, holds_of_arithmeticResult hx hy ht hz⟩
  · -- Room for the grown width and room for all results are the same bits.
    refine (isNarrowest_widen a b _ grow).congr fun s hs => ?_
    have hsk := (of_mem_fixed hs).1
    have hsub : op = .sub → resultKind op (a.kind.join b.kind) = .int := by
      rintro rfl
      exact differenceKind_of_isIntegral hjoin
    have hwidth : 2 ≤ s.width := by
      obtain ⟨w, hw⟩ := exists_width_of_mem_fixed (hsk ▸ hkind) (hsk.symm ▸ hs)
      cases w <;> rw [hw] <;> decide
    rw [hsk, hasRoom_iff_resultBits hs hkind ((level_le_join_left _ _).trans hlevel)
      ((level_le_join_right _ _).trans hlevel) hgrow, holdsResults_iff hop hkind hsub hwidth]

/-- Naturals of 15 bits are carried over to the integers of 16 bits, whose products take 32 bits: the integers of 32
bits hold the extreme one, and those of 16 bits not all of them. The integers of 2 ^ 31 bits would need a width beyond
the limit. -/
theorem integral_results_never_overflow_extreme :
    (BinaryOp.mul = .add ∨ BinaryOp.mul = .sub ∨ BinaryOp.mul = .mul ∨ BinaryOp.mul = .mod) ∧
      (NumericType.mk .int 16).kind.isIntegral = true ∧ (NumericType.mk .nat 15).kind.isIntegral = true ∧
      arithmeticResult? .mul ⟨.int, 16, by decide⟩ ⟨.nat, 15, by decide⟩ = some ⟨.int, 32, by decide⟩ ∧
      (NumericType.mk .int 32).Holds (-32768 * 32767) ∧ ¬HoldsResults .mul .int 16 16 ∧
      arithmeticResult? .mul ⟨.int, 2147483648, by decide⟩ ⟨.int, 2147483648, by decide⟩ =
        some (unbounded .int) := by
  have hop : BinaryOp.mul = .add ∨ BinaryOp.mul = .sub ∨ BinaryOp.mul = .mul ∨ BinaryOp.mul = .mod := by decide
  obtain ⟨t, ht, hholds, hnarrowest⟩ :=
    integral_results_never_overflow .mul ⟨.int, 16, by decide⟩ ⟨.nat, 15, by decide⟩ hop rfl rfl
  have hresult : arithmeticResult? .mul ⟨.int, 16, by decide⟩ ⟨.nat, 15, by decide⟩ =
      some ⟨.int, 32, by decide⟩ := by decide
  cases hresult.symm.trans ht
  refine ⟨hop, rfl, rfl, hresult, ?_, fun h => ?_, by decide⟩
  · have hx : (NumericType.mk .int 16).Holds (-32768) := fun _ => by decide
    have hy : (NumericType.mk .nat 15).Holds 32767 := ⟨by decide, fun _ => by decide⟩
    obtain ⟨z, hz, hholds⟩ := hholds _ _ hx hy (fun h => nomatch h)
    rwa [← Int.cast_injective ((hz _).mp (Int.cast_mul (-32768) 32767))] at hholds
  · have hmem : (NumericType.mk .int 16) ∈ fixed .int := by decide
    exact absurd (hnarrowest.width_le hmem h) (by decide)

end NumericTower
