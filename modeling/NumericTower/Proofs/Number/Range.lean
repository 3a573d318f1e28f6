import Mathlib
import NumericTower.Number.Arithmetic
import NumericTower.Proofs.NumericType.Fits

/-!
# Ranges of the integral types

Which integers a natural or an integer type holds, and that the static type of a sum, a difference, a
product or a remainder holds every exact result.

Main statement: `NumericType.holds_of_arithmeticResult`.
-/

namespace NumericTower

theorem NumericKind.isIntegral_iff {k : NumericKind} : k.isIntegral = true ↔ k = .nat ∨ k = .int := by
  cases k <;> decide

/-- The integers of a natural or integer type of a width. Width 0 is the unbounded type. -/
def InRange (kind : NumericKind) (width : Nat) (z : Int) : Prop :=
  match kind with
  | .nat => 0 ≤ z ∧ (width ≠ 0 → z < 2 ^ width)
  | .int => width ≠ 0 → Integer.InSigned width z
  | .ratio | .real => False

/-- A divisor of a number in range with the same sign is in range. -/
theorem Integer.InSigned.of_mul {bits : Nat} {c z : Int} (hc : 0 < c) (h : InSigned bits (c * z)) :
    InSigned bits z := by
  have hpos : (0 : Int) < 2 ^ (bits - 1) := by positivity
  unfold InSigned at h ⊢
  rcases le_or_gt 0 z with hz | hz
  · have hle : z ≤ c * z := le_mul_of_one_le_left hz hc
    omega
  · have hle : c * z ≤ z := mul_le_of_one_le_left hz.le hc
    omega

namespace InRange

variable {kind : NumericKind} {w w' : Nat} {x y z : Int}

/-- Only integral types have integers in their range. -/
theorem isIntegral (h : InRange kind w z) : kind.isIntegral = true := by
  cases kind with
  | nat | int => rfl
  | ratio | real => exact False.elim h

/-- A signed range of positive width is cut at a power of two on both sides. -/
theorem inSigned_succ_iff {n : Nat} :
    Integer.InSigned (n + 1) z ↔ -(2 ^ n) ≤ z ∧ z < 2 ^ n := Iff.rfl

theorem greatest_nat (w : Nat) : InRange .nat w (2 ^ w - 1) := by
  have hpos : (1 : Int) ≤ 2 ^ w := one_le_pow₀ (by decide)
  exact ⟨by omega, fun _ => by omega⟩

theorem greatest_int (w : Nat) : InRange .int w (2 ^ (w - 1) - 1) := by
  have hpos : (1 : Int) ≤ 2 ^ (w - 1) := one_le_pow₀ (by decide)
  exact fun _ => ⟨by omega, by omega⟩

theorem least_int (w : Nat) : InRange .int w (-2 ^ (w - 1)) := by
  have hpos : (1 : Int) ≤ 2 ^ (w - 1) := one_le_pow₀ (by decide)
  exact fun _ => ⟨le_rfl, by omega⟩

/-- The power of two that is out of reach. -/
theorem not_two_pow (hw : w ≠ 0) : ¬InRange kind w (2 ^ w) := by
  intro h
  rcases NumericKind.isIntegral_iff.mp h.isIntegral with rfl | rfl
  · exact absurd (h.2 hw) (lt_irrefl _)
  · have hle : (2 : Int) ^ (w - 1) ≤ 2 ^ w := pow_le_pow_right₀ (by decide) (Nat.sub_le _ _)
    exact absurd (h hw).2 (not_lt.mpr hle)

/-- The unbounded types hold all natural numbers. -/
theorem of_nonneg (hk : kind.isIntegral = true) (hz : 0 ≤ z) : InRange kind 0 z := by
  rcases NumericKind.isIntegral_iff.mp hk with rfl | rfl
  · exact ⟨hz, fun h => absurd rfl h⟩
  · exact fun h => absurd rfl h

/-- The unbounded type holds what any type of its category holds. -/
theorem unbounded (h : InRange kind w z) : InRange kind 0 z := by
  cases kind with
  | nat => exact ⟨h.1, fun h0 => absurd rfl h0⟩
  | int => exact fun h0 => absurd rfl h0
  | ratio | real => exact h

/-- A result of two values of an unbounded type is a value of it if it is not negative when both
operands are not. -/
theorem unbounded_of_nonneg (hx : InRange kind 0 x) (hy : InRange kind 0 y)
    (h : 0 ≤ x → 0 ≤ y → 0 ≤ z) : InRange kind 0 z := by
  cases kind with
  | nat => exact ⟨h hx.1 hy.1, fun h0 => absurd rfl h0⟩
  | int => exact fun h0 => absurd rfl h0
  | ratio | real => exact hx

/-- A wider type holds more. -/
theorem mono (h : InRange kind w z) (hw : w ≠ 0) (hle : w ≤ w') : InRange kind w' z := by
  cases kind with
  | nat =>
    have hpow : (2 : Int) ^ w ≤ 2 ^ w' := pow_le_pow_right₀ (by decide) hle
    have hlt := h.2 hw
    exact ⟨h.1, fun _ => by omega⟩
  | int =>
    -- Both bounds move apart with the power.
    have hpow : (2 : Int) ^ (w - 1) ≤ 2 ^ (w' - 1) := pow_le_pow_right₀ (by decide) (by omega)
    have hz := h hw
    unfold Integer.InSigned at hz
    exact fun _ => ⟨by omega, by omega⟩
  | ratio | real => exact h

/-- One more bit makes room for the sign of a natural. -/
theorem nat_to_int (h : InRange .nat w z) (hw : w ≠ 0) : InRange .int (w + 1) z := by
  intro _
  rw [inSigned_succ_iff]
  have hpos : (0 : Int) < 2 ^ w := Int.pow_pos (by decide)
  have hz := h.1
  exact ⟨by omega, h.2 hw⟩

/-- One more bit makes room for a sum. -/
theorem add (hx : InRange kind w x) (hy : InRange kind w y) (hw : w ≠ 0) :
    InRange kind (w + 1) (x + y) := by
  cases kind with
  | nat =>
    have h1 := hx.2 hw
    have h2 := hy.2 hw
    have h3 := hx.1
    have h4 := hy.1
    refine ⟨by omega, fun _ => ?_⟩
    -- The sum is below twice the bound of the operands.
    rw [Int.pow_succ]
    omega
  | int =>
    obtain ⟨n, rfl⟩ : ∃ n, w = n + 1 := ⟨w - 1, by omega⟩
    have h1 := inSigned_succ_iff.1 (hx hw)
    have h2 := inSigned_succ_iff.1 (hy hw)
    intro _
    rw [inSigned_succ_iff, Int.pow_succ]
    omega
  | ratio | real => exact hx

/-- One more bit makes room for a difference of signed numbers. -/
theorem sub (hx : InRange .int w x) (hy : InRange .int w y) (hw : w ≠ 0) :
    InRange .int (w + 1) (x - y) := by
  obtain ⟨n, rfl⟩ : ∃ n, w = n + 1 := ⟨w - 1, by omega⟩
  have h1 := inSigned_succ_iff.1 (hx hw)
  have h2 := inSigned_succ_iff.1 (hy hw)
  intro _
  rw [inSigned_succ_iff, Int.pow_succ]
  omega

/-- The magnitude of a signed number is at most half of its range. -/
theorem abs_le_two_pow {n : Nat} (h : InRange .int (n + 1) z) : |z| ≤ 2 ^ n := by
  have hz := inSigned_succ_iff.1 (h (by omega))
  rw [abs_le]
  omega

/-- Twice the bits make room for a product. -/
theorem mul (hx : InRange kind w x) (hy : InRange kind w y) (hw : w ≠ 0) :
    InRange kind (w * 2) (x * y) := by
  cases kind with
  | nat =>
    refine ⟨Int.mul_nonneg hx.1 hy.1, fun _ => ?_⟩
    calc x * y < 2 ^ w * 2 ^ w := mul_lt_mul'' (hx.2 hw) (hy.2 hw) hx.1 hy.1
      _ = 2 ^ (w * 2) := by rw [Nat.mul_two, Int.pow_add]
  | int =>
    obtain ⟨n, rfl⟩ : ∃ n, w = n + 1 := ⟨w - 1, by omega⟩
    -- The product of the least value with itself is positive and just misses twice the bits less one.
    have hle : |x * y| ≤ 2 ^ n * 2 ^ n := by
      rw [abs_mul]
      exact mul_le_mul (abs_le_two_pow hx) (abs_le_two_pow hy) (abs_nonneg y)
        (Int.le_of_lt (Int.pow_pos (by decide)))
    have hpos : (0 : Int) < 2 ^ n * 2 ^ n :=
      Int.mul_pos (Int.pow_pos (by decide)) (Int.pow_pos (by decide))
    intro _
    rw [show (n + 1) * 2 = n + n + 1 + 1 by omega, inSigned_succ_iff, Int.pow_succ, Int.pow_add]
    rw [abs_le] at hle
    omega
  | ratio | real => exact hx

/-- What is below the magnitude of a number takes no more bits. -/
theorem of_lt_abs (hy : InRange kind w y) (hw : w ≠ 0) (h0 : 0 ≤ z) (hlt : z < |y|) : InRange kind w z := by
  cases kind with
  | nat =>
    -- A natural number is its own magnitude.
    rw [abs_of_nonneg hy.1] at hlt
    have := hy.2 hw
    exact ⟨h0, fun _ => by omega⟩
  | int =>
    obtain ⟨n, rfl⟩ : ∃ n, w = n + 1 := ⟨w - 1, by omega⟩
    have habs := abs_le_two_pow hy
    intro _
    rw [inSigned_succ_iff]
    omega
  | ratio | real => exact hy

/-- A remainder is no greater than the divisor. -/
theorem emod (hy : InRange kind w y) (hw : w ≠ 0) (h0 : y ≠ 0) : InRange kind w (x % y) :=
  hy.of_lt_abs hw (Int.emod_nonneg x h0) (Int.emod_lt_abs x h0)

end InRange

namespace NumericType

variable {a b t : NumericType} {kind : NumericKind} {grow : Nat → Option Nat} {x y z : Int}

/-- Whether an integer is a value of a natural or integer type. -/
def Holds (t : NumericType) (z : Int) : Prop := InRange t.kind t.width z

/-! ## Widths of a more general category -/

@[simp] theorem kind_unbounded : (unbounded kind).kind = kind := rfl

@[simp] theorem width_unbounded : (unbounded kind).width = 0 := rfl

theorem ext {s t : NumericType} (hk : s.kind = t.kind) (hw : s.width = t.width) : s = t := by
  cases s
  cases t
  cases hk
  cases hw
  rfl

theorem isUnbounded_iff : t.isUnbounded = true ↔ t.width = 0 := by
  simp [isUnbounded]

theorem eq_unbounded (h : t.isUnbounded = true) : t = unbounded t.kind :=
  ext rfl (isUnbounded_iff.mp h)

/-- The fixed types of a category belong to it and are not the unbounded one. -/
theorem of_mem_fixed (h : t ∈ fixed kind) : t.kind = kind ∧ t.width ≠ 0 := by
  cases kind <;>
    simp only [fixed, IntegralWidth.all, RatioWidth.all, List.map_cons, List.map_nil,
      List.mem_cons, List.not_mem_nil, or_false] at h <;>
    rcases h with rfl | rfl | rfl <;> exact ⟨rfl, by decide⟩

/-- The narrowest fixed type of at least a width is one of the fixed types and at least as wide. -/
theorem of_fixedAtLeast? {w : Nat} (h : fixedAtLeast? kind w = some t) :
    t ∈ fixed kind ∧ w ≤ t.width :=
  ⟨List.mem_of_find?_eq_some h, by simpa using List.find?_some h⟩

/-- The type of a result is the unbounded one, or a fixed one for the grown common width. -/
theorem widen_cases (a b : NumericType) (kind : NumericKind) (grow : Nat → Option Nat) :
    widen a b kind grow = unbounded kind ∨
    ∃ wa wb w t, a.width ≠ 0 ∧ b.width ≠ 0 ∧ a.lift? kind = some wa ∧ b.lift? kind = some wb ∧
      grow (max wa wb) = some w ∧ fixedAtLeast? kind w = some t ∧ widen a b kind grow = t := by
  unfold widen
  split
  · exact .inl rfl
  · rename_i hbounded
    simp only [Bool.or_eq_true, isUnbounded_iff, not_or] at hbounded
    split
    · rename_i wa wb hwa hwb
      cases hgrow : grow (max wa wb) with
      | none => exact .inl rfl
      | some w =>
        cases hfixed : fixedAtLeast? kind w with
        | none => exact .inl (by simp [hfixed])
        | some t =>
          exact .inr ⟨wa, wb, w, t, hbounded.1, hbounded.2, hwa, hwb, hgrow, hfixed,
            by simp [hfixed]⟩
    · exact .inl rfl

/-- The type of a result is in the category that was asked for. -/
@[simp] theorem kind_widen : (widen a b kind grow).kind = kind := by
  rcases widen_cases a b kind grow with h | ⟨_, _, _, t, _, _, _, _, _, hfixed, h⟩
  · rw [h, kind_unbounded]
  · rw [h, (of_mem_fixed (of_fixedAtLeast? hfixed).1).1]

/-- The type of a result is unbounded or has a representation of fixed size. -/
theorem width_widen : (widen a b kind grow).width = 0 ∨ widen a b kind grow ∈ fixed kind := by
  rcases widen_cases a b kind grow with h | ⟨_, _, _, t, _, _, _, _, _, hfixed, h⟩
  · exact .inl (by rw [h, width_unbounded])
  · exact .inr (by rw [h]; exact (of_fixedAtLeast? hfixed).1)

/-- A value of a fixed integral type is in the range of the width that another integral category
needs. -/
theorem Holds.lift {w : Nat} (h : t.Holds z) (ht : t.width ≠ 0) (hk : kind.isIntegral = true)
    (hw : t.lift? kind = some w) : w ≠ 0 ∧ InRange kind w z := by
  obtain ⟨tk, tw, hlt⟩ := t
  have hbounded : (NumericType.mk tk tw hlt).isUnbounded = false := by
    simpa [isUnbounded] using ht
  simp only [lift?, hbounded] at hw
  -- Only naturals in naturals, naturals in integers and integers in integers are left.
  cases tk <;> cases kind <;>
    simp [NumericKind.level, NumericKind.isIntegral, NumericKind.general?, widthAfter?, nextWidth?,
      checkedWidth?] at hw hk
  · exact hw ▸ ⟨ht, h⟩
  · exact hw.2 ▸ ⟨by omega, InRange.nat_to_int h ht⟩
  · exact hw ▸ ⟨ht, h⟩

/-- A value of an integral type is a value of the unbounded type of a category that is no more
specific. -/
theorem Holds.unbounded (h : t.Holds z) (hk : kind.isIntegral = true)
    (hle : t.kind.level ≤ kind.level) : InRange kind 0 z := by
  have h0 : InRange t.kind 0 z := InRange.unbounded h
  cases ht : t.kind <;> rw [ht] at h0 hle <;> cases kind <;>
    simp [NumericKind.level, NumericKind.isIntegral] at hle hk
  · exact h0
  · exact fun hne => absurd rfl hne
  · exact h0

/-- If growing the width makes room for a result of integral operands, the widened type holds the
result. -/
theorem holds_widen (hx : a.Holds x) (hy : b.Holds y) (hk : kind.isIntegral = true)
    (hunbounded : InRange kind 0 z)
    (hgrow : ∀ w w', w ≠ 0 → InRange kind w x → InRange kind w y → grow w = some w' →
      w' ≠ 0 ∧ InRange kind w' z) :
    (widen a b kind grow).Holds z := by
  rcases widen_cases a b kind grow with h | ⟨wa, wb, w, t, ha, hb, hwa, hwb, hw, hfixed, h⟩
  · rw [h]
    exact hunbounded
  · -- Both operands are in the range of the common width before it grows.
    obtain ⟨ha0, hxa⟩ := hx.lift ha hk hwa
    obtain ⟨hb0, hyb⟩ := hy.lift hb hk hwb
    obtain ⟨hw0, hz⟩ := hgrow _ _ (by omega) (hxa.mono ha0 (Nat.le_max_left wa wb))
      (hyb.mono hb0 (Nat.le_max_right wa wb)) hw
    obtain ⟨hmem, hle⟩ := of_fixedAtLeast? hfixed
    rw [h]
    unfold Holds
    rw [(of_mem_fixed hmem).1]
    exact hz.mono hw0 hle

/-! ## Integral results -/

/-- The integral operators that have a result, and the result. -/
theorem integralOp_eq_ok_iff {op : BinaryOp} :
    Number.integralOp op x y = .ok z ↔
      op = .add ∧ z = x + y ∨ op = .sub ∧ z = x - y ∨ op = .mul ∧ z = x * y ∨
        op = .mod ∧ y ≠ 0 ∧ z = x % y := by
  cases op <;> simp [Number.integralOp, Integer.remainder?, eq_comm]
  by_cases hy : y = 0 <;> simp [hy, eq_comm]

theorem level_le_join_left (k l : NumericKind) : k.level ≤ (k.join l).level := by
  cases k <;> cases l <;> decide

theorem level_le_join_right (k l : NumericKind) : l.level ≤ (k.join l).level := by
  cases k <;> cases l <;> decide

theorem differenceKind_of_isIntegral (h : kind.isIntegral = true) : differenceKind kind = .int := by
  cases kind with
  | nat | int => rfl
  | ratio | real => exact absurd h (by decide)

/-- The static type of a sum, a difference, a product or a remainder holds the exact result. -/
theorem holds_of_arithmeticResult {op : BinaryOp} (hx : a.Holds x) (hy : b.Holds y)
    (ht : arithmeticResult? op a b = some t) (hz : Number.integralOp op x y = .ok z) :
    t.Holds z := by
  -- Both operands are values of the category of the result, so only the width is in question.
  have hka : a.kind.isIntegral = true := hx.isIntegral
  have hkb : b.kind.isIntegral = true := hy.isIntegral
  have hjoin : (a.kind.join b.kind).isIntegral = true := by
    unfold NumericKind.join
    split <;> assumption
  have hx0 := hx.unbounded hjoin (level_le_join_left _ _)
  have hy0 := hy.unbounded hjoin (level_le_join_right _ _)
  rcases integralOp_eq_ok_iff.1 hz with ⟨rfl, rfl⟩ | ⟨rfl, rfl⟩ | ⟨rfl, rfl⟩ | ⟨rfl, hne, rfl⟩
  -- a sum
  · cases ht
    refine holds_widen hx hy hjoin (hx0.unbounded_of_nonneg hy0 Int.add_nonneg)
      fun w w' hw hxw hyw hgrow => ?_
    simp only [sumWidth?, hjoin, if_true] at hgrow
    rw [eq_of_checkedWidth? hgrow]
    exact ⟨by omega, hxw.add hyw hw⟩
  -- a difference, which is an integer even of naturals
  · cases ht
    rw [differenceKind_of_isIntegral hjoin]
    refine holds_widen hx hy rfl (fun h0 => absurd rfl h0) fun w w' hw hxw hyw hgrow => ?_
    rw [eq_of_checkedWidth? hgrow]
    exact ⟨by omega, hxw.sub hyw hw⟩
  -- a product
  · cases ht
    refine holds_widen hx hy hjoin (hx0.unbounded_of_nonneg hy0 Int.mul_nonneg)
      fun w w' hw hxw hyw hgrow => ?_
    simp only [productWidth?, hjoin, if_true] at hgrow
    rw [eq_of_checkedWidth? hgrow]
    exact ⟨by omega, hxw.mul hyw hw⟩
  -- a remainder, which needs no more than the divisor
  · simp only [arithmeticResult?, hjoin, if_true, Option.some.injEq] at ht
    rw [← ht]
    have hunbounded := hx0.unbounded_of_nonneg hy0 fun _ _ => Int.emod_nonneg x hne
    refine holds_widen hx hy hjoin hunbounded fun w w' hw _ hyw hgrow => ?_
    rw [← Option.some.inj hgrow]
    exact ⟨hw, hyw.emod hw hne⟩

end NumericType

end NumericTower
