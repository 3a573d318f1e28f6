import Mathlib
import NumericTower.Proofs.NumericType.Narrowest

/-!
# The least common type

The promotion of two numeric types has the more general of their categories, both fit into it, and it fits
into every other representable type of that category into which both fit. The widths of the operands are
arbitrary: where they are carried over or rounded up beyond what a representation has, no fixed type has room
for both, and the unbounded type is the only one left. The signed type of a natural is found in the same way.

## Key results
- `NumericType.fits_widen`: the operands of a result fit into its type
- `NumericType.hasRoom_iff_fits`: a fixed type has room for both operands exactly if both fit
- `IsNarrowest.isLeastType`: the narrowest type fits into all others
- `promotion_is_least_common_type`
-/

namespace NumericTower

open NumericType

theorem NumericKind.join_comm (k l : NumericKind) : k.join l = l.join k := by
  cases k <;> cases l <;> rfl

namespace NumericType

variable {a b s : NumericType} {kind : NumericKind} {grow : Nat → Option Nat}

/-! ### Operands and results -/

theorem widen_comm : widen a b kind grow = widen b a kind grow := by
  rw [widen, widen, Bool.or_comm]
  congr 1
  cases a.lift? kind <;> cases b.lift? kind <;> simp [Nat.max_comm]

/-- An operand fits into the type of a result of a category that is no more specific, if the result is not
narrower than the operands. -/
theorem fits_widen_left (hkind : a.kind.level ≤ kind.level)
    (hgrow : ∀ w w', grow w = some w' → w ≤ w') : a.fits (widen a b kind grow) = true := by
  have hnarrowest := isNarrowest_widen a b kind grow
  rcases hnarrowest.width_or with hw | ⟨hmem, ha, -, wa, wb, w, hwa, -, hw, hle⟩
  · rwa [fits_iff_of_unbounded hw, hnarrowest.kind_eq]
  · -- The type has room for the common width, and no operand needs more than that.
    rw [fits_iff_lift? (of_mem_fixed hmem).2, hnarrowest.kind_eq]
    exact ⟨ha, wa, hwa, (Nat.le_max_left wa wb).trans ((hgrow _ _ hw).trans hle)⟩

/-- Both operands fit into the type of a result of a category that is no more specific than theirs, if the
result is not narrower. -/
theorem fits_widen (hkind : (a.kind.join b.kind).level ≤ kind.level) (hgrow : ∀ w w', grow w = some w' → w ≤ w') :
    a.fits (widen a b kind grow) = true ∧ b.fits (widen a b kind grow) = true :=
  ⟨fits_widen_left ((level_le_join_left _ _).trans hkind) hgrow,
    widen_comm (a := a) ▸ fits_widen_left ((level_le_join_right _ _).trans hkind) hgrow⟩

theorem promote_comm (a b : NumericType) : a.promote b = b.promote a := by
  rw [promote, promote, widen_comm, NumericKind.join_comm]

theorem fits_promote (a b : NumericType) : a.fits (a.promote b) = true ∧ b.fits (a.promote b) = true :=
  fits_widen le_rfl fun _ _ h => (Option.some.inj h).le

/-! ### The narrowest type that both fit into -/

/-- A fixed type has room for the common width exactly if both types fit. -/
theorem hasRoom_iff_fits (hs : s ∈ fixed kind) :
    HasRoom a b kind some s ↔ a.fits s = true ∧ b.fits s = true := by
  obtain ⟨hk, hs0⟩ := of_mem_fixed hs
  rw [fits_iff_lift? hs0, fits_iff_lift? hs0, hk]
  constructor
  · rintro ⟨ha, hb, wa, wb, w, hwa, hwb, hmax, hle⟩
    cases hmax
    exact ⟨⟨ha, wa, hwa, (Nat.le_max_left wa wb).trans hle⟩, hb, wb, hwb, (Nat.le_max_right wa wb).trans hle⟩
  · rintro ⟨⟨ha, wa, hwa, hlea⟩, hb, wb, hwb, hleb⟩
    exact ⟨ha, hb, wa, wb, max wa wb, hwa, hwb, rfl, max_le hlea hleb⟩

theorem isNarrowest_widen_some (a b : NumericType) (kind : NumericKind) :
    IsNarrowest kind (fun s => a.fits s = true ∧ b.fits s = true) (widen a b kind some) :=
  (isNarrowest_widen a b kind some).congr fun _ => hasRoom_iff_fits

/-- The signed type of a natural is where it meets itself among the integers. -/
theorem makeSigned_eq_widen (ha : a.kind = .nat) : a.makeSigned = widen a a .int some := by
  rw [makeSigned, if_neg (not_not.mpr ha), widen, Bool.or_self]
  cases a.lift? .int with
  | none => rfl
  | some w => simp only [Nat.max_self]

end NumericType

/-! ### The least type -/

/-- A representable type of a category that has a property and fits into all others of the category that have
it. -/
structure IsLeastType (kind : NumericKind) (P : NumericType → Prop) (t : NumericType) : Prop where
  kind_eq : t.kind = kind
  width_or : t.width = 0 ∨ t ∈ fixed kind
  holds : P t
  fits : ∀ u : NumericType, u.kind = kind → (u.width = 0 ∨ u ∈ fixed kind) → P u → t.fits u = true

/-- The narrowest type with a property that the unbounded type has is the least one. -/
theorem IsNarrowest.isLeastType {kind : NumericKind} {P : NumericType → Prop} {t : NumericType}
    (h : IsNarrowest kind P t) (hunbounded : P (unbounded kind)) : IsLeastType kind P t where
  kind_eq := h.kind_eq
  width_or := h.width_or.imp_right And.left
  holds := by
    rcases h.width_or with hw | ⟨-, hP⟩
    · rwa [show t = unbounded kind from NumericType.ext h.kind_eq hw]
    · exact hP
  fits u hk hu hP := by
    rw [fits_iff_of_kind_eq (h.kind_eq.trans hk.symm)]
    exact hu.imp_right fun hmem => ⟨h.width_ne_zero hmem hP, h.width_le hmem hP⟩

/-- The promotion of two numeric types does not depend on their order, and it is the least representable type of
the more general category into which both fit. The signed type of a natural is the least representable integer
type into which it fits. -/
theorem promotion_is_least_common_type (a b : NumericType) :
    a.promote b = b.promote a ∧
      IsLeastType (a.kind.join b.kind) (fun u => a.fits u = true ∧ b.fits u = true) (a.promote b) ∧
      (a.kind = .nat → IsLeastType .int (fun u => a.fits u = true) a.makeSigned) := by
  refine ⟨promote_comm a b, (isNarrowest_widen_some a b _).isLeastType ⟨?_, ?_⟩, fun ha => ?_⟩
  · exact (fits_iff_of_unbounded rfl).mpr (level_le_join_left _ _)
  · exact (fits_iff_of_unbounded rfl).mpr (level_le_join_right _ _)
  · rw [makeSigned_eq_widen ha]
    have hnarrowest := (isNarrowest_widen_some a a .int).congr fun _ _ => and_self_iff
    refine hnarrowest.isLeastType ((fits_iff_of_unbounded rfl).mpr ?_)
    rw [ha]
    decide

/-- Naturals of 17 bits and ratios of 33 bits, which have no representation, meet in the ratios of 64 bits; the
integers of 32 bits are the signed type of those naturals. -/
theorem promotion_is_least_common_type_odd_widths :
    (NumericType.mk .nat 17).promote ⟨.ratio, 33, by decide⟩ = ⟨.ratio, 64, by decide⟩ ∧
      IsLeastType .ratio (fun u => (NumericType.mk .nat 17).fits u = true ∧ (NumericType.mk .ratio 33).fits u = true)
        ⟨.ratio, 64, by decide⟩ ∧
      (NumericType.mk .nat 17).kind = .nat ∧
      IsLeastType .int (fun u => (NumericType.mk .nat 17).fits u = true) ⟨.int, 32, by decide⟩ := by
  obtain ⟨-, hleast, hsigned⟩ := promotion_is_least_common_type ⟨.nat, 17, by decide⟩ ⟨.ratio, 33, by decide⟩
  have hpromote : (NumericType.mk .nat 17).promote ⟨.ratio, 33, by decide⟩ = ⟨.ratio, 64, by decide⟩ := by decide
  have hmakeSigned : (NumericType.mk .nat 17).makeSigned = ⟨.int, 32, by decide⟩ := by decide
  exact ⟨hpromote, hpromote ▸ hleast, rfl, hmakeSigned ▸ hsigned rfl⟩

end NumericTower
