import Mathlib
import NumericTower.Proofs.Number.Range

/-!
# Narrowest types

The type of a result is searched among the fixed types of a category, the narrowest one first, and is the
unbounded one if the search finds none. So it is the narrowest type with the property that is searched for.
For the type of a result of two operands the property is a width: both operands are carried over to the
category, the greater of the two widths grows, and a type has to be as wide.

## Key results
- `isNarrowest_fixedAtLeast?`: a number of bits is looked up among the widths
- `NumericType.isNarrowest_widen`: so is the grown common width of two operands
- `NumericType.fits_iff_lift?`: what fits into a bounded type, by the width that it needs there
- `NumericType.fits_iff_bitsIn`: fitting into a type of exact numbers, by the bits alone
-/

namespace NumericTower

open NumericType

/-- A type is the narrowest one of a category with a property: a fixed one, of which no narrower one has it, or
the unbounded one if no fixed one has it. -/
structure IsNarrowest (kind : NumericKind) (P : NumericType → Prop) (t : NumericType) : Prop where
  kind_eq : t.kind = kind
  least : (t ∈ fixed kind ∧ P t ∧ ∀ s ∈ fixed kind, P s → t.width ≤ s.width) ∨
    (t.width = 0 ∧ ∀ s ∈ fixed kind, ¬P s)

theorem IsNarrowest.congr {kind : NumericKind} {P Q : NumericType → Prop} {t : NumericType}
    (h : IsNarrowest kind P t) (hPQ : ∀ s ∈ fixed kind, (P s ↔ Q s)) : IsNarrowest kind Q t where
  kind_eq := h.kind_eq
  least := h.least.imp
    (fun ⟨ht, hP, hle⟩ => ⟨ht, (hPQ t ht).mp hP, fun s hs hQ => hle s hs ((hPQ s hs).mpr hQ)⟩)
    (fun ⟨hw, hnone⟩ => ⟨hw, fun s hs hQ => hnone s hs ((hPQ s hs).mpr hQ)⟩)

/-- The type has the property, unless it is unbounded. -/
theorem IsNarrowest.width_or {kind : NumericKind} {P : NumericType → Prop} {t : NumericType}
    (h : IsNarrowest kind P t) : t.width = 0 ∨ t ∈ fixed kind ∧ P t :=
  h.least.symm.imp And.left fun h => ⟨h.1, h.2.1⟩

/-- It is no wider than any fixed type with the property. -/
theorem IsNarrowest.width_le {kind : NumericKind} {P : NumericType → Prop} {s t : NumericType}
    (h : IsNarrowest kind P t) (hs : s ∈ fixed kind) (hP : P s) : t.width ≤ s.width := by
  rcases h.least with ⟨-, -, hle⟩ | ⟨-, hnone⟩
  · exact hle s hs hP
  · exact absurd hP (hnone s hs)

/-- Where a fixed type has the property, the narrowest one is not unbounded. -/
theorem IsNarrowest.width_ne_zero {kind : NumericKind} {P : NumericType → Prop} {s t : NumericType}
    (h : IsNarrowest kind P t) (hs : s ∈ fixed kind) (hP : P s) : t.width ≠ 0 := by
  rcases h.least with ⟨ht, -, -⟩ | ⟨-, hnone⟩
  · exact (of_mem_fixed ht).2
  · exact absurd hP (hnone s hs)

/-- An unbounded type is the narrowest one if no fixed type has the property. -/
theorem isNarrowest_unbounded {kind : NumericKind} {P : NumericType → Prop}
    (h : ∀ s ∈ fixed kind, ¬P s) : IsNarrowest kind P (unbounded kind) :=
  ⟨kind_unbounded, .inr ⟨width_unbounded, h⟩⟩

/-- The bits in which a category of exact numbers holds what `w` bits hold in a more specific one. -/
def NumericKind.bitsIn (k l : NumericKind) (w : Nat) : Nat :=
  match k, l with
  | .nat, .int => w + 1
  | .nat, .ratio => (w + 1) * 2
  | .int, .ratio => w * 2
  | _, _ => w

theorem NumericKind.le_bitsIn (k l : NumericKind) (w : Nat) : w ≤ k.bitsIn l w := by
  unfold bitsIn
  split <;> omega

theorem NumericType.pairwise_fixed (kind : NumericKind) :
    (fixed kind).Pairwise fun s t => s.width ≤ t.width := by
  cases kind <;> decide

/-- The widths are searched from the narrowest one on. -/
theorem isNarrowest_fixedAtLeast? (kind : NumericKind) (bits : Nat) :
    IsNarrowest kind (bits ≤ ·.width) ((fixedAtLeast? kind bits).getD (unbounded kind)) := by
  cases hfound : fixedAtLeast? kind bits with
  | none =>
    refine isNarrowest_unbounded fun s hs => ?_
    simpa using List.find?_eq_none.mp hfound s hs
  | some t =>
    obtain ⟨ht, before, after, hsplit, hbefore⟩ := List.find?_eq_some_iff_append.mp hfound
    have hmem : t ∈ fixed kind := hsplit ▸ List.mem_append_right before List.mem_cons_self
    have hsorted := pairwise_fixed kind
    rw [hsplit, List.pairwise_append, List.pairwise_cons] at hsorted
    refine ⟨(of_mem_fixed hmem).1, .inl ⟨hmem, of_decide_eq_true ht, fun s hs hle => ?_⟩⟩
    rw [hsplit, List.mem_append, List.mem_cons] at hs
    rcases hs with hs | rfl | hs
    · -- The types before it are too narrow.
      exact absurd hle (by simpa using hbefore s hs)
    · exact le_rfl
    · exact hsorted.2.1.1 s hs

namespace NumericType

variable {a b : NumericType} {kind : NumericKind} {grow : Nat → Option Nat} {w v : Nat}

/-! ### Bits -/

theorem isUnbounded_eq_false_iff {t : NumericType} : t.isUnbounded = false ↔ t.width ≠ 0 := by
  rw [← Bool.not_eq_true, isUnbounded_iff]

/-- A type needs its own width in its own category. -/
theorem lift?_self {t : NumericType} (ht : t.width ≠ 0) : t.lift? t.kind = some t.width := by
  rw [lift?_of_bounded (isUnbounded_eq_false_iff.mpr ht) le_rfl, Nat.sub_self]
  rfl

/-- Every type of a category that is no more general fits into the unbounded type. -/
theorem fits_iff_of_unbounded (hb : b.width = 0) : a.fits b = true ↔ a.kind.level ≤ b.kind.level := by
  rw [fits_iff, isUnbounded_iff]
  constructor
  · rintro (rfl | ⟨hle, -⟩)
    · exact le_rfl
    · exact hle
  · exact fun hle => .inr ⟨hle, .inl hb⟩

/-- A type fits into a bounded one exactly if it is bounded and needs no more bits there. -/
theorem fits_iff_lift? (hb : b.width ≠ 0) :
    a.fits b = true ↔ a.width ≠ 0 ∧ ∃ w, a.lift? b.kind = some w ∧ w ≤ b.width := by
  rw [fits_iff, isUnbounded_iff, isUnbounded_eq_false_iff, isUnbounded_eq_false_iff]
  constructor
  · rintro (rfl | ⟨hle, h | ⟨ha, -, w, hw, hwb⟩⟩)
    · exact ⟨hb, a.width, lift?_self hb, le_rfl⟩
    · exact absurd h hb
    · exact ⟨ha, w, (lift?_of_bounded (isUnbounded_eq_false_iff.mpr ha) hle).trans hw, hwb⟩
  · rintro ⟨ha, w, hw, hwb⟩
    have hle : a.kind.level ≤ b.kind.level := by
      by_contra hlt
      rw [lift?, if_pos (not_le.mp hlt)] at hw
      cases hw
    rw [lift?_of_bounded (isUnbounded_eq_false_iff.mpr ha) hle] at hw
    exact .inr ⟨hle, .inr ⟨ha, hb, w, hw, hwb⟩⟩

/-- Within a category the widths decide. -/
theorem fits_iff_of_kind_eq (hk : a.kind = b.kind) :
    a.fits b = true ↔ b.width = 0 ∨ a.width ≠ 0 ∧ a.width ≤ b.width := by
  by_cases hb : b.width = 0
  · rw [fits_iff_of_unbounded hb, hk]
    exact iff_of_true le_rfl (.inl hb)
  · rw [fits_iff_lift? hb, ← hk]
    constructor
    · rintro ⟨ha, w, hw, hwb⟩
      cases (lift?_self ha).symm.trans hw
      exact .inr ⟨ha, hwb⟩
    · rintro (h | ⟨ha, hab⟩)
      · exact absurd h hb
      · exact ⟨ha, a.width, lift?_self ha, hab⟩

theorem checkedWidth?_eq_some_iff : checkedWidth? w = some v ↔ w < widthLimit ∧ v = w := by
  unfold checkedWidth?
  split <;> simp_all [eq_comm]

/-- In a category of exact numbers a bounded type needs so many bits, unless they are too many for a width. -/
theorem lift?_eq_some_iff (ha : a.width ≠ 0) (hle : a.kind.level ≤ kind.level) (hk : kind ≠ .real) :
    a.lift? kind = some w ↔ w < widthLimit ∧ w = a.kind.bitsIn kind a.width := by
  have hlimit := a.width_lt
  rw [lift?_of_bounded (isUnbounded_eq_false_iff.mpr ha) hle]
  cases hka : a.kind <;> cases kind <;> rw [hka] at hle <;>
    first
    | exact absurd hle (by decide)
    | exact absurd rfl hk
    | simp only [NumericKind.level, NumericKind.bitsIn, Nat.sub_self, Nat.reduceSub, widthAfter?,
        NumericKind.general?, nextWidth?, Option.some.injEq, Option.bind_eq_some_iff, checkedWidth?_eq_some_iff]
  case nat.nat | int.int | ratio.ratio => exact ⟨fun h => ⟨h ▸ hlimit, h.symm⟩, fun h => h.2.symm⟩
  case nat.int | int.ratio =>
    constructor
    · rintro ⟨_, ⟨h, rfl⟩, rfl⟩
      exact ⟨h, rfl⟩
    · rintro ⟨h, rfl⟩
      exact ⟨_, ⟨h, rfl⟩, rfl⟩
  case nat.ratio =>
    -- What is within the limit after both steps is so after the first one.
    constructor
    · rintro ⟨_, ⟨-, rfl⟩, _, ⟨h, rfl⟩, rfl⟩
      exact ⟨h, rfl⟩
    · rintro ⟨h, rfl⟩
      exact ⟨_, ⟨by omega, rfl⟩, _, ⟨h, rfl⟩, rfl⟩

/-- Fitting into a type of exact numbers, by the bits alone: no type is as wide as a width beyond the limit. -/
theorem fits_iff_bitsIn (hk : b.kind ≠ .real) :
    a.fits b = true ↔ a.kind.level ≤ b.kind.level ∧
      (b.width = 0 ∨ a.width ≠ 0 ∧ a.kind.bitsIn b.kind a.width ≤ b.width) := by
  by_cases hb : b.width = 0
  · rw [fits_iff_of_unbounded hb]
    exact ⟨fun hle => ⟨hle, .inl hb⟩, And.left⟩
  · constructor
    · intro h
      have hle := level_le_of_fits h
      obtain ⟨ha, w, hw, hwb⟩ := (fits_iff_lift? hb).mp h
      obtain ⟨-, rfl⟩ := (lift?_eq_some_iff ha hle hk).mp hw
      exact ⟨hle, .inr ⟨ha, hwb⟩⟩
    · rintro ⟨hle, h | ⟨ha, hwb⟩⟩
      · exact absurd h hb
      · -- What is no greater than a width is within the limit.
        have hlimit := hwb.trans_lt b.width_lt
        exact (fits_iff_lift? hb).mpr ⟨ha, _, (lift?_eq_some_iff ha hle hk).mpr ⟨hlimit, rfl⟩, hwb⟩

/-! ### The type of a result -/

/-- A type is as wide as the common width of two bounded types, once that has grown. -/
def HasRoom (a b : NumericType) (kind : NumericKind) (grow : Nat → Option Nat) (t : NumericType) : Prop :=
  a.width ≠ 0 ∧ b.width ≠ 0 ∧ ∃ wa wb w, a.lift? kind = some wa ∧ b.lift? kind = some wb ∧
    grow (max wa wb) = some w ∧ w ≤ t.width

/-- The type of a result is the narrowest one of its category with room for the grown common width. -/
theorem isNarrowest_widen (a b : NumericType) (kind : NumericKind) (grow : Nat → Option Nat) :
    IsNarrowest kind (HasRoom a b kind grow) (widen a b kind grow) := by
  unfold widen
  split
  case isTrue hunbounded =>
    rw [Bool.or_eq_true, isUnbounded_iff, isUnbounded_iff] at hunbounded
    refine isNarrowest_unbounded fun s _ h => ?_
    exact hunbounded.elim h.1 h.2.1
  case isFalse hbounded =>
    rw [Bool.or_eq_true, isUnbounded_iff, isUnbounded_iff, not_or] at hbounded
    split
    case h_1 wa wb ha hb =>
      cases hgrow : grow (max wa wb) with
      | none =>
        -- The common width has grown beyond the limit.
        refine isNarrowest_unbounded fun s _ h => ?_
        obtain ⟨-, -, _, _, _, ha', hb', hw, -⟩ := h
        cases ha.symm.trans ha'
        cases hb.symm.trans hb'
        exact nomatch hgrow.symm.trans hw
      | some w =>
        refine (isNarrowest_fixedAtLeast? kind w).congr fun s _ => ?_
        constructor
        · exact fun hle => ⟨hbounded.1, hbounded.2, wa, wb, w, ha, hb, hgrow, hle⟩
        · rintro ⟨-, -, _, _, _, ha', hb', hw, hle⟩
          cases ha.symm.trans ha'
          cases hb.symm.trans hb'
          cases hgrow.symm.trans hw
          exact hle
    case h_2 hnone =>
      -- No width of the category is enough for one of the operands.
      refine isNarrowest_unbounded fun s _ h => ?_
      obtain ⟨-, -, wa, wb, -, ha, hb, -⟩ := h
      exact hnone wa wb ha hb

end NumericType

end NumericTower
