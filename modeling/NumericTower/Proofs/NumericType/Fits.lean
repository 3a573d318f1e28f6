import Mathlib
import NumericTower.NumericType.Lattice

/-!
# Fitting is transitive

A width that is carried over to a more general category in two stretches is carried over to the same
width as in one, and a narrower type needs no wider one there. So a type that fits into a second, which
fits into a third, fits into the third.

## Key results
- `widthAfter?_add`: two stretches are one
- `widthAfter?_mono`: narrower stays narrower
- `fits_iff`: fitting by cases
- `fits_trans`
-/

namespace NumericTower.NumericType

variable {a b c : NumericType} {kind mid : NumericKind} {v w w' : Nat}

/-! ## Widths of more general categories -/

theorem eq_of_checkedWidth? (h : checkedWidth? w = some v) : v = w := by
  unfold checkedWidth? at h
  split at h
  · exact (Option.some.inj h).symm
  · exact nomatch h

theorem checkedWidth?_mono (h : checkedWidth? w = some v) (hle : w' ≤ w) :
    checkedWidth? w' = some w' := by
  unfold checkedWidth? at h ⊢
  split at h
  · rw [if_pos (by omega)]
  · exact nomatch h

/-- The floats that hold a ratio: the fraction has 23 or 52 bits. -/
theorem nextWidth?_ratio (w : Nat) :
    nextWidth? .ratio w =
      if (w + 1) / 2 ≤ 23 then some 32 else if (w + 1) / 2 ≤ 52 then some 64 else none := by
  by_cases h23 : (w + 1) / 2 ≤ 23
  · simp [nextWidth?, fixed, real32, real64, fractionBits?, h23]
  · by_cases h52 : (w + 1) / 2 ≤ 52 <;>
      simp [nextWidth?, fixed, real32, real64, fractionBits?, h23, h52]

/-- A narrower type needs no wider one in the next more general category. -/
theorem nextWidth?_mono (h : nextWidth? kind w = some v) (hle : w' ≤ w) :
    ∃ v', nextWidth? kind w' = some v' ∧ v' ≤ v := by
  cases kind with
  | nat =>
    have hv := eq_of_checkedWidth? h
    exact ⟨w' + 1, checkedWidth?_mono h (by omega), by omega⟩
  | int =>
    have hv := eq_of_checkedWidth? h
    exact ⟨w' * 2, checkedWidth?_mono h (by omega), by omega⟩
  | ratio =>
    rw [nextWidth?_ratio] at h
    rw [nextWidth?_ratio]
    split at h
    · cases h
      exact ⟨32, if_pos (by omega), Nat.le_refl _⟩
    · split at h
      · cases h
        by_cases h23 : (w' + 1) / 2 ≤ 23
        · exact ⟨32, if_pos h23, by decide⟩
        · exact ⟨64, by rw [if_neg h23, if_pos (by omega)], Nat.le_refl _⟩
      · exact nomatch h
  | real => exact nomatch h

theorem widthAfter?_succ {next : NumericKind} (h : kind.general? = some next) (n w : Nat) :
    widthAfter? (n + 1) kind w = (nextWidth? kind w).bind (widthAfter? n next) := by
  cases kind <;> cases h <;> rfl

/-- There is no step from the reals. -/
theorem widthAfter?_succ_none (h : kind.general? = none) (n w : Nat) :
    widthAfter? (n + 1) kind w = none := by
  cases kind <;> cases h
  rfl

/-- A narrower type needs no wider one after any number of steps. -/
theorem widthAfter?_mono {n : Nat} (h : widthAfter? n kind w = some v) (hle : w' ≤ w) :
    ∃ v', widthAfter? n kind w' = some v' ∧ v' ≤ v := by
  induction n generalizing kind w w' with
  | zero =>
    cases h
    exact ⟨w', rfl, hle⟩
  | succ n ih =>
    cases hnext : kind.general? with
    | none =>
      rw [widthAfter?_succ_none hnext] at h
      exact nomatch h
    | some next =>
      simp only [widthAfter?_succ hnext, Option.bind_eq_some_iff] at h ⊢
      obtain ⟨x, hx, h⟩ := h
      obtain ⟨x', hx', hle'⟩ := nextWidth?_mono hx hle
      obtain ⟨v', hv', hv⟩ := ih h hle'
      exact ⟨v', ⟨x', hx', hv'⟩, hv⟩

theorem level_general? {next : NumericKind} (h : kind.general? = some next) :
    next.level = kind.level + 1 := by
  cases kind <;> cases h <;> rfl

/-- Only the reals have no more general category. -/
theorem level_of_general?_none (h : kind.general? = none) : kind.level = 3 := by
  cases kind <;> cases h
  rfl

theorem level_le_three (kind : NumericKind) : kind.level ≤ 3 := by
  cases kind <;> decide

/-- Two stretches of steps are one, with the category between them. -/
theorem widthAfter?_add {m : Nat} (n : Nat) (hm : mid.level = kind.level + m) :
    widthAfter? (m + n) kind w = (widthAfter? m kind w).bind (widthAfter? n mid) := by
  induction m generalizing kind w with
  | zero =>
    obtain rfl := NumericKind.level_injective hm
    rw [Nat.zero_add]
    rfl
  | succ m ih =>
    rw [Nat.succ_add]
    cases hnext : kind.general? with
    | none =>
      -- There is no category above the reals.
      have h3 := level_of_general?_none hnext
      have := level_le_three mid
      omega
    | some next =>
      have hlevel := level_general? hnext
      rw [widthAfter?_succ hnext, widthAfter?_succ hnext, Option.bind_assoc]
      congr 1
      funext x
      exact ih (by omega)

/-! ## Fitting -/

/-- A bounded type is carried over step by step. -/
theorem lift?_of_bounded (ha : a.isUnbounded = false) (hle : a.kind.level ≤ kind.level) :
    a.lift? kind = widthAfter? (kind.level - a.kind.level) a.kind a.width := by
  rw [lift?, if_neg (by omega), ha]
  rfl

/-- A type fits into itself, into the unbounded type of every category that is no more specific, and a
bounded one into every type that is at least as wide as it has to be. -/
theorem fits_iff :
    a.fits b = true ↔ a = b ∨ a.kind.level ≤ b.kind.level ∧
      (b.isUnbounded = true ∨ a.isUnbounded = false ∧ b.isUnbounded = false ∧
        ∃ w, widthAfter? (b.kind.level - a.kind.level) a.kind a.width = some w ∧ w ≤ b.width) := by
  unfold fits
  by_cases hab : a = b
  · simp [hab]
  · rw [if_neg hab]
    by_cases hlevel : b.kind.level < a.kind.level
    · simp [hab, hlevel]
    · rw [if_neg hlevel]
      by_cases hb : b.isUnbounded = true
      · simp [hb, Nat.le_of_not_lt hlevel]
      · rw [if_neg hb]
        by_cases ha : a.isUnbounded = true
        · simp [ha, hb, hab]
        · rw [if_neg ha, lift?_of_bounded (by simpa using ha) (by omega)]
          simp [ha, hb, hab, Nat.le_of_not_lt hlevel, Option.any_eq_true]

/-- No type fits into one of a more specific category. -/
theorem level_le_of_fits (h : a.fits b = true) : a.kind.level ≤ b.kind.level := by
  rcases fits_iff.mp h with rfl | ⟨hle, _⟩
  · exact Nat.le_refl _
  · exact hle

@[simp] theorem fits_refl (a : NumericType) : a.fits a = true :=
  fits_iff.mpr (.inl rfl)

/-- What fits into a type that fits into another fits into the other. -/
theorem fits_trans (hab : a.fits b = true) (hbc : b.fits c = true) : a.fits c = true := by
  rcases fits_iff.mp hab with rfl | ⟨hle, hab⟩
  · exact hbc
  · rcases fits_iff.mp hbc with rfl | ⟨hle', hbc⟩
    · exact fits_iff.mpr (.inr ⟨hle, hab⟩)
    · refine fits_iff.mpr (.inr ⟨hle.trans hle', ?_⟩)
      rcases hbc with hc | ⟨hb, hc, w, hw, hwc⟩
      · exact .inl hc
      · rcases hab with hb' | ⟨ha, -, x, hx, hxb⟩
        · exact absurd (hb'.symm.trans hb) (by decide)
        · -- The first stretch ends at a width within that of the second type.
          obtain ⟨y, hy, hyw⟩ := widthAfter?_mono hw hxb
          refine .inr ⟨ha, hc, y, ?_, hyw.trans hwc⟩
          have hsplit : c.kind.level - a.kind.level =
              (b.kind.level - a.kind.level) + (c.kind.level - b.kind.level) := by omega
          have hlevel : b.kind.level = a.kind.level + (b.kind.level - a.kind.level) := by omega
          rw [hsplit, widthAfter?_add _ hlevel, hx]
          exact hy

end NumericTower.NumericType
