import NumericTower.BigReal.Checked
import NumericTower.Proofs.BigReal.Exponents

/-!
# Results whose exponents fit

The operations with exponents of 64 bits check every exponent where it is computed. All checks of an operation come
to one: there is a result exactly if every exponent that is computed fits into 64 bits, and it is that of the
operation with exponents of any size.

## Key results
- `Checked.add_eq`, `Checked.sub_eq`, `Checked.mul_eq`, `Checked.divide?_eq`, `Checked.scaleBits_eq`
- `Step.checked_eq`: all operations of two reals
-/

namespace NumericTower.BigReal

namespace Checked

variable {α β : Type} {es fs : List Int} {a : α} {b : β} {f : α → Option β}

/-- A result if all exponents that are computed for it fit into 64 bits. -/
def fitting (es : List Int) (a : α) : Option α :=
  if ∀ e ∈ es, Integer.InSigned 64 e then some a else none

theorem fitting_nil (a : α) : fitting [] a = some a :=
  if_pos nofun

theorem fitting_eq_some (h : ∀ e ∈ es, Integer.InSigned 64 e) : fitting es a = some a :=
  if_pos h

theorem isSome_fitting : (fitting es a).isSome = true ↔ ∀ e ∈ es, Integer.InSigned 64 e := by
  unfold fitting
  split
  case isTrue h => exact iff_of_true rfl h
  case isFalse h => exact iff_of_false Bool.false_ne_true h

/-- The checks of one calculation after another are those of both. -/
theorem fitting_bind (es : List Int) (h : f a = fitting fs b) : (fitting es a).bind f = fitting (es ++ fs) b := by
  unfold fitting at h ⊢
  by_cases hes : ∀ e ∈ es, Integer.InSigned 64 e
  · rw [if_pos hes, Option.bind_some, h]
    exact if_congr (by rw [List.forall_mem_append, and_iff_right hes]) rfl rfl
  · rw [if_neg hes, if_neg fun hall => hes fun e he => hall e (List.mem_append_left fs he), Option.bind_none]

theorem fitting_map (es : List Int) (g : α → β) : (fitting es a).map g = fitting es (g a) := by
  unfold fitting
  exact apply_ite (Option.map g) _ _ _

theorem exponent?_bind {e : Int} {f : Int → Option β} (h : f e = fitting fs b) :
    (exponent? e).bind f = fitting (e :: fs) b := by
  have hone : exponent? e = fitting [e] e := by
    unfold exponent? fitting
    simp only [List.mem_singleton, forall_eq]
  rw [hone]
  exact fitting_bind [e] h

variable {x y : Parts} {negative sticky : Bool} {n num den p : Nat} {m e : Int}

/-! ### Rounding -/

theorem normalized_eq : normalized negative n e p =
    fitting (if n = 0 then [] else [e + Int.trailingZeros n]) (Parts.normalized negative n e p) := by
  unfold normalized Parts.normalized
  split
  · exact (fitting_nil _).symm
  · exact exponent?_bind (fitting_nil _).symm

theorem rounded_eq : rounded negative n e sticky p =
    fitting (Parts.roundedExponents n e sticky p) (Parts.rounded negative n e sticky p) := by
  have hexponents : Parts.roundedExponents n e sticky p = (e + excessBits n p) ::
      if roundBits n (excessBits n p) sticky = 0 then []
      else [e + excessBits n p + Int.trailingZeros (roundBits n (excessBits n p) sticky)] := by
    unfold Parts.roundedExponents
    dsimp only
    split <;> rfl
  rw [hexponents]
  exact exponent?_bind normalized_eq

theorem ofScaled_eq : ofScaled m e p =
    fitting (Parts.roundedExponents m.natAbs e false p) (Parts.ofScaled m e p) :=
  rounded_eq

theorem ofQuotient_eq : ofQuotient negative num den e p =
    fitting (Parts.quotientExponents num den e p) (Parts.ofQuotient negative num den e p) := by
  unfold ofQuotient Parts.ofQuotient Parts.quotientExponents
  split
  · exact (fitting_nil _).symm
  · exact exponent?_bind (exponent?_bind rounded_eq)

/-! ### The operations -/

theorem aligned_eq (x y : Parts) : aligned x y = fitting (x.alignedExponents y) (x.aligned y) :=
  exponent?_bind (exponent?_bind (fitting_nil _).symm)

theorem add_eq (x y : Parts) : add x y = fitting (x.addExponents y) (x.add y) := by
  unfold add
  rw [aligned_eq]
  exact fitting_bind _ ofScaled_eq

theorem sub_eq (x y : Parts) : sub x y = fitting (x.subExponents y) (x.sub y) := by
  unfold sub
  rw [aligned_eq]
  exact fitting_bind _ ofScaled_eq

theorem mul_eq (x y : Parts) : mul x y = fitting (x.mulExponents y) (x.mul y) :=
  exponent?_bind ofScaled_eq

theorem divide?_eq (x y : Parts) : divide? x y = fitting (x.divideExponents y) (x.divide? y) := by
  unfold divide? Parts.divide? Parts.divideExponents
  split
  · exact (fitting_nil _).symm
  · refine exponent?_bind ?_
    rw [ofQuotient_eq]
    exact Option.map_eq_bind.symm.trans (fitting_map _ _)

theorem scaleBits_eq (x : BigReal) : scaleBits (parts x) = fitting (parts x).scaleExponents x.scaleBits := by
  have hzero : (parts x).isZero = x.isZero := rfl
  unfold scaleBits BigReal.scaleBits Parts.scaleExponents
  rw [hzero, numBits, ← bitLength_mantissa]
  split
  · exact (fitting_nil _).symm
  · exact exponent?_bind (exponent?_bind (fitting_nil _).symm)

end Checked

namespace Step

/-- The operation with exponents of 64 bits. -/
def checked : Step → Option (Option Parts)
  | sum x y => (Checked.add (parts x) (parts y)).map some
  | difference x y => (Checked.sub (parts x) (parts y)).map some
  | product x y => (Checked.mul (parts x) (parts y)).map some
  | quotient x y => Checked.divide? (parts x) (parts y)

/-- The operation has a result with exponents of 64 bits exactly if all exponents that are computed fit, and it is
that of the operation with exponents of any size. -/
theorem checked_eq (s : Step) : s.checked = Checked.fitting s.exponents (s.result.map parts) := by
  cases s with
  | sum x y =>
    rw [checked, Checked.add_eq, Checked.fitting_map, parts_add]
    rfl
  | difference x y =>
    rw [checked, Checked.sub_eq, Checked.fitting_map, parts_sub]
    rfl
  | product x y =>
    rw [checked, Checked.mul_eq, Checked.fitting_map, parts_mul]
    rfl
  | quotient x y =>
    rw [checked, Checked.divide?_eq, parts_divide?]
    rfl

end Step

end NumericTower.BigReal
