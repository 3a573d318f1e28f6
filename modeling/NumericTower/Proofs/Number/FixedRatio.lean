import Mathlib
import NumericTower.Number.FixedParts
import NumericTower.Proofs.Number.Range
import NumericTower.Proofs.Rational.LowestTerms

/-!
# Fixed ratios in lowest terms

The parts of a fixed ratio are bare numbers, but all that its operations make are the parts of a rational: in
lowest terms and over a denominator that is not zero. Reducing keeps the sign of the numerator and makes no part
greater, so a fraction of parts in range has parts in range, whatever the range is on either side of zero.

## Key results
- `fitsRatio_div`: reducing keeps parts in range
- `FixedParts.ofExact?_parts`, `FixedParts.ofFraction?_eq`: operations on parts and on rationals agree
- `FixedParts.obtainable_iff`: what is made are the parts of fixed ratios
- `FixedParts.fixed_ratios_stay_in_lowest_terms`
-/

namespace NumericTower

/-- Reducing a fraction keeps its parts in range. -/
theorem fitsRatio_div {w : RatioWidth} {n : Int} {d : Nat} (hn : Integer.InSigned w.componentBits n)
    (hd : d < 2 ^ w.componentBits) (h0 : d ≠ 0) : FitsRatio w (n / d) := by
  -- Both parts have been multiplied by the divisor that reducing takes out.
  obtain ⟨c, hnum, hden⟩ := Rat.exists_eq_mul_div_num_and_eq_mul_div_den n (Int.natCast_ne_zero.mpr h0)
  rw [Int.cast_natCast] at hnum hden
  have hpos : 0 < c := by
    have hprod : 0 < c * ((n / d : Rat).den : Int) := hden ▸ Int.natCast_pos.mpr (Nat.pos_of_ne_zero h0)
    exact pos_of_mul_pos_left hprod (Int.natCast_nonneg _)
  refine ⟨.of_mul hpos (hnum ▸ hn), lt_of_le_of_lt (Int.ofNat_le.mp ?_) hd⟩
  exact (le_mul_of_one_le_left (Int.natCast_nonneg _) hpos).trans_eq hden.symm

namespace FixedRatio

variable {w : RatioWidth}

theorem ext {r s : FixedRatio w} (h : r.value = s.value) : r = s := by
  cases r
  cases s
  cases h
  rfl

theorem ofRat?_value (r : FixedRatio w) : ofRat? w r.value = some r :=
  dif_pos r.fits

theorem value_of_ofRat? {q : Rat} {r : FixedRatio w} (h : ofRat? w q = some r) : r.value = q := by
  unfold ofRat? at h
  split at h
  · rw [← Option.some.inj h]
  · exact nomatch h

theorem parts_injective {r s : FixedRatio w} (h : r.parts = s.parts) : r = s := by
  obtain ⟨hnum, hden⟩ := FixedParts.mk.inj h
  exact ext (Rat.ext hnum hden)

end FixedRatio

namespace FixedParts

open Rational (Parts)

variable {w : RatioWidth} {x y : FixedParts w}

/-! ### Operations on the parts of rationals -/

/-- The parts of a rational are the parts of its fixed ratio if there is one. -/
theorem ofExact?_parts (q : Rat) : ofExact? w (Rational.parts q) = (FixedRatio.ofRat? w q).map FixedRatio.parts := by
  have hrange : Integer.InSigned w.componentBits q.num ∧ Integer.InUnsigned w.componentBits q.den ↔
      FitsRatio w q := by
    refine and_congr_right fun _ => (and_iff_right (Int.natCast_nonneg _)).trans ?_
    exact_mod_cast Iff.rfl
  unfold ofExact? FixedRatio.ofRat?
  split
  case isTrue h => rw [dif_pos (hrange.mp h)]; rfl
  case isFalse h => rw [dif_neg fun hq => h (hrange.mpr hq)]; rfl

theorem ofFraction?_eq (w : RatioWidth) (n : Int) (d : Nat) :
    ofFraction? w n d = (FixedRatio.ofFraction? w n d).map FixedRatio.parts := by
  rw [ofFraction?, FixedRatio.ofFraction?, Rational.parts_ofFraction?]
  cases Rational.ofFraction? n d with
  | none => rfl
  | some q => exact ofExact?_parts q

@[simp] theorem value_parts (r : FixedRatio w) : r.parts.value = r.value :=
  Rat.num_div_den r.value

/-- The zero that stands in for a zero denominator is not taken. -/
theorem exact_parts (r : FixedRatio w) : r.parts.exact = Rational.parts r.value := by
  have hden : (r.value.den : Int) ≠ 0 := Int.natCast_ne_zero.mpr r.value.den_nz
  rw [exact, FixedRatio.parts, Parts.ofFraction?, if_neg hden, Option.getD_some, Parts.reduce_eq _ hden,
    Int.cast_natCast, Rat.num_div_den]

/-! ### What is made -/

/-- The parts that are made of fractions of numbers in range and of exact fractions. -/
inductive Obtainable : FixedParts w → Prop where
  | fraction {n : Int} {d : Nat} {x : FixedParts w} (hn : Integer.InSigned w.componentBits n)
      (hd : d < 2 ^ w.componentBits) (h : ofFraction? w n d = some x) : Obtainable x
  | exact {q : Parts} {x : FixedParts w} (hq : q.Reduced) (h : ofExact? w q = some x) : Obtainable x

/-- What is made are the parts of fixed ratios. -/
theorem obtainable_iff : x.Obtainable ↔ ∃ r : FixedRatio w, r.parts = x := by
  constructor
  · intro h
    cases h with
    | fraction hn hd h =>
      rw [ofFraction?_eq, Option.map_eq_some_iff] at h
      obtain ⟨r, -, hr⟩ := h
      exact ⟨r, hr⟩
    | exact hq h =>
      rw [← Parts.parts_value hq, ofExact?_parts, Option.map_eq_some_iff] at h
      obtain ⟨r, -, hr⟩ := h
      exact ⟨r, hr⟩
  · rintro ⟨r, rfl⟩
    refine .exact (Parts.reduced_parts r.value) ?_
    rw [ofExact?_parts, FixedRatio.ofRat?_value, Option.map_some]

/-- A fraction of numbers in range is there unless it is over zero. -/
theorem ofFraction?_of_inRange {n : Int} {d : Nat} (hn : Integer.InSigned w.componentBits n)
    (hd : d < 2 ^ w.componentBits) (h0 : d ≠ 0) :
    ofFraction? w n d = some (FixedRatio.mk (n / d : Rat) (fitsRatio_div hn hd h0)).parts := by
  have hq : Rational.ofFraction? n d = some (n / d : Rat) := by
    rw [Rational.ofFraction?, if_neg (Int.natCast_ne_zero.mpr h0), Rat.divInt_eq_div, Int.cast_natCast]
  rw [ofFraction?_eq, FixedRatio.ofFraction?, hq, Option.bind_some, FixedRatio.ofRat?,
    dif_pos (fitsRatio_div hn hd h0), Option.map_some]

theorem ofFraction?_zero (w : RatioWidth) (n : Int) : ofFraction? w n 0 = none := by
  rw [ofFraction?, Parts.ofFraction?, Int.natCast_zero, if_pos rfl, Option.bind_none]

/-- At every width, what is made of fractions of numbers in range and of exact fractions is in lowest terms over
a denominator that is not zero. A fraction of numbers in range is missing exactly if it is over zero, and else it
has the exact value. An exact fraction in lowest terms is there exactly if both its parts are in range, and it
comes back from its fixed ratio; and so does every fixed ratio from its exact fraction. So what is made is the same
exactly if the values are; and it is the parts of what the operations on rationals make. -/
theorem fixed_ratios_stay_in_lowest_terms (w : RatioWidth) :
    (∀ x : FixedParts w, x.Obtainable → x.denominator ≠ 0 ∧ Int.gcd x.numerator x.denominator = 1) ∧
    (∀ (n : Int) (d : Nat), Integer.InSigned w.componentBits n → d < 2 ^ w.componentBits →
      (ofFraction? w n d = none ↔ d = 0) ∧ ∀ x ∈ ofFraction? w n d, x.value = n / d) ∧
    (∀ q : Parts, q.Reduced →
      ((ofExact? w q).isSome ↔ Integer.InSigned w.componentBits q.numerator ∧
        Integer.InUnsigned w.componentBits q.denominator) ∧
      ∀ x ∈ ofExact? w q, x.exact = q) ∧
    (∀ x : FixedParts w, x.Obtainable → ofExact? w x.exact = some x) ∧
    (∀ x y : FixedParts w, x.Obtainable → y.Obtainable → (x = y ↔ x.value = y.value)) ∧
    (∀ (n : Int) (d : Nat), ofFraction? w n d = (FixedRatio.ofFraction? w n d).map FixedRatio.parts) ∧
    (∀ q : Rat, ofExact? w (Rational.parts q) = (FixedRatio.ofRat? w q).map FixedRatio.parts) := by
  refine ⟨fun x hx => ?_, fun n d hn hd => ?_, fun q hq => ?_, fun x hx => ?_, fun x y hx hy => ?_,
    ofFraction?_eq w, ofExact?_parts⟩
  · obtain ⟨r, rfl⟩ := obtainable_iff.mp hx
    exact ⟨r.value.den_nz, r.value.reduced⟩
  · by_cases h0 : d = 0
    · subst h0
      simp [ofFraction?_zero]
    · rw [ofFraction?_of_inRange hn hd h0]
      refine ⟨iff_of_false (Option.some_ne_none _) h0, ?_⟩
      rintro _ ⟨⟩
      exact value_parts _
  · constructor
    · unfold ofExact?
      split <;> simp_all
    · intro x hx
      rw [← Parts.parts_value hq, ofExact?_parts] at hx
      obtain ⟨r, hr, rfl⟩ := Option.map_eq_some_iff.mp hx
      rw [exact_parts, FixedRatio.value_of_ofRat? hr, Parts.parts_value hq]
  · obtain ⟨r, rfl⟩ := obtainable_iff.mp hx
    rw [exact_parts, ofExact?_parts, FixedRatio.ofRat?_value, Option.map_some]
  · obtain ⟨r, rfl⟩ := obtainable_iff.mp hx
    obtain ⟨s, rfl⟩ := obtainable_iff.mp hy
    rw [value_parts, value_parts]
    exact ⟨fun h => congrArg FixedRatio.value (FixedRatio.parts_injective h),
      fun h => congrArg FixedRatio.parts (FixedRatio.ext h)⟩

/-- The least numerator of 16 bits over an even denominator and over the greatest one, of which only the first one
is not in lowest terms. -/
theorem fixed_ratios_stay_in_lowest_terms_least_numerator :
    ∃ x y : FixedParts .bits32, ofFraction? .bits32 (-32768) 6 = some x ∧
      ofFraction? .bits32 (-32768) 65535 = some y ∧ x.numerator = -16384 ∧ x.denominator = 3 ∧
      x.value = (-32768 : Int) / (6 : Nat) ∧ ofExact? .bits32 y.exact = some y ∧ x.value ≠ y.value := by
  obtain ⟨-, hfraction, -, hback, heq, -⟩ := fixed_ratios_stay_in_lowest_terms .bits32
  have hn : Integer.InSigned RatioWidth.bits32.componentBits (-32768) := by decide
  have hx : ∃ x, ofFraction? .bits32 (-32768) 6 = some x ∧ x.numerator = -16384 ∧ x.denominator = 3 :=
    ⟨⟨-16384, 3, by decide, by decide⟩, by decide, rfl, rfl⟩
  have hy : ∃ y, ofFraction? .bits32 (-32768) 65535 = some y ∧ y.numerator = -32768 :=
    ⟨⟨-32768, 65535, by decide, by decide⟩, by decide, rfl⟩
  obtain ⟨x, hx, hnum, hden⟩ := hx
  obtain ⟨y, hy, hnum'⟩ := hy
  have hxo : x.Obtainable := .fraction hn (by decide) hx
  have hyo : y.Obtainable := .fraction hn (by decide) hy
  refine ⟨x, y, hx, hy, hnum, hden, (hfraction _ 6 hn (by decide)).2 x hx, hback y hyo, fun h => ?_⟩
  rw [← heq x y hxo hyo] at h
  rw [← h, hnum] at hnum'
  exact absurd hnum' (by decide)

end FixedParts

end NumericTower
