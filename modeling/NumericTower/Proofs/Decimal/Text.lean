import Mathlib
import NumericTower.Decimal
import NumericTower.Proofs.Numeral.Digits

/-!
# Decimal texts in canonical form

A decimal fraction is written with digits on both sides of the point, without zeros in front or at the end
that could be left out. There is one such text for a number, and the positional form is it.

## Key results
- `Canonical.unique`: the digits on both sides are determined by the number
- `Canonical.fraction_eq`: behind the point of a whole number is a single zero
- `Writes.unique`: the text is determined by the number
- `writes_render`: the positional form is in canonical form
-/

namespace NumericTower.Decimal

open Numeral

variable {whole fraction ds : List Nat} {q : Rat}

/-- The number that digits before and after a point stand for. -/
def placeValue (whole fraction : List Nat) : Rat :=
  (ofDigits 10 (whole ++ fraction) : Rat) / 10 ^ fraction.length

/-- Digits on both sides of a point. A zero in front or at the end is the only digit on its side. -/
structure Canonical (whole fraction : List Nat) : Prop where
  digit : ∀ d ∈ whole ++ fraction, d < 10
  whole : NoLeadingZero whole
  fraction : NoLeadingZero fraction.reverse

/-- The text is the canonical form of a number: a minus sign if it is negative, and its digits with a point
among them. -/
def Writes (text : String) (q : Rat) : Prop :=
  ∃ whole fraction, Canonical whole fraction ∧ placeValue whole fraction = |q| ∧
    text = (if q < 0 then "-" else "") ++
      String.ofList (whole.map digitChar ++ '.' :: fraction.map digitChar)

/-! ### The value of a decimal fraction -/

theorem toRat_nonneg (d : Decimal) : 0 ≤ d.toRat := by
  unfold toRat
  positivity

theorem abs_toRat (d : Decimal) : |d.toRat| = d.coefficient * 10 ^ (-(d.places : Int)) := by
  rw [abs_of_nonneg d.toRat_nonneg, toRat, zpow_neg, zpow_natCast, div_eq_mul_inv]

/-! ### Zeros at the end -/

theorem placeValue_append_zeros (whole fraction : List Nat) (k : Nat) :
    placeValue whole (fraction ++ List.replicate k 0) = placeValue whole fraction := by
  unfold placeValue
  rw [← List.append_assoc, ofDigits_append, ofDigits_replicate_zero, List.length_append, List.length_replicate,
    pow_add, add_zero, Nat.cast_mul, Nat.cast_pow, Nat.cast_ofNat, mul_div_mul_right _ _ (by positivity)]

/-- What is dropped at the end are zeros, and all of them. -/
theorem eq_dropZerosAtEnd_append (ds : List Nat) :
    (∃ k, ds = dropZerosAtEnd ds ++ List.replicate k 0) ∧ (dropZerosAtEnd ds).reverse.head? ≠ some 0 := by
  unfold dropZerosAtEnd
  rw [List.reverse_reverse]
  constructor
  · have hzeros := List.eq_replicate_length.mpr fun d hd =>
      beq_iff_eq.mp (List.mem_takeWhile_imp (p := (· == 0)) (l := ds.reverse) hd)
    refine ⟨(ds.reverse.takeWhile (· == 0)).length, List.reverse_injective ?_⟩
    rw [List.reverse_append, List.reverse_reverse, List.reverse_replicate, ← hzeros,
      List.takeWhile_append_dropWhile]
  · intro h
    have hnot := List.head?_dropWhile_not (· == 0) ds.reverse
    rw [h] at hnot
    exact absurd hnot (by decide)

theorem fraction_spec (whole : List Nat) (h : ∀ d ∈ ds, d < 10) :
    (∀ d ∈ Decimal.fraction ds, d < 10) ∧ NoLeadingZero (Decimal.fraction ds).reverse ∧
      placeValue whole (Decimal.fraction ds) = placeValue whole ds := by
  obtain ⟨⟨k, hds⟩, hlast⟩ := eq_dropZerosAtEnd_append ds
  have hvalue := placeValue_append_zeros whole (dropZerosAtEnd ds) k
  rw [← hds] at hvalue
  unfold Decimal.fraction
  split
  case h_1 hnil =>
    rw [hnil] at hvalue
    refine ⟨by decide, ⟨by decide, fun _ => rfl⟩, ?_⟩
    rw [hvalue]
    exact placeValue_append_zeros whole [] 1
  case h_2 hne =>
    refine ⟨fun d hd => h d ?_, ⟨fun hnil => hne (List.reverse_eq_nil_iff.mp hnil), fun h0 => absurd h0 hlast⟩,
      hvalue.symm⟩
    rw [hds]
    exact List.mem_append_left _ hd

/-! ### The positional form -/

/-- Zeros are filled up in front only as far as the places and one more digit need them, so that digit is the
only one in front of the point if it is such a zero. -/
theorem noLeadingZero_take (h : NoLeadingZero ds) (places : Nat) :
    NoLeadingZero ((List.replicate (places + 1 - ds.length) 0 ++ ds).take (max (ds.length - places) 1)) := by
  by_cases hlength : ds.length ≤ places
  · obtain ⟨k, hk⟩ : ∃ k, places + 1 - ds.length = k + 1 := ⟨places - ds.length, by omega⟩
    rw [hk, Nat.sub_eq_zero_of_le hlength, List.replicate_succ]
    exact ⟨List.cons_ne_nil 0 _, fun _ => rfl⟩
  · have hzeros : places + 1 - ds.length = 0 := by omega
    have hkeep : max (ds.length - places) 1 = ds.length - places := by omega
    have hpos : ds.length - places ≠ 0 := by omega
    rw [hzeros, hkeep, List.replicate_zero, List.nil_append]
    refine ⟨fun hnil => (List.take_eq_nil_iff.mp hnil).elim hpos h.1, fun hhead => ?_⟩
    -- A zero in front is the only digit there is, and is kept.
    rw [List.head?_take, if_neg hpos] at hhead
    rw [h.2 hhead] at hpos ⊢
    exact List.take_of_length_le (Nat.pos_of_ne_zero hpos)

/-- The sides of the point are the digits of the coefficient, with zeros filled up in front. -/
theorem sides_spec (d : Decimal) : ∃ whole rest, d.sides = (whole, rest) ∧ NoLeadingZero whole ∧
    (∀ x ∈ whole ++ rest, x < 10) ∧ placeValue whole rest = d.toRat := by
  set ds := toDigits 10 d.coefficient with hds
  set zeros := d.places + 1 - ds.length with hzeros
  set padded := List.replicate zeros 0 ++ ds with hpadded
  have hlength : padded.length = zeros + ds.length := by
    rw [hpadded, List.length_append, List.length_replicate]
  have hdigit : ∀ x ∈ padded, x < 10 := by
    intro x hx
    rcases List.mem_append.mp hx with hx | hx
    · rw [List.eq_of_mem_replicate hx]
      decide
    · exact lt_of_mem_toDigits (by decide) hx
  have hnumber : ofDigits 10 padded = d.coefficient := by
    rw [hpadded, ofDigits_append, ofDigits_replicate_zero, zero_mul, zero_add, hds, ofDigits_toDigits]
  refine ⟨padded.take (padded.length - d.places), padded.drop (padded.length - d.places), ?_, ?_, ?_, ?_⟩
  · exact List.splitAt_eq
  · have hkeep : padded.length - d.places = max (ds.length - d.places) 1 := by omega
    rw [hkeep]
    exact noLeadingZero_take (noLeadingZero_toDigits (by decide) d.coefficient) d.places
  · rwa [List.take_append_drop]
  · have hplaces : (padded.drop (padded.length - d.places)).length = d.places := by
      rw [List.length_drop]
      omega
    rw [placeValue, List.take_append_drop, hplaces, hnumber, toRat]

/-- The positional form has the digits of the number on both sides of the point. -/
theorem render_spec (d : Decimal) : ∃ whole fraction, Canonical whole fraction ∧
    placeValue whole fraction = d.toRat ∧
    d.render = String.ofList (whole.map digitChar ++ '.' :: fraction.map digitChar) := by
  obtain ⟨whole, rest, hsides, hwhole, hdigit, hvalue⟩ := sides_spec d
  obtain ⟨hfraction, hzero, hsame⟩ :=
    fraction_spec whole fun x hx => hdigit x (List.mem_append_right whole hx)
  refine ⟨whole, Decimal.fraction rest, ⟨fun x hx => ?_, hwhole, hzero⟩, hsame.trans hvalue, ?_⟩
  · exact (List.mem_append.mp hx).elim (fun h => hdigit x (List.mem_append_left rest h)) (hfraction x)
  · rw [render, hsides]

/-- With the sign of a number in front, the positional form of its magnitude is its canonical form. -/
theorem writes_render {d : Decimal} (h : d.toRat = |q|) :
    Writes ((if q < 0 then "-" else "") ++ d.render) q := by
  obtain ⟨whole, fraction, hcanonical, hvalue, hrender⟩ := render_spec d
  exact ⟨whole, fraction, hcanonical, hvalue.trans h, by rw [hrender]⟩

/-! ### There is one canonical form -/

/-- With more places the last digit would be zero. -/
theorem Canonical.length_le {whole' fraction' : List Nat} (h : Canonical whole fraction)
    (h' : Canonical whole' fraction') (hvalue : placeValue whole fraction = placeValue whole' fraction') :
    fraction'.length ≤ fraction.length := by
  by_contra! hlt
  have hpos : 0 < fraction.length :=
    List.length_pos_iff.mpr fun hnil => h.fraction.1 (List.reverse_eq_nil_iff.mpr hnil)
  have hscale : ofDigits 10 (whole ++ fraction) * 10 ^ (fraction'.length - fraction.length) =
      ofDigits 10 (whole' ++ fraction') := by
    rw [placeValue, placeValue, div_eq_div_iff (by positivity) (by positivity),
      ← Nat.sub_add_cancel hlt.le, pow_add, ← mul_assoc] at hvalue
    exact_mod_cast mul_right_cancel₀ (by positivity) hvalue
  -- Both sides are multiples of ten now, but the last digit of the longer one is not zero.
  obtain ⟨init, d, rfl⟩ := List.eq_nil_or_concat' fraction' |>.resolve_left fun hnil => by simp [hnil] at hlt
  have hd : d = 0 := by
    have hten : 10 ∣ ofDigits 10 (whole' ++ (init ++ [d])) := by
      rw [← hscale]
      exact (dvd_pow_self 10 (by omega)).mul_left _
    have hlast := h'.digit d (by simp)
    rw [← List.append_assoc, ofDigits_append_singleton] at hten
    omega
  have hsingle := h'.fraction.2 (by rw [hd, List.head?_reverse, List.getLast?_concat])
  have hone := congrArg List.length hsingle
  rw [List.length_reverse, List.length_singleton] at hone
  omega

/-- The digits on both sides of the point are determined by the number. -/
theorem Canonical.unique {whole' fraction' : List Nat} (h : Canonical whole fraction)
    (h' : Canonical whole' fraction') (hvalue : placeValue whole fraction = placeValue whole' fraction') :
    whole = whole' ∧ fraction = fraction' := by
  have hlength := le_antisymm (h'.length_le h hvalue.symm) (h.length_le h' hvalue)
  have hsame : ofDigits 10 (whole ++ fraction) = ofDigits 10 (whole' ++ fraction') := by
    rw [placeValue, placeValue, hlength] at hvalue
    exact_mod_cast (div_left_inj' (by positivity)).mp hvalue
  have hdigit : ∀ d ∈ fraction, d < 10 := fun d hd => h.digit d (List.mem_append_right _ hd)
  have hdigit' : ∀ d ∈ fraction', d < 10 := fun d hd => h'.digit d (List.mem_append_right _ hd)
  have hlt : ofDigits 10 fraction < 10 ^ fraction'.length := hlength ▸ ofDigits_lt (by decide) hdigit
  have hlt' : ofDigits 10 fraction' < 10 ^ fraction'.length := ofDigits_lt (by decide) hdigit'
  have hpos : 0 < 10 ^ fraction'.length := by positivity
  -- The two sides of the point are the quotient and the remainder by the unit of the last place.
  rw [ofDigits_append, ofDigits_append, hlength] at hsame
  have hwhole : ofDigits 10 whole = ofDigits 10 whole' := by
    have hquotient := congrArg (· / 10 ^ fraction'.length) hsame
    simpa only [Nat.add_comm (_ * _), Nat.add_mul_div_right _ _ hpos, Nat.div_eq_of_lt hlt,
      Nat.div_eq_of_lt hlt', zero_add] using hquotient
  have hfraction : ofDigits 10 fraction = ofDigits 10 fraction' := by
    rw [hwhole] at hsame
    exact Nat.add_left_cancel hsame
  constructor
  · have hdigits : ∀ d ∈ whole, d < 10 := fun d hd => h.digit d (List.mem_append_left _ hd)
    have hdigits' : ∀ d ∈ whole', d < 10 := fun d hd => h'.digit d (List.mem_append_left _ hd)
    rw [← toDigits_ofDigits (by decide) hdigits h.whole, hwhole,
      toDigits_ofDigits (by decide) hdigits' h'.whole]
  · rw [ofDigits_eq, ofDigits_eq] at hfraction
    refine List.reverse_injective (Nat.ofDigits_inj_of_len_eq (by decide) ?_ ?_ ?_ hfraction)
    · rw [List.length_reverse, List.length_reverse, hlength]
    · exact fun d hd => hdigit d (List.mem_reverse.mp hd)
    · exact fun d hd => hdigit' d (List.mem_reverse.mp hd)

/-- A whole number has a zero behind the point, and nothing else. -/
theorem Canonical.fraction_eq {m : Nat} (h : Canonical whole fraction) (hvalue : placeValue whole fraction = m) :
    fraction = [0] := by
  have hdigit : ∀ d ∈ toDigits 10 m ++ [0], d < 10 := by
    intro d hd
    rcases List.mem_append.mp hd with hd | hd
    · exact lt_of_mem_toDigits (by decide) hd
    · rw [List.mem_singleton.mp hd]
      decide
  have hcanonical : Canonical (toDigits 10 m) [0] :=
    ⟨hdigit, noLeadingZero_toDigits (by decide) m, List.cons_ne_nil 0 [], fun _ => rfl⟩
  have hwhole : placeValue (toDigits 10 m) [0] = m := by
    rw [← List.nil_append [0], ← List.replicate_one, placeValue_append_zeros, placeValue, List.append_nil,
      ofDigits_toDigits, List.length_nil, pow_zero, div_one]
  exact (h.unique hcanonical (hvalue.trans hwhole.symm)).2

/-- A number is written in one way. -/
theorem Writes.unique {text text' : String} (h : Writes text q) (h' : Writes text' q) : text = text' := by
  obtain ⟨whole, fraction, hcanonical, hvalue, rfl⟩ := h
  obtain ⟨whole', fraction', hcanonical', hvalue', rfl⟩ := h'
  obtain ⟨rfl, rfl⟩ := hcanonical.unique hcanonical' (hvalue.trans hvalue'.symm)
  rfl

end NumericTower.Decimal
