import NumericTower.Proofs.Number.ResultType
import NumericTower.Proofs.Rounding.Float

/-!
# Conversions of numbers

A number is converted to every type that its own type fits into, and the result is of that type. The exact
value is kept with one exception: a fixed ratio that becomes a float is rounded, and only a denominator that
is a power of two is kept. The bits of a significand are enough for each part of a ratio alone, not for their
quotient.

## Key results
- `Number.holds_of_fits`: what fits holds the same integers
- `Number.partsFit_of_widthAfter?`: the parts of a number at the width of a ratio
- `Number.exists_float_of_parts`: parts of few bits make a float by one rounding
- `conversion_is_exact_unless_ratio_to_float`
-/

namespace NumericTower

open NumericType

/-- The rationals whose parts so many bits hold, the numerator with its sign. -/
def PartsFit (bits : Nat) (q : Rat) : Prop :=
  Integer.InSigned bits q.num ∧ q.den < 2 ^ bits

namespace PartsFit

variable {q : Rat} {z : Int} {b b' : Nat}

theorem mono (h : PartsFit b q) (hb : b ≠ 0) (hle : b ≤ b') : PartsFit b' q := by
  have hnum : InRange .int b q.num := fun _ => h.1
  exact ⟨hnum.mono hb hle (by omega), h.2.trans_le (Nat.pow_le_pow_right two_pos hle)⟩

theorem intCast (h : InRange .int b z) (hb : b ≠ 0) : PartsFit b z := by
  refine ⟨by rw [Rat.num_intCast]; exact h hb, ?_⟩
  rw [Rat.den_intCast]
  exact Nat.one_lt_two_pow hb

theorem natAbs_num_le (h : PartsFit b q) (hb : b ≠ 0) : q.num.natAbs ≤ 2 ^ b := by
  obtain ⟨k, rfl⟩ := Nat.exists_eq_succ_of_ne_zero hb
  have hnum := InRange.abs_le_two_pow (n := k) (z := q.num) fun _ => h.1
  rw [Int.abs_eq_natAbs] at hnum
  have hle : q.num.natAbs ≤ 2 ^ k := by exact_mod_cast hnum
  exact hle.trans (Nat.pow_le_pow_right two_pos (Nat.le_succ k))

end PartsFit

namespace Number

variable {n : Number} {t : NumericType} {q : Rat} {z : Int} {w : Nat}

/-- An integral type holds the integers of every type that fits into it. -/
theorem holds_of_fits {s : NumericType} (h : s.Holds z) (hk : t.kind.isIntegral = true)
    (hfits : s.fits t = true) : t.Holds z := by
  rcases fits_iff.mp hfits with rfl | ⟨hle, ht | ⟨hs, _, w, hw, hwt⟩⟩
  · exact h
  · have h0 := h.unbounded hk hle
    rwa [← isUnbounded_iff.mp ht] at h0
  · have hs0 : s.width ≠ 0 := fun h0 => by simp [isUnbounded, h0] at hs
    obtain ⟨hw0, hin⟩ := h.lift hs0 hk ((lift?_of_bounded hs hle).trans hw)
    exact hin.mono hw0 hwt

/-- No category more specific than an integral one holds other than whole numbers. -/
theorem isIntegral_of_level_le {k l : NumericKind} (h : k.level ≤ l.level) (hl : l.isIntegral = true) :
    k.isIntegral = true := by
  cases k <;> cases l <;> first | rfl | exact absurd h (by decide) | exact absurd hl (by decide)

/-- What fits into an integral type is one of its integers. -/
theorem exists_holds_of_fits (hn : n.Proper) (hk : t.kind.isIntegral = true)
    (hfits : n.type.fits t = true) : ∃ z, n.toInt? = some z ∧ t.Holds z := by
  obtain ⟨z, hz⟩ := exists_toInt? (isIntegral_of_level_le (level_le_of_fits hfits) hk)
  exact ⟨z, hz, holds_of_fits (holds_of_toInt? hn hz) hk hfits⟩

/-- The width of the ratio that a bounded number needs has room for its parts, half for each. -/
theorem partsFit_of_widthAfter? (hq : n.toRat? = some q) (hk : n.type.kind ≠ .real)
    (hw : n.type.width ≠ 0)
    (h : widthAfter? (2 - n.type.kind.level) n.type.kind n.type.width = some w) :
    (w + 1) / 2 ≠ 0 ∧ PartsFit ((w + 1) / 2) q := by
  cases n with
  | nat v m =>
    cases hq
    have hm : InRange .nat v.bits m.value := ⟨Int.natCast_nonneg _, fun _ => by exact_mod_cast m.value_lt⟩
    have hwidth : w = (v.bits + 1) * 2 := by
      cases v <;> cases h <;> rfl
    rw [show (w + 1) / 2 = v.bits + 1 by omega]
    exact ⟨Nat.succ_ne_zero _, .intCast (hm.nat_to_int hw) (Nat.succ_ne_zero _)⟩
  | int v m =>
    cases hq
    have hwidth : w = v.bits * 2 := by
      cases v <;> cases h <;> rfl
    rw [show (w + 1) / 2 = v.bits by omega]
    exact ⟨hw, .intCast (fun _ => m.inSigned) hw⟩
  | ratio v r =>
    cases hq
    have hwidth : w = v.componentBits * 2 := by
      cases v <;> cases h <;> rfl
    rw [show (w + 1) / 2 = v.componentBits by omega]
    exact ⟨by cases v <;> decide, r.fits⟩
  | bigNat | bigInt | bigRatio => exact absurd rfl hw
  | real32 | real64 | bigReal => exact absurd rfl hk

/-- What fits into a bounded type of ratios or reals is bounded itself and has room there for the parts. -/
theorem exists_parts_of_fits (hq : n.toRat? = some q) (hk : n.type.kind ≠ .real) (hne : n.type ≠ t)
    (hratio : NumericKind.ratio.level ≤ t.kind.level) (ht : t.width ≠ 0)
    (hfits : n.type.fits t = true) :
    ∃ v w, widthAfter? (t.kind.level - 2) .ratio v = some w ∧ w ≤ t.width ∧ (v + 1) / 2 ≠ 0 ∧
      PartsFit ((v + 1) / 2) q := by
  rcases fits_iff.mp hfits with h | ⟨_, h | ⟨hbounded, _, w, hw, hwt⟩⟩
  · exact absurd h hne
  · exact absurd (isUnbounded_iff.mp h) ht
  · have hle : n.type.kind.level ≤ 2 := by
      cases hkind : n.type.kind <;> first | decide | exact absurd hkind hk
    have hmid : NumericKind.ratio.level = n.type.kind.level + (2 - n.type.kind.level) := by
      show 2 = _
      omega
    have hsplit : t.kind.level - n.type.kind.level =
        (2 - n.type.kind.level) + (t.kind.level - 2) := by
      have : 2 ≤ t.kind.level := hratio
      omega
    rw [hsplit, widthAfter?_add _ hmid] at hw
    obtain ⟨v, hv, hw⟩ := Option.bind_eq_some_iff.mp hw
    have hwidth : n.type.width ≠ 0 := fun h0 => by simp [isUnbounded, h0] at hbounded
    exact ⟨v, w, hw, hwt, partsFit_of_widthAfter? hq hk hwidth hv⟩

/-- A fixed ratio holds the parts of what fits into it. -/
theorem fitsRatio_of_fits {v : RatioWidth} (hq : n.toRat? = some q) (ht : t.kind = .ratio)
    (hne : n.type ≠ t) (hfits : n.type.fits t = true) (hv : t.width = v.bits) : FitsRatio v q := by
  have hk : n.type.kind ≠ .real := by
    intro hreal
    have hle := level_le_of_fits hfits
    rw [hreal, ht] at hle
    exact absurd hle (by decide)
  obtain ⟨w, w', hw, hwt, hw0, hparts⟩ := exists_parts_of_fits hq hk hne (by rw [ht])
    (by rw [hv]; exact v.bits_ne_zero) hfits
  rw [ht] at hw
  cases hw
  refine hparts.mono hw0 ?_
  rw [hv] at hwt
  cases v <;> simp only [RatioWidth.bits, RatioWidth.componentBits] at hwt ⊢ <;> omega

/-- A rational goes into the ratio type that holds its parts. -/
theorem type_rational (hk : t.kind = .ratio) (ht : t.width = 0 ∨ t ∈ fixed .ratio)
    (hq : ∀ v : RatioWidth, t.width = v.bits → FitsRatio v q) : (rational q t.width).type = t := by
  rcases ht with ht | ht
  · exact NumericType.ext (by simp [rational, ht, hk, type]) (by simp [rational, ht, type])
  · obtain ⟨v, -, rfl⟩ :=
      List.mem_map.mp (show t ∈ RatioWidth.all.map fun v => ⟨.ratio, v.bits, v.bits_lt⟩ from ht)
    obtain ⟨hkind, hwidth, -⟩ := width_rational q v.bits_ne_zero
    exact NumericType.ext hkind ((hwidth v).mpr ⟨le_rfl, hq v rfl, fun _ h _ => h⟩)

/-! ### Floats -/

/-- A rational with parts of no more bits than a fraction becomes a float by one rounding, and only a
denominator that is a power of two makes that exact. -/
theorem exists_float_of_parts {f : FloatFormat} {b : Nat} (hprec : f.precision = b + 1) (hb : b ≠ 0)
    (hleast : f.leastExponent + f.precision + b ≤ 1)
    (htop : b < f.leastExponent + f.precision + 2 ^ f.exponentBits - 4) (hq : PartsFit b q) :
    ∃ d, ((BigReal.ofRat q f.precision).toFloat f).toRat? = some d.toRat ∧ RoundsTo (b + 1) q d ∧
      (d.toRat = q ↔ ∃ k, q.den = 2 ^ k) := by
  have hnum := hq.natAbs_num_le hb
  obtain ⟨d, hd, hround⟩ := Rational.toRat?_toFloat f hnum hq.2.le hleast htop
  rw [hprec] at hround
  exact ⟨d, hd, hround, hround.toRat_eq_iff (Nat.succ_pos b)
    (hnum.trans (Nat.pow_le_pow_right two_pos (Nat.le_succ b)))⟩

/-- The floats of fixed width, with the bits of their fraction. -/
theorem fraction_cases (ht : t ∈ fixed .real) :
    t = .real32 ∧ fractionBits? t.width = some 23 ∨ t = .real64 ∧ fractionBits? t.width = some 52 := by
  simp only [fixed, List.mem_cons, List.not_mem_nil, or_false] at ht
  exact ht.imp (fun h => ⟨h, by rw [h]; rfl⟩) (fun h => ⟨h, by rw [h]; rfl⟩)

/-- The fraction of a float has the bits of a part of every ratio type for which the float is wide enough. -/
theorem part_le_of_nextWidth? {b v : Nat} (ht : t ∈ fixed .real) (hb : fractionBits? t.width = some b)
    (hnext : nextWidth? .ratio v = some w) (hle : w ≤ t.width) : (v + 1) / 2 ≤ b := by
  rw [nextWidth?_ratio] at hnext
  rcases fraction_cases ht with ⟨rfl, hfraction⟩ | ⟨rfl, hfraction⟩
  · cases hfraction.symm.trans hb
    split at hnext
    · assumption
    · split at hnext <;> cases hnext
      exact absurd hle (by decide)
  · cases hfraction.symm.trans hb
    split at hnext
    · omega
    · split at hnext <;> cases hnext
      assumption

/-- A fixed float holds a ratio only if its fraction has the bits of each part. -/
theorem partsFit_of_fits_float {b : Nat} (hq : n.toRat? = some q) (hk : n.type.kind ≠ .real)
    (ht : t ∈ fixed .real) (hb : fractionBits? t.width = some b) (hfits : n.type.fits t = true) :
    PartsFit b q := by
  have hkind := (of_mem_fixed ht).1
  obtain ⟨v, w, hw, hwt, hv0, hparts⟩ := exists_parts_of_fits hq hk
    (fun h => hk (h ▸ hkind)) (by rw [hkind]; decide) (of_mem_fixed ht).2 hfits
  have hnext : nextWidth? .ratio v = some w := by
    rw [hkind] at hw
    simpa [NumericKind.level, widthAfter?, NumericKind.general?] using hw
  exact hparts.mono hv0 (part_le_of_nextWidth? ht hb hnext hwt)

/-! ### Results of conversions -/

/-- What a conversion to a type other than the unbounded real makes of a value: it is kept, except that a
float takes the place of a ratio by rounding it to the bits of its significand, and has its value only if
the denominator is a power of two. -/
structure Converts (s t : NumericType) (q r : Rat) : Prop where
  exact_iff : r = q ↔ (s.kind = .ratio → t.kind = .real → ∃ k, q.den = 2 ^ k)
  rounded : s.kind = .ratio → t.kind = .real →
    ∃ b d, fractionBits? t.width = some b ∧ RoundsTo (b + 1) q d ∧ r = d.toRat

theorem Converts.of_exact {s : NumericType} (h : s.kind = .ratio → t.kind ≠ .real) :
    Converts s t q q :=
  ⟨⟨fun _ hs ht => absurd ht (h hs), fun _ => rfl⟩, fun hs ht => absurd ht (h hs)⟩

/-- A rounded float is what it has to be for a natural, an integer and a ratio. -/
theorem converts_of_rounds {b : Nat} {d : Dyadic} (hq : n.toRat? = some q) (hk : n.type.kind ≠ .real)
    (ht : t.kind = .real) (hb : fractionBits? t.width = some b) (hround : RoundsTo (b + 1) q d)
    (hexact : d.toRat = q ↔ ∃ k, q.den = 2 ^ k) : Converts n.type t q d.toRat := by
  refine ⟨?_, fun _ _ => ⟨b, d, hb, hround, rfl⟩⟩
  rw [hexact]
  refine ⟨fun h _ _ => h, fun h => ?_⟩
  cases hkind : n.type.kind.isIntegral with
  | true =>
    -- The denominator of a whole number is one.
    obtain ⟨z, hz⟩ := exists_toInt? hkind
    cases (toRat?_of_toInt? hz).symm.trans hq
    exact ⟨0, Rat.den_intCast z⟩
  | false =>
    have hratio : n.type.kind = .ratio := by
      cases hn : n.type.kind <;> simp_all [NumericKind.isIntegral]
    exact h hratio ht

section

variable (hfits : n.type.fits t = true) (hne : n.type ≠ t) (p : Nat)

include hfits hne

/-- Only a type that fits into another one is converted to it. -/
theorem not_refused : ¬(n.type = t ∨ n.type.fits t = false) := by
  simp [hne, hfits]

/-- A whole number is kept in every integral type that its own type fits into. -/
theorem exists_integral (hn : n.Proper) (hq : n.toRat? = some q) (hk : t.kind.isIntegral = true)
    (ht : t.width = 0 ∨ t ∈ fixed t.kind) :
    ∃ w, n.convertTo? t p = some w ∧ w.type = t ∧ w.toRat? = some q := by
  obtain ⟨z, hz, hholds⟩ := exists_holds_of_fits hn hk hfits
  have hzq : (z : Rat) = q := Option.some.inj ((toRat?_of_toInt? hz).symm.trans hq)
  cases htk : t.kind with
  | nat =>
    refine ⟨natural z t.width, ?_, type_natural htk (htk ▸ ht) hholds, ?_⟩
    · simp only [convertTo?, if_neg (not_refused hfits hne), htk, hz, Option.map_some]
    · rw [toRat?_of_toInt? (toInt?_natural z _), hzq]
  | int =>
    refine ⟨integer z t.width, ?_, type_integer htk (htk ▸ ht) hholds, ?_⟩
    · simp only [convertTo?, if_neg (not_refused hfits hne), htk, hz, Option.map_some]
    · rw [toRat?_of_toInt? (toInt?_integer z _), hzq]
  | ratio | real =>
    rw [htk] at hk
    exact absurd hk Bool.false_ne_true

/-- A natural, an integer or a ratio is kept in every ratio type that its own type fits into. -/
theorem exists_ratio (hq : n.toRat? = some q) (hk : t.kind = .ratio)
    (ht : t.width = 0 ∨ t ∈ fixed t.kind) :
    ∃ w, n.convertTo? t p = some w ∧ w.type = t ∧ w.toRat? = some q := by
  refine ⟨rational q t.width, ?_, type_rational hk (hk ▸ ht) ?_, toRat?_rational q _⟩
  · simp only [convertTo?, if_neg (not_refused hfits hne), hk, hq, Option.map_some]
  · exact fun v hv => fitsRatio_of_fits hq hk hne hfits hv

/-- Of the reals only the floats of 32 bits fit into another fixed type, the floats of 64 bits, which have
all their values. -/
theorem exists_wider_float (hq : n.toRat? = some q) (hk : n.type.kind = .real) (ht : t ∈ fixed .real) :
    ∃ w, n.convertTo? t p = some w ∧ w.type = t ∧ w.toRat? = some q := by
  rcases fraction_cases ht with ⟨rfl, -⟩ | ⟨rfl, -⟩
  · cases n with
    | real32 => exact absurd rfl hne
    | real64 => exact absurd hfits (show ¬NumericType.real64.fits .real32 = true by decide)
    | bigReal => exact absurd hfits (show ¬(unbounded .real).fits .real32 = true by decide)
    | nat | bigNat | int | bigInt | ratio | bigRatio => exact nomatch hk
  · cases n with
    | real32 x =>
      have hfinite : x.isFinite = true := by
        cases x with
        | nan | infinity => exact nomatch hq
        | finite => rfl
      refine ⟨.real64 x.convert, rfl, rfl, ?_⟩
      exact (BinaryFloat.toRat?_convert (by decide) (by decide) FloatFormat.overflow_single_le
        hfinite).trans hq
    | real64 => exact absurd rfl hne
    | bigReal => exact absurd hfits (show ¬(unbounded .real).fits .real64 = true by decide)
    | nat | bigNat | int | bigInt | ratio | bigRatio => exact nomatch hk

/-- A natural, an integer or a ratio becomes a float of fixed width by one rounding. -/
theorem exists_fixed_float (hq : n.toRat? = some q) (hk : n.type.kind ≠ .real) (ht : t ∈ fixed .real) :
    ∃ w r, n.convertTo? t p = some w ∧ w.type = t ∧ w.toRat? = some r ∧ Converts n.type t q r := by
  have hguard := not_refused hfits hne
  have hfloats : n.toFloat32? = some (Rational.toFloat32 q) ∧
      n.toFloat64? = some (Rational.toFloat64 q) := by
    cases n with
    | nat | bigNat | int | bigInt | ratio | bigRatio =>
      cases hq
      exact ⟨rfl, rfl⟩
    | real32 | real64 | bigReal => exact absurd rfl hk
  rcases fraction_cases ht with ⟨rfl, hb⟩ | ⟨rfl, hb⟩
  · obtain ⟨d, hd, hround, hexact⟩ := exists_float_of_parts (f := .single) rfl (by decide) (by decide)
      (by decide) (partsFit_of_fits_float hq hk ht hb hfits)
    refine ⟨.real32 (Rational.toFloat32 q), d.toRat, ?_, rfl, hd,
      converts_of_rounds hq hk rfl hb hround hexact⟩
    rw [convertTo?, if_neg hguard]
    show n.toFloat32?.map Number.real32 = _
    rw [hfloats.1]
    rfl
  · obtain ⟨d, hd, hround, hexact⟩ := exists_float_of_parts (f := .double) rfl (by decide) (by decide)
      (by decide) (partsFit_of_fits_float hq hk ht hb hfits)
    refine ⟨.real64 (Rational.toFloat64 q), d.toRat, ?_, rfl, hd,
      converts_of_rounds hq hk rfl hb hround hexact⟩
    rw [convertTo?, if_neg hguard]
    show n.toFloat64?.map Number.real64 = _
    rw [hfloats.2]
    rfl

end

/-- Every finite number is rounded once to an unbounded real, of the precision asked for, or of that of the wider
floats if it is a float. -/
theorem exists_toBigReal? (hq : n.toRat? = some q) (p : Nat) :
    ∃ x b, n.toBigReal? p = some x ∧ p ≤ b ∧ b ≤ max p BigReal.leastFloatPrecision ∧ BigReal.Rounds b q x := by
  have hp : p ≤ BigReal.effectivePrecision p := Nat.le_max_left _ _
  have hleast : BigReal.effectivePrecision p ≤ max p BigReal.leastFloatPrecision := max_le_max_left p (by decide)
  cases n with
  | real32 v | real64 v =>
    obtain ⟨d, hd, hdq⟩ := Option.map_eq_some_iff.mp hq
    by_cases h0 : d = 0
    · refine ⟨.zero p, _, ?_, hp, hleast, ?_⟩
      · simp [toBigReal?, BigReal.ofFloat?, hd, h0]
      · rw [← hdq, h0, Dyadic.toRat_zero]
        exact BigReal.rounds_zero p
    · have heffective : BigReal.effectivePrecision (max p BigReal.leastFloatPrecision) =
          max p BigReal.leastFloatPrecision :=
        BigReal.effectivePrecision_of_le (le_max_of_le_right (by decide))
      refine ⟨.round d (max p BigReal.leastFloatPrecision), _, ?_, ?_, heffective.le,
        hdq ▸ BigReal.rounds_round d _⟩
      · simp [toBigReal?, BigReal.ofFloat?, hd, h0]
      · exact (Nat.le_max_left _ _).trans (Nat.le_max_left _ _)
  | bigReal v =>
    cases hq
    exact ⟨_, _, rfl, hp, hleast, BigReal.rounds_round v.value p⟩
  | nat | bigNat | int | bigInt =>
    cases hq
    exact ⟨_, _, rfl, hp, hleast, BigReal.rounds_ofInt _ p⟩
  | ratio | bigRatio =>
    cases hq
    exact ⟨_, _, rfl, hp, hleast, BigReal.rounds_ofRat _ p⟩

end Number

/-- Every number is converted to every type that its own type fits into, and becomes one of that type. An
unbounded real is rounded once. For any other type the exact value is kept, unless a fixed ratio becomes a
float and its denominator is no power of two. Then it is rounded to the bits of the significand. -/
theorem conversion_is_exact_unless_ratio_to_float {n : Number} {t : NumericType} {q : Rat}
    (hn : n.Proper) (hq : n.toRat? = some q) (ht : t.width = 0 ∨ t ∈ fixed t.kind)
    (hfits : n.type.fits t = true) (hne : n.type ≠ t) (p : Nat) :
    ∃ w, n.convertTo? t p = some w ∧ w.type = t ∧
      (t ≠ .unbounded .real → ∃ r, w.toRat? = some r ∧ Number.Converts n.type t q r) ∧
      (t = .unbounded .real → ∃ x b, w = .bigReal x ∧ p ≤ b ∧ BigReal.Rounds b q x) := by
  -- All but the floats and the unbounded reals keep the value.
  have kept : t.kind ≠ .real →
      (∃ w, n.convertTo? t p = some w ∧ w.type = t ∧ w.toRat? = some q) →
      ∃ w, n.convertTo? t p = some w ∧ w.type = t ∧
        (t ≠ .unbounded .real → ∃ r, w.toRat? = some r ∧ Number.Converts n.type t q r) ∧
        (t = .unbounded .real → ∃ x b, w = .bigReal x ∧ p ≤ b ∧ BigReal.Rounds b q x) := by
    rintro hk ⟨w, hw, htype, hwq⟩
    exact ⟨w, hw, htype, fun _ => ⟨q, hwq, .of_exact fun _ => hk⟩,
      fun hreal => absurd (congrArg NumericType.kind hreal) hk⟩
  cases hk : t.kind with
  | nat | int =>
    exact kept (by rw [hk]; decide) (Number.exists_integral hfits hne p hn hq (by rw [hk]; rfl) ht)
  | ratio => exact kept (by rw [hk]; decide) (Number.exists_ratio hfits hne p hq hk ht)
  | real =>
    rcases ht with ht | ht
    · have hreal : t = .unbounded .real := NumericType.ext hk ht
      obtain ⟨x, b, hx, hpb, -, hround⟩ := Number.exists_toBigReal? hq p
      refine ⟨.bigReal x, ?_, hreal.symm, fun h => absurd hreal h, fun _ => ⟨x, b, rfl, hpb, hround⟩⟩
      simp [Number.convertTo?, if_neg (Number.not_refused hfits hne), hk, ht, hx]
    · have hreal : t ≠ .unbounded .real := fun h => (of_mem_fixed ht).2 (congrArg NumericType.width h)
      rw [hk] at ht
      by_cases hkn : n.type.kind = .real
      · obtain ⟨w, hw, htype, hwq⟩ := Number.exists_wider_float hfits hne p hq hkn ht
        exact ⟨w, hw, htype, fun _ => ⟨q, hwq, .of_exact fun h => absurd (hkn.symm.trans h) (by decide)⟩,
          fun h => absurd h hreal⟩
      · obtain ⟨w, r, hw, htype, hwr, hconv⟩ := Number.exists_fixed_float hfits hne p hq hkn ht
        exact ⟨w, hw, htype, fun _ => ⟨r, hwr, hconv⟩, fun h => absurd h hreal⟩

/-- Three quarters as a 32-bit ratio are three quarters as a float of 32 bits. -/
theorem conversion_is_exact_unless_ratio_to_float_three_quarters :
    ∃ r : FixedRatio .bits32, r.value = 3 / 4 ∧ (Number.ratio .bits32 r).Proper ∧
      (Number.ratio .bits32 r).type.fits .real32 = true ∧ (Number.ratio .bits32 r).type ≠ .real32 ∧
      ∃ w, (Number.ratio .bits32 r).convertTo? .real32 256 = some w ∧ w.type = .real32 ∧
        w.toRat? = some (3 / 4) := by
  have hparts : FitsRatio .bits32 (3 / 4) := by decide +kernel
  have hden : (3 / 4 : Rat).den = 2 ^ 2 := by decide +kernel
  have hfits : (NumericType.mk .ratio 32).fits .real32 = true := by decide
  have hne : NumericType.mk .ratio 32 ≠ .real32 := by decide
  refine ⟨⟨3 / 4, hparts⟩, rfl, trivial, hfits, hne, ?_⟩
  obtain ⟨w, hw, htype, hvalue⟩ := conversion_is_exact_unless_ratio_to_float
    (n := .ratio .bits32 ⟨3 / 4, hparts⟩) (t := .real32) (q := 3 / 4) trivial rfl
    (.inr (by decide)) hfits hne 256
  obtain ⟨r, hr, hconv⟩ := hvalue.1 (by decide)
  have hexact := hconv.exact_iff.mpr fun _ _ => ⟨2, hden⟩
  exact ⟨w, hw, htype, hexact ▸ hr⟩

/-- A third as a 32-bit ratio has a type that fits into the floats of 32 bits, but is no third there. -/
theorem third_is_changed_by_conversion :
    ∃ r : FixedRatio .bits32, r.value = 1 / 3 ∧ (Number.ratio .bits32 r).type.fits .real32 = true ∧
      ∃ w v, (Number.ratio .bits32 r).convertTo? .real32 256 = some w ∧ w.type = .real32 ∧
        w.toRat? = some v ∧ v ≠ 1 / 3 := by
  have hparts : FitsRatio .bits32 (1 / 3) := by decide +kernel
  have hden : (1 / 3 : Rat).den = 3 := by decide +kernel
  have hfits : (NumericType.mk .ratio 32).fits .real32 = true := by decide
  have hne : NumericType.mk .ratio 32 ≠ .real32 := by decide
  refine ⟨⟨1 / 3, hparts⟩, rfl, hfits, ?_⟩
  obtain ⟨w, v, hw, htype, hv, hconv⟩ := Number.exists_fixed_float
    (n := .ratio .bits32 ⟨1 / 3, hparts⟩) (t := .real32) (q := 1 / 3) hfits hne 256 rfl
    (fun h => nomatch h) (by decide)
  refine ⟨w, v, hw, htype, hv, fun h => ?_⟩
  obtain ⟨k, hk⟩ := hconv.exact_iff.mp h rfl rfl
  rw [hden] at hk
  -- Three is neither one nor even.
  cases k with
  | zero => exact absurd hk (by decide)
  | succ k => omega

end NumericTower
