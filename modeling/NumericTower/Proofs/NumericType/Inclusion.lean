import Mathlib
import NumericTower.Proofs.Number.RealPrecision
import NumericTower.Proofs.NumericType.Narrowest

/-!
# Fitting is inclusion

Fitting is a partial order of all numeric types, of any width. Between types of exact numbers it is the
inclusion of their values: a type that fits has no value that the other one lacks, and one that does not fit
has one, either a half, or a whole number at an end of its range.

## Key results
- `NumericType.fits_antisymm`: with `fits_refl` and `fits_trans` the partial order
- `NumericType.fits_iff_holds`: between integral types the integers decide
- `NumericType.fits_wholes_iff`: the whole numbers of a type stand for it
- `NumericType.fits_iff_range_subset`: fitting is inclusion
- `fits_is_range_inclusion`
-/

namespace NumericTower

open NumericType

namespace NumericType

variable {a b t : NumericType} {q : Rat} {z : Int}

/-- Types that fit into each other are the same. -/
theorem fits_antisymm (hab : a.fits b = true) (hba : b.fits a = true) : a = b := by
  have hk : a.kind = b.kind :=
    NumericKind.level_injective (le_antisymm (level_le_of_fits hab) (level_le_of_fits hba))
  refine NumericType.ext hk ?_
  rcases (fits_iff_of_kind_eq hk).mp hab with hb | ⟨ha, hab⟩
  · -- What the unbounded type fits into is unbounded.
    rcases (fits_iff_of_kind_eq hk.symm).mp hba with ha | ⟨hb', -⟩
    · rw [ha, hb]
    · exact absurd hb hb'
  · rcases (fits_iff_of_kind_eq hk.symm).mp hba with ha' | ⟨-, hba⟩
    · exact absurd ha' ha
    · exact le_antisymm hab hba

/-! ### Integers -/

/-- If the integers of a natural or integer type are those of another one, too, the type fits into it. -/
theorem fits_of_holds (ha : a.kind.isIntegral = true) (hb : b.kind.isIntegral = true)
    (h : ∀ z, a.Holds z → b.Holds z) : a.fits b = true := by
  have hin : ∀ z, InRange a.kind a.width z → InRange b.kind b.width z := h
  have hbounded : b.width ≠ 0 → a.width ≠ 0 := fun hb0 ha0 =>
    InRange.not_two_pow hb0 (hin _ (by rw [ha0]; exact .of_nonneg ha (by positivity)))
  have pow_le : ∀ {m n : Nat}, (2 : Int) ^ m ≤ 2 ^ n → m ≤ n := fun h =>
    (pow_le_pow_iff_right₀ (by decide)).mp h
  have hreal : b.kind ≠ .real := by
    rcases NumericKind.isIntegral_iff.mp hb with hkb | hkb <;> rw [hkb] <;> decide
  rw [fits_iff_bitsIn hreal]
  -- The greatest natural number and the least integer of the type show how wide the other one is.
  rcases NumericKind.isIntegral_iff.mp ha with hka | hka <;>
    rcases NumericKind.isIntegral_iff.mp hb with hkb | hkb <;> rw [hka, hkb] at hin ⊢
  -- naturals in naturals
  · refine ⟨le_rfl, or_iff_not_imp_left.mpr fun hb0 => ⟨hbounded hb0, ?_⟩⟩
    have hlt := (hin _ (InRange.greatest_nat _)).2 hb0
    have hle : a.width ≤ b.width := pow_le (by omega)
    exact hle
  -- naturals in integers
  · refine ⟨by decide, or_iff_not_imp_left.mpr fun hb0 => ⟨hbounded hb0, ?_⟩⟩
    have hlt := (hin _ (InRange.greatest_nat _) hb0).2
    have hle : a.width ≤ b.width - 1 := pow_le (by omega)
    show a.width + 1 ≤ b.width
    omega
  -- no integers in naturals
  · have hneg : (0 : Int) < 2 ^ (a.width - 1) := by positivity
    exact absurd (hin _ (InRange.least_int _)).1 (by omega)
  -- integers in integers
  · refine ⟨le_rfl, or_iff_not_imp_left.mpr fun hb0 => ⟨hbounded hb0, ?_⟩⟩
    have hge := (hin _ (InRange.least_int _) hb0).1
    have hle : a.width - 1 ≤ b.width - 1 := pow_le (by omega)
    have := hbounded hb0
    show a.width ≤ b.width
    omega

/-- Between integral types fitting is the inclusion of their integers. -/
theorem fits_iff_holds (ha : a.kind.isIntegral = true) (hb : b.kind.isIntegral = true) :
    a.fits b = true ↔ ∀ z, a.Holds z → b.Holds z :=
  ⟨fun h _ hz => Number.holds_of_fits hz hb h, fits_of_holds ha hb⟩

/-! ### Values of exact types -/

/-- The values of a natural, an integer or a ratio type. A ratio has a signed numerator and an unsigned
denominator of half of the bits each. The unbounded types have all values of their category. -/
def range (t : NumericType) : Set Rat :=
  match t.kind with
  | .nat | .int => {q | ∃ z : Int, t.Holds z ∧ q = z}
  | .ratio => {q | t.width = 0 ∨ ∃ (n : Int) (d : Nat), Integer.InSigned (t.width / 2) n ∧ d ≠ 0 ∧
      d < 2 ^ (t.width / 2) ∧ q = n / d}
  | .real => ∅

/-- The types that the values tell apart: a ratio has as many bits in each part, and at least two. -/
def HasRange (t : NumericType) : Prop :=
  t.kind ≠ .real ∧ (t.kind = .ratio → t.width = 0 ∨ Even t.width ∧ 4 ≤ t.width)

/-- The integral type of the whole numbers of an exact type: those of a ratio have the bits of one part. -/
def wholes (t : NumericType) : NumericType :=
  match t.kind with
  | .ratio => ⟨.int, t.width / 2, (Nat.div_le_self _ _).trans_lt t.width_lt⟩
  | _ => t

theorem range_integral (hk : t.kind.isIntegral = true) : t.range = {q : Rat | ∃ z : Int, t.Holds z ∧ q = z} := by
  rcases NumericKind.isIntegral_iff.mp hk with hk | hk <;> simp only [range, hk]

theorem range_ratio (hk : t.kind = .ratio) :
    t.range = {q : Rat | t.width = 0 ∨ ∃ (n : Int) (d : Nat), Integer.InSigned (t.width / 2) n ∧ d ≠ 0 ∧
      d < 2 ^ (t.width / 2) ∧ q = n / d} := by
  simp only [range, hk]

/-- A type of exact numbers is integral or one of ratios. -/
theorem HasRange.integral_or_ratio (h : t.HasRange) : t.kind.isIntegral = true ∨ t.kind = .ratio := by
  cases hk : t.kind
  case nat | int => exact .inl rfl
  case ratio => exact .inr rfl
  case real => exact absurd hk h.1

theorem wholes_integral (hk : t.kind.isIntegral = true) : t.wholes = t := by
  rcases NumericKind.isIntegral_iff.mp hk with hk | hk <;> simp only [wholes, hk]

theorem wholes_ratio (hk : t.kind = .ratio) : t.wholes.kind = .int ∧ t.wholes.width = t.width / 2 := by
  simp only [wholes, hk, and_self]

theorem isIntegral_wholes (h : t.HasRange) : t.wholes.kind.isIntegral = true := by
  rcases h.integral_or_ratio with hk | hk
  · rwa [wholes_integral hk]
  · rw [(wholes_ratio hk).1]
    rfl

/-- A whole number that is a fraction is no greater than the numerator, and no less if it is negative. -/
theorem inSigned_of_eq_div {n : Int} {d m : Nat} (hn : Integer.InSigned m n) (hd : d ≠ 0) (h : (z : Rat) = n / d) :
    Integer.InSigned m z := by
  have hpos : (0 : Int) < d := Int.natCast_pos.mpr (Nat.pos_of_ne_zero hd)
  have hzd : d * z = n := by
    rw [eq_div_iff (Nat.cast_ne_zero.mpr hd), mul_comm] at h
    exact_mod_cast h
  exact .of_mul hpos (hzd ▸ hn)

/-- Which whole numbers are values of a type. -/
theorem intCast_mem_range_iff (h : t.HasRange) : (z : Rat) ∈ t.range ↔ t.wholes.Holds z := by
  rcases h.integral_or_ratio with hk | hk
  · rw [range_integral hk, wholes_integral hk]
    exact ⟨fun ⟨_, hz, heq⟩ => Int.cast_inj.mp heq ▸ hz, fun hz => ⟨z, hz, rfl⟩⟩
  · obtain ⟨hwk, hww⟩ := wholes_ratio hk
    have hholds : t.wholes.Holds z ↔ (t.width / 2 ≠ 0 → Integer.InSigned (t.width / 2) z) := by
      show InRange _ _ z ↔ _
      rw [hwk, hww]
      rfl
    rw [range_ratio hk, hholds]
    constructor
    · rintro (h0 | ⟨n, d, hn, hd, -, heq⟩) hne
      · exact absurd (by rw [h0]) hne
      · exact inSigned_of_eq_div hn hd heq
    · intro hz
      rcases h.2 hk with h0 | ⟨-, h4⟩
      · exact .inl h0
      · refine .inr ⟨z, 1, hz (by omega), one_ne_zero, Nat.one_lt_two_pow (by omega), ?_⟩
        rw [Nat.cast_one, div_one]

/-- The bits of a ratio type are those of its two parts. -/
theorem HasRange.exists_part (h : t.HasRange) (hk : t.kind = .ratio) :
    ∃ m, t.width = 2 * m ∧ (t.width ≠ 0 → 2 ≤ m) := by
  rcases h.2 hk with h0 | ⟨heven, h4⟩
  · exact ⟨0, h0, fun hne => absurd h0 hne⟩
  · obtain ⟨m, hm⟩ := even_iff_exists_two_mul.mp heven
    exact ⟨m, hm, fun _ => by omega⟩

/-- The whole numbers of a type stand for it, except that no type of whole numbers has room for fractions. -/
theorem fits_wholes_iff (ha : a.HasRange) (hb : b.HasRange) (h : a.kind = .ratio → b.kind = .ratio) :
    a.wholes.fits b.wholes = true ↔ a.fits b = true := by
  rcases hb.integral_or_ratio with hkb | hkb
  · have hka : a.kind.isIntegral = true := ha.integral_or_ratio.resolve_right fun hk => by
      rw [h hk] at hkb
      exact absurd hkb Bool.false_ne_true
    rw [wholes_integral hka, wholes_integral hkb]
  · obtain ⟨hwkb, hwwb⟩ := wholes_ratio hkb
    obtain ⟨m, hm, -⟩ := hb.exists_part hkb
    -- One part has the bits of the integers exactly if both parts have twice as many.
    rw [fits_iff_bitsIn hb.1, fits_iff_bitsIn (by rw [hwkb]; decide), hwkb, hwwb, hkb, hm]
    rcases ha.integral_or_ratio with hka | hka
    · rw [wholes_integral hka]
      rcases NumericKind.isIntegral_iff.mp hka with hka | hka <;> rw [hka] <;>
        simp only [NumericKind.level, NumericKind.bitsIn] <;> omega
    · obtain ⟨hwka, hwwa⟩ := wholes_ratio hka
      obtain ⟨n, hn, -⟩ := ha.exists_part hka
      rw [hwka, hwwa, hka, hn]
      simp only [NumericKind.level, NumericKind.bitsIn]
      omega

/-- A type has no value that a type it fits into lacks. -/
theorem range_subset_of_fits (ha : a.HasRange) (hb : b.HasRange) (h : a.fits b = true) : a.range ⊆ b.range := by
  have hkind : a.kind = .ratio → b.kind = .ratio := by
    intro hk
    have hle := level_le_of_fits h
    rcases hb.integral_or_ratio with hkb | hkb
    · rcases NumericKind.isIntegral_iff.mp hkb with hkb | hkb <;> rw [hk, hkb] at hle <;>
        exact absurd hle (by decide)
    · exact hkb
  rcases ha.integral_or_ratio with hka | hka
  · -- Whole numbers all of them.
    have hwholes := (fits_wholes_iff ha hb hkind).mpr h
    rw [wholes_integral hka] at hwholes
    rw [range_integral hka]
    rintro _ ⟨z, hz, rfl⟩
    exact (intCast_mem_range_iff hb).mpr (Number.holds_of_fits hz (isIntegral_wholes hb) hwholes)
  · have hkb := hkind hka
    rw [range_ratio hka, range_ratio hkb]
    rintro q hq
    rcases (fits_iff_of_kind_eq (hka.trans hkb.symm)).mp h with hb0 | ⟨ha0, hle⟩
    · exact .inl hb0
    · obtain ⟨n, d, hn, hd, hdlt, heq⟩ := hq.resolve_left ha0
      -- A part of no fewer bits holds the parts.
      have hhalf : a.width / 2 ≤ b.width / 2 := Nat.div_le_div_right hle
      obtain ⟨m, hm, hm2⟩ := ha.exists_part hka
      have hpart : a.width / 2 ≠ 0 := by
        have := hm2 ha0
        omega
      have hin : InRange .int (a.width / 2) n := fun _ => hn
      exact .inr ⟨n, d, hin.mono hpart hhalf (by omega), hd,
        hdlt.trans_le (Nat.pow_le_pow_right two_pos hhalf), heq⟩

/-- One half is a value of every ratio type. -/
theorem half_mem_range (h : t.HasRange) (hk : t.kind = .ratio) : (1 / 2 : Rat) ∈ t.range := by
  obtain ⟨m, hm, hm2⟩ := h.exists_part hk
  rw [range_ratio hk]
  refine or_iff_not_imp_left.mpr fun h0 => ?_
  -- A part has two bits at least: one is below two, and two below four.
  have hpart : 2 ≤ t.width / 2 := by
    have := hm2 h0
    omega
  have hone : (2 : Int) ^ 1 ≤ 2 ^ (t.width / 2 - 1) := pow_le_pow_right₀ (by decide) (by omega)
  have htwo : 2 ^ 2 ≤ 2 ^ (t.width / 2) := Nat.pow_le_pow_right two_pos hpart
  exact ⟨1, 2, ⟨by omega, by omega⟩, two_ne_zero, by omega, by norm_num⟩

/-- It is no value of an integral one. -/
theorem half_not_mem_range (hk : t.kind.isIntegral = true) : (1 / 2 : Rat) ∉ t.range := by
  rw [range_integral hk]
  rintro ⟨z, -, hz⟩
  have hdouble : (1 : Rat) = z * 2 := by
    rw [← hz]
    norm_num
  have hdouble' : (1 : Int) = z * 2 := by exact_mod_cast hdouble
  omega

/-- Between types of exact numbers fitting is the inclusion of their values. -/
theorem fits_iff_range_subset (ha : a.HasRange) (hb : b.HasRange) : a.fits b = true ↔ a.range ⊆ b.range := by
  refine ⟨range_subset_of_fits ha hb, fun hsubset => ?_⟩
  have hkind : a.kind = .ratio → b.kind = .ratio := fun hk =>
    hb.integral_or_ratio.resolve_left fun hkb => half_not_mem_range hkb (hsubset (half_mem_range ha hk))
  rw [← fits_wholes_iff ha hb hkind, fits_iff_holds (isIntegral_wholes ha) (isIntegral_wholes hb)]
  intro z hz
  exact (intCast_mem_range_iff hb).mp (hsubset ((intCast_mem_range_iff ha).mpr hz))

/-! ### Integers as floats -/

/-- The way to the reals leads over the ratios. -/
theorem lift?_real (ha : a.width ≠ 0) (hle : a.kind.level ≤ NumericKind.ratio.level) :
    a.lift? .real = (a.lift? .ratio).bind (nextWidth? .ratio) := by
  have hbounded := isUnbounded_eq_false_iff.mpr ha
  have hmid : NumericKind.ratio.level = a.kind.level + (NumericKind.ratio.level - a.kind.level) := by omega
  have hsteps : NumericKind.real.level - a.kind.level = NumericKind.ratio.level - a.kind.level + 1 := by
    show 3 - a.kind.level = 2 - a.kind.level + 1
    have hle : a.kind.level ≤ 2 := hle
    omega
  rw [lift?_of_bounded hbounded (hle.trans (by decide)), lift?_of_bounded hbounded hle, hsteps,
    widthAfter?_add _ hmid]
  congr 1
  funext v
  exact Option.bind_fun_some _

/-- An integral type that fits into a fixed float has no integer of more bits than the fraction of the float. -/
theorem partsFit_of_holds {b : Nat} (hz : a.Holds z) (ht : t ∈ fixed .real) (hb : fractionBits? t.width = some b)
    (hfits : a.fits t = true) : PartsFit b z := by
  obtain ⟨hkt, ht0⟩ := of_mem_fixed ht
  obtain ⟨ha, w, hw, hwt⟩ := (fits_iff_lift? ht0).mp hfits
  have hin : InRange a.kind a.width z := hz
  have hka := NumericKind.isIntegral_iff.mp hin.isIntegral
  have hlevel : a.kind.level ≤ NumericKind.ratio.level := by
    rcases hka with hk | hk <;> rw [hk] <;> decide
  rw [hkt, lift?_real ha hlevel] at hw
  obtain ⟨v, hv, hw⟩ := Option.bind_eq_some_iff.mp hw
  have hpart := Number.part_le_of_nextWidth? ht hb hw hwt
  obtain ⟨-, rfl⟩ := (lift?_eq_some_iff ha hlevel (by decide)).mp hv
  rcases hka with hk | hk <;> rw [hk] at hpart hin <;> simp only [NumericKind.bitsIn] at hpart
  · exact .intCast ((hin.nat_to_int ha).mono (Nat.succ_ne_zero _) (by omega)) (by omega)
  · exact .intCast (hin.mono ha (by omega)) (by omega)

end NumericType

/-- An integer of no more bits than the fraction is the value of a float, and so has no more significant bits than
the format. -/
theorem exists_float_of_partsFit {f : FloatFormat} {b : Nat} {z : Int} (hprec : f.precision = b + 1) (hb : b ≠ 0)
    (hleast : f.leastExponent + f.precision + b ≤ 1)
    (htop : b < f.leastExponent + f.precision + 2 ^ f.exponentBits - 4) (hz : PartsFit b z) :
    Number.FitsBits (b + 1) z ∧ ∃ v : BinaryFloat f, v.toRat? = some (z : Rat) := by
  obtain ⟨d, hd, hround, hexact⟩ := Number.exists_float_of_parts hprec hb hleast htop hz
  have hdz : d.toRat = z := hexact.mpr ⟨0, Rat.den_intCast z⟩
  exact ⟨⟨d, hround.significantBits_le, hdz⟩, _, hd.trans (congrArg some hdz)⟩

/-- Fitting is a partial order of all numeric types. Between types of exact numbers it is the inclusion of their
values, whatever the widths, and an integral type that fits into a fixed float has only values that the
significand of the float holds exactly. -/
theorem fits_is_range_inclusion :
    IsPartialOrder NumericType (fun a b => a.fits b = true) ∧
      (∀ a b : NumericType, a.HasRange → b.HasRange → (a.fits b = true ↔ a.range ⊆ b.range)) ∧
      ∀ a : NumericType, a.kind.isIntegral = true → ∀ q ∈ a.range,
        (a.fits .real32 = true → Number.FitsBits 24 q ∧ ∃ v : Float32Bits, v.toRat? = some q) ∧
        (a.fits .real64 = true → Number.FitsBits 53 q ∧ ∃ v : Float64Bits, v.toRat? = some q) := by
  refine ⟨?_, fun _ _ => fits_iff_range_subset, ?_⟩
  · exact {
      refl := fits_refl
      trans := fun _ _ _ => fits_trans
      antisymm := fun _ _ => fits_antisymm }
  · intro a ha q hq
    rw [range_integral ha] at hq
    obtain ⟨z, hz, rfl⟩ := hq
    constructor
    · intro hfits
      exact exists_float_of_partsFit rfl (by decide) (by decide) (by decide)
        (partsFit_of_holds hz (by decide) rfl hfits)
    · intro hfits
      exact exists_float_of_partsFit rfl (by decide) (by decide) (by decide)
        (partsFit_of_holds hz (by decide) rfl hfits)

/-- One bit more than the widest naturals need is beyond the limit of widths, and the widest integers lack some of
them; the greatest natural number of 22 bits has a float of either width. -/
theorem fits_is_range_inclusion_widest :
    (NumericType.mk .nat 4294967295).HasRange ∧ (NumericType.mk .int 4294967295).HasRange ∧
      ¬(NumericType.mk .nat 4294967295).range ⊆ (NumericType.mk .int 4294967295).range ∧
      (NumericType.mk .nat 22).kind.isIntegral = true ∧ (4194303 : Rat) ∈ (NumericType.mk .nat 22).range ∧
      (NumericType.mk .nat 22).fits .real32 = true ∧ (NumericType.mk .nat 22).fits .real64 = true ∧
      (∃ v : Float32Bits, v.toRat? = some 4194303) ∧ ∃ v : Float64Bits, v.toRat? = some 4194303 := by
  obtain ⟨-, hsubset, hfloat⟩ := fits_is_range_inclusion
  have hnat : (NumericType.mk .nat 4294967295).HasRange := ⟨by decide, by decide⟩
  have hint : (NumericType.mk .int 4294967295).HasRange := ⟨by decide, by decide⟩
  have hmem : (4194303 : Rat) ∈ (NumericType.mk .nat 22).range :=
    ⟨4194303, ⟨by decide, fun _ => by decide⟩, by norm_num⟩
  obtain ⟨h32, h64⟩ := hfloat ⟨.nat, 22, by decide⟩ rfl _ hmem
  refine ⟨hnat, hint, ?_, rfl, hmem, by decide, by decide, (h32 (by decide)).2, (h64 (by decide)).2⟩
  rw [← hsubset _ _ hnat hint]
  decide

end NumericTower
