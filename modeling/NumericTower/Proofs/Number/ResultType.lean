import Mathlib
import NumericTower.Proofs.Number.Exact

/-!
# Representations of results

The result of an operator has the static type of the result: the category always, and the width too
unless the type is a fixed ratio. A fixed ratio that is too narrow for a result gives way to the narrowest
one that holds both parts.

## Key results

- `type_natural` / `type_integer`: a whole number goes into the type that holds it
- `rational_cases`: where a rational goes
- `type_power`: the type of a power
- `representation_of_result`: the representation of every result
-/

namespace NumericTower

open NumericType

/-! ## Where numbers go -/

/-- The fixed widths from one of them on begin with that one. -/
theorem IntegralWidth.filter_all (w : IntegralWidth) :
    ∃ rest, IntegralWidth.all.filter (w.bits ≤ ·.bits) = w :: rest := by
  cases w <;> exact ⟨_, rfl⟩

/-- The fixed integral types are those of the three widths. -/
theorem NumericType.exists_width_of_mem_fixed {t : NumericType}
    (hk : t.kind.isIntegral = true) (h : t ∈ fixed t.kind) : ∃ w : IntegralWidth, t.width = w.bits := by
  have hmap : fixed t.kind = IntegralWidth.all.map fun w => ⟨t.kind, w.bits, w.bits_lt⟩ := by
    cases htk : t.kind with
    | nat | int => rfl
    | ratio | real =>
      rw [htk] at hk
      exact absurd hk Bool.false_ne_true
  rw [hmap] at h
  obtain ⟨w, _, hw⟩ := List.mem_map.1 h
  exact ⟨w, by rw [← hw]⟩

namespace Number

variable {t : NumericType} {z : Int}

/-- An integer goes into the integer type that holds it. -/
theorem type_integer (hk : t.kind = .int) (hw : t.width = 0 ∨ t ∈ fixed .int) (hz : t.Holds z) :
    (integer z t.width).type = t := by
  rcases hw with hw | hw
  · refine NumericType.ext ?_ ?_ <;> simp [integer, hw, hk, type]
  · -- The search starts at the width of the type, and that one holds the integer.
    rw [← hk] at hw
    obtain ⟨w, hbits⟩ := exists_width_of_mem_fixed (by rw [hk]; rfl) hw
    obtain ⟨rest, hrest⟩ := w.filter_all
    have hne := (of_mem_fixed hw).2
    have hin : Integer.InSigned w.bits z := by
      have h : InRange t.kind t.width z := hz
      rw [hk, hbits] at h
      exact h (hbits ▸ hne)
    have hint : integer z t.width = .int w ⟨z, hin⟩ := by
      rw [hbits] at hne ⊢
      simp [integer, hne, hrest, FixedInt.ofInt?, hin]
    rw [hint]
    exact NumericType.ext hk.symm hbits.symm

/-- A natural number goes into the natural type that holds it. -/
theorem type_natural (hk : t.kind = .nat) (hw : t.width = 0 ∨ t ∈ fixed .nat) (hz : t.Holds z) :
    (natural z t.width).type = t := by
  have hrange : InRange .nat t.width z := hk ▸ hz
  have hneg : ¬z < 0 := Int.not_lt.2 hrange.1
  rcases hw with hw | hw
  · refine NumericType.ext ?_ ?_ <;> simp [natural, hneg, hw, hk, type]
  · rw [← hk] at hw
    obtain ⟨w, hbits⟩ := exists_width_of_mem_fixed (by rw [hk]; rfl) hw
    obtain ⟨rest, hrest⟩ := w.filter_all
    have hne := (of_mem_fixed hw).2
    have hin : Integer.InUnsigned w.bits z := ⟨hrange.1, hbits ▸ hrange.2 hne⟩
    have hnat : natural z t.width = .nat w ⟨z.toNat, (Int.toNat_lt hin.1).2 (by simpa using hin.2)⟩ := by
      rw [hbits] at hne ⊢
      simp [natural, hneg, hne, hrest, FixedNat.ofInt?, hin]
    rw [hnat]
    exact NumericType.ext hk.symm hbits.symm

end Number

/-- The narrowest fixed width of at least `width` bits whose parts hold a rational. -/
def NarrowestRatio (width : Nat) (q : Rat) (v : RatioWidth) : Prop :=
  width ≤ v.bits ∧ FitsRatio v q ∧ ∀ v' : RatioWidth, width ≤ v'.bits → FitsRatio v' q → v.bits ≤ v'.bits

namespace RatioWidth

theorem mem_all (v : RatioWidth) : v ∈ all := by
  cases v <;> decide

theorem bits_ne_zero (v : RatioWidth) : v.bits ≠ 0 := by
  cases v <;> decide

theorem pairwise_all : all.Pairwise fun v v' : RatioWidth => v.bits ≤ v'.bits := by
  decide

theorem bits_injective {v v' : RatioWidth} (h : v.bits = v'.bits) : v = v' := by
  cases v <;> cases v' <;> first | rfl | exact absurd h (by decide)

end RatioWidth

theorem NarrowestRatio.unique {width : Nat} {q : Rat} {v v' : RatioWidth}
    (h : NarrowestRatio width q v) (h' : NarrowestRatio width q v') : v = v' :=
  RatioWidth.bits_injective
    (Nat.le_antisymm (h.2.2 v' h'.1 h'.2.1) (h'.2.2 v h.1 h.2.1))

namespace Number

variable {t : NumericType} {q : Rat} {width : Nat}

/-- A rational goes into the narrowest fixed ratio that holds both parts, and into the unbounded one if
there is none. -/
theorem rational_cases (q : Rat) (h : width ≠ 0) :
    (∃ v r, rational q width = .ratio v r ∧ NarrowestRatio width q v) ∨
      (rational q width = .bigRatio q ∧ ∀ v : RatioWidth, width ≤ v.bits → ¬FitsRatio v q) := by
  have hmem : ∀ v : RatioWidth, width ≤ v.bits → v ∈ RatioWidth.all.filter (width ≤ ·.bits) :=
    fun v hv => List.mem_filter.2 ⟨v.mem_all, by simpa using hv⟩
  -- A width is passed over only if a part does not fit.
  have hnone : ∀ v : RatioWidth, (FixedRatio.ofRat? v q).map (Number.ratio v) = none →
      ¬FitsRatio v q := by
    intro v hv hfits
    simp [FixedRatio.ofRat?, hfits] at hv
  unfold rational
  rw [if_neg h]
  cases hfound : (RatioWidth.all.filter (width ≤ ·.bits)).findSome? fun v =>
      (FixedRatio.ofRat? v q).map (Number.ratio v) with
  | none =>
    exact .inr ⟨rfl, fun v hv => hnone v (List.findSome?_eq_none_iff.1 hfound v (hmem v hv))⟩
  | some n =>
    -- The widths before the first that holds the rational do not; those after it are no narrower.
    obtain ⟨before, v, after, hsplit, hn, hbefore⟩ := List.findSome?_eq_some_iff.1 hfound
    have hsorted := RatioWidth.pairwise_all.filter (width ≤ ·.bits)
    rw [hsplit, List.pairwise_append, List.pairwise_cons] at hsorted
    have hv : v ∈ RatioWidth.all.filter (width ≤ ·.bits) := by
      rw [hsplit]
      simp
    by_cases hfits : FitsRatio v q
    · simp only [FixedRatio.ofRat?, hfits, dif_pos, Option.map_some, Option.some.injEq] at hn
      refine .inl ⟨v, ⟨q, hfits⟩, hn.symm, ?_, hfits, ?_⟩
      · simpa using (List.mem_filter.1 hv).2
      · intro v' hv' hfits'
        have hin := hmem v' hv'
        rw [hsplit] at hin
        rcases List.mem_append.1 hin with hin | hin
        · exact absurd hfits' (hnone v' (hbefore v' hin))
        · rcases List.mem_cons.1 hin with rfl | hin
          · exact Nat.le_refl _
          · exact hsorted.2.1.1 v' hin
    · simp [FixedRatio.ofRat?, hfits] at hn

/-- The width of a ratio is the narrowest one from a width on, and unbounded only if there is none. -/
theorem width_rational (q : Rat) (h : width ≠ 0) :
    (rational q width).type.kind = .ratio ∧
      (∀ v : RatioWidth, (rational q width).type.width = v.bits ↔ NarrowestRatio width q v) ∧
      ((rational q width).type.width = 0 ↔ ∀ v : RatioWidth, width ≤ v.bits → ¬FitsRatio v q) := by
  rcases rational_cases q h with ⟨v, r, hr, hv⟩ | ⟨hr, hnone⟩
  · rw [hr]
    refine ⟨rfl, fun v' => ⟨fun hbits => ?_, fun hv' => ?_⟩, fun h0 => ?_, fun hnone => ?_⟩
    · exact RatioWidth.bits_injective hbits ▸ hv
    · exact congrArg RatioWidth.bits (hv.unique hv')
    · exact absurd h0 v.bits_ne_zero
    · exact absurd hv.2.1 (hnone v hv.1)
  · rw [hr]
    refine ⟨rfl, fun v => ⟨fun hbits => ?_, fun hv => ?_⟩, fun _ => hnone, fun _ => rfl⟩
    · exact absurd hbits.symm v.bits_ne_zero
    · exact absurd hv.2.1 (hnone v hv.1)

/-! ## Real results and powers -/

variable {a b n : Number} {op : BinaryOp} {p : Nat}

/-- A real result has the static width of the result. -/
theorem type_combine_real (hk : t.kind = .real) (hw : t.width = 0 ∨ t ∈ fixed .real)
    (h : combine op a b t p = .ok n) : n.type = t := by
  have hwidth : t.width = 0 ∨ t.width = 32 ∨ t.width = 64 := by
    rcases hw with hw | hw
    · exact .inl hw
    · simp only [fixed, List.mem_cons, List.not_mem_nil, or_false] at hw
      rcases hw with rfl | rfl
      · exact .inr (.inl rfl)
      · exact .inr (.inr rfl)
  unfold combine at h
  simp only [hk] at h
  -- Each of the three widths rounds to a number of that width.
  rcases hwidth with hw | hw | hw <;>
    simp only [hw, Nat.reduceEqDiff, if_true, if_false] at h <;>
    obtain ⟨xy, _, h⟩ := exists_of_bind_eq_ok h <;>
    obtain ⟨r, _, h⟩ := exists_of_bind_eq_ok h <;>
    cases h <;> exact NumericType.ext hk.symm hw.symm

/-- An exact power has the static type, which is unbounded. -/
theorem type_exactPower {e : Int} (hw : t.width = 0) (hreal : t.kind ≠ .real)
    (hnat : t.kind = .nat → ∀ z, a.toInt? = some z → 0 ≤ z) (h : exactPower a e t = .ok n) :
    n.type = t := by
  unfold exactPower at h
  split at h
  -- a power of a ratio
  · rename_i hk
    obtain ⟨q, _, h⟩ := exists_of_bind_eq_ok h
    obtain ⟨_, _, h⟩ := exists_of_bind_eq_ok h
    obtain ⟨r, _, h⟩ := exists_of_bind_eq_ok h
    cases h
    rw [hw]
    exact NumericType.ext hk.symm hw.symm
  -- a power of a whole number, which has no negative exponent
  · rename_i hk
    obtain ⟨z, hz, h⟩ := exists_of_bind_eq_ok h
    obtain ⟨_, _, h⟩ := exists_of_bind_eq_ok h
    by_cases hguard : e < 0 ∨ 32 < bitLength e.natAbs
    · simp only [if_pos hguard] at h
      exact nomatch h
    · simp only [if_neg hguard] at h
      cases h
      split
      · rename_i hkind
        have hz0 : 0 ≤ z := hnat hkind z (by
          cases ha : a.toInt? <;> rw [ha] at hz <;> cases hz
          rfl)
        refine type_natural hkind (.inl hw) ?_
        show InRange t.kind t.width _
        rw [hkind, hw]
        exact ⟨Int.pow_nonneg hz0, fun h0 => absurd rfl h0⟩
      · rename_i hkind
        have hint : t.kind = .int := by
          cases htk : t.kind <;> simp_all
        refine type_integer hint (.inl hw) ?_
        show InRange t.kind t.width _
        rw [hint, hw]
        exact fun h0 => absurd rfl h0

/-- Whether a number is one of its category: an unbounded natural is not negative. -/
def Proper : Number → Prop
  | .bigNat z => 0 ≤ z
  | _ => True

/-- The integer of a number is a value of its type. -/
theorem holds_of_toInt? {z : Int} (ha : a.Proper) (hz : a.toInt? = some z) : a.type.Holds z := by
  cases a with
  | nat w m =>
    cases hz
    exact ⟨Int.natCast_nonneg _, fun _ => by exact_mod_cast m.value_lt⟩
  | bigNat z =>
    cases hz
    exact ⟨ha, fun h0 => absurd rfl h0⟩
  | int w m =>
    cases hz
    exact fun _ => m.inSigned
  | bigInt z =>
    cases hz
    exact fun h0 => absurd rfl h0
  | ratio | bigRatio | real32 | real64 | bigReal => exact nomatch hz

/-- The static type of a power of anything but a real is unbounded, and natural for naturals only. -/
theorem of_powResult {r s : NumericType} (hr : r.kind ≠ .real) (ht : powResult? r s = some t) :
    t.width = 0 ∧ t.kind ≠ .real ∧ (t.kind = .nat → r.kind = .nat) := by
  unfold powResult? at ht
  split at ht
  · rename_i hk
    exact absurd hk hr
  · split at ht
    · exact nomatch ht
    · split at ht
      · cases ht
        exact ⟨rfl, by decide, fun h => nomatch h⟩
      · cases ht
        exact ⟨rfl, hr, id⟩

theorem not_fixed_ratio_of_powResult {r s : NumericType} (ht : powResult? r s = some t) :
    t.kind ≠ .ratio ∨ t.width = 0 := by
  by_cases hr : r.kind = .real
  · simp only [powResult?, hr, Option.some.injEq] at ht
    exact .inl fun h => by rw [← ht, hr] at h; exact nomatch h
  · exact .inr (of_powResult hr ht).1

/-- A power has the static type of the power. -/
theorem type_power (ha : a.Proper) (ht : powResult? a.type b.type = some t)
    (h : power a b t = .ok n) : n.type = t := by
  unfold power at h
  split at h
  · exact nomatch h
  · split at h
    · cases ht
      obtain ⟨_, _, h⟩ := exists_of_bind_eq_ok h
      cases h
      rfl
    · cases ht
      obtain ⟨_, _, h⟩ := exists_of_bind_eq_ok h
      cases h
      rfl
    · cases ht
      obtain ⟨_, _, h⟩ := exists_of_bind_eq_ok h
      obtain ⟨_, _, h⟩ := exists_of_bind_eq_ok h
      obtain ⟨_, _, h⟩ := exists_of_bind_eq_ok h
      obtain ⟨_, _, h⟩ := exists_of_bind_eq_ok h
      cases h
      rfl
    -- Only the base decides; the exponent of an exact power is whole.
    · rename_i hreal32 hreal64 hbigReal
      have hkind : a.type.kind ≠ .real := by
        cases a with
        | real32 x => exact absurd rfl (hreal32 x)
        | real64 x => exact absurd rfl (hreal64 x)
        | bigReal x => exact absurd rfl (hbigReal x)
        | nat | bigNat | int | bigInt | ratio | bigRatio => exact fun h => nomatch h
      obtain ⟨hw, hk, hnat⟩ := of_powResult hkind ht
      obtain ⟨e, _, h⟩ := exists_of_bind_eq_ok h
      refine type_exactPower hw hk (fun htn z hz => ?_) h
      have hholds : InRange a.type.kind a.type.width z := holds_of_toInt? ha hz
      rw [hnat htn] at hholds
      exact hholds.1

end Number

/-! ## Representations -/

theorem NumericType.width_arithmeticResult {op : BinaryOp} {r s t : NumericType} (hop : op ≠ .pow)
    (ht : arithmeticResult? op r s = some t) : t.width = 0 ∨ t ∈ fixed t.kind := by
  rcases op_of_arithmeticResult hop ht with rfl | rfl | rfl | rfl | ⟨rfl, _, rfl⟩
  · cases ht
    rw [kind_widen]
    exact width_widen
  · cases ht
    rw [kind_widen]
    exact width_widen
  · cases ht
    rw [kind_widen]
    exact width_widen
  · cases ht
    rw [kind_widen]
    exact width_widen
  · unfold promote
    rw [kind_widen]
    exact width_widen

/-- A result that is no real comes from operands that are no reals. -/
theorem NumericType.operands_ne_real {op : BinaryOp} {r s t : NumericType} (hop : op ≠ .pow)
    (ht : arithmeticResult? op r s = some t) (hk : t.kind ≠ .real) :
    r.kind ≠ .real ∧ s.kind ≠ .real := by
  -- No operator leads out of the reals again.
  have hjoin : r.kind.join s.kind ≠ .real := by
    intro hj
    rw [kind_arithmeticResult hop ht, hj] at hk
    exact hk (by cases op <;> rfl)
  constructor <;> intro h <;> refine hjoin ?_ <;> rw [h]
  · cases s.kind <;> rfl
  · cases r.kind <;> rfl

namespace Number

variable {a b n : Number} {op : BinaryOp} {p : Nat}

/-- A result has the static type, or is a rational that was put into a fixed ratio. -/
theorem type_of_arithmetic (ha : a.Proper) (hb : b.Proper) (h : arithmetic op a b p = .ok n) :
    ∃ t, arithmeticResult? op a.type b.type = some t ∧
      (n.type = t ∧ (t.kind ≠ .ratio ∨ t.width = 0) ∨ t.kind = .ratio ∧ t.width ≠ 0 ∧
        ∃ x y q, a.toRat? = some x ∧ b.toRat? = some y ∧ ratioOp op x y = .ok q ∧
          n = rational q t.width) := by
  cases ht : arithmeticResult? op a.type b.type with
  | none =>
    simp only [arithmetic, ht] at h
    cases h
  | some t =>
    refine ⟨t, rfl, ?_⟩
    by_cases hop : op = .pow
    · subst hop
      simp only [arithmetic, ht, if_true] at h
      exact .inl ⟨type_power ha ht h, not_fixed_ratio_of_powResult ht⟩
    · have hwidth := width_arithmeticResult hop ht
      by_cases hk : t.kind = .real
      · rw [arithmetic_eq_combine hop ht] at h
        exact .inl ⟨type_combine_real hk (hk ▸ hwidth) h,
          .inl fun h => absurd (hk.symm.trans h) (by decide)⟩
      · obtain ⟨hra, hrb⟩ := operands_ne_real hop ht hk
        rcases arithmetic_cases hra hrb p hop ht with
          ⟨hint, x, y, hx, hy, heq⟩ | ⟨hratio, x, y, hx, hy, heq⟩
        · rw [heq] at h
          cases hz : integralOp op x y with
          | error e =>
            rw [hz] at h
            cases h
          | ok z =>
            rw [hz] at h
            cases h
            -- The static type holds the exact result, so it is where the result goes.
            have hholds := holds_of_arithmeticResult (holds_of_toInt? ha hx)
              (holds_of_toInt? hb hy) ht hz
            split
            · rename_i hnat
              exact .inl ⟨type_natural hnat (hnat ▸ hwidth) hholds,
                .inl fun h => absurd (hnat.symm.trans h) (by decide)⟩
            · rename_i hnat
              have hkint : t.kind = .int := by
                cases htk : t.kind <;> simp_all [NumericKind.isIntegral]
              exact .inl ⟨type_integer hkint (hkint ▸ hwidth) hholds,
                .inl fun h => absurd (hkint.symm.trans h) (by decide)⟩
        · rw [heq] at h
          cases hq : ratioOp op x y with
          | error e =>
            rw [hq] at h
            cases h
          | ok q =>
            rw [hq] at h
            cases h
            -- Only here the representation may differ from the static type.
            by_cases hw : t.width = 0
            · rw [hw]
              exact .inl ⟨NumericType.ext hratio.symm hw.symm, .inr rfl⟩
            · exact .inr ⟨hratio, hw, x, y, q, hx, hy, hq, rfl⟩

end Number

/-- The result of an operator on numbers has the static type, except that a fixed ratio is as wide as its
parts need; then it has the narrowest width that holds the exact result, if any. -/
theorem representation_of_result {a b : Number} {op : BinaryOp} {p : Nat} {v : Value}
    (ha : a.Proper) (hb : b.Proper) (hop : op.isArithmetic = true)
    (h : Value.binaryOp op (.number a) (.number b) p = .ok v) :
    ∃ n t, v = .number n ∧ arithmeticResult? op a.type b.type = some t ∧ n.type.kind = t.kind ∧
      (t.kind ≠ .ratio ∨ t.width = 0 → n.type.width = t.width) ∧
      (t.kind = .ratio → t.width ≠ 0 →
        ∃ x y q, a.toRat? = some x ∧ b.toRat? = some y ∧ ExactResult op x y q ∧
          n.toRat? = some q ∧
          (∀ w : RatioWidth, n.type.width = w.bits ↔ NarrowestRatio t.width q w) ∧
          (n.type.width = 0 ↔ ∀ w : RatioWidth, t.width ≤ w.bits → ¬FitsRatio w q)) := by
  rw [Value.binaryOp_number hop] at h
  cases harith : Number.arithmetic op a b p with
  | error e =>
    rw [harith] at h
    exact nomatch h
  | ok n =>
    rw [harith] at h
    cases h
    obtain ⟨t, ht, htype⟩ := Number.type_of_arithmetic ha hb harith
    refine ⟨n, t, rfl, ht, ?_⟩
    rcases htype with ⟨htype, hfixed⟩ | ⟨hk, hw, x, y, q, hx, hy, hq, rfl⟩
    · rw [htype]
      exact ⟨rfl, fun _ => rfl, fun hk hw => (hfixed.elim (absurd hk) (absurd · hw))⟩
    · obtain ⟨hkind, hnarrow, hnone⟩ := Number.width_rational q hw
      refine ⟨hkind.trans hk.symm, fun hfixed => (hfixed.elim (absurd hk) (absurd · hw)), ?_⟩
      exact fun _ _ => ⟨x, y, q, hx, hy, Number.exactResult_of_ratioOp hq,
        Number.toRat?_rational q t.width, hnarrow, hnone⟩

/-- Twice the greatest whole number of a 32-bit ratio needs the next width, though the static type of
the sum is the 32-bit ratio. -/
theorem representation_of_result_next_width :
    (Number.ratio .bits32 ⟨32767, by decide⟩).Proper ∧ BinaryOp.add.isArithmetic = true ∧
      Value.binaryOp .add (.number (.ratio .bits32 ⟨32767, by decide⟩))
        (.number (.ratio .bits32 ⟨32767, by decide⟩)) 256 =
          .ok (.number (.ratio .bits64 ⟨65534, by decide⟩)) ∧
      NarrowestRatio 32 65534 .bits64 := by
  have hresult : Value.binaryOp .add (.number (.ratio .bits32 ⟨32767, by decide⟩))
      (.number (.ratio .bits32 ⟨32767, by decide⟩)) 256 =
        .ok (.number (.ratio .bits64 ⟨65534, by decide⟩)) := by cbv
  refine ⟨trivial, rfl, hresult, ?_⟩
  obtain ⟨n, t, hn, ht, _, _, hfixed⟩ := representation_of_result
    (a := .ratio .bits32 ⟨32767, by decide⟩) (b := .ratio .bits32 ⟨32767, by decide⟩)
    trivial trivial rfl hresult
  cases hn
  cases ht
  obtain ⟨x, y, q, _, _, _, hq, hnarrow, _⟩ := hfixed rfl (by decide)
  cases hq
  exact (hnarrow .bits64).1 rfl

end NumericTower
