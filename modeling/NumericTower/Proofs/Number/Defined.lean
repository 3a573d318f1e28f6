import Mathlib
import NumericTower.Proofs.Number.Conversion
import NumericTower.Proofs.Number.Overflow
import NumericTower.Proofs.NumericType.Promotion

/-!
# Where arithmetic is defined

An operator that has a static result type has a result on all finite numbers of the operand types, unless it
divides by zero or an exponent that it computes does not fit into 64 bits. The operands fit into the type of a real
result, so they are converted there, and no number other than zero becomes zero on the way.

## Key results
- `Number.exists_converted`: a finite number in a fixed real type that its own type fits into
- `Number.combine_fixed_real`: fixed real results
- `Number.computedExponents_of_dividesByZero`: no exponents are computed for a quotient by zero
- `Number.arithmetic_defined`: results of any category
-/

namespace NumericTower

open NumericType

/-! ### Operands and result types -/

namespace NumericType

variable {a b t : NumericType} {op : BinaryOp}

theorem le_of_sumWidth? {kind : NumericKind} {w w' : Nat} (h : sumWidth? kind w = some w') : w ≤ w' := by
  unfold sumWidth? at h
  split at h
  · have := eq_of_checkedWidth? h
    omega
  · exact (Option.some.inj h).le

theorem le_of_productWidth? {kind : NumericKind} {w w' : Nat} (h : productWidth? kind w = some w') :
    w ≤ w' := by
  unfold productWidth? at h
  split at h
  · have := eq_of_checkedWidth? h
    omega
  · exact (Option.some.inj h).le

/-- Both operands fit into the static type of every result but a power. -/
theorem fits_of_arithmeticResult (hop : op ≠ .pow) (ht : arithmeticResult? op a b = some t) :
    a.fits t = true ∧ b.fits t = true := by
  rcases op_of_arithmeticResult hop ht with rfl | rfl | rfl | rfl | ⟨rfl, -, rfl⟩
  · cases ht
    exact fits_widen le_rfl fun _ _ => le_of_sumWidth?
  · cases ht
    have hlevel : ∀ kind, kind.level ≤ (differenceKind kind).level := by
      rintro (_ | _ | _ | _) <;> decide
    exact fits_widen (hlevel _) fun _ _ => le_of_sumWidth?
  · cases ht
    exact fits_widen le_rfl fun _ _ => le_of_productWidth?
  · cases ht
    exact fits_widen (level_le_join_left _ _) fun _ _ h => (Option.some.inj h).le
  · exact fits_widen le_rfl fun _ _ h => (Option.some.inj h).le

end NumericType

/-! ### Zero -/

/-- A finite float is one of the two zeros if its value is zero. -/
theorem BinaryFloat.isZero_iff {f : FloatFormat} {x : BinaryFloat f} {q : Rat}
    (h : x.toRat? = some q) : x.isZero = true ↔ q = 0 := by
  cases x with
  | nan | infinity => exact nomatch h
  | finite negative rank hrank =>
    rw [toRat?_finite, Option.some.injEq] at h
    have h0 : f.valueOf 0 = 0 := by simp [FloatFormat.valueOf, FloatFormat.significandOf]
    have hvalue : q = 0 ↔ f.valueOf rank = 0 := by
      rw [← h]
      cases negative
      · rfl
      · exact neg_eq_zero
    rw [hvalue, ← h0, f.valueOf_strictMono.injective.eq_iff]
    exact beq_iff_eq

namespace Number

variable {a b n : Number} {t : NumericType} {op : BinaryOp} {q x y : Rat} {p : Nat}

/-! ### Conversions to reals -/

/-- What a conversion to a fixed real type makes of a value is zero only if the value is. -/
theorem Converts.eq_zero_iff {s : NumericType} {r : Rat} (h : Converts s t q r) : r = 0 ↔ q = 0 := by
  by_cases hexact : r = q
  · rw [hexact]
  · have hcases : s.kind = .ratio ∧ t.kind = .real := by
      by_contra hne
      exact hexact (h.exact_iff.mpr fun hs ht => absurd ⟨hs, ht⟩ hne)
    obtain ⟨b, d, -, hround, rfl⟩ := h.rounded hcases.1 hcases.2
    exact hround.toRat_eq_zero_iff (Nat.succ_pos b)

/-- A finite number in a fixed real type that its own type fits into. -/
theorem exists_converted (hq : n.toRat? = some q) (ht : t ∈ fixed .real)
    (hfits : n.type.fits t = true) (hne : n.type ≠ t) (p : Nat) :
    ∃ w r, n.convertTo? t p = some w ∧ w.type = t ∧ w.toRat? = some r ∧ (r = 0 ↔ q = 0) := by
  by_cases hk : n.type.kind = .real
  · obtain ⟨w, hw, htype, hwq⟩ := exists_wider_float hfits hne p hq hk ht
    exact ⟨w, q, hw, htype, hwq, Iff.rfl⟩
  · obtain ⟨w, r, hw, htype, hwr, hconv⟩ := exists_fixed_float hfits hne p hq hk ht
    exact ⟨w, r, hw, htype, hwr, hconv.eq_zero_iff⟩

/-- The float of a finite number whose type fits into that of a format, by the conversion to that format. -/
theorem exists_float {f : FloatFormat} {toFloat? : Number → Option (BinaryFloat f)}
    {g : BinaryFloat f → Number} (ht : t ∈ fixed .real) (hg : ∀ x, (g x).toRat? = x.toRat?)
    (hsame : n.type = t → ∃ x, n = g x ∧ toFloat? n = some x)
    (hconvert : n.type ≠ t → n.convertTo? t 0 = (toFloat? n).map g)
    (hq : n.toRat? = some q) (hfits : n.type.fits t = true) :
    ∃ x r, toFloat? n = some x ∧ x.toRat? = some r ∧ (r = 0 ↔ q = 0) := by
  by_cases hne : n.type = t
  · obtain ⟨x, rfl, hx⟩ := hsame hne
    exact ⟨x, q, hx, (hg x).symm.trans hq, Iff.rfl⟩
  · obtain ⟨w, r, hw, -, hwr, hzero⟩ := exists_converted hq ht hfits hne 0
    obtain ⟨x, hx, rfl⟩ := Option.map_eq_some_iff.mp ((hconvert hne).symm.trans hw)
    exact ⟨x, r, hx, (hg x).symm.trans hwr, hzero⟩

theorem exists_float32 (hq : n.toRat? = some q) (hfits : n.type.fits .real32 = true) :
    ∃ x r, n.toFloat32? = some x ∧ x.toRat? = some r ∧ (r = 0 ↔ q = 0) := by
  refine exists_float (g := .real32) (by decide) (fun _ => rfl) (fun h => ?_) (fun hne => ?_) hq hfits
  · cases n <;> cases h
    exact ⟨_, rfl, rfl⟩
  · rw [convertTo?, if_neg (not_refused hfits hne)]
    rfl

theorem exists_float64 (hq : n.toRat? = some q) (hfits : n.type.fits .real64 = true) :
    ∃ x r, n.toFloat64? = some x ∧ x.toRat? = some r ∧ (r = 0 ↔ q = 0) := by
  refine exists_float (g := .real64) (by decide) (fun _ => rfl) (fun h => ?_) (fun hne => ?_) hq hfits
  · cases n <;> cases h
    exact ⟨_, rfl, rfl⟩
  · rw [convertTo?, if_neg (not_refused hfits hne)]
    rfl

/-- Every finite number as an unbounded real, which is zero only if the number is. -/
theorem exists_bigReal (hq : n.toRat? = some q) (p : Nat) :
    ∃ x, n.toBigReal? p = some x ∧ (x.toRat = 0 ↔ q = 0) := by
  obtain ⟨x, b, hx, -, -, hround⟩ := exists_toBigReal? hq p
  have hb : 0 < b := hround.precision ▸ Nat.lt_of_lt_of_le two_pos x.two_le_precision
  exact ⟨x, hx, hround.value.toRat_eq_zero_iff hb⟩

end Number

/-! ### Results -/

/-- Whether an operator with a right operand of this value divides by zero. -/
def DividesByZero (op : BinaryOp) (y : Rat) : Prop :=
  (op = .div ∨ op = .mod) ∧ y = 0

/-- A result of an operator with a right operand of the value `y` is missing only if it is divided by zero,
and that is the error then. -/
structure FailsByZeroOnly {α : Type} (op : BinaryOp) (y : Rat) (r : Except OpError α) : Prop where
  error : DividesByZero op y → r = .error .divisionByZero
  ok : ¬DividesByZero op y → ∃ v, r = .ok v

namespace FailsByZeroOnly

variable {α β : Type} {op : BinaryOp} {y y' : Rat} {r : Except OpError α}

theorem of_ok {v : α} (hop : op ≠ .div) (hmod : op ≠ .mod) : FailsByZeroOnly op y (.ok v) where
  error h := absurd h.1 (by simp [hop, hmod])
  ok _ := ⟨v, rfl⟩

theorem map (h : FailsByZeroOnly op y r) (g : α → β) : FailsByZeroOnly op y (r.map g) where
  error hzero := by rw [h.error hzero]; rfl
  ok hzero := by
    obtain ⟨v, hv⟩ := h.ok hzero
    exact ⟨g v, by rw [hv]; rfl⟩

/-- The divisor may be converted if only zero becomes zero. -/
theorem of_converted (h : FailsByZeroOnly op y' r) (hzero : y' = 0 ↔ y = 0) : FailsByZeroOnly op y r := by
  have hdivides : DividesByZero op y ↔ DividesByZero op y' := and_congr_right fun _ => hzero.symm
  exact ⟨fun hy => h.error (hdivides.mp hy), fun hy => h.ok fun hy' => hy (hdivides.mpr hy')⟩

end FailsByZeroOnly

namespace Number

variable {a b n : Number} {t : NumericType} {op : BinaryOp} {x y : Rat}

/-- The operators that have real results, powers apart. -/
def RealOp (op : BinaryOp) : Prop :=
  op = .add ∨ op = .sub ∨ op = .mul ∨ op = .div

theorem failsByZeroOnly_floatOp {f : FloatFormat} {u v : BinaryFloat f} (hop : RealOp op)
    (hv : v.toRat? = some y) : FailsByZeroOnly op y (floatOp op u v) := by
  rcases hop with rfl | rfl | rfl | rfl
  · exact .of_ok (by decide) (by decide)
  · exact .of_ok (by decide) (by decide)
  · exact .of_ok (by decide) (by decide)
  · have hzero := BinaryFloat.isZero_iff hv
    refine ⟨fun h => if_pos (hzero.mpr h.2), fun h => ⟨u.div v, if_neg fun hz => h ?_⟩⟩
    exact ⟨.inl rfl, hzero.mp hz⟩

theorem failsByZeroOnly_realOp {u v : BigReal} (hop : RealOp op) :
    FailsByZeroOnly op v.toRat (realOp op u v) := by
  rcases hop with rfl | rfl | rfl | rfl
  · exact .of_ok (by decide) (by decide)
  · exact .of_ok (by decide) (by decide)
  · exact .of_ok (by decide) (by decide)
  · refine ⟨fun h => ?_, fun h => ?_⟩
    · rw [realOp, BigReal.divide?_eq_none h.2]
    · obtain ⟨r, hr, -⟩ := BigReal.rounds_divide? (x := u) (y := v) fun hz => h ⟨.inl rfl, hz⟩
      exact ⟨r, by rw [realOp, hr]⟩

/-- A float result is computed on the floats of the operands. -/
theorem combine_real32 {u v : Float32Bits} (hu : a.toFloat32? = some u) (hv : b.toFloat32? = some v)
    (p : Nat) : combine op a b .real32 p = (floatOp op u v).map .real32 :=
  both_bind hu hv (floatOp op) .real32

theorem combine_real64 {u v : Float64Bits} (hu : a.toFloat64? = some u) (hv : b.toFloat64? = some v)
    (p : Nat) : combine op a b .real64 p = (floatOp op u v).map .real64 :=
  both_bind hu hv (floatOp op) .real64

/-- A result of a fixed real type is there for finite operands whose types fit into it, unless it is a quotient by
zero. -/
theorem combine_fixed_real (ht : t ∈ fixed .real) (hop : RealOp op) (ha : a.type.fits t = true)
    (hb : b.type.fits t = true) (hx : a.toRat? = some x) (hy : b.toRat? = some y) (p : Nat) :
    FailsByZeroOnly op y (combine op a b t p) := by
  rcases fraction_cases ht with ⟨rfl, -⟩ | ⟨rfl, -⟩
  · obtain ⟨u, -, hu, -, -⟩ := exists_float32 hx ha
    obtain ⟨v, r, hv, hr, hzero⟩ := exists_float32 hy hb
    rw [combine_real32 hu hv]
    exact ((failsByZeroOnly_floatOp hop hr).of_converted hzero).map _
  · obtain ⟨u, -, hu, -, -⟩ := exists_float64 hx ha
    obtain ⟨v, r, hv, hr, hzero⟩ := exists_float64 hy hb
    rw [combine_real64 hu hv]
    exact ((failsByZeroOnly_floatOp hop hr).of_converted hzero).map _

/-- For a quotient by zero no exponents are computed. -/
theorem computedExponents_of_dividesByZero (hy : b.toRat? = some y) (h : DividesByZero op y) (a : Number) (p : Nat) :
    computedExponents op a b p = [] := by
  have hop : op ≠ .pow := by rcases h.1 with rfl | rfl <;> decide
  rw [computedExponents_of_ne_pow hop]
  cases hstep : realOperation? op a b p with
  | none => rfl
  | some s =>
    unfold realOperation? at hstep
    split at hstep
    case isFalse => cases hstep
    case isTrue =>
      obtain ⟨u, -, hstep⟩ := Option.bind_eq_some_iff.mp hstep
      obtain ⟨v, hv, hstep⟩ := Option.bind_eq_some_iff.mp hstep
      rcases h.1 with rfl | rfl
      · cases hstep
        -- The unbounded real of a zero is zero.
        obtain ⟨v', hv', hzero⟩ := exists_bigReal hy (realPrecision a b p)
        cases hv.symm.trans hv'
        have hdivisor : (BigReal.parts v).isZero = true := (BigReal.isZero_iff v).mpr (hzero.mpr h.2)
        rw [Option.toList_some, List.flatMap_singleton, BigReal.Step.exponents, BigReal.Parts.divideExponents,
          if_pos hdivisor]
      · cases hstep

/-- The category of a result is that of the static type. -/
theorem kind_of_arithmetic (ha : a.Proper) (hb : b.Proper) {p : Nat} (h : arithmetic op a b p = .ok n)
    (ht : arithmeticResult? op a.type b.type = some t) : n.type.kind = t.kind := by
  obtain ⟨t', ht', htype⟩ := type_of_arithmetic ha hb h
  obtain rfl : t' = t := Option.some.inj (ht'.symm.trans ht)
  rcases htype with ⟨hn, -⟩ | ⟨hk, hw, x, y, q, -, -, -, rfl⟩
  · rw [hn]
  · rw [hk, (width_rational q hw).1]

/-- An operator with a real result is one of those that reals have. -/
theorem realOp_of_arithmeticResult (hop : op ≠ .pow) (ht : arithmeticResult? op a.type b.type = some t)
    (hk : t.kind = .real) : RealOp op := by
  rcases op_of_arithmeticResult hop ht with h | h | h | h | ⟨rfl, hintegral, -⟩
  · exact .inl h
  · exact .inr (.inl h)
  · exact .inr (.inr (.inl h))
  · exact .inr (.inr (.inr h))
  · -- A remainder is a whole number.
    have hkind := congrArg NumericKind.isIntegral (kind_arithmeticResult hop ht)
    rw [hk] at hkind
    exact absurd (hkind.trans hintegral) Bool.false_ne_true

/-- An operator that has a static result type has a result of its category for all finite numbers of the
operand types, unless it divides by zero, as far as the exponents that are computed for it fit into 64 bits. -/
theorem arithmetic_defined (hx : a.toRat? = some x) (hy : b.toRat? = some y) (hop : op ≠ .pow)
    (ht : arithmeticResult? op a.type b.type = some t) {p : Nat}
    (hfits : ∀ e ∈ computedExponents op a b p, Integer.InSigned 64 e) :
    FailsByZeroOnly op y (arithmetic op a b p) := by
  by_cases hk : t.kind = .real
  · have hreal := realOp_of_arithmeticResult hop ht hk
    rcases hk ▸ width_arithmeticResult hop ht with hw | hfixed
    · obtain rfl : t = .unbounded .real := NumericType.ext hk hw
      obtain ⟨u, hu, -⟩ := exists_bigReal hx (realPrecision a b p)
      obtain ⟨v, hv, hzero⟩ := exists_bigReal hy (realPrecision a b p)
      rw [arithmetic_bigReal hop ht hu hv, orOverflow_of_fits hfits]
      exact ((failsByZeroOnly_realOp hreal).of_converted hzero).map _
    · obtain ⟨ha, hb⟩ := fits_of_arithmeticResult hop ht
      rw [arithmetic_eq_combine hop ht]
      exact combine_fixed_real hfixed hreal ha hb hx hy p
  · -- Without reals nothing is rounded, and the exact result is known.
    obtain ⟨hra, hrb⟩ := operands_ne_real hop ht hk
    rcases arithmetic_exact hra hrb hx hy p hop ht with ⟨hdiv, h0, h⟩ | ⟨hdiv, v, q, h, -, -⟩
    · exact ⟨fun _ => h, fun hne => absurd ⟨hdiv, h0⟩ hne⟩
    · exact ⟨fun hzero => absurd hzero hdiv, fun _ => ⟨v, h⟩⟩

end Number

end NumericTower
