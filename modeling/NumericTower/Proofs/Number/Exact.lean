import Mathlib
import NumericTower.Proofs.Number.Range
import NumericTower.Value.Operators

/-!
# Exact arithmetic

Naturals, integers and ratios of every representation compute exactly: no result is truncated, wraps or
is missing, other than a quotient or a remainder by zero.

## Key results

- `toInt?_natural` / `toInt?_integer` / `toRat?_rational`: narrowing keeps the exact value
- `combine_integral` / `combine_ratio`: an operator computes on the exact values of its operands
- `exact_arithmetic`: the results of all operators on exact operands
-/

namespace NumericTower

open NumericType

namespace Number

variable {a b : Number} {op : BinaryOp} {t : NumericType} {p : Nat}

/-! ## Exact values of results -/

/-- The integer of a whole result in a representation is the one that was put there. -/
@[simp] theorem toInt?_integer (z : Int) (w : Nat) : (integer z w).toInt? = some z := by
  unfold integer
  split
  · rfl
  · -- The search takes a width only if it holds the integer itself.
    cases hfound : (IntegralWidth.all.filter (w ≤ ·.bits)).findSome? fun v =>
        (FixedInt.ofInt? v z).map (Number.int v) with
    | none => rfl
    | some n =>
      obtain ⟨v, _, hn⟩ := List.exists_of_findSome?_eq_some hfound
      unfold FixedInt.ofInt? at hn
      split at hn
      · cases hn
        rfl
      · exact nomatch hn

@[simp] theorem toInt?_natural (z : Int) (w : Nat) : (natural z w).toInt? = some z := by
  unfold natural
  split
  · exact toInt?_integer z w
  · split
    · rfl
    · cases hfound : (IntegralWidth.all.filter (w ≤ ·.bits)).findSome? fun v =>
          (FixedNat.ofInt? v z).map (Number.nat v) with
      | none => rfl
      | some n =>
        obtain ⟨v, _, hn⟩ := List.exists_of_findSome?_eq_some hfound
        unfold FixedNat.ofInt? at hn
        split at hn
        · rename_i hz
          cases hn
          exact congrArg some (Int.toNat_of_nonneg hz.1)
        · exact nomatch hn

/-- The rational of a number in a ratio representation is the one that was put there. -/
@[simp] theorem toRat?_rational (q : Rat) (w : Nat) : (rational q w).toRat? = some q := by
  unfold rational
  split
  · rfl
  · cases hfound : (RatioWidth.all.filter (w ≤ ·.bits)).findSome? fun v =>
        (FixedRatio.ofRat? v q).map (Number.ratio v) with
    | none => rfl
    | some n =>
      obtain ⟨v, _, hn⟩ := List.exists_of_findSome?_eq_some hfound
      unfold FixedRatio.ofRat? at hn
      split at hn
      · cases hn
        rfl
      · exact nomatch hn

/-- A whole number as a rational. -/
theorem toRat?_of_toInt? {n : Number} {z : Int} (h : n.toInt? = some z) :
    n.toRat? = some (z : Rat) := by
  cases n <;> cases h <;> rfl

/-- A natural or an integer has an exact integer value. -/
theorem exists_toInt? (h : a.type.kind.isIntegral = true) : ∃ z, a.toInt? = some z := by
  cases a with
  | nat | bigNat | int | bigInt => exact ⟨_, rfl⟩
  | ratio | bigRatio | real32 | real64 | bigReal => exact absurd h Bool.false_ne_true

/-- A natural, an integer or a ratio has an exact rational value. -/
theorem exists_toRat? (h : a.type.kind ≠ .real) : ∃ x, a.toRat? = some x := by
  cases a with
  | nat | bigNat | int | bigInt | ratio | bigRatio => exact ⟨_, rfl⟩
  | real32 | real64 | bigReal => exact absurd rfl h

/-! ## Operators on exact values -/

@[simp] theorem both_some {α : Type} (x y : α) : both (some x) (some y) = .ok (x, y) := rfl

/-- A whole result is computed on the exact integers of the operands. -/
theorem combine_integral {x y : Int} (ht : t.kind.isIntegral = true) (hx : a.toInt? = some x)
    (hy : b.toInt? = some y) :
    combine op a b t p = (integralOp op x y).map fun z =>
      if t.kind = .nat then natural z t.width else integer z t.width := by
  unfold combine
  cases hk : t.kind with
  | nat =>
    rw [hx, hy, both_some]
    show (integralOp op x y >>= fun z => pure (natural z t.width)) = _
    cases integralOp op x y <;> rfl
  | int =>
    rw [hx, hy, both_some]
    show (integralOp op x y >>= fun z => pure (integer z t.width)) = _
    cases integralOp op x y <;> rfl
  | ratio | real =>
    rw [hk] at ht
    exact absurd ht Bool.false_ne_true

/-- A rational result is computed on the exact rationals of the operands. -/
theorem combine_ratio {x y : Rat} (ht : t.kind = .ratio) (hx : a.toRat? = some x)
    (hy : b.toRat? = some y) :
    combine op a b t p = (ratioOp op x y).map (rational · t.width) := by
  unfold combine
  simp only [ht]
  rw [hx, hy, both_some]
  show (ratioOp op x y >>= fun q => pure (rational q t.width)) = _
  cases ratioOp op x y <;> rfl

end Number

/-- What an operator computes exactly from two rationals; a remainder is that of whole numbers, and the
sign of the divisor does not matter. -/
def ExactResult (op : BinaryOp) (x y q : Rat) : Prop :=
  match op with
  | .add => q = x + y
  | .sub => q = x - y
  | .mul => q = x * y
  | .div => q = x / y
  | .mod => 0 ≤ q ∧ q < |y| ∧ ∃ k : Int, x - q = k * y
  | _ => False

namespace Number

variable {a b : Number} {op : BinaryOp} {t : NumericType} {p : Nat}

/-- A whole result is exact. -/
theorem exactResult_of_integralOp {x y z : Int} (h : integralOp op x y = .ok z) :
    ExactResult op x y z := by
  rcases integralOp_eq_ok_iff.1 h with ⟨rfl, rfl⟩ | ⟨rfl, rfl⟩ | ⟨rfl, rfl⟩ | ⟨rfl, hy, rfl⟩
  · exact Int.cast_add x y
  · exact Int.cast_sub x y
  · exact Int.cast_mul x y
  -- The quotient of the division with remainder is the multiple of the divisor.
  · refine ⟨?_, ?_, x / y, ?_⟩
    · exact Int.cast_nonneg (Int.emod_nonneg x hy)
    · rw [← Int.cast_abs]
      exact Int.cast_lt.2 (Int.emod_lt_abs x hy)
    · rw [← Int.cast_sub, ← Int.cast_mul]
      congr 1
      have := Int.emod_add_mul_ediv x y
      rw [mul_comm] at this
      omega

/-- A rational result is exact. -/
theorem exactResult_of_ratioOp {x y q : Rat} (h : ratioOp op x y = .ok q) :
    ExactResult op x y q := by
  cases op <;> simp only [ratioOp, Except.ok.injEq, reduceCtorEq] at h
  · exact h.symm
  · exact h.symm
  · exact h.symm
  -- a quotient, which is missing for zero
  · by_cases hy : y = 0
    · simp [Rational.divide?, hy] at h
    · simp only [Rational.divide?, hy, if_false, Except.ok.injEq] at h
      exact h.symm

/-- A whole result is missing for a remainder by zero only. -/
theorem integralOp_eq_error {x y : Int} {e : OpError}
    (hop : op = .add ∨ op = .sub ∨ op = .mul ∨ op = .mod) (h : integralOp op x y = .error e) :
    op = .mod ∧ y = 0 ∧ e = .divisionByZero := by
  rcases hop with rfl | rfl | rfl | rfl
  · exact nomatch h
  · exact nomatch h
  · exact nomatch h
  · by_cases hy : y = 0
    · simp only [integralOp, Integer.remainder?, hy, if_true, Except.error.injEq] at h
      exact ⟨rfl, hy, h.symm⟩
    · simp [integralOp, Integer.remainder?, hy] at h

/-- There is a whole result unless the divisor of a remainder is zero. -/
theorem exists_integralOp {x y : Int} (hop : op = .add ∨ op = .sub ∨ op = .mul ∨ op = .mod)
    (hy : op = .mod → y ≠ 0) : ∃ z, integralOp op x y = .ok z := by
  cases hz : integralOp op x y with
  | ok z => exact ⟨z, rfl⟩
  | error e =>
    obtain ⟨hmod, hzero, -⟩ := integralOp_eq_error hop hz
    exact absurd hzero (hy hmod)

/-- A whole result is the only exact one. -/
theorem exactResult_iff {x y z : Int} (h : integralOp op x y = .ok z) (q : Rat) : ExactResult op x y q ↔ q = z := by
  refine ⟨fun hq => ?_, fun hq => hq ▸ exactResult_of_integralOp h⟩
  rcases integralOp_eq_ok_iff.mp h with ⟨rfl, rfl⟩ | ⟨rfl, rfl⟩ | ⟨rfl, rfl⟩ | ⟨rfl, hy, rfl⟩
  · exact hq.trans (Int.cast_add x y).symm
  · exact hq.trans (Int.cast_sub x y).symm
  · exact hq.trans (Int.cast_mul x y).symm
  · -- A remainder is a whole number, and there is one of them below the magnitude of the divisor.
    obtain ⟨h0, hlt, k, hk⟩ := hq
    obtain rfl : q = (x - k * y : Int) := by
      push_cast
      linarith only [hk]
    have hunique : x / y = k ∧ x % y = x - k * y :=
      (Int.ediv_emod_unique'' hy).mpr ⟨by ring, by exact_mod_cast h0, by exact_mod_cast hlt⟩
    rw [hunique.2]

theorem exactResult_mod {x y : Int} (hy : y ≠ 0) : ExactResult .mod x y (x % y : Int) :=
  exactResult_of_integralOp (integralOp_eq_ok_iff.mpr (.inr (.inr (.inr ⟨rfl, hy, rfl⟩))))

theorem integralOp_of_exactResult {x y z : Int} (hop : op = .add ∨ op = .sub ∨ op = .mul ∨ op = .mod)
    (h : ExactResult op x y z) : integralOp op x y = .ok z := by
  have hy : op = .mod → y ≠ 0 := by
    rintro rfl rfl
    -- No number is below the magnitude of zero.
    obtain ⟨h0, hlt, -⟩ := h
    rw [Int.cast_zero, abs_zero] at hlt
    exact absurd hlt (not_lt.mpr h0)
  obtain ⟨z', hz'⟩ := exists_integralOp (x := x) hop hy
  rwa [Int.cast_injective ((exactResult_iff hz' z).mp h)]

/-- A rational result is missing for a quotient by zero only. -/
theorem ratioOp_eq_error {x y : Rat} {e : OpError}
    (hop : op = .add ∨ op = .sub ∨ op = .mul ∨ op = .div) (h : ratioOp op x y = .error e) :
    op = .div ∧ y = 0 ∧ e = .divisionByZero := by
  rcases hop with rfl | rfl | rfl | rfl
  · exact nomatch h
  · exact nomatch h
  · exact nomatch h
  · by_cases hy : y = 0
    · simp only [ratioOp, Rational.divide?, hy, if_true, Except.error.injEq] at h
      exact ⟨rfl, hy, h.symm⟩
    · simp [ratioOp, Rational.divide?, hy] at h

end Number

/-! ## Static types of exact results -/

namespace NumericType

variable {a b t : NumericType} {op : BinaryOp}

theorem isIntegral_join {k l : NumericKind} :
    (k.join l).isIntegral = true ↔ k.isIntegral = true ∧ l.isIntegral = true := by
  cases k <;> cases l <;> decide

theorem join_ne_real {k l : NumericKind} (hk : k ≠ .real) (hl : l ≠ .real) :
    k.join l ≠ .real := by
  unfold NumericKind.join
  split <;> assumption

/-- The category of a result other than a power, by the category that holds both operands. -/
def resultKind (op : BinaryOp) (kind : NumericKind) : NumericKind :=
  match op with
  | .sub => differenceKind kind
  | .div => quotientKind kind
  | _ => kind

/-- The operators other than the power that have a static result type; a remainder has whole
operands. -/
theorem op_of_arithmeticResult (hop : op ≠ .pow) (ht : arithmeticResult? op a b = some t) :
    op = .add ∨ op = .sub ∨ op = .mul ∨ op = .div ∨
      op = .mod ∧ (a.kind.join b.kind).isIntegral = true ∧ t = promote a b := by
  cases op <;> simp only [arithmeticResult?, reduceCtorEq] at ht <;>
    simp only [true_or, or_true, reduceCtorEq, false_or, true_and]
  case mod =>
    split at ht
    · rename_i hj
      exact ⟨hj, (Option.some.inj ht).symm⟩
    · cases ht
  case pow => exact absurd rfl hop

theorem kind_arithmeticResult (hop : op ≠ .pow) (ht : arithmeticResult? op a b = some t) :
    t.kind = resultKind op (a.kind.join b.kind) := by
  rcases op_of_arithmeticResult hop ht with rfl | rfl | rfl | rfl | ⟨rfl, _, rfl⟩
  · cases ht
    exact kind_widen
  · cases ht
    exact kind_widen
  · cases ht
    exact kind_widen
  · cases ht
    exact kind_widen
  · exact kind_widen

theorem isIntegral_differenceKind (k : NumericKind) :
    (differenceKind k).isIntegral = k.isIntegral := by
  cases k <;> rfl

theorem isIntegral_quotientKind (k : NumericKind) : (quotientKind k).isIntegral = false := by
  cases k <;> rfl

theorem isIntegral_resultKind {k : NumericKind} (hop : op = .add ∨ op = .sub ∨ op = .mul ∨ op = .mod)
    (hk : k.isIntegral = true) : (resultKind op k).isIntegral = true := by
  rcases hop with rfl | rfl | rfl | rfl
  · exact hk
  · exact isIntegral_differenceKind k ▸ hk
  · exact hk
  · exact hk

theorem level_le_resultKind (op : BinaryOp) (k : NumericKind) : k.level ≤ (resultKind op k).level := by
  cases op <;> cases k <;> decide

/-- A whole result comes from whole operands, by an operator that divides with a remainder if at
all. -/
theorem of_integral_result (hop : op ≠ .pow) (ht : arithmeticResult? op a b = some t)
    (hk : t.kind.isIntegral = true) :
    (a.kind.isIntegral = true ∧ b.kind.isIntegral = true) ∧
      (op = .add ∨ op = .sub ∨ op = .mul ∨ op = .mod) := by
  rw [kind_arithmeticResult hop ht] at hk
  rw [← isIntegral_join]
  rcases op_of_arithmeticResult hop ht with rfl | rfl | rfl | rfl | ⟨rfl, hj, _⟩
  · exact ⟨hk, by simp⟩
  · exact ⟨isIntegral_differenceKind _ ▸ hk, by simp⟩
  · exact ⟨hk, by simp⟩
  -- a quotient is never whole
  · exact absurd ((isIntegral_quotientKind _).symm.trans hk) Bool.false_ne_true
  · exact ⟨hj, by simp⟩

/-- A rational result is none of a remainder. -/
theorem of_ratio_result (hop : op ≠ .pow) (ht : arithmeticResult? op a b = some t)
    (hk : t.kind = .ratio) : op = .add ∨ op = .sub ∨ op = .mul ∨ op = .div := by
  rcases op_of_arithmeticResult hop ht with rfl | rfl | rfl | rfl | ⟨rfl, hj, _⟩
  · simp
  · simp
  · simp
  · simp
  -- A remainder has whole operands, so it is no ratio.
  · have hj' : a.kind.join b.kind = .ratio := (kind_arithmeticResult hop ht).symm.trans hk
    rw [hj'] at hj
    exact absurd hj Bool.false_ne_true

/-- A result of operands that are no reals is no real, a power apart. -/
theorem kind_ne_real (ha : a.kind ≠ .real) (hb : b.kind ≠ .real) (hop : op ≠ .pow)
    (ht : arithmeticResult? op a b = some t) : t.kind ≠ .real := by
  have hj := join_ne_real ha hb
  rw [kind_arithmeticResult hop ht]
  rcases op_of_arithmeticResult hop ht with rfl | rfl | rfl | rfl | ⟨rfl, _, _⟩
  · exact hj
  · generalize a.kind.join b.kind = kind at hj ⊢
    cases kind <;> first | exact hj | decide
  · exact hj
  · exact join_ne_real hj (by decide)
  · exact hj

end NumericType

namespace Number

variable {a b : Number} {op : BinaryOp} {t : NumericType}

/-- An operator that has a static result type, and is no power, combines its operands in that type. -/
theorem arithmetic_eq_combine (hop : op ≠ .pow) (ht : arithmeticResult? op a.type b.type = some t) (p : Nat) :
    arithmetic op a b p = combine op a b t p := by
  simp only [arithmetic, ht, hop, if_false]

/-- How operands that are no reals are computed with: on their exact integers for a whole result, else
on their exact rationals. -/
theorem arithmetic_cases (ha : a.type.kind ≠ .real) (hb : b.type.kind ≠ .real) (p : Nat)
    (hop : op ≠ .pow) (ht : arithmeticResult? op a.type b.type = some t) :
    (t.kind.isIntegral = true ∧ ∃ x y : Int, a.toInt? = some x ∧ b.toInt? = some y ∧
      arithmetic op a b p = (integralOp op x y).map fun z =>
        if t.kind = .nat then natural z t.width else integer z t.width) ∨
    (t.kind = .ratio ∧ ∃ x y : Rat, a.toRat? = some x ∧ b.toRat? = some y ∧
      arithmetic op a b p = (ratioOp op x y).map (rational · t.width)) := by
  have harith := arithmetic_eq_combine hop ht p
  -- The category of the static type decides which exact values are used.
  cases hk : t.kind.isIntegral with
  | true =>
    obtain ⟨⟨hka, hkb⟩, _⟩ := of_integral_result hop ht hk
    obtain ⟨x, hx⟩ := exists_toInt? hka
    obtain ⟨y, hy⟩ := exists_toInt? hkb
    exact .inl ⟨rfl, x, y, hx, hy, harith.trans (combine_integral hk hx hy)⟩
  | false =>
    have hreal := kind_ne_real ha hb hop ht
    have hratio : t.kind = .ratio := by
      cases hkind : t.kind <;> simp_all [NumericKind.isIntegral]
    obtain ⟨x, hx⟩ := exists_toRat? ha
    obtain ⟨y, hy⟩ := exists_toRat? hb
    exact .inr ⟨hratio, x, y, hx, hy, harith.trans (combine_ratio hratio hx hy)⟩

/-- An operator on exact operands gives the exact result, or a division by zero. -/
theorem arithmetic_exact {x y : Rat} (ha : a.type.kind ≠ .real) (hb : b.type.kind ≠ .real)
    (hx : a.toRat? = some x) (hy : b.toRat? = some y) (p : Nat) (hop : op ≠ .pow)
    (ht : arithmeticResult? op a.type b.type = some t) :
    ((op = .div ∨ op = .mod) ∧ y = 0 ∧ arithmetic op a b p = .error .divisionByZero) ∨
    (¬((op = .div ∨ op = .mod) ∧ y = 0) ∧
      ∃ n q, arithmetic op a b p = .ok n ∧ n.toRat? = some q ∧ ExactResult op x y q) := by
  rcases arithmetic_cases ha hb p hop ht with ⟨hk, x', y', hx', hy', h⟩ | ⟨hk, x', y', hx', hy', h⟩
  · obtain ⟨_, hops⟩ := of_integral_result hop ht hk
    obtain rfl : (x' : Rat) = x := Option.some.inj ((toRat?_of_toInt? hx').symm.trans hx)
    obtain rfl : (y' : Rat) = y := Option.some.inj ((toRat?_of_toInt? hy').symm.trans hy)
    cases hz : integralOp op x' y' with
    | error e =>
      obtain ⟨rfl, rfl, rfl⟩ := integralOp_eq_error hops hz
      exact .inl ⟨.inr rfl, rfl, by rw [h, hz]; rfl⟩
    | ok z =>
      refine .inr ⟨?_, _, z, by rw [h, hz]; rfl, ?_, exactResult_of_integralOp hz⟩
      -- With a result there was no division by zero.
      · rintro ⟨hdiv, h0⟩
        rw [Int.cast_eq_zero] at h0
        have := integralOp_eq_ok_iff.1 hz
        rcases hops with rfl | rfl | rfl | rfl <;> simp_all
      · apply toRat?_of_toInt?
        split
        · exact toInt?_natural z t.width
        · exact toInt?_integer z t.width
  · have hops := of_ratio_result hop ht hk
    obtain rfl : x' = x := Option.some.inj (hx'.symm.trans hx)
    obtain rfl : y' = y := Option.some.inj (hy'.symm.trans hy)
    cases hq : ratioOp op x' y' with
    | error e =>
      obtain ⟨rfl, rfl, rfl⟩ := ratioOp_eq_error hops hq
      exact .inl ⟨.inl rfl, rfl, by rw [h, hq]; rfl⟩
    | ok q =>
      refine .inr ⟨?_, _, q, by rw [h, hq]; rfl, toRat?_rational q t.width,
        exactResult_of_ratioOp hq⟩
      rintro ⟨hdiv, rfl⟩
      rcases hops with rfl | rfl | rfl | rfl <;> simp_all [ratioOp, Rational.divide?]

/-- The negated number has the negated exact value. -/
theorem toRat?_negate {x : Rat} (ha : a.type.kind ≠ .real) (hx : a.toRat? = some x) :
    a.negate.toRat? = some (-x) := by
  cases a with
  | nat w n | bigNat n | int w n | bigInt n =>
    cases hx
    exact (toRat?_of_toInt? (toInt?_integer _ _)).trans (congrArg some (Int.cast_neg _))
  | ratio w r | bigRatio q =>
    cases hx
    exact toRat?_rational _ _
  | real32 | real64 | bigReal => exact absurd rfl ha

end Number

/-- An arithmetic operator on numbers is that of numbers. -/
theorem Value.binaryOp_number {op : BinaryOp} (h : op.isArithmetic = true) (a b : Number) (p : Nat) :
    Value.binaryOp op (.number a) (.number b) p = (Number.arithmetic op a b p).map .number := by
  cases op <;> first | rfl | exact absurd h Bool.false_ne_true

/-- Naturals, integers and ratios of any representation compute exactly: a sum, a difference, a product,
a quotient or a remainder with a static type has the exact value, unless it divides by zero, and then
that is the error; and every such number has an exact negation. -/
theorem exact_arithmetic {a b : Number} (ha : a.type.kind ≠ .real) (hb : b.type.kind ≠ .real)
    (p : Nat) :
    ∃ x y : Rat, a.toRat? = some x ∧ b.toRat? = some y ∧
      (∀ op ∈ [BinaryOp.add, .sub, .mul, .div, .mod],
        (arithmeticResult? op a.type b.type).isSome = true →
        (Value.binaryOp op (.number a) (.number b) p = .error .divisionByZero ↔
          (op = .div ∨ op = .mod) ∧ y = 0) ∧
        (¬((op = .div ∨ op = .mod) ∧ y = 0) →
          ∃ n q, Value.binaryOp op (.number a) (.number b) p = .ok (.number n) ∧
            n.toRat? = some q ∧ ExactResult op x y q)) ∧
      ∃ n, Value.unaryOp .neg (.number a) = .ok (.number n) ∧ n.toRat? = some (-x) := by
  obtain ⟨x, hx⟩ := Number.exists_toRat? ha
  obtain ⟨y, hy⟩ := Number.exists_toRat? hb
  refine ⟨x, y, hx, hy, ?_, _, rfl, Number.toRat?_negate ha hx⟩
  intro op hop hdef
  obtain ⟨t, ht⟩ := Option.isSome_iff_exists.1 hdef
  have hpow : op ≠ .pow := by
    rintro rfl
    exact absurd hop (by decide)
  have harith : op.isArithmetic = true := by
    simp only [List.mem_cons, List.not_mem_nil, or_false] at hop
    rcases hop with rfl | rfl | rfl | rfl | rfl <;> rfl
  rw [Value.binaryOp_number harith]
  rcases Number.arithmetic_exact ha hb hx hy p hpow ht with ⟨hdiv, h0, h⟩ | ⟨hdiv, n, q, h, hq, he⟩
  · rw [h]
    exact ⟨⟨fun _ => ⟨hdiv, h0⟩, fun _ => rfl⟩, fun hne => absurd ⟨hdiv, h0⟩ hne⟩
  · rw [h]
    have hok : (Except.ok n : Except OpError Number).map Value.number ≠ .error .divisionByZero := by
      simp [Except.map]
    exact ⟨⟨fun herr => absurd herr hok, fun hd => absurd hd hdiv⟩, fun _ => ⟨n, q, rfl, hq, he⟩⟩

/-- The square of the least 64-bit integer, which no fixed width holds, is exact. -/
theorem exact_arithmetic_square_of_least :
    (Number.int .bits64 ⟨-2 ^ 63, by decide⟩).type.kind ≠ .real ∧
      ∃ n, Value.binaryOp .mul (.number (.int .bits64 ⟨-2 ^ 63, by decide⟩))
          (.number (.int .bits64 ⟨-2 ^ 63, by decide⟩)) 256 = .ok (.number n) ∧
        n.toRat? = some (2 ^ 126) := by
  refine ⟨by decide, ?_⟩
  obtain ⟨x, y, hx, hy, hops, _⟩ := exact_arithmetic
    (a := .int .bits64 ⟨-2 ^ 63, by decide⟩) (b := .int .bits64 ⟨-2 ^ 63, by decide⟩)
    (by decide) (by decide) 256
  cases hx
  cases hy
  obtain ⟨n, q, h, hq, he⟩ := (hops .mul (by simp) rfl).2 (by simp)
  refine ⟨n, h, hq.trans (congrArg some (he.trans ?_))⟩
  norm_num

end NumericTower
