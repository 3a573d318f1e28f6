import NumericTower.Proofs.Number.Order
import NumericTower.Proofs.Number.RealPrecision

/-!
# Exchanging the operands

The left operand of an operator and the right one are treated alike: the type of the result, the
representation in which it is computed and the precision of an unbounded real depend on both in the same way,
and so does every rounding. Sums and products are therefore the same with the operands exchanged, down to
the representation and the precision, a difference is negated, and the order is turned round.

## Key results
- `BinaryFloat.add_comm` / `BinaryFloat.mul_comm`: sums and products of floats, infinities and signs of zero
  included
- `BigReal.neg_sub`: rounding a difference does not depend on its sign
- `NumericType.arithmeticResult?_comm`, `Number.combine_comm`, `Number.compare?_swap`: the two operands of a
  number operator
- `operands_are_exchangeable`
-/

namespace NumericTower

open NumericType

/-! ### Floats -/

namespace BinaryFloat

variable {f : FloatFormat}

protected theorem add_comm (x y : BinaryFloat f) : x.add y = y.add x := by
  cases x with
  | nan => cases y <;> rfl
  | infinity s =>
    cases y with
    | nan | finite => rfl
    | infinity t =>
      by_cases h : s = t
      · rw [h]
      · rw [add, add, if_neg h, if_neg (Ne.symm h)]
  | finite s m hm =>
    cases y with
    | nan | infinity => rfl
    | finite t n hn => simp only [add, min_comm, Int.add_comm, Bool.and_comm]

protected theorem mul_comm (x y : BinaryFloat f) : x.mul y = y.mul x := by
  cases x with
  | nan => cases y <;> rfl
  | infinity s =>
    cases y with
    | nan => rfl
    | infinity t | finite t n hn => simp only [mul, Bool.xor_comm]
  | finite s m hm =>
    cases y with
    | nan => rfl
    | infinity t => simp only [mul, Bool.xor_comm]
    | finite t n hn => simp only [mul, Bool.xor_comm, Nat.mul_comm, Int.add_comm]

end BinaryFloat

/-! ### Unbounded reals -/

theorem withSign_not (negative : Bool) (x : Rat) : withSign (!negative) x = -withSign negative x := by
  cases negative with
  | true => exact (neg_neg x).symm
  | false => rfl

namespace BigReal

theorem jointPrecision_comm (x y : BigReal) : x.jointPrecision y = y.jointPrecision x :=
  Nat.max_comm _ _

protected theorem add_comm (x y : BigReal) : x.add y = y.add x := by
  rw [add, add, Dyadic.add_comm, jointPrecision_comm]

protected theorem mul_comm (x y : BigReal) : x.mul y = y.mul x := by
  rw [mul, mul, Dyadic.mul_comm, jointPrecision_comm]

@[simp] theorem toRat_neg (x : BigReal) : x.neg.toRat = -x.toRat :=
  Dyadic.toRat_neg x.value

theorem neg_ofMagnitude (negative : Bool) (n : Nat) (e : Int) (p : Nat) :
    (ofMagnitude negative n e p).neg = ofMagnitude (!negative) n e p := by
  refine eq_of_toRat ?_ rfl
  rw [toRat_neg, ofMagnitude, ofMagnitude, toRat_rounded, toRat_rounded, withSign_not]

/-- Rounding does not depend on the sign. -/
theorem neg_round (d : Dyadic) (p : Nat) : (round d p).neg = round (-d) p := by
  cases d with
  | zero =>
    refine eq_of_toRat ?_ rfl
    rw [toRat_neg, round, toRat_zero, neg_zero]
    exact (toRat_zero p).symm
  | ofOdd n k hn =>
    have hvalue : (Dyadic.ofOdd n k hn).toRat = n * 2 ^ (-k) := Dyadic.toRat_ofOdd_eq_mul_two_pow
    rw [round, neg_ofMagnitude]
    refine ofMagnitude_eq_round ?_ p
    rw [Dyadic.toRat_neg, hvalue, withSign_mul, withSign_not, withSign_natAbs, neg_mul]

/-- A difference with the operands exchanged is the negated difference, of the same precision. -/
protected theorem neg_sub (x y : BigReal) : (x.sub y).neg = y.sub x := by
  have hvalue : -(x.value - y.value) = y.value - x.value := by
    rw [← Dyadic.toRat_inj, Dyadic.toRat_neg, Dyadic.toRat_sub, Dyadic.toRat_sub, neg_sub]
  rw [sub, neg_round, sub, hvalue, jointPrecision_comm]

namespace Parts

/-- How far the mantissas are shifted does not depend on their order. -/
theorem alignedExponents_perm (x y : Parts) : (x.alignedExponents y).Perm (y.alignedExponents x) := by
  unfold alignedExponents
  rw [min_comm]
  exact List.Perm.swap _ _ _

theorem addExponents_perm (x y : Parts) : (x.addExponents y).Perm (y.addExponents x) := by
  have hrounded : roundedExponents ((x.aligned y).1 + (x.aligned y).2.1).natAbs (x.aligned y).2.2 false
      (max x.precision y.precision) = roundedExponents ((y.aligned x).1 + (y.aligned x).2.1).natAbs
        (y.aligned x).2.2 false (max y.precision x.precision) := by
    simp only [aligned, min_comm x.exponent, max_comm x.precision]
    rw [add_comm]
  exact (alignedExponents_perm x y).append (List.Perm.of_eq hrounded)

theorem subExponents_perm (x y : Parts) : (x.subExponents y).Perm (y.subExponents x) := by
  have hrounded : roundedExponents ((x.aligned y).1 - (x.aligned y).2.1).natAbs (x.aligned y).2.2 false
      (max x.precision y.precision) = roundedExponents ((y.aligned x).1 - (y.aligned x).2.1).natAbs
        (y.aligned x).2.2 false (max y.precision x.precision) := by
    simp only [aligned, min_comm x.exponent, max_comm x.precision]
    rw [← Int.natAbs_neg, neg_sub]
  exact (alignedExponents_perm x y).append (List.Perm.of_eq hrounded)

theorem mulExponents_comm (x y : Parts) : x.mulExponents y = y.mulExponents x := by
  unfold mulExponents
  rw [add_comm, mul_comm, max_comm]

end Parts

end BigReal

/-! ### Numbers -/

theorem NumericType.arithmeticResult?_comm {op : BinaryOp} (hop : op = .add ∨ op = .sub ∨ op = .mul)
    (a b : NumericType) : arithmeticResult? op a b = arithmeticResult? op b a := by
  rcases hop with rfl | rfl | rfl <;> simp only [arithmeticResult?, widen_comm (a := a), NumericKind.join_comm]

namespace Number

variable {a b : Number} {op : BinaryOp} {x y : Rat}

theorem realPrecision_comm (a b : Number) (p : Nat) : realPrecision a b p = realPrecision b a p := by
  rw [realPrecision, realPrecision, max_right_comm]

/-- An operator that does not tell its operands apart, on two operands that may be missing. -/
theorem both_bind_comm {α : Type} {run : α → α → Except OpError α} (hrun : ∀ u v, run u v = run v u)
    (g : α → Number) (u? v? : Option α) :
    (both u? v? >>= fun uv => run uv.1 uv.2 >>= fun r => pure (g r)) =
      (both v? u? >>= fun uv => run uv.1 uv.2 >>= fun r => pure (g r)) := by
  cases u? with
  | none => cases v? <;> rfl
  | some u =>
    cases v? with
    | none => rfl
    | some v => exact congrArg (· >>= fun r => pure (g r)) (hrun u v)

section

variable (hop : op = .add ∨ op = .mul)
include hop

theorem integralOp_comm (x y : Int) : integralOp op x y = integralOp op y x := by
  rcases hop with rfl | rfl
  · rw [integralOp, integralOp, add_comm]
  · rw [integralOp, integralOp, mul_comm]

theorem ratioOp_comm (x y : Rat) : ratioOp op x y = ratioOp op y x := by
  rcases hop with rfl | rfl
  · rw [ratioOp, ratioOp, add_comm]
  · rw [ratioOp, ratioOp, mul_comm]

theorem floatOp_comm {f : FloatFormat} (x y : BinaryFloat f) : floatOp op x y = floatOp op y x := by
  rcases hop with rfl | rfl
  · rw [floatOp, floatOp, BinaryFloat.add_comm]
  · rw [floatOp, floatOp, BinaryFloat.mul_comm]

theorem realOp_comm (x y : BigReal) : realOp op x y = realOp op y x := by
  rcases hop with rfl | rfl
  · rw [realOp, realOp, BigReal.add_comm]
  · rw [realOp, realOp, BigReal.mul_comm]

theorem checkedRealOp_comm (x y : BigReal) : checkedRealOp op x y = checkedRealOp op y x := by
  have hperm : ((realStep? op x y).toList.flatMap BigReal.Step.exponents).Perm
      ((realStep? op y x).toList.flatMap BigReal.Step.exponents) := by
    rcases hop with rfl | rfl
    · exact (BigReal.Parts.addExponents_perm _ _).append_right []
    · exact (List.Perm.of_eq (BigReal.Parts.mulExponents_comm _ _)).append_right []
  rw [checkedRealOp_eq, checkedRealOp_eq, orOverflow_perm hperm, realOp_comm hop]

/-- Whatever the category of the result, the operands are brought into it and combined alike. -/
theorem combine_comm (a b : Number) (t : NumericType) (p : Nat) : combine op a b t p = combine op b a t p := by
  unfold combine
  cases t.kind with
  | nat => exact both_bind_comm (integralOp_comm hop) (natural · t.width) _ _
  | int => exact both_bind_comm (integralOp_comm hop) (integer · t.width) _ _
  | ratio => exact both_bind_comm (ratioOp_comm hop) (rational · t.width) _ _
  | real =>
    dsimp only
    split
    · exact both_bind_comm (floatOp_comm hop) .real32 _ _
    · split
      · exact both_bind_comm (floatOp_comm hop) .real64 _ _
      · rw [realPrecision_comm]
        exact both_bind_comm (checkedRealOp_comm hop) .bigReal _ _

theorem arithmetic_comm (a b : Number) (p : Nat) : arithmetic op a b p = arithmetic op b a p := by
  have hop' : op = .add ∨ op = .sub ∨ op = .mul := hop.imp_right .inr
  have hpow : op ≠ .pow := by rcases hop with rfl | rfl <;> decide
  rw [arithmetic, arithmetic, arithmeticResult?_comm hop']
  simp only [if_neg hpow, combine_comm hop a b]

end

/-! ### Differences -/

/-- The exponents of a difference do not depend on the order of the operands. -/
theorem computedExponents_sub_perm (a b : Number) (p : Nat) :
    (computedExponents .sub a b p).Perm (computedExponents .sub b a p) := by
  have hop : BinaryOp.sub ≠ .pow := by decide
  rw [computedExponents_of_ne_pow hop, computedExponents_of_ne_pow hop, realOperation?, realOperation?,
    arithmeticResult?_comm (.inr (.inl rfl)), realPrecision_comm]
  split
  · cases a.toBigReal? (realPrecision b a p) <;> cases b.toBigReal? (realPrecision b a p)
    case some.some => exact (BigReal.Parts.subExponents_perm _ _).append_right []
    all_goals exact .refl _
  · exact .refl _

/-- Two finite numbers have a difference if its exponents fit, and that with the operands exchanged is its exact
negation, unless it is a float. -/
theorem exists_differences (hx : a.toRat? = some x) (hy : b.toRat? = some y) {p : Nat}
    (hfits : ∀ e ∈ computedExponents .sub a b p, Integer.InSigned 64 e) :
    ∃ v w, arithmetic .sub a b p = .ok v ∧ arithmetic .sub b a p = .ok w ∧
      (v.type ∉ fixed .real → ∃ q, v.toRat? = some q ∧ w.toRat? = some (-q)) := by
  obtain ⟨t, ht⟩ : ∃ t, arithmeticResult? .sub a.type b.type = some t := ⟨_, rfl⟩
  have ht' : arithmeticResult? .sub b.type a.type = some t :=
    (arithmeticResult?_comm (.inr (.inl rfl)) _ _).trans ht
  have hpow : BinaryOp.sub ≠ .pow := by decide
  have harith := arithmetic_eq_combine hpow ht p
  have harith' := arithmetic_eq_combine hpow ht' p
  obtain ⟨hfa, hfb⟩ := fits_of_arithmeticResult hpow ht
  by_cases hk : t.kind = .real
  · rcases hk ▸ width_arithmeticResult hpow ht with hw | hfloat
    · obtain rfl : t = .unbounded .real := NumericType.ext hk hw
      obtain ⟨u, hu, -⟩ := exists_bigReal hx (realPrecision a b p)
      obtain ⟨v, hv, -⟩ := exists_bigReal hy (realPrecision a b p)
      have hfits' : ∀ e ∈ computedExponents .sub b a p, Integer.InSigned 64 e :=
        fun e he => hfits e ((computedExponents_sub_perm a b p).mem_iff.mpr he)
      rw [arithmetic_bigReal hpow ht hu hv, orOverflow_of_fits hfits,
        arithmetic_bigReal hpow ht' (realPrecision_comm a b p ▸ hv) (realPrecision_comm a b p ▸ hu),
        orOverflow_of_fits hfits']
      refine ⟨_, _, rfl, rfl, fun _ => ⟨_, rfl, ?_⟩⟩
      rw [toRat?, ← BigReal.neg_sub, BigReal.toRat_neg]
    · rw [harith, harith']
      rcases fraction_cases hfloat with ⟨rfl, -⟩ | ⟨rfl, -⟩
      · obtain ⟨u, -, hu, -⟩ := exists_float32 hx hfa
        obtain ⟨v, -, hv, -⟩ := exists_float32 hy hfb
        rw [combine_real32 hu hv, combine_real32 hv hu]
        exact ⟨_, _, rfl, rfl, fun h => absurd (.head _) h⟩
      · obtain ⟨u, -, hu, -⟩ := exists_float64 hx hfa
        obtain ⟨v, -, hv, -⟩ := exists_float64 hy hfb
        rw [combine_real64 hu hv, combine_real64 hv hu]
        exact ⟨_, _, rfl, rfl, fun h => absurd (.tail _ (.head _)) h⟩
  · -- Without reals nothing is rounded, and both differences are exact.
    obtain ⟨ha, hb⟩ := operands_ne_real hpow ht hk
    rcases arithmetic_exact ha hb hx hy p hpow ht with ⟨h0, -⟩ | ⟨-, v, q, hv, hq, hexact⟩
    · exact absurd h0 (by decide)
    rcases arithmetic_exact hb ha hy hx p hpow ht' with ⟨h0, -⟩ | ⟨-, w, r, hw, hr, hexact'⟩
    · exact absurd h0 (by decide)
    refine ⟨v, w, hv, hw, fun _ => ⟨q, hq, ?_⟩⟩
    rw [hr, show r = -q from hexact'.trans (hexact ▸ (neg_sub x y).symm)]

/-! ### The order -/

/-- The order of two numbers, also of infinite ones, is turned round with the operands. -/
theorem compare?_swap (a b : Number) : (a.compare? b).map Ordering.swap = b.compare? a := by
  -- Both sides look at the integers first, then at the rationals and then at the floats.
  unfold compare?
  cases a.toInt? <;> cases b.toInt? <;> cases a.toRat? <;> cases b.toRat? <;>
    simp only [Option.map_some, ← cmp_eq_compare, cmp_swap, Rational.compare_eq_cmp]
  all_goals cases a.toFloat64? <;> cases b.toFloat64? <;> first | rfl | exact BinaryFloat.compare?_swap _ _

/-- An ordering operator on exchanged operands is the opposite operator. -/
theorem orderingHolds_swap (o? : Option Ordering) :
    Value.orderingHolds .gt (o?.map Ordering.swap) = Value.orderingHolds .lt o? ∧
      Value.orderingHolds .ge (o?.map Ordering.swap) = Value.orderingHolds .le o? := by
  rcases o? with _ | _ | _ | _ <;> exact ⟨rfl, rfl⟩

end Number

/-- An ordering operator on numbers looks at their order only. -/
theorem Value.binaryOp_ordering {op : BinaryOp} (h : op.isOrdering = true) (a b : Number) (p : Nat) :
    Value.binaryOp op (.number a) (.number b) p =
      match Value.orderingHolds op (a.compare? b) with
      | some holds => .ok (.bool holds)
      | none => .error .undefined := by
  cases op <;> first | rfl | exact absurd h Bool.false_ne_true

/-- The operands of an operator on two finite numbers, of any representations and at any precision, can be
exchanged. A sum or a product is the same, or fails alike; there is a difference, and unless it is a float it is the
exact negation of the other, but for an exponent of an unbounded real that does not fit into 64 bits, and then there
is none either way; and the operators of order become their opposites. -/
theorem operands_are_exchangeable {a b : Number} {x y : Rat} (ha : a.toRat? = some x) (hb : b.toRat? = some y)
    (p : Nat) :
    (∀ op, op = .add ∨ op = .mul →
      Value.binaryOp op (.number a) (.number b) p = Value.binaryOp op (.number b) (.number a) p) ∧
    ((∀ e ∈ Number.computedExponents .sub a b p, Integer.InSigned 64 e) →
      ∃ v w, Value.binaryOp .sub (.number a) (.number b) p = .ok (.number v) ∧
        Value.binaryOp .sub (.number b) (.number a) p = .ok (.number w) ∧
        (v.type ∉ fixed .real → ∃ q, v.toRat? = some q ∧ w.toRat? = some (-q))) ∧
    ((∃ e ∈ Number.computedExponents .sub a b p, ¬Integer.InSigned 64 e) →
      Value.binaryOp .sub (.number a) (.number b) p = .error .exponentOverflow ∧
        Value.binaryOp .sub (.number b) (.number a) p = .error .exponentOverflow) ∧
    Value.binaryOp .lt (.number a) (.number b) p = Value.binaryOp .gt (.number b) (.number a) p ∧
    Value.binaryOp .le (.number a) (.number b) p = Value.binaryOp .ge (.number b) (.number a) p := by
  obtain ⟨hgt, hge⟩ := Number.orderingHolds_swap (a.compare? b)
  rw [Number.compare?_swap] at hgt hge
  refine ⟨fun op hop => ?_, fun hfits => ?_, fun hexceeds => ?_, ?_, ?_⟩
  · have harith : op.isArithmetic = true := by rcases hop with rfl | rfl <;> rfl
    rw [Value.binaryOp_number harith, Value.binaryOp_number harith, Number.arithmetic_comm hop]
  · obtain ⟨v, w, hv, hw, hneg⟩ := Number.exists_differences ha hb hfits
    rw [Value.binaryOp_number rfl, Value.binaryOp_number rfl, hv, hw]
    exact ⟨v, w, rfl, rfl, hneg⟩
  · obtain ⟨e, he, hexceeds⟩ := hexceeds
    have hover := (Number.arithmetic_eq_exponentOverflow_iff .sub a b p).mpr ⟨e, he, hexceeds⟩
    have hover' := (Number.arithmetic_eq_exponentOverflow_iff .sub b a p).mpr
      ⟨e, (Number.computedExponents_sub_perm a b p).mem_iff.mp he, hexceeds⟩
    rw [Value.binaryOp_number rfl, Value.binaryOp_number rfl, hover, hover']
    exact ⟨rfl, rfl⟩
  · rw [Value.binaryOp_ordering rfl, Value.binaryOp_ordering rfl, hgt]
  · rw [Value.binaryOp_ordering rfl, Value.binaryOp_ordering rfl, hge]

/-- The two differences may have different widths: the least ratio of 32 bits is one of them, and the other
one needs 64. -/
theorem operands_are_exchangeable_least_ratio :
    let a : Number := .ratio .bits32 ⟨-16384, by decide⟩
    let b : Number := .ratio .bits32 ⟨16384, by decide⟩
    a.toRat? = some (-16384) ∧ b.toRat? = some 16384 ∧
      ∃ v w, Value.binaryOp .sub (.number a) (.number b) 256 = .ok (.number v) ∧
        Value.binaryOp .sub (.number b) (.number a) 256 = .ok (.number w) ∧
        v.type.width = 32 ∧ w.type.width = 64 ∧ ∃ q, v.toRat? = some q ∧ w.toRat? = some (-q) := by
  intro a b
  obtain ⟨-, hdifferences, -⟩ := operands_are_exchangeable (a := a) (b := b) rfl rfl 256
  obtain ⟨v, w, hv, hw, hneg⟩ := hdifferences (by decide +kernel)
  have htype : (Value.binaryOp .sub (.number a) (.number b) 256).toOption.bind Value.numericType? =
      some ⟨.ratio, 32, by decide⟩ := by decide +kernel
  have htype' : (Value.binaryOp .sub (.number b) (.number a) 256).toOption.bind Value.numericType? =
      some ⟨.ratio, 64, by decide⟩ := by decide +kernel
  rw [hv] at htype
  rw [hw] at htype'
  have hv' : v.type = ⟨.ratio, 32, by decide⟩ := Option.some.inj htype
  have hw' : w.type = ⟨.ratio, 64, by decide⟩ := Option.some.inj htype'
  exact ⟨rfl, rfl, v, w, hv, hw, by rw [hv'], by rw [hw'], hneg (by rw [hv']; decide)⟩

end NumericTower
