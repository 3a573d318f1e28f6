import NumericTower.Proofs.BigReal.PowerScale
import NumericTower.Proofs.Number.Defined

/-!
# Precisions of unbounded real results

The operands of an unbounded real result are rounded to the precision that is asked for, or to the greatest
precision of an operand that is an unbounded real itself, and the result is rounded once more to that precision.
A power is the exception: it has an unbounded real for its base, and is computed in the precision of the base,
whatever precision is asked for.

## Key results
- `of_binaryOp_eq_bigReal` / `of_binaryOp_pow_eq_bigReal`: what an unbounded real result is made of
- `precision_power?`: the precision of a power
- `real_results_have_asked_precision_unless_powers`
-/

namespace NumericTower

open NumericType

namespace BigReal

variable {x r acc base : BigReal} {n p : Nat} {e : Int}

theorem precision_powerLoop (hacc : acc.precision = p) (hbase : base.precision = p) :
    (powerLoop acc base n).precision = p := by
  obtain ⟨-, h, -⟩ := powerLoop_keeps (I := fun acc base _ => acc.precision = p ∧ base.precision = p)
    (fun _ _ _ h => ⟨(rounds_mul_same h.1 h.2).precision, h.2⟩)
    (fun _ _ _ _ h => ⟨h.1, (rounds_mul_same h.2 h.2).precision⟩)
    (n := n) ⟨hacc, hbase⟩
  exact h

/-- A power has the precision of its base. -/
theorem precision_power? (h : x.power? e = some r) : r.precision = x.precision := by
  have hone : (one x.precision).precision = x.precision := (one_exact x.two_le_precision).1.1
  have hloop := precision_powerLoop (n := e.natAbs) hone (rfl : x.precision = x.precision)
  unfold power? at h
  dsimp only at h
  split at h
  case isTrue =>
    have hrounds := Step.rounds_result (s := .quotient _ _) h
    rw [hrounds.precision, Step.left, Step.right, hone, hloop, max_self]
  case isFalse =>
    cases h
    exact hloop

end BigReal

namespace Number

variable {a b e : Number} {t : NumericType} {op : BinaryOp} {x y q : Rat} {p : Nat} {r u v s : BigReal}

/-! ### What unbounded real results are made of -/

theorem natural_ne_bigReal (z : Int) (w : Nat) : natural z w ≠ .bigReal r := by
  intro h
  have hz := toInt?_natural z w
  rw [h] at hz
  exact nomatch hz

theorem integer_ne_bigReal (z : Int) (w : Nat) : integer z w ≠ .bigReal r := by
  intro h
  have hz := toInt?_integer z w
  rw [h] at hz
  exact nomatch hz

theorem rational_ne_bigReal (q : Rat) (w : Nat) : rational q w ≠ .bigReal r := by
  intro h
  by_cases hw : w = 0
  · rw [hw, rational, if_pos rfl] at h
    cases h
  · have hk := (width_rational q hw).1
    rw [h] at hk
    cases hk

theorem both_eq_ok {α : Type} {u? v? : Option α} {uv : α × α} (h : both u? v? = .ok uv) :
    u? = some uv.1 ∧ v? = some uv.2 := by
  cases u? with
  | none => exact nomatch h
  | some u =>
    cases v? with
    | none => exact nomatch h
    | some v =>
      cases h
      exact ⟨rfl, rfl⟩

/-- What there is to a result that is computed on both operands in one representation. -/
theorem of_both_bind {α : Type} {u? v? : Option α} {n : Number} (run : α → α → Except OpError α) (g : α → Number)
    (h : (both u? v? >>= fun uv => run uv.1 uv.2 >>= fun r => pure (g r)) = .ok n) :
    ∃ u v s, u? = some u ∧ v? = some v ∧ run u v = .ok s ∧ g s = n := by
  obtain ⟨⟨u, v⟩, huv, h⟩ := exists_of_bind_eq_ok h
  obtain ⟨s, hs, h⟩ := exists_of_bind_eq_ok h
  obtain ⟨hu, hv⟩ := both_eq_ok huv
  exact ⟨u, v, s, hu, hv, hs, Except.ok.inj h⟩

/-- A result other than a power is computed on the unbounded reals of the operands, at the precision that is asked
for or that an operand has. -/
theorem of_combine_eq_bigReal (ht : t.kind = .real → t.width = 0 ∨ t ∈ fixed .real)
    (h : combine op a b t p = .ok (.bigReal r)) :
    t = .unbounded .real ∧ ∃ u v, a.toBigReal? (realPrecision a b p) = some u ∧ b.toBigReal? (realPrecision a b p) = some v ∧
      realOp op u v = .ok r := by
  unfold combine at h
  -- In the other categories and widths the result is put elsewhere.
  split at h
  · obtain ⟨-, -, z, -, -, -, hz⟩ := of_both_bind (integralOp op) (natural · t.width) h
    exact absurd hz (natural_ne_bigReal _ _)
  · obtain ⟨-, -, z, -, -, -, hz⟩ := of_both_bind (integralOp op) (integer · t.width) h
    exact absurd hz (integer_ne_bigReal _ _)
  · obtain ⟨-, -, q, -, -, -, hq⟩ := of_both_bind (ratioOp op) (rational · t.width) h
    exact absurd hq (rational_ne_bigReal _ _)
  · rename_i hk
    split at h
    · obtain ⟨-, -, x, -, -, -, hx⟩ := of_both_bind (floatOp op) .real32 h
      cases hx
    · split at h
      · obtain ⟨-, -, x, -, -, -, hx⟩ := of_both_bind (floatOp op) .real64 h
        cases hx
      · rename_i h32 h64
        obtain ⟨u, v, s, hu, hv, hs, hr⟩ := of_both_bind (checkedRealOp op) .bigReal h
        cases hr
        rw [checkedRealOp_eq, orOverflow_eq_ok_iff] at hs
        refine ⟨?_, u, v, hu, hv, hs.2⟩
        rcases ht hk with hw | hfixed
        · exact NumericType.ext hk hw
        · rcases List.mem_pair.mp hfixed with rfl | rfl
          · exact absurd rfl h32
          · exact absurd rfl h64

theorem exactPower_ne_bigReal (n : Int) : exactPower a n t ≠ .ok (.bigReal r) := by
  intro h
  unfold exactPower at h
  split at h
  · obtain ⟨_, -, h⟩ := exists_of_bind_eq_ok h
    obtain ⟨_, -, h⟩ := exists_of_bind_eq_ok h
    obtain ⟨_, -, h⟩ := exists_of_bind_eq_ok h
    exact rational_ne_bigReal _ _ (Except.ok.inj h)
  · obtain ⟨_, -, h⟩ := exists_of_bind_eq_ok h
    obtain ⟨_, -, h⟩ := exists_of_bind_eq_ok h
    dsimp only at h
    split at h
    · exact nomatch h
    · have h := Except.ok.inj h
      split at h
      · exact natural_ne_bigReal _ _ h
      · exact integer_ne_bigReal _ _ h

theorem orError_eq_ok {α : Type} {v? : Option α} {v : α} {err : OpError} (h : orError v? err = .ok v) :
    v? = some v := by
  cases v? with
  | none => exact nomatch h
  | some v => exact congrArg some (Except.ok.inj h)

/-- A power that is an unbounded real has an unbounded real for its base, and its size is not refused. -/
theorem of_power_eq_bigReal (h : power a e t = .ok (.bigReal r)) :
    ∃ c n, realPower? a e = some (c, n) ∧ checkPowerSize (c.scaleBits + 1) n maxRealScale = .ok () ∧
      c.power? n = some r := by
  unfold power at h
  split at h
  · exact nomatch h
  · rename_i hbegun
    split at h
    · obtain ⟨_, -, h⟩ := exists_of_bind_eq_ok h
      exact nomatch h
    · obtain ⟨_, -, h⟩ := exists_of_bind_eq_ok h
      exact nomatch h
    · rename_i c
      obtain ⟨n, hn, h⟩ := exists_of_bind_eq_ok h
      obtain ⟨scale, hscale, h⟩ := exists_of_bind_eq_ok h
      obtain ⟨⟨⟩, hsize, h⟩ := exists_of_bind_eq_ok h
      obtain ⟨s, hs, h⟩ := exists_of_bind_eq_ok h
      cases h
      rw [BigReal.Checked.scaleBits_eq, orError_fitting, orOverflow_eq_ok_iff] at hscale
      cases hscale.2
      rw [checkedRealPower_eq, orOverflow_eq_ok_iff] at hs
      exact ⟨c, n, realPower?_eq_some_iff.mpr ⟨rfl, hbegun, orError_eq_ok hn⟩, hsize, orError_eq_ok hs.2⟩
    · obtain ⟨_, -, h⟩ := exists_of_bind_eq_ok h
      exact absurd h (exactPower_ne_bigReal _)

/-- An operator on numbers that gives a number computes it; all others give truth values. -/
theorem arithmetic_of_binaryOp {n : Number} (h : Value.binaryOp op (.number a) (.number b) p = .ok (.number n)) :
    arithmetic op a b p = .ok n := by
  unfold Value.binaryOp Value.unequal Value.equal Value.binaryOther at h
  split at h
  · exact nomatch h
  split at h
  · exact nomatch h
  · dsimp only at h
    split at h
    · split at h <;> exact nomatch h
    · cases harith : arithmetic op a b p with
      | error e =>
        rw [harith] at h
        exact nomatch h
      | ok m =>
        rw [harith] at h
        cases h
        rfl

/-- An unbounded real that an operator other than the power gives, by `of_combine_eq_bigReal`. -/
theorem of_binaryOp_eq_bigReal (hop : op ≠ .pow)
    (h : Value.binaryOp op (.number a) (.number b) p = .ok (.number (.bigReal r))) :
    arithmeticResult? op a.type b.type = some (.unbounded .real) ∧
      ∃ u v, a.toBigReal? (realPrecision a b p) = some u ∧ b.toBigReal? (realPrecision a b p) = some v ∧
        realOp op u v = .ok r := by
  have harith := arithmetic_of_binaryOp h
  unfold arithmetic at harith
  split at harith
  · exact nomatch harith
  · rename_i t ht
    rw [if_neg hop] at harith
    obtain ⟨rfl, hresult⟩ := of_combine_eq_bigReal (fun hk => hk ▸ width_arithmeticResult hop ht) harith
    exact ⟨ht, hresult⟩

/-- An unbounded real that the power gives, by `of_power_eq_bigReal`. -/
theorem of_binaryOp_pow_eq_bigReal (h : Value.binaryOp .pow (.number a) (.number b) p = .ok (.number (.bigReal r))) :
    ∃ c n, realPower? a b = some (c, n) ∧ checkPowerSize (c.scaleBits + 1) n maxRealScale = .ok () ∧
      c.power? n = some r := by
  have harith := arithmetic_of_binaryOp h
  unfold arithmetic at harith
  split at harith
  · exact nomatch harith
  · rw [if_pos rfl] at harith
    exact of_power_eq_bigReal harith

/-- A result of the type of the unbounded reals is one. -/
theorem exists_bigReal_of_numericType? {res : Except OpError Value}
    (h : res.toOption.bind Value.numericType? = some (.unbounded .real)) : ∃ r, res = .ok (.number (.bigReal r)) := by
  obtain ⟨v, hv, htype⟩ := Option.bind_eq_some_iff.mp h
  cases res with
  | error => exact nomatch hv
  | ok w =>
    cases Option.some.inj hv
    cases v with
    | number n =>
      have hn : n.type = .unbounded .real := Option.some.inj htype
      cases n with
      | bigReal r => exact ⟨r, rfl⟩
      | nat | bigNat | int | bigInt | ratio | bigRatio => exact nomatch congrArg NumericType.kind hn
      | real32 | real64 => exact nomatch congrArg NumericType.width hn
    | _ => exact nomatch htype

/-! ### Rounding to the precision of the result -/

/-- An operand is rounded to the precision of the result, if that is no less than the precision of the floats. -/
theorem rounds_toBigReal? (hp : BigReal.leastFloatPrecision ≤ p) (hx : a.toRat? = some x)
    (hu : a.toBigReal? p = some u) : BigReal.Rounds p x u := by
  obtain ⟨u', b, hu', hle, hge, hrounds⟩ := exists_toBigReal? hx p
  rw [max_eq_left hp] at hge
  cases hu.symm.trans hu'
  rwa [le_antisymm hge hle] at hrounds

/-- An operator on unbounded reals gives the exact result, rounded to the greater precision. -/
theorem rounds_realOp (h : realOp op u v = .ok s) :
    ∃ q, ExactResult op u.toRat v.toRat q ∧ BigReal.Rounds (max u.precision v.precision) q s := by
  cases op <;> simp only [realOp, Except.ok.injEq, reduceCtorEq] at h
  · exact ⟨_, rfl, h ▸ BigReal.rounds_add u v⟩
  · exact ⟨_, rfl, h ▸ BigReal.rounds_sub u v⟩
  · exact ⟨_, rfl, h ▸ BigReal.rounds_mul u v⟩
  · cases hs : u.divide? v with
    | none =>
      rw [hs] at h
      cases h
    | some s' =>
      rw [hs] at h
      cases h
      exact ⟨_, rfl, BigReal.Step.rounds_result (s := .quotient u v) hs⟩

/-- Whether so many significant bits are enough for a number. -/
def FitsBits (p : Nat) (q : Rat) : Prop :=
  ∃ c : Dyadic, significantBits c ≤ p ∧ c.toRat = q

end Number

/-- An unbounded real result that is no power has the precision that is asked for, or the greatest precision of an
operand that is an unbounded real. It is the exact result of the operands, each rounded to that precision, and
rounded once more. A power has the precision of its base. -/
theorem real_results_have_asked_precision_unless_powers {a b : Number} {op : BinaryOp} {x y : Rat} {p : Nat}
    {r : BigReal} (hp : 53 ≤ p) (hx : a.toRat? = some x) (hy : b.toRat? = some y)
    (h : Value.binaryOp op (.number a) (.number b) p = .ok (.number (.bigReal r))) :
    (op = .pow → ∃ c, a = .bigReal c ∧ r.precision = c.precision) ∧
      (op ≠ .pow → r.precision = max (max p a.precision) b.precision ∧
        ∃ u v q, RoundsTo r.precision x u ∧ RoundsTo r.precision y v ∧ ExactResult op u.toRat v.toRat q ∧
          BigReal.Rounds r.precision q r ∧
          (Number.FitsBits r.precision x → Number.FitsBits r.precision y → ExactResult op x y q)) := by
  constructor
  · rintro rfl
    obtain ⟨c, n, hc, -, hr⟩ := Number.of_binaryOp_pow_eq_bigReal h
    exact ⟨c, (Number.realPower?_eq_some_iff.mp hc).1, BigReal.precision_power? hr⟩
  · intro hop
    obtain ⟨-, u, v, hu, hv, hr⟩ := Number.of_binaryOp_eq_bigReal hop h
    have hleast : BigReal.leastFloatPrecision ≤ Number.realPrecision a b p :=
      hp.trans ((le_max_left _ _).trans (le_max_left _ _))
    have hux := Number.rounds_toBigReal? hleast hx hu
    have hvy := Number.rounds_toBigReal? hleast hy hv
    obtain ⟨q, hq, hrounds⟩ := Number.rounds_realOp hr
    rw [hux.precision, hvy.precision, max_self] at hrounds
    rw [hrounds.precision]
    refine ⟨rfl, u.value, v.value, q, hux.value, hvy.value, hq, hrounds, ?_⟩
    rintro ⟨c, hc, hcx⟩ ⟨d, hd, hdy⟩
    rwa [← hux.value.eq_of_exact hc hcx, ← hvy.value.eq_of_exact hd hdy]

/-- Ten thirds of 64 bits and a ratio: both operands and the quotient are rounded to the 128 bits asked for. -/
theorem real_results_have_asked_precision_unless_powers_ten_thirds :
    53 ≤ 128 ∧ (Number.bigReal (.ofInt 10 64)).toRat? = some (BigReal.ofInt 10 64).toRat ∧
      (Number.ratio .bits32 ⟨1 / 3, by decide +kernel⟩).toRat? = some (1 / 3) ∧
      ∃ r, Value.binaryOp .mul (.number (.bigReal (.ofInt 10 64)))
          (.number (.ratio .bits32 ⟨1 / 3, by decide +kernel⟩)) 128 = .ok (.number (.bigReal r)) ∧
        r.precision = 128 ∧ ∃ u v q, RoundsTo 128 (BigReal.ofInt 10 64).toRat u ∧ RoundsTo 128 (1 / 3) v ∧
          ExactResult .mul u.toRat v.toRat q ∧ BigReal.Rounds 128 q r := by
  have hresult : ∃ r, Value.binaryOp .mul (.number (.bigReal (.ofInt 10 64)))
      (.number (.ratio .bits32 ⟨1 / 3, by decide +kernel⟩)) 128 = .ok (.number (.bigReal r)) :=
    Number.exists_bigReal_of_numericType? (by decide +kernel)
  obtain ⟨r, hr⟩ := hresult
  obtain ⟨-, h⟩ := real_results_have_asked_precision_unless_powers (by decide) rfl rfl hr
  obtain ⟨hprecision, u, v, q, hu, hv, hq, hrounds, -⟩ := h (by decide)
  have hprecision' : r.precision = 128 := hprecision
  rw [hprecision'] at hu hv hrounds
  exact ⟨by decide, rfl, rfl, r, hr, hprecision', u, v, q, hu, hv, hq, hrounds⟩

/-- The third power of two at 64 bits has 64 bits, though 256 are asked for. -/
theorem power_has_precision_of_base :
    ∃ r, Value.binaryOp .pow (.number (.bigReal (.ofInt 2 64))) (.number (.nat .bits16 ⟨3, by decide⟩)) 256 =
        .ok (.number (.bigReal r)) ∧ r.precision = 64 ∧
      max (max 256 (Number.bigReal (.ofInt 2 64)).precision) (Number.nat .bits16 ⟨3, by decide⟩).precision = 256 := by
  have hresult : ∃ r, Value.binaryOp .pow (.number (.bigReal (.ofInt 2 64))) (.number (.nat .bits16 ⟨3, by decide⟩)) 256 =
      .ok (.number (.bigReal r)) := Number.exists_bigReal_of_numericType? (by decide +kernel)
  obtain ⟨r, hr⟩ := hresult
  obtain ⟨c, n, hc, -, hpower⟩ := Number.of_binaryOp_pow_eq_bigReal hr
  cases (Number.realPower?_eq_some_iff.mp hc).1
  exact ⟨r, hr, BigReal.precision_power? hpower, by decide⟩

end NumericTower
