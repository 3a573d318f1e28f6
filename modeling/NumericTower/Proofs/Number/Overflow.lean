import NumericTower.Proofs.BigReal.PowerScale
import NumericTower.Proofs.Number.ResultType

/-!
# Exponents that do not fit

Only unbounded reals have exponents, and the operators on them compute one after another: those that a power's order
of magnitude takes, and those of every sum, difference, product and quotient. An operator stops where one of them
does not fit into 64 bits, and there only. Otherwise its result is that of the arithmetic with exponents of any size.

## Key results
- `checkedRealOp_eq`, `checkedRealPower_eq`: the checked operators by the exponents that are computed
- `parts_of_checkedRealOp`, `parts_of_checkedRealPower`: their results are those of the operations on the parts
- `combine_bigReal`, `power_bigReal`: results among the unbounded reals
- `arithmetic_eq_exponentOverflow_iff`: when an operator stops
-/

namespace NumericTower.Number

open NumericType BigReal

/-! ### The steps of an operator -/

/-- The operation of two unbounded reals that an operator stands for. -/
def realStep? (op : BinaryOp) (u v : BigReal) : Option Step :=
  match op with
  | .add => some (.sum u v)
  | .sub => some (.difference u v)
  | .mul => some (.product u v)
  | .div => some (.quotient u v)
  | _ => none

/-- The base and the exponent of a power of an unbounded real that is begun: its exponent is whole, and it does not
invert zero. -/
def realPower? (a b : Number) : Option (BigReal × Int) :=
  match a with
  | .bigReal x =>
    if a.toRat?.any (· = 0) ∧ b.toRat?.any (· < 0) then none else (wholeExponent? b).map fun e => (x, e)
  | _ => none

/-- The operation of unbounded reals that is computed for an operator other than the power, if its result is one. -/
def realOperation? (op : BinaryOp) (a b : Number) (p : Nat) : Option Step :=
  if arithmeticResult? op a.type b.type = some (.unbounded .real) then
    (a.toBigReal? (realPrecision a b p)).bind fun u => (b.toBigReal? (realPrecision a b p)).bind (realStep? op u)
  else none

/-- The operations of unbounded reals that are computed for an operator if its result is one. -/
def realSteps (op : BinaryOp) (a b : Number) (p : Nat) : List Step :=
  if op = .pow then
    match realPower? a b with
    | some (x, e) =>
      -- A power that is refused is not begun.
      match checkPowerSize (x.scaleBits + 1) e maxRealScale with
      | .ok () => powerSteps x e
      | .error _ => []
    | none => []
  else (realOperation? op a b p).toList

/-- The exponents that are computed for an operator: for the order of magnitude of the base of a power, and for the
operations of unbounded reals. -/
def computedExponents (op : BinaryOp) (a b : Number) (p : Nat) : List Int :=
  (if op = .pow then (realPower? a b).elim [] fun xe => (parts xe.1).scaleExponents else []) ++
    (realSteps op a b p).flatMap Step.exponents

variable {a b : Number} {op : BinaryOp} {t : NumericType} {p : Nat} {x u v r : BigReal} {e : Int} {es : List Int}

theorem realPower?_eq_some_iff : realPower? a b = some (x, e) ↔
    a = .bigReal x ∧ ¬(a.toRat?.any (· = 0) ∧ b.toRat?.any (· < 0)) ∧ wholeExponent? b = some e := by
  unfold realPower?
  split
  case h_1 y =>
    rw [Number.bigReal.injEq]
    split
    case isTrue hzero => exact iff_of_false nofun fun h => h.2.1 hzero
    case isFalse hbegun =>
      rw [Option.map_eq_some_iff]
      constructor
      · rintro ⟨e', he, hxe⟩
        cases hxe
        exact ⟨rfl, hbegun, he⟩
      · rintro ⟨rfl, -, he⟩
        exact ⟨e, he, rfl⟩
  case h_2 hreal => exact iff_of_false nofun fun h => hreal _ h.1

theorem realSteps_of_ne_pow (hop : op ≠ .pow) (a b : Number) (p : Nat) :
    realSteps op a b p = (realOperation? op a b p).toList :=
  if_neg hop

theorem computedExponents_of_ne_pow (hop : op ≠ .pow) (a b : Number) (p : Nat) :
    computedExponents op a b p = (realOperation? op a b p).toList.flatMap Step.exponents := by
  rw [computedExponents, if_neg hop, List.nil_append, realSteps_of_ne_pow hop]

theorem realOperation?_eq (ht : arithmeticResult? op a.type b.type = some (.unbounded .real))
    (hu : a.toBigReal? (realPrecision a b p) = some u) (hv : b.toBigReal? (realPrecision a b p) = some v) :
    realOperation? op a b p = realStep? op u v := by
  rw [realOperation?, if_pos ht, hu, hv]
  rfl

/-! ### Operators among the unbounded reals -/

/-- A result, or that an exponent which is computed for it does not fit. -/
def orOverflow {α : Type} (es : List Int) (r : Except OpError α) : Except OpError α :=
  if ∀ e ∈ es, Integer.InSigned 64 e then r else .error .exponentOverflow

theorem orOverflow_of_fits {α : Type} {r : Except OpError α} (h : ∀ e ∈ es, Integer.InSigned 64 e) :
    orOverflow es r = r :=
  if_pos h

theorem orOverflow_nil {α : Type} (r : Except OpError α) : orOverflow [] r = r :=
  orOverflow_of_fits nofun

theorem orOverflow_eq_ok_iff {α : Type} {r : Except OpError α} {c : α} :
    orOverflow es r = .ok c ↔ (∀ e ∈ es, Integer.InSigned 64 e) ∧ r = .ok c := by
  unfold orOverflow
  split
  case isTrue h => exact (and_iff_right h).symm
  case isFalse h => exact iff_of_false nofun fun hc => h hc.1

/-- A result that is not an overflow of its own. -/
theorem orOverflow_eq_exponentOverflow_iff {α : Type} {r : Except OpError α} (hr : r ≠ .error .exponentOverflow) :
    orOverflow es r = .error .exponentOverflow ↔ ∃ e ∈ es, ¬Integer.InSigned 64 e := by
  unfold orOverflow
  split
  case isTrue h =>
    refine iff_of_false hr ?_
    rintro ⟨e, he, hfits⟩
    exact hfits (h e he)
  case isFalse h =>
    push Not at h
    exact iff_of_true rfl h

theorem orOverflow_map {α β : Type} (es : List Int) (r : Except OpError α) (g : α → β) :
    (orOverflow es r).map g = orOverflow es (r.map g) :=
  apply_ite (Except.map g) _ _ _

theorem orOverflow_bind {α β : Type} (es : List Int) (r : Except OpError α) (f : α → Except OpError β) :
    (orOverflow es r >>= f) = orOverflow es (r >>= f) :=
  apply_ite (· >>= f) _ _ _

theorem orOverflow_append {α : Type} (es fs : List Int) (r : Except OpError α) :
    orOverflow (es ++ fs) r = orOverflow es (orOverflow fs r) := by
  unfold orOverflow
  simp only [List.forall_mem_append, ite_and]

theorem orOverflow_perm {α : Type} {es fs : List Int} (h : es.Perm fs) (r : Except OpError α) :
    orOverflow es r = orOverflow fs r :=
  if_congr (forall_congr' fun _ => imp_congr_left h.mem_iff) rfl rfl

theorem orError_fitting {α : Type} (es : List Int) (c : α) :
    orError (Checked.fitting es c) .exponentOverflow = orOverflow es (.ok c) :=
  apply_ite (orError · .exponentOverflow) _ _ _

theorem exponentsFit_iff :
    exponentsFit op u v = true ↔ ∀ e ∈ (realStep? op u v).toList.flatMap Step.exponents, Integer.InSigned 64 e := by
  cases op <;> simp only [exponentsFit, realStep?, Checked.add_eq, Checked.sub_eq, Checked.mul_eq, Checked.divide?_eq,
    Checked.isSome_fitting, Option.toList_some, Option.toList_none, List.flatMap_singleton, List.flatMap_nil,
    List.not_mem_nil, IsEmpty.forall_iff, implies_true, Step.exponents]

/-- An operator with exponents of 64 bits is the one with exponents of any size, as far as the exponents fit. -/
theorem checkedRealOp_eq (op : BinaryOp) (u v : BigReal) :
    checkedRealOp op u v = orOverflow ((realStep? op u v).toList.flatMap Step.exponents) (realOp op u v) :=
  if_congr exponentsFit_iff rfl rfl

/-- So is a power. -/
theorem checkedRealPower_eq (x : BigReal) (e : Int) :
    checkedRealPower x e =
      orOverflow ((powerSteps x e).flatMap Step.exponents) (orError (x.power? e) .divisionByZero) := by
  unfold checkedRealPower
  rw [Checked.power?_eq]
  exact if_congr Checked.isSome_fitting rfl rfl

/-- The checked operator gives what the operation on the parts gives. -/
theorem parts_of_checkedRealOp {s : Step} (hs : realStep? op u v = some s) (h : checkedRealOp op u v = .ok r) :
    s.checked = some (some (parts r)) := by
  rw [checkedRealOp_eq, orOverflow_eq_ok_iff, hs, Option.toList_some, List.flatMap_singleton] at h
  obtain ⟨hfits, h⟩ := h
  rw [Step.checked_eq, Checked.fitting_eq_some hfits]
  cases op <;> cases hs <;> simp only [realOp] at h
  case add | sub | mul =>
    cases h
    rfl
  case div =>
    cases hr : u.divide? v with
    | none =>
      rw [hr] at h
      exact nomatch h
    | some r' =>
      rw [hr] at h
      cases h
      rw [Step.result, hr]
      rfl

theorem parts_of_checkedRealPower (h : checkedRealPower x e = .ok r) :
    Checked.power? (parts x) e = some (some (parts r)) := by
  rw [checkedRealPower_eq, orOverflow_eq_ok_iff] at h
  obtain ⟨hfits, h⟩ := h
  rw [Checked.power?_eq, Checked.fitting_eq_some hfits]
  cases hr : x.power? e with
  | none =>
    rw [hr] at h
    exact nomatch h
  | some r' =>
    rw [hr] at h
    cases h
    rfl

/-! ### Results among the unbounded reals -/

/-- An operator on two operands that are there, and the number that is made of its result. -/
theorem both_bind {α : Type} {u? v? : Option α} {u v : α} (hu : u? = some u) (hv : v? = some v)
    (run : α → α → Except OpError α) (g : α → Number) :
    (both u? v? >>= fun uv => run uv.1 uv.2 >>= fun r => pure (g r)) = (run u v).map g := by
  rw [hu, hv, both_some]
  exact bind_pure_comp g (run u v)

/-- An unbounded result is computed on the unbounded reals of the operands. -/
theorem combine_bigReal (hu : a.toBigReal? (realPrecision a b p) = some u)
    (hv : b.toBigReal? (realPrecision a b p) = some v) :
    combine op a b (.unbounded .real) p = (checkedRealOp op u v).map .bigReal :=
  both_bind hu hv (checkedRealOp op) .bigReal

/-- Without the unbounded real of an operand there is none. -/
theorem combine_bigReal_undefined
    (h : a.toBigReal? (realPrecision a b p) = none ∨ b.toBigReal? (realPrecision a b p) = none) :
    combine op a b (.unbounded .real) p = .error .undefined := by
  have hcombine : combine op a b (.unbounded .real) p =
      (both (a.toBigReal? (realPrecision a b p)) (b.toBigReal? (realPrecision a b p)) >>= fun uv =>
        checkedRealOp op uv.1 uv.2 >>= fun r => pure (.bigReal r)) := rfl
  rw [hcombine]
  rcases h with h | h
  · rw [h]
    rfl
  · rw [h]
    cases a.toBigReal? (realPrecision a b p) <;> rfl

/-- An unbounded result is that of the operation on the unbounded reals of the operands, unless an exponent does
not fit. -/
theorem arithmetic_bigReal (hop : op ≠ .pow) (ht : arithmeticResult? op a.type b.type = some (.unbounded .real))
    (hu : a.toBigReal? (realPrecision a b p) = some u) (hv : b.toBigReal? (realPrecision a b p) = some v) :
    arithmetic op a b p = orOverflow (computedExponents op a b p) ((realOp op u v).map .bigReal) := by
  rw [arithmetic_eq_combine hop ht, combine_bigReal hu hv, checkedRealOp_eq, orOverflow_map,
    computedExponents_of_ne_pow hop, realOperation?_eq ht hu hv]

/-- A power of an unbounded real with a whole exponent is refused if it is too large, and computed otherwise, unless
an exponent does not fit. -/
theorem power_bigReal (h : realPower? a b = some (x, e)) (p : Nat) :
    arithmetic .pow a b p = orOverflow (computedExponents .pow a b p) (do
      checkPowerSize (x.scaleBits + 1) e maxRealScale
      return .bigReal (← orError (x.power? e) .divisionByZero)) := by
  obtain ⟨rfl, hbegun, hexponent⟩ := realPower?_eq_some_iff.mp h
  have hpower : arithmetic .pow (.bigReal x) b p = (do
      let scale ← orError (Checked.scaleBits x.parts) .exponentOverflow
      checkPowerSize (scale + 1) e maxRealScale
      return .bigReal (← checkedRealPower x e)) := by
    show power (.bigReal x) b (.unbounded .real) = _
    rw [power, if_neg hbegun, hexponent]
    rfl
  have hexponents : computedExponents .pow (.bigReal x) b p = (parts x).scaleExponents ++
      (match checkPowerSize (x.scaleBits + 1) e maxRealScale with
        | .ok () => powerSteps x e
        | .error _ => []).flatMap Step.exponents := by
    unfold computedExponents realSteps
    rw [if_pos rfl, if_pos rfl, h]
    rfl
  rw [hpower, hexponents, Checked.scaleBits_eq, orError_fitting, orOverflow_bind, orOverflow_append]
  congr 1
  show (checkPowerSize (x.scaleBits + 1) e maxRealScale >>= fun _ => _) = _
  cases checkPowerSize (x.scaleBits + 1) e maxRealScale with
  | error err => exact (orOverflow_nil _).symm
  | ok =>
    show (checkedRealPower x e >>= fun r => pure (Number.bigReal r)) = _
    rw [checkedRealPower_eq, orOverflow_bind]
    rfl

/-! ### Where an operator stops -/

/-- An error that neither the first computation has nor what is done with its result. -/
theorem bind_ne_error {α β : Type} {r : Except OpError α} {f : α → Except OpError β} {err : OpError}
    (hr : r ≠ .error err) (hf : ∀ c, f c ≠ .error err) : (r >>= f) ≠ .error err := by
  cases r with
  | error => exact fun h => hr (congrArg _ (Except.error.inj h))
  | ok c => exact hf c

theorem error_of_map {α β : Type} {r : Except OpError α} {g : α → β} {err : OpError} (h : r.map g = .error err) :
    r = .error err := by
  cases r with
  | error => exact congrArg _ (Except.error.inj h)
  | ok => exact nomatch h

theorem both_ne_exponentOverflow {α : Type} (u? v? : Option α) : both u? v? ≠ .error .exponentOverflow := by
  cases u? <;> cases v? <;> nofun

theorem orError_ne_exponentOverflow {α : Type} {v? : Option α} {err : OpError} (h : err ≠ .exponentOverflow) :
    orError v? err ≠ .error .exponentOverflow := by
  cases v? with
  | none => exact fun herror => h (Except.error.inj herror)
  | some v => exact nofun

theorem checkPowerSize_ne_exponentOverflow (bits : Nat) (n : Int) (limit : Nat) :
    checkPowerSize bits n limit ≠ .error .exponentOverflow := by
  unfold checkPowerSize
  split <;> nofun

theorem integralOp_ne_exponentOverflow (op : BinaryOp) (y z : Int) : integralOp op y z ≠ .error .exponentOverflow := by
  unfold integralOp
  split <;> try split
  all_goals nofun

theorem ratioOp_ne_exponentOverflow (op : BinaryOp) (y z : Rat) : ratioOp op y z ≠ .error .exponentOverflow := by
  unfold ratioOp
  split <;> try split
  all_goals nofun

theorem floatOp_ne_exponentOverflow {f : FloatFormat} (op : BinaryOp) (y z : BinaryFloat f) :
    floatOp op y z ≠ .error .exponentOverflow := by
  unfold floatOp
  split <;> try split
  all_goals nofun

theorem realOp_ne_exponentOverflow (op : BinaryOp) (y z : BigReal) : realOp op y z ≠ .error .exponentOverflow := by
  unfold realOp
  split <;> try split
  all_goals nofun

/-- An operator that does not stop on two operands in one representation. -/
theorem both_bind_ne_exponentOverflow {α : Type} {u? v? : Option α} {run : α → α → Except OpError α}
    (hrun : ∀ u v, run u v ≠ .error .exponentOverflow) (g : α → Number) :
    (both u? v? >>= fun uv => run uv.1 uv.2 >>= fun r => pure (g r)) ≠ .error .exponentOverflow :=
  bind_ne_error (both_ne_exponentOverflow u? v?) fun uv => bind_ne_error (hrun uv.1 uv.2) nofun

/-- Only results that are unbounded reals have exponents. -/
theorem combine_ne_exponentOverflow (ht : t.kind = .real → t.width = 32 ∨ t.width = 64) :
    combine op a b t p ≠ .error .exponentOverflow := by
  unfold combine
  split
  · exact both_bind_ne_exponentOverflow (integralOp_ne_exponentOverflow op) (natural · t.width)
  · exact both_bind_ne_exponentOverflow (integralOp_ne_exponentOverflow op) (integer · t.width)
  · exact both_bind_ne_exponentOverflow (ratioOp_ne_exponentOverflow op) (rational · t.width)
  · rename_i hk
    split
    · exact both_bind_ne_exponentOverflow (floatOp_ne_exponentOverflow op) .real32
    · rename_i h32
      rw [if_pos ((ht hk).resolve_left h32)]
      exact both_bind_ne_exponentOverflow (floatOp_ne_exponentOverflow op) .real64

theorem exactPower_ne_exponentOverflow (n : Int) : exactPower a n t ≠ .error .exponentOverflow := by
  unfold exactPower
  split
  · refine bind_ne_error (orError_ne_exponentOverflow (by decide)) fun q => ?_
    refine bind_ne_error (checkPowerSize_ne_exponentOverflow _ _ _) fun _ => ?_
    exact bind_ne_error (orError_ne_exponentOverflow (by decide)) nofun
  · refine bind_ne_error (orError_ne_exponentOverflow (by decide)) fun z => ?_
    refine bind_ne_error (checkPowerSize_ne_exponentOverflow _ _ _) fun _ => ?_
    dsimp only
    split <;> nofun

/-- A power that is not begun among the unbounded reals has no exponents. -/
theorem power_ne_exponentOverflow (h : realPower? a b = none) : power a b t ≠ .error .exponentOverflow := by
  unfold power
  unfold realPower? at h
  split
  case isTrue => nofun
  case isFalse hbegun =>
    split
    case h_1 | h_2 => exact bind_ne_error (orError_ne_exponentOverflow (by decide)) nofun
    case h_3 =>
      dsimp only at h
      rw [if_neg hbegun, Option.map_eq_none_iff] at h
      rw [h]
      nofun
    case h_4 =>
      exact bind_ne_error (orError_ne_exponentOverflow (by decide)) exactPower_ne_exponentOverflow

/-- An operator stops exactly if an exponent that is computed for it does not fit into 64 bits. -/
theorem arithmetic_eq_exponentOverflow_iff (op : BinaryOp) (a b : Number) (p : Nat) :
    arithmetic op a b p = .error .exponentOverflow ↔ ∃ e ∈ computedExponents op a b p, ¬Integer.InSigned 64 e := by
  -- Where nothing is computed among the unbounded reals, there are no exponents, and no such error.
  have hnone : computedExponents op a b p = [] → arithmetic op a b p ≠ .error .exponentOverflow →
      (arithmetic op a b p = .error .exponentOverflow ↔ ∃ e ∈ computedExponents op a b p, ¬Integer.InSigned 64 e) := by
    intro hnil hne
    rw [hnil]
    exact iff_of_false hne (by rintro ⟨e, he, -⟩; exact List.not_mem_nil he)
  by_cases hop : op = .pow
  · subst hop
    cases h : realPower? a b with
    | some xe =>
      obtain ⟨x, e⟩ := xe
      rw [power_bigReal h]
      refine orOverflow_eq_exponentOverflow_iff ?_
      refine bind_ne_error (checkPowerSize_ne_exponentOverflow _ _ _) fun _ => ?_
      exact bind_ne_error (orError_ne_exponentOverflow (by decide)) nofun
    | none =>
      refine hnone ?_ ?_
      · unfold computedExponents realSteps
        rw [if_pos rfl, if_pos rfl, h]
        rfl
      · unfold arithmetic
        split
        · nofun
        · rw [if_pos rfl]
          exact power_ne_exponentOverflow h
  · rw [computedExponents_of_ne_pow hop] at hnone ⊢
    cases ht : arithmeticResult? op a.type b.type with
    | none =>
      refine hnone ?_ ?_
      · rw [realOperation?, ht, if_neg (by nofun)]
        rfl
      · unfold arithmetic
        rw [ht]
        nofun
    | some t =>
      by_cases hreal : t = .unbounded .real
      · subst hreal
        by_cases hmissing : a.toBigReal? (realPrecision a b p) = none ∨ b.toBigReal? (realPrecision a b p) = none
        · -- An operand without an unbounded real is an infinity or not a number, and there is no step.
          refine hnone ?_ ?_
          · rw [realOperation?, if_pos ht]
            rcases hmissing with h | h
            · rw [h]
              rfl
            · rw [h]
              cases a.toBigReal? (realPrecision a b p) <;> rfl
          · rw [arithmetic_eq_combine hop ht, combine_bigReal_undefined hmissing]
            nofun
        · rw [not_or] at hmissing
          obtain ⟨u, hu⟩ := Option.ne_none_iff_exists'.mp hmissing.1
          obtain ⟨v, hv⟩ := Option.ne_none_iff_exists'.mp hmissing.2
          rw [← computedExponents_of_ne_pow hop, arithmetic_bigReal hop ht hu hv]
          exact orOverflow_eq_exponentOverflow_iff fun h => realOp_ne_exponentOverflow _ _ _ (error_of_map h)
      · refine hnone ?_ ?_
        · rw [realOperation?, ht, if_neg (mt Option.some.inj hreal)]
          rfl
        · rw [arithmetic_eq_combine hop ht]
          refine combine_ne_exponentOverflow fun hk => ?_
          -- A real result that is not unbounded has one of the two fixed widths.
          rcases hk ▸ width_arithmeticResult hop ht with hw | hfixed
          · exact absurd (NumericType.ext hk hw) hreal
          · rcases List.mem_pair.mp hfixed with rfl | rfl
            · exact .inl rfl
            · exact .inr rfl

/-- An operator that does not stop computes exponents that fit. -/
theorem inSigned_of_arithmetic_ne (h : arithmetic op a b p ≠ .error .exponentOverflow) :
    ∀ e ∈ computedExponents op a b p, Integer.InSigned 64 e := by
  rw [Ne, arithmetic_eq_exponentOverflow_iff] at h
  push Not at h
  exact h

/-- An operator on numbers stops where the arithmetic does; comparisons compute no exponents. -/
theorem binaryOp_number_eq_exponentOverflow_iff (op : BinaryOp) (a b : Number) (p : Nat) :
    Value.binaryOp op (.number a) (.number b) p = .error .exponentOverflow ↔
      ∃ e ∈ computedExponents op a b p, ¬Integer.InSigned 64 e := by
  rw [← arithmetic_eq_exponentOverflow_iff]
  have hmap : ∀ r : Except OpError Number, r.map Value.number = .error .exponentOverflow ↔ r = .error .exponentOverflow :=
    fun r => ⟨error_of_map, fun h => by rw [h]; rfl⟩
  cases op
  case add | sub | mul | div | mod | pow =>
    rw [Value.binaryOp_number rfl]
    exact hmap _
  case eq | ne | lt | le | gt | ge => exact iff_of_false nofun nofun
  case and | or | concat => exact iff_of_false nofun nofun

end NumericTower.Number
