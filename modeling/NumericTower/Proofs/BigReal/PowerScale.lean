import NumericTower.Number.Arithmetic
import NumericTower.Proofs.BigReal.Checked
import NumericTower.Proofs.BigReal.Power

/-!
# How far powers get

A power is refused if the order of magnitude of its base, taken as often as the exponent says, is beyond a limit.
The order of magnitude is one below that of the next power of two, so one more is counted for every factor. Then
the accumulator and the base of the loop share the limit: what the exponent still asks for of the base and what
is in the accumulator already are together no more than it, in every round. A product takes from the one what it
gives to the other, and rounding does not get past a power of two.

## Key results
- `getLast?_powerSteps`: the power is the result of the last step
- `Checked.power?_eq`: the exponents of all steps are those that are checked in the loop
- `forall_powerLoopSteps`: what all products of the loop have in common
- `bounded_powerSteps`: the operands of each step share the limit
- `within_power?` / `checked_power?`: a power whose size is not refused
- `guarded_powers_stay_in_scale`
-/

namespace NumericTower.BigReal

variable {x acc base b r : BigReal} {s : Step} {n m p : Nat} {e : Int}

/-! ### The steps of a power -/

/-- The products of the loop in their order. -/
def powerLoopSteps (acc base : BigReal) (n : Nat) : List Step :=
  if _h : n = 0 then []
  else
    let acc' := if n % 2 = 1 then acc.mul base else acc
    (if n % 2 = 1 then [.product acc base] else []) ++
      if n / 2 = 0 then [] else .product base base :: powerLoopSteps acc' (base.mul base) (n / 2)
termination_by n
decreasing_by omega

/-- The products of a whole power in their order, and the quotient that inverts it for a negative one. -/
def powerSteps (x : BigReal) (e : Int) : List Step :=
  let r := powerLoop (one x.precision) x e.natAbs
  powerLoopSteps (one x.precision) x e.natAbs ++ if e < 0 then [.quotient (one x.precision) r] else []

theorem powerLoopSteps_ne_nil (hn : n ≠ 0) : powerLoopSteps acc base n ≠ [] := by
  rw [powerLoopSteps, dif_neg hn]
  dsimp only
  by_cases hodd : n % 2 = 1
  · simp [hodd]
  · -- An even exponent other than zero has a half.
    have hhalf : n / 2 ≠ 0 := by omega
    simp [hhalf]

/-- The last product of the loop is what it returns. -/
theorem getLast?_powerLoopSteps (hn : n ≠ 0) :
    (powerLoopSteps acc base n).getLast?.bind Step.result = some (powerLoop acc base n) := by
  induction n using Nat.strong_induction_on generalizing acc base with
  | _ n ih =>
    rw [powerLoopSteps, powerLoop, dif_neg hn, dif_neg hn]
    dsimp only
    by_cases hhalf : n / 2 = 0
    · obtain rfl : n = 1 := by omega
      rfl
    · rw [if_neg hhalf, if_neg hhalf, List.getLast?_append_of_ne_nil _ (List.cons_ne_nil _ _),
        List.getLast?_cons_of_ne_nil (powerLoopSteps_ne_nil hhalf), ih (n / 2) (by omega) hhalf]

/-- The last step of a power gives the power. -/
theorem getLast?_powerSteps (x : BigReal) (he : e ≠ 0) :
    (powerSteps x e).getLast?.bind Step.result = x.power? e := by
  unfold powerSteps power?
  dsimp only
  by_cases hneg : e < 0
  · rw [if_pos hneg, if_pos hneg, List.getLast?_append_of_ne_nil _ (List.cons_ne_nil _ _)]
    rfl
  · rw [if_neg hneg, if_neg hneg, List.append_nil]
    exact getLast?_powerLoopSteps (Int.natAbs_ne_zero.mpr he)

namespace Checked

/-- The loop computes the exponents of its products one after another, and no others. -/
theorem powerLoop_eq (acc base : BigReal) (n : Nat) : powerLoop (parts acc) (parts base) n =
    fitting ((powerLoopSteps acc base n).flatMap Step.exponents) (parts (BigReal.powerLoop acc base n)) := by
  induction n using Nat.strong_induction_on generalizing acc base with
  | _ n ih =>
    rw [powerLoop, powerLoopSteps, BigReal.powerLoop]
    split
    case isTrue => exact (fitting_nil _).symm
    case isFalse hn =>
      rw [List.flatMap_append]
      have hfirst : (if n % 2 = 1 then mul (parts acc) (parts base) else some (parts acc)) =
          fitting ((if n % 2 = 1 then [Step.product acc base] else []).flatMap Step.exponents)
            (parts (if n % 2 = 1 then acc.mul base else acc)) := by
        split
        · rw [mul_eq, parts_mul, List.flatMap_singleton]
          rfl
        · exact (fitting_nil _).symm
      rw [hfirst]
      refine fitting_bind _ ?_
      dsimp only
      split
      case isTrue => exact (fitting_nil _).symm
      case isFalse hhalf =>
        rw [mul_eq, parts_mul, List.flatMap_cons]
        exact fitting_bind _ (ih (n / 2) (by omega) _ _)

/-- A power has a result with exponents of 64 bits exactly if the exponents of all its steps fit, and it is that of
the power with exponents of any size. -/
theorem power?_eq (x : BigReal) (e : Int) : power? (parts x) e =
    fitting ((powerSteps x e).flatMap Step.exponents) ((x.power? e).map parts) := by
  have hone : Parts.ofInt 1 (parts x).precision = parts (one x.precision) := parts_ofInt _ 1
  unfold power? powerSteps BigReal.power?
  rw [hone, powerLoop_eq, List.flatMap_append]
  refine fitting_bind _ ?_
  dsimp only
  split
  case isTrue => rw [divide?_eq, parts_divide?, List.flatMap_singleton]; rfl
  case isFalse => exact (fitting_nil _).symm

end Checked

/-- What holds at the start and is kept by multiplying and by squaring, and holds of both products then, holds
of all products of the loop. -/
theorem forall_powerLoopSteps {I : BigReal → BigReal → Nat → Prop} {P : Step → Prop}
    (multiply : ∀ acc base n, I acc base (2 * n + 1) →
      P (.product acc base) ∧ I (acc.mul base) base (2 * n))
    (square : ∀ acc base n, n ≠ 0 → I acc base (2 * n) →
      P (.product base base) ∧ I acc (base.mul base) n)
    (h : I acc base n) : ∀ s ∈ powerLoopSteps acc base n, P s := by
  induction n using Nat.strong_induction_on generalizing acc base with
  | _ n ih =>
    intro s hs
    rw [powerLoopSteps] at hs
    split at hs
    case isTrue => exact absurd hs List.not_mem_nil
    case isFalse hn =>
      dsimp only at hs
      have hmultiplied := keeps_of_last_bit (fun acc base n h => (multiply acc base n h).2) h
      rcases List.mem_append.mp hs with hs | hs
      · split at hs
        case isTrue hodd =>
          obtain rfl := List.mem_singleton.mp hs
          refine (multiply acc base (n / 2) ?_).1
          rwa [show 2 * (n / 2) + 1 = n by omega]
        case isFalse => exact absurd hs List.not_mem_nil
      · split at hs
        case isTrue => exact absurd hs List.not_mem_nil
        case isFalse hhalf =>
          obtain ⟨hsquare, hnext⟩ := square _ _ _ hhalf hmultiplied
          rcases List.mem_cons.mp hs with rfl | hs
          · exact hsquare
          · exact ih (n / 2) (by omega) hnext s hs

/-! ### The limit that accumulator and base share -/

/-- What is in the accumulator, and the base as often as the exponent still asks for it, are within `m` powers
of two together. -/
def Shares (m p : Nat) (acc base : BigReal) (n : Nat) : Prop :=
  acc.precision = p ∧ base.precision = p ∧
    ∃ k l, Within k acc.toRat ∧ Within l base.toRat ∧ k + l * n ≤ m

theorem Shares.multiply (h : Shares m p acc base (2 * n + 1)) :
    (Step.product acc base).Bounded m p ∧ Shares m p (acc.mul base) base (2 * n) := by
  obtain ⟨hacc, hbase, k, l, hk, hl, hm⟩ := h
  have hrounds := rounds_mul_same hacc hbase
  rw [Nat.mul_succ] at hm
  exact ⟨⟨k, l, hk, hl, (by omega : k + l ≤ m), hacc.le, hbase.le⟩, hrounds.precision, hbase, k + l, l,
    hrounds.within (hk.mul hl), hl, by omega⟩

theorem Shares.square (hn : n ≠ 0) (h : Shares m p acc base (2 * n)) :
    (Step.product base base).Bounded m p ∧ Shares m p acc (base.mul base) n := by
  obtain ⟨hacc, hbase, k, l, hk, hl, hm⟩ := h
  have hrounds := rounds_mul_same hbase hbase
  have htwice : l * (2 * n) = (l + l) * n := by ring
  have hle : l + l ≤ (l + l) * n := Nat.le_mul_of_pos_right _ (Nat.pos_of_ne_zero hn)
  exact ⟨⟨l, l, hl, hl, (by omega : l + l ≤ m), hbase.le, hbase.le⟩, hacc, hrounds.precision, k, l + l, hk,
    hrounds.within (hl.mul hl), by omega⟩

theorem within_one (hp : 2 ≤ p) : Within 0 (one p).toRat := by
  rw [(one_exact hp).2]
  exact .one

theorem shares_one (x : BigReal) (hm : (x.scaleBits + 1) * n ≤ m) : Shares m x.precision (one x.precision) x n := by
  have hone : (one x.precision).precision = x.precision := (one_exact x.two_le_precision).1.1
  exact ⟨hone, rfl, 0, x.scaleBits + 1, within_one x.two_le_precision, within_scaleBits x, by omega⟩

/-- The operands of each step of a power share the limit that the size of the power is checked against. -/
theorem bounded_powerSteps (x : BigReal) (hm : (x.scaleBits + 1) * e.natAbs ≤ m) (hs : s ∈ powerSteps x e) :
    s.Bounded m x.precision := by
  have hstart := shares_one x hm
  rcases List.mem_append.mp hs with hs | hs
  · exact forall_powerLoopSteps (fun _ _ _ h => h.multiply) (fun _ _ _ hn h => h.square hn) hstart s hs
  · -- Nothing is left to be multiplied in, so the power may take all of the limit.
    obtain ⟨base, hprecision, -, k, l, hk, -, hkm⟩ :=
      powerLoop_keeps (fun _ _ _ h => h.multiply.2) (fun _ _ _ hn h => (h.square hn).2) hstart
    split at hs
    case isTrue =>
      obtain rfl := List.mem_singleton.mp hs
      exact ⟨0, k, within_one x.two_le_precision, hk, (by omega : 0 + k ≤ m), (one_exact x.two_le_precision).1.1.le,
        hprecision.le⟩
    case isFalse => exact absurd hs List.not_mem_nil

/-- A power is one, or the result of a step. -/
theorem power?_cases (h : x.power? e = some r) :
    e = 0 ∧ r = one x.precision ∨ e ≠ 0 ∧ ∃ s ∈ powerSteps x e, s.result = some r := by
  by_cases he : e = 0
  · subst he
    rw [power?, if_neg (lt_irrefl 0), Int.natAbs_zero, powerLoop, dif_pos rfl] at h
    exact .inl ⟨rfl, (Option.some.inj h).symm⟩
  · rw [← getLast?_powerSteps x he, Option.bind_eq_some_iff] at h
    obtain ⟨s, hs, hr⟩ := h
    exact .inr ⟨he, s, List.mem_of_getLast? hs, hr⟩

/-! ### Powers whose size is not refused -/

theorem le_of_checkPowerSize {bits limit : Nat} (h : Number.checkPowerSize bits e limit = .ok ()) :
    bits * e.natAbs ≤ limit := by
  unfold Number.checkPowerSize at h
  split at h
  case isTrue => exact nomatch h
  case isFalse hle => exact not_lt.mp hle

section

variable (hsize : Number.checkPowerSize (x.scaleBits + 1) e Number.maxRealScale = .ok ())

include hsize

theorem within_power? (h : x.power? e = some r) : Within Number.maxRealScale r.toRat := by
  rcases power?_cases h with ⟨-, rfl⟩ | ⟨-, s, hs, hr⟩
  · exact (within_one x.two_le_precision).mono (Nat.zero_le _)
  · exact (bounded_powerSteps x (le_of_checkPowerSize hsize) hs).within_result hr

variable (hp : x.precision ≤ Number.maxRealScale)

include hp

theorem inSigned_exponents_powerSteps (hs : s ∈ powerSteps x e) : ∀ f ∈ s.exponents, Integer.InSigned 64 f := by
  have hscale : Number.maxRealScale ≤ 2 ^ 62 := by decide
  have hbounded := (bounded_powerSteps x (le_of_checkPowerSize hsize) hs).mono hscale
  exact fun f hf => hbounded.inSigned_exponents hp hf

theorem checked_power? : Checked.power? (parts x) e = some ((x.power? e).map parts) := by
  rw [Checked.power?_eq]
  refine Checked.fitting_eq_some fun f hf => ?_
  obtain ⟨s, hs, hf⟩ := List.mem_flatMap.mp hf
  exact inSigned_exponents_powerSteps hsize hp hs f hf

theorem inSigned_power? (h : x.power? e = some r) : Integer.InSigned 64 r.exponent := by
  rcases power?_cases h with ⟨-, rfl⟩ | ⟨-, s, hs, hr⟩
  · refine inSigned_exponent (within_one x.two_le_precision) (by decide) ?_
    exact (one_exact x.two_le_precision).1.1.trans_le hp
  · exact Step.inSigned_result (inSigned_exponents_powerSteps hsize hp hs) hr

end

/-- Every product of a power whose size is not refused, and the quotient that inverts it, is zero or within the
limit for the size on both sides of one, and no exponent that is computed for it leaves 64 bits. The last of them
is the power, so with exponents of 64 bits it is what it is with exponents of any size. -/
theorem guarded_powers_stay_in_scale {b : BigReal} {n : Int} (hp : b.precision ≤ Number.maxRealScale)
    (hsize : Number.checkPowerSize (b.scaleBits + 1) n Number.maxRealScale = .ok ()) :
    (∀ s ∈ powerSteps b n,
      (∀ r, s.result = some r → r.toRat ≠ 0 →
        2 ^ (-Number.maxRealScale : Int) ≤ |r.toRat| ∧ |r.toRat| ≤ 2 ^ (Number.maxRealScale : Int)) ∧
      ∀ e ∈ s.exponents, Integer.InSigned 64 e) ∧
    (n ≠ 0 → (powerSteps b n).getLast?.bind Step.result = b.power? n) ∧
    Checked.power? (parts b) n = some ((b.power? n).map parts) ∧
    ∀ r, b.power? n = some r → Integer.InSigned 64 r.exponent := by
  refine ⟨fun s hs => ⟨fun r hr => ?_, ?_⟩, getLast?_powerSteps b, checked_power? hsize hp,
    fun r => inSigned_power? hsize hp⟩
  · exact (bounded_powerSteps b (le_of_checkPowerSize hsize) hs).within_result hr
  · exact inSigned_exponents_powerSteps hsize hp hs

/-- The lowest power of three that is not refused: two powers of two are counted for each of its factors, though it
has less than the limit. -/
theorem guarded_powers_stay_in_scale_three :
    let b := ofInt 3 64
    b.precision ≤ Number.maxRealScale ∧
      Number.checkPowerSize (b.scaleBits + 1) (-2 ^ 39) Number.maxRealScale = .ok () ∧
      (∀ s ∈ powerSteps b (-2 ^ 39),
        (∀ r, s.result = some r → r.toRat ≠ 0 →
          2 ^ (-Number.maxRealScale : Int) ≤ |r.toRat| ∧ |r.toRat| ≤ 2 ^ (Number.maxRealScale : Int)) ∧
        ∀ e ∈ s.exponents, Integer.InSigned 64 e) ∧
      (powerSteps b (-2 ^ 39)).getLast?.bind Step.result = b.power? (-2 ^ 39) ∧
      Checked.power? (parts b) (-2 ^ 39) = some ((b.power? (-2 ^ 39)).map parts) := by
  intro b
  have hp : b.precision ≤ Number.maxRealScale := by decide
  have hsize : Number.checkPowerSize (b.scaleBits + 1) (-2 ^ 39) Number.maxRealScale = .ok () := by
    decide +kernel
  obtain ⟨hsteps, hlast, hchecked, -⟩ := guarded_powers_stay_in_scale hp hsize
  exact ⟨hp, hsize, hsteps, hlast (by decide), hchecked⟩

end NumericTower.BigReal
