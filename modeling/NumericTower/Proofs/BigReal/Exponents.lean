import NumericTower.Proofs.BigReal.NormalForm

/-!
# The range of the exponents

A real is stored with an exponent of 64 bits, and so is every exponent that comes up in its arithmetic: how far a
mantissa is shifted to align it with another, the sum of the exponents of two factors, what is left after bits are
dropped, and what is left after the zeros at the end of a mantissa are shifted out. How far they get is bounded by
the magnitudes and the precisions of the operands, because rounding keeps every bound that is a power of two.

## Key results
- `exponent_bounds`: the exponent of a real by its magnitude and precision
- `Step.rounds_result`: an operation, by its operands and its exact result
- `Step.Bounded.within_result`: the magnitude of what it gives
- `Step.Bounded.inSigned_exponents`: the exponents that are computed for it
-/

namespace NumericTower.BigReal

variable {x y r : BigReal} {d : Dyadic} {q a b : Rat} {e f : Int} {n p k l : Nat}

theorem exponent_eq_zero (h : x.toRat = 0) : x.exponent = 0 := by
  rw [← mantissa_eq_zero_iff] at h
  rcases Parts.shifted_parts x with hodd | ⟨-, hexponent⟩
  · exact absurd (h ▸ hodd : (0 : Int) % 2 = 1) (by decide)
  · exact hexponent

/-! ### Magnitudes -/

/-- Zero, or a magnitude that is within `k` powers of two of one. -/
def Within (k : Nat) (q : Rat) : Prop :=
  q ≠ 0 → 2 ^ (-k : Int) ≤ |q| ∧ |q| ≤ 2 ^ (k : Int)

namespace Within

theorem mono (h : Within k q) (hle : k ≤ l) : Within l q := by
  intro hq
  obtain ⟨hlow, hhigh⟩ := h hq
  exact ⟨(zpow_le_zpow_right₀ one_le_two (by omega)).trans hlow,
    hhigh.trans (zpow_le_zpow_right₀ one_le_two (by omega))⟩

theorem abs_le (h : Within k q) : |q| ≤ 2 ^ (k : Int) := by
  by_cases hq : q = 0
  · rw [hq, abs_zero]
    positivity
  · exact (h hq).2

theorem one : Within 0 1 := by
  intro _
  norm_num

theorem inv (h : Within k q) : Within k q⁻¹ := by
  intro hq
  rw [Ne, inv_eq_zero] at hq
  obtain ⟨hlow, hhigh⟩ := h hq
  have hpos : 0 < |q| := abs_pos.mpr hq
  rw [abs_inv, zpow_neg]
  rw [zpow_neg] at hlow
  exact ⟨inv_anti₀ hpos hhigh, inv_le_of_inv_le₀ (by positivity) hlow⟩

theorem mul (ha : Within k a) (hb : Within l b) : Within (k + l) (a * b) := by
  intro hab
  obtain ⟨halow, hahigh⟩ := ha (left_ne_zero_of_mul hab)
  obtain ⟨hblow, hbhigh⟩ := hb (right_ne_zero_of_mul hab)
  rw [abs_mul]
  push_cast
  rw [neg_add, zpow_add₀ two_ne_zero, zpow_add₀ two_ne_zero]
  exact ⟨mul_le_mul halow hblow (by positivity) (abs_nonneg a),
    mul_le_mul hahigh hbhigh (abs_nonneg b) (by positivity)⟩

theorem div (ha : Within k a) (hb : Within l b) : Within (k + l) (a / b) := by
  rw [div_eq_mul_inv]
  exact ha.mul hb.inv

theorem pow (h : Within k q) (n : Nat) : Within (k * n) (q ^ n) := by
  induction n with
  | zero => exact pow_zero q ▸ one
  | succ n ih =>
    rw [pow_succ, Nat.mul_succ]
    exact ih.mul h

theorem zpow (h : Within k q) (n : Int) : Within (k * n.natAbs) (q ^ n) := by
  cases n with
  | ofNat n => exact h.pow n
  | negSucc n =>
    rw [zpow_negSucc]
    exact (h.pow (n + 1)).inv

/-- A multiple of the least magnitude that is not beyond the greatest one. -/
theorem of_multiple {m : Int} (hm : q = m * 2 ^ (-k : Int)) (hq : |q| ≤ 2 ^ (k : Int)) : Within k q := by
  intro hne
  have hone : (1 : Rat) ≤ |(m : Rat)| := by
    have hm0 : m ≠ 0 := by
      rintro rfl
      exact hne (by rw [hm, Int.cast_zero, zero_mul])
    exact_mod_cast Int.one_le_abs hm0
  have hpos : (0 : Rat) < 2 ^ (-k : Int) := by positivity
  refine ⟨?_, hq⟩
  rw [hm, abs_mul, abs_of_pos hpos]
  exact le_mul_of_one_le_left hpos.le hone

/-- An integer of so many bits. -/
theorem intCast {z : Int} (h : bitLength z.natAbs ≤ k) : Within k (z : Rat) := by
  refine of_multiple (m := z * 2 ^ k) ?_ ?_
  · push_cast
    rw [zpow_neg, zpow_natCast, mul_assoc, mul_inv_cancel₀ (by positivity), mul_one]
  · have hlt : z.natAbs < 2 ^ k := bitLength_le_iff.mp h
    rw [← Int.cast_abs, Int.abs_eq_natAbs, zpow_natCast]
    exact_mod_cast hlt.le

/-- Rounding does not get past a power of two. -/
theorem rounded (hp : 0 < p) (h : RoundsTo p q d) (hq : Within k q) : Within k d.toRat := by
  intro hd
  obtain ⟨hlow, hhigh⟩ := hq (mt (h.toRat_eq_zero_iff hp).mpr hd)
  exact ⟨h.power_le_abs hp hlow, h.abs_le_power hp hhigh⟩

end Within

theorem Rounds.within (h : Rounds p q r) (hq : Within k q) : Within k r.toRat := by
  have hp : 0 < p := h.precision ▸ Nat.lt_of_lt_of_le two_pos r.two_le_precision
  exact hq.rounded hp h.value

/-- The exponent of a real is no greater than its order of magnitude, and less than that by no more than its
precision. -/
theorem exponent_bounds (h : Within k x.toRat) : -(k + x.precision : Int) ≤ x.exponent ∧ x.exponent ≤ k := by
  by_cases hx : x.toRat = 0
  · rw [exponent_eq_zero hx]
    omega
  · obtain ⟨hlow, hhigh⟩ := h hx
    have hbelow := le_exponent x.significantBits_le hlow
    -- The power of two alone is no greater than the magnitude, as the mantissa is at least one.
    have hmantissa : (1 : Rat) ≤ x.mantissa.natAbs := by
      rw [← mantissa_eq_zero_iff] at hx
      exact_mod_cast Int.natAbs_pos.mpr hx
    have habove : (2 : Rat) ^ x.exponent ≤ 2 ^ (k : Int) := by
      calc (2 : Rat) ^ x.exponent ≤ x.mantissa.natAbs * 2 ^ x.exponent :=
            le_mul_of_one_le_left (by positivity) hmantissa
        _ = |x.toRat| := x.abs_toRat.symm
        _ ≤ 2 ^ (k : Int) := hhigh
    rw [zpow_le_zpow_iff_right₀ one_lt_two] at habove
    omega

/-- The exponent of a real that is not too great and not too precise. -/
theorem inSigned_exponent (h : Within k x.toRat) (hk : k ≤ 2 ^ 62) (hp : x.precision ≤ 2 ^ 40) :
    Integer.InSigned 64 x.exponent := by
  have hbounds := exponent_bounds h
  suffices -2 ^ 63 ≤ x.exponent ∧ x.exponent < 2 ^ 63 from this
  omega

/-- The order of magnitude of a real bounds it on both sides of one. -/
theorem within_scaleBits (x : BigReal) : Within (x.scaleBits + 1) x.toRat := by
  intro hx
  have hzero : x.isZero = false := by
    rw [Bool.eq_false_iff]
    exact mt (isZero_iff x).mp hx
  have hm : 0 < x.mantissa.natAbs := Int.natAbs_pos.mpr (mt (mantissa_eq_zero_iff x).mp hx)
  have hlow : (2 : Rat) ^ (bitLength x.mantissa.natAbs - 1) ≤ x.mantissa.natAbs := by
    exact_mod_cast two_pow_bitLength_sub_one_le hm
  have hhigh : (x.mantissa.natAbs : Rat) ≤ 2 ^ bitLength x.mantissa.natAbs := by
    exact_mod_cast (lt_two_pow_bitLength _).le
  have hpos := bitLength_pos hm
  have hscale : (0 : Rat) ≤ 2 ^ x.exponent := by positivity
  rw [scaleBits, hzero, if_neg Bool.false_ne_true, numBits, ← bitLength_mantissa, abs_toRat]
  constructor
  · calc (2 : Rat) ^ (-((x.exponent + bitLength x.mantissa.natAbs - 1).natAbs + 1 : Nat) : Int)
        ≤ 2 ^ ((bitLength x.mantissa.natAbs - 1 : Nat) + x.exponent) :=
          zpow_le_zpow_right₀ one_le_two (by omega)
      _ = 2 ^ (bitLength x.mantissa.natAbs - 1) * 2 ^ x.exponent := by
          rw [zpow_add₀ two_ne_zero, zpow_natCast]
      _ ≤ x.mantissa.natAbs * 2 ^ x.exponent := mul_le_mul_of_nonneg_right hlow hscale
  · calc x.mantissa.natAbs * (2 : Rat) ^ x.exponent
        ≤ 2 ^ bitLength x.mantissa.natAbs * 2 ^ x.exponent := mul_le_mul_of_nonneg_right hhigh hscale
      _ = 2 ^ (bitLength x.mantissa.natAbs + x.exponent) := by
          rw [zpow_add₀ two_ne_zero, zpow_natCast]
      _ ≤ 2 ^ (((x.exponent + bitLength x.mantissa.natAbs - 1).natAbs + 1 : Nat) : Int) :=
          zpow_le_zpow_right₀ one_le_two (by omega)

/-- A real is a multiple of every power of two that is not above its exponent. -/
theorem exists_multiple (h : e ≤ x.exponent) : ∃ m : Int, x.toRat = m * 2 ^ e := by
  obtain ⟨j, hj⟩ := Int.le.dest h
  refine ⟨x.mantissa * 2 ^ j, ?_⟩
  rw [toRat_eq_mantissa, ← hj, zpow_add₀ two_ne_zero, zpow_natCast]
  push_cast
  ring

/-- A sum can cancel down to the last bit of its operands, and carries at most one. -/
theorem within_add (hx : Within k x.toRat) (hy : Within k y.toRat) (hpx : x.precision ≤ p) (hpy : y.precision ≤ p) :
    Within (k + p) (x.toRat + y.toRat) ∧ Within (k + p) (x.toRat - y.toRat) := by
  have hex := (exponent_bounds hx).1
  have hey := (exponent_bounds hy).1
  -- Both are multiples of the least bit that either of them can have.
  obtain ⟨m, hm⟩ := exists_multiple (x := x) (e := -(k + p : Nat)) (by omega)
  obtain ⟨n, hn⟩ := exists_multiple (x := y) (e := -(k + p : Nat)) (by omega)
  -- One bit more is enough for the carry, and every precision has it.
  have hcarry : (2 : Rat) ^ (k : Int) + 2 ^ (k : Int) ≤ 2 ^ ((k + p : Nat) : Int) := by
    have hp := x.two_le_precision
    calc (2 : Rat) ^ (k : Int) + 2 ^ (k : Int) = 2 ^ ((k : Int) + 1) := by
          rw [zpow_add_one₀ two_ne_zero, mul_two]
      _ ≤ 2 ^ ((k + p : Nat) : Int) := zpow_le_zpow_right₀ one_le_two (by omega)
  constructor
  · refine .of_multiple (m := m + n) ?_ ?_
    · rw [hm, hn]
      push_cast
      ring
    · exact (abs_add_le _ _).trans ((add_le_add hx.abs_le hy.abs_le).trans hcarry)
  · refine .of_multiple (m := m - n) ?_ ?_
    · rw [hm, hn]
      push_cast
      ring
    · exact (abs_sub _ _).trans ((add_le_add hx.abs_le hy.abs_le).trans hcarry)

/-! ### The exponents that are computed -/

namespace Parts

/-- The exponents that are computed while the value `± n · 2 ^ e` is rounded to `p` bits: once the bits that do
not fit are dropped, and once the zeros at the end of what is left are shifted out. -/
def roundedExponents (n : Nat) (e : Int) (sticky : Bool) (p : Nat) : List Int :=
  let drop := excessBits n p
  let m := roundBits n drop sticky
  if m = 0 then [e + drop] else [e + drop, e + drop + Int.trailingZeros m]

/-- How far the mantissas are shifted to align them. -/
def alignedExponents (x y : Parts) : List Int :=
  let e := min x.exponent y.exponent
  [x.exponent - e, y.exponent - e]

/-- The exponents that are computed for a sum. -/
def addExponents (x y : Parts) : List Int :=
  let (a, b, e) := aligned x y
  alignedExponents x y ++ roundedExponents (a + b).natAbs e false (max x.precision y.precision)

/-- The exponents that are computed for a difference. -/
def subExponents (x y : Parts) : List Int :=
  let (a, b, e) := aligned x y
  alignedExponents x y ++ roundedExponents (a - b).natAbs e false (max x.precision y.precision)

/-- The exponents that are computed for a product. -/
def mulExponents (x y : Parts) : List Int :=
  let e := x.exponent + y.exponent
  e :: roundedExponents (x.mantissa * y.mantissa).natAbs e false (max x.precision y.precision)

/-- The exponents that are computed while the value `± num / den · 2 ^ e` is rounded to `p` bits: the shift of the
numerator, and what is left when it is taken off. -/
def quotientExponents (num den : Nat) (e : Int) (p : Nat) : List Int :=
  if num = 0 then []
  else
    let shift := quotientShift num den p
    let n := num * 2 ^ shift.toNat
    let d := den * 2 ^ (-shift).toNat
    shift :: (e - shift) :: roundedExponents (n / d) (e - shift) (n % d != 0) p

/-- The exponents that are computed for a quotient. There are none by zero. -/
def divideExponents (x y : Parts) : List Int :=
  if y.isZero then []
  else
    let e := x.exponent - y.exponent
    e :: quotientExponents x.mantissa.natAbs y.mantissa.natAbs e (max x.precision y.precision)

/-- The exponents that are computed for an order of magnitude. -/
def scaleExponents (x : Parts) : List Int :=
  if x.isZero then []
  else
    let e := x.exponent + bitLength x.mantissa.natAbs
    [e, e - 1]

variable {sticky negative : Bool}

/-- Rounding raises the exponent by as many bits as there are at most. -/
theorem bounds_of_mem_roundedExponents (h : f ∈ roundedExponents n e sticky p) :
    e ≤ f ∧ f ≤ e + bitLength n := by
  have hdrop : excessBits n p ≤ bitLength n := Nat.sub_le _ _
  unfold roundedExponents at h
  dsimp only at h
  split at h
  case isTrue =>
    rw [List.mem_singleton] at h
    omega
  case isFalse hm =>
    -- The zeros at the end are bits of what is left.
    have hzeros : Int.trailingZeros (roundBits n (excessBits n p) sticky) ≤ bitLength n - excessBits n p := by
      have hle : roundBits n (excessBits n p) sticky ≤ 2 ^ (bitLength n - excessBits n p) := by
        refine roundBits_le ?_
        rw [Nat.add_sub_cancel' hdrop]
        exact lt_two_pow_bitLength n
      obtain ⟨hodd, hshift⟩ := shiftRight_trailingZeros hm
      rw [← Nat.pow_le_pow_iff_right one_lt_two]
      refine le_trans (Nat.le_of_dvd (Nat.pos_of_ne_zero hm) ?_) hle
      exact Dvd.intro_left _ hshift
    rw [List.mem_cons, List.mem_singleton] at h
    omega

/-- The exponent of what is rounded is one of those that are computed, unless it is zero. -/
theorem exponent_rounded_mem (h : (rounded negative n e sticky p).mantissa ≠ 0) :
    (rounded negative n e sticky p).exponent ∈ roundedExponents n e sticky p := by
  unfold rounded normalized at h ⊢
  unfold roundedExponents excessBits
  dsimp only at h ⊢
  split at h
  case isTrue => exact absurd rfl h
  case isFalse hm =>
    rw [if_neg hm, if_neg hm]
    exact List.mem_cons_of_mem _ (List.mem_singleton_self _)

theorem exponent_add_mem {x y : Parts} (h : (x.add y).mantissa ≠ 0) : (x.add y).exponent ∈ x.addExponents y :=
  List.mem_append_right _ (exponent_rounded_mem h)

theorem exponent_sub_mem {x y : Parts} (h : (x.sub y).mantissa ≠ 0) : (x.sub y).exponent ∈ x.subExponents y :=
  List.mem_append_right _ (exponent_rounded_mem h)

theorem exponent_mul_mem {x y : Parts} (h : (x.mul y).mantissa ≠ 0) : (x.mul y).exponent ∈ x.mulExponents y :=
  List.mem_cons_of_mem _ (exponent_rounded_mem h)

theorem exponent_divide?_mem {x y r : Parts} (h : x.divide? y = some r) (hr : r.mantissa ≠ 0) :
    r.exponent ∈ x.divideExponents y := by
  unfold divide? ofQuotient at h
  unfold divideExponents quotientExponents
  split at h
  case isTrue => exact nomatch h
  case isFalse hy =>
    cases h
    rw [if_neg hy]
    split at hr
    case isTrue => exact absurd rfl hr
    case isFalse hnum =>
      rw [if_neg hnum]
      dsimp only
      rw [if_neg hnum]
      exact List.mem_cons_of_mem _ (List.mem_cons_of_mem _ (List.mem_cons_of_mem _ (exponent_rounded_mem hr)))

end Parts

theorem bitLength_mul_le (m n : Nat) : bitLength (m * n) ≤ bitLength m + bitLength n := by
  rw [bitLength_le_iff, pow_add]
  exact Nat.mul_lt_mul'' (lt_two_pow_bitLength m) (lt_two_pow_bitLength n)

/-- A quotient has no more bits than the shifted numerator. -/
theorem bitLength_quotient_le (m d j : Nat) : bitLength (m * 2 ^ j / d) ≤ bitLength m + j := by
  rw [bitLength_le_iff, pow_add]
  refine (Nat.div_le_self _ _).trans_lt ?_
  exact Nat.mul_lt_mul_of_pos_right (lt_two_pow_bitLength m) (by positivity)

theorem bitLength_mantissa_le (x : BigReal) : bitLength x.mantissa.natAbs ≤ x.precision :=
  (bitLength_mantissa x).trans_le x.significantBits_le

/-- The exponents of a product are raised by the bits of both mantissas at most. -/
theorem bounds_of_mem_mulExponents (h : e ∈ (parts x).mulExponents (parts y)) :
    x.exponent + y.exponent ≤ e ∧ e ≤ x.exponent + y.exponent + (x.precision + y.precision) := by
  have hbits : bitLength (x.mantissa * y.mantissa).natAbs ≤ x.precision + y.precision := by
    rw [Int.natAbs_mul]
    exact (bitLength_mul_le _ _).trans (Nat.add_le_add (bitLength_mantissa_le x) (bitLength_mantissa_le y))
  rcases List.mem_cons.mp h with rfl | h
  · exact ⟨le_rfl, by simp only [parts]; omega⟩
  · have := Parts.bounds_of_mem_roundedExponents h
    simp only [parts] at this
    omega

/-- The exponents of a quotient are lowered by its shift, which is no more than the bits of the quotient and of
the divisor. -/
theorem bounds_of_mem_divideExponents (h : e ∈ (parts x).divideExponents (parts y)) :
    0 ≤ e ∧ e ≤ 2 * (max x.precision y.precision + 1 : Nat) ∨
      x.exponent - y.exponent - 2 * (max x.precision y.precision + 1 : Nat) ≤ e ∧
        e ≤ x.exponent - y.exponent + x.precision := by
  have hx := bitLength_mantissa_le x
  have hy := bitLength_mantissa_le y
  have hp := x.two_le_precision
  unfold Parts.divideExponents at h
  split at h
  · exact absurd h List.not_mem_nil
  · rcases List.mem_cons.mp h with rfl | h
    · simp only [parts]
      omega
    unfold Parts.quotientExponents at h
    split at h
    · exact absurd h List.not_mem_nil
    · simp only [parts] at h
      generalize hshift : quotientShift x.mantissa.natAbs y.mantissa.natAbs (max x.precision y.precision) = shift at h
      rw [quotientShift, effectivePrecision_of_le (le_max_of_le_left hp), guardBits] at hshift
      have hbits := bitLength_quotient_le x.mantissa.natAbs (y.mantissa.natAbs * 2 ^ (-shift).toNat) shift.toNat
      rcases List.mem_cons.mp h with rfl | h
      · omega
      rcases List.mem_cons.mp h with rfl | h
      · omega
      have := Parts.bounds_of_mem_roundedExponents h
      omega

/-- The order of magnitude of a real that is not too great and not too precise. -/
theorem inSigned_scaleExponents (h : Within k x.toRat) (hk : k ≤ 2 ^ 62) (hp : x.precision ≤ 2 ^ 40) :
    ∀ e ∈ (parts x).scaleExponents, Integer.InSigned 64 e := by
  have hbounds := exponent_bounds h
  have hbits := bitLength_mantissa_le x
  intro e he
  suffices -2 ^ 63 ≤ e ∧ e < 2 ^ 63 from this
  unfold Parts.scaleExponents at he
  split at he
  · exact absurd he List.not_mem_nil
  · simp only [parts, List.mem_cons, List.not_mem_nil, or_false] at he
    omega

/-- A mantissa that is aligned has no more bits than the shift adds to its own. -/
theorem natAbs_shiftLeft_lt {m : Int} {p j k : Nat} (hm : bitLength m.natAbs ≤ p) (hk : p + j ≤ k) :
    (m <<< j).natAbs < 2 ^ k := by
  rw [Int.shiftLeft_eq, Int.natAbs_mul, Int.natAbs_pow]
  calc m.natAbs * 2 ^ j < 2 ^ p * 2 ^ j :=
        Nat.mul_lt_mul_of_pos_right (bitLength_le_iff.mp hm) (by positivity)
    _ = 2 ^ (p + j) := (pow_add 2 p j).symm
    _ ≤ 2 ^ k := Nat.pow_le_pow_right two_pos hk

/-- The exponents of a sum or a difference `m` of aligned mantissas: a shift is no more than the distance of the
exponents, and rounding raises the lesser one by no more than the bits of the operands and a carry. -/
theorem bounds_of_mem_aligned {m : Int}
    (hm : m.natAbs ≤ (x.mantissa <<< (x.exponent - min x.exponent y.exponent).toNat).natAbs +
      (y.mantissa <<< (y.exponent - min x.exponent y.exponent).toNat).natAbs)
    (h : f ∈ Parts.alignedExponents (parts x) (parts y) ++
      Parts.roundedExponents m.natAbs (min x.exponent y.exponent) false p) :
    min 0 (min x.exponent y.exponent) ≤ f ∧
      (f ≤ max (x.exponent - y.exponent) (y.exponent - x.exponent) ∨
        f ≤ max (x.exponent + x.precision) (y.exponent + y.precision) + 1) := by
  rcases List.mem_append.mp h with h | h
  · simp only [Parts.alignedExponents, parts, List.mem_cons, List.not_mem_nil, or_false] at h
    omega
  · have hbounds := Parts.bounds_of_mem_roundedExponents h
    set e := min x.exponent y.exponent with he
    obtain ⟨k, hk⟩ := Int.eq_ofNat_of_zero_le
      (show 0 ≤ max (x.exponent + x.precision) (y.exponent + y.precision) - e by omega)
    have hlt := natAbs_shiftLeft_lt (k := k) (bitLength_mantissa_le x)
      (show x.precision + (x.exponent - e).toNat ≤ k by omega)
    have hlt' := natAbs_shiftLeft_lt (k := k) (bitLength_mantissa_le y)
      (show y.precision + (y.exponent - e).toNat ≤ k by omega)
    have hbits : bitLength m.natAbs ≤ k + 1 := by
      rw [bitLength_le_iff, pow_succ]
      omega
    omega

/-- An operation of two reals. -/
inductive Step where
  | sum (x y : BigReal)
  | difference (x y : BigReal)
  | product (x y : BigReal)
  | quotient (x y : BigReal)

namespace Step

variable {s : Step}

/-- The operand on the left. -/
def left : Step → BigReal
  | sum x _ => x
  | difference x _ => x
  | product x _ => x
  | quotient x _ => x

/-- The operand on the right. -/
def right : Step → BigReal
  | sum _ y => y
  | difference _ y => y
  | product _ y => y
  | quotient _ y => y

/-- The rounded result; none by zero. -/
def result : Step → Option BigReal
  | sum x y => some (x.add y)
  | difference x y => some (x.sub y)
  | product x y => some (x.mul y)
  | quotient x y => x.divide? y

/-- The exponents that are computed on the way to the result. -/
def exponents : Step → List Int
  | sum x y => (parts x).addExponents (parts y)
  | difference x y => (parts x).subExponents (parts y)
  | product x y => (parts x).mulExponents (parts y)
  | quotient x y => (parts x).divideExponents (parts y)

/-- The exact result. -/
def exact : Step → Rat
  | sum x y => x.toRat + y.toRat
  | difference x y => x.toRat - y.toRat
  | product x y => x.toRat * y.toRat
  | quotient x y => x.toRat / y.toRat

/-- The result is the exact one, rounded to the greater precision. -/
theorem rounds_result (h : s.result = some r) : Rounds (max s.left.precision s.right.precision) s.exact r := by
  cases s with
  | sum x y => exact Option.some.inj h ▸ rounds_add x y
  | difference x y => exact Option.some.inj h ▸ rounds_sub x y
  | product x y => exact Option.some.inj h ▸ rounds_mul x y
  | quotient x y =>
    have hy : y.toRat ≠ 0 := by
      intro hy
      rw [result, divide?_eq_none hy] at h
      cases h
    obtain ⟨r', hr, hrounds⟩ := rounds_divide? (x := x) hy
    cases hr.symm.trans h
    exact hrounds

/-- The exponent of the result is one of those that are computed for it, unless it is zero. -/
theorem exponent_mem (h : s.result = some r) (hr : r.toRat ≠ 0) : r.exponent ∈ s.exponents := by
  have hmantissa : (parts r).mantissa ≠ 0 := mt (mantissa_eq_zero_iff r).mp hr
  cases s with
  | sum x y =>
    cases h
    rw [← parts_add] at hmantissa
    have hmem := Parts.exponent_add_mem hmantissa
    rwa [parts_add] at hmem
  | difference x y =>
    cases h
    rw [← parts_sub] at hmantissa
    have hmem := Parts.exponent_sub_mem hmantissa
    rwa [parts_sub] at hmem
  | product x y =>
    cases h
    rw [← parts_mul] at hmantissa
    have hmem := Parts.exponent_mul_mem hmantissa
    rwa [parts_mul] at hmem
  | quotient x y =>
    have hparts : (parts x).divide? (parts y) = some (parts r) := by
      rw [parts_divide?]
      exact congrArg (Option.map parts) h
    exact Parts.exponent_divide?_mem hparts hmantissa

/-- How far an operation gets from operands within `k` and `l` powers of two and of `p` bits: a product or a
quotient has the orders of magnitude of both, and a sum may cancel or carry. -/
def reach (k l p : Nat) : Step → Nat
  | sum _ _ => max k l + p
  | difference _ _ => max k l + p
  | product _ _ => k + l
  | quotient _ _ => k + l

/-- The operation does not get further than `m` powers of two, and the operands have `p` bits at most. -/
def Bounded (m p : Nat) (s : Step) : Prop :=
  ∃ k l, Within k s.left.toRat ∧ Within l s.right.toRat ∧ s.reach k l p ≤ m ∧
    s.left.precision ≤ p ∧ s.right.precision ≤ p

theorem Bounded.mono {m m' : Nat} (hs : s.Bounded m p) (hm : m ≤ m') : s.Bounded m' p := by
  obtain ⟨k, l, hx, hy, hkl, hpx, hpy⟩ := hs
  exact ⟨k, l, hx, hy, hkl.trans hm, hpx, hpy⟩

theorem Bounded.within_result {m : Nat} (hs : s.Bounded m p) (h : s.result = some r) : Within m r.toRat := by
  obtain ⟨k, l, hx, hy, hreach, hpx, hpy⟩ := hs
  refine (rounds_result h).within (.mono ?_ hreach)
  have hadd := within_add (hx.mono (le_max_left k l)) (hy.mono (le_max_right k l)) hpx hpy
  cases s with
  | sum => exact hadd.1
  | difference => exact hadd.2
  | product => exact hx.mul hy
  | quotient => exact hx.div hy

/-- Operands that are not too great keep all exponents within 64 bits. -/
theorem Bounded.inSigned_exponents (hs : s.Bounded (2 ^ 62) p) (hp : p ≤ 2 ^ 40) (he : e ∈ s.exponents) :
    Integer.InSigned 64 e := by
  obtain ⟨k, l, hx, hy, hreach, hpx, hpy⟩ := hs
  have hex := exponent_bounds hx
  have hey := exponent_bounds hy
  have hp2 := s.left.two_le_precision
  suffices -2 ^ 63 ≤ e ∧ e < 2 ^ 63 from this
  cases s with
  | sum x y =>
    have := bounds_of_mem_aligned (x := x) (y := y) (Int.natAbs_add_le _ _) he
    simp only [left, right, reach] at *
    omega
  | difference x y =>
    have := bounds_of_mem_aligned (x := x) (y := y) (Int.natAbs_sub_le _ _) he
    simp only [left, right, reach] at *
    omega
  | product x y =>
    have := bounds_of_mem_mulExponents he
    simp only [left, right, reach] at *
    omega
  | quotient x y =>
    have := bounds_of_mem_divideExponents he
    simp only [left, right, reach] at *
    omega

/-- The exponent of a result fits if those that are computed for it do. -/
theorem inSigned_result (hs : ∀ e ∈ s.exponents, Integer.InSigned 64 e) (h : s.result = some r) :
    Integer.InSigned 64 r.exponent := by
  by_cases hr : r.toRat = 0
  · rw [exponent_eq_zero hr]
    decide
  · exact hs _ (exponent_mem h hr)

end Step

end NumericTower.BigReal
