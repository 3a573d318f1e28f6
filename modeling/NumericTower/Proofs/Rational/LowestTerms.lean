import Mathlib
import NumericTower.Rational.Parts

/-!
# Fractions in lowest terms

Arithmetic on the parts of fractions keeps them in lowest terms over a positive denominator, also where
nothing is divided out and where the sign changes sides. The parts of a rational are such a fraction, and
every operation on parts gives the parts of the exact result, so equality and order of rationals can be
read off the parts.

## Key results
- `Parts.parts_value`: fractions in lowest terms are the parts of rationals
- `parts_add`, `parts_power?` and the like: operations on parts and on rationals agree
- `Calculation.byParts_eq`: so does everything composed of them
- `fractions_stay_in_lowest_terms`
-/

namespace NumericTower.Rational

namespace Parts

/-- Lowest terms over a positive denominator. -/
structure Reduced (x : Parts) : Prop where
  positive : 0 < x.denominator
  coprime : Int.gcd x.numerator x.denominator = 1

variable {x : Parts} {n d : Int}

@[simp] theorem value_parts (q : Rat) : (parts q).value = q :=
  Rat.num_div_den q

theorem reduced_parts (q : Rat) : (parts q).Reduced where
  positive := Int.natCast_pos.mpr q.den_pos
  coprime := q.reduced

theorem parts_value (h : x.Reduced) : parts x.value = x := by
  have hcoprime : x.numerator.natAbs.Coprime x.denominator.natAbs := h.coprime
  have hnum := Rat.num_div_eq_of_coprime h.positive hcoprime
  have hden := Rat.den_div_eq_of_coprime h.positive hcoprime
  rw [parts, value, hnum, hden]

/-- Reducing divides both parts by one number, leaves no common divisor and then looks at the sign. -/
theorem reduce_cases (n : Int) (hd : d ≠ 0) : ∃ g a b : Int, g ≠ 0 ∧ n = g * a ∧ d = g * b ∧
    Int.gcd a b = 1 ∧ reduce n d = if b < 0 then ⟨-a, -b⟩ else ⟨a, b⟩ := by
  have hpos : 0 < Int.gcd n d := Int.gcd_pos_of_ne_zero_right n hd
  have hn := Int.gcd_dvd_left n d
  have hd' := Int.gcd_dvd_right n d
  refine ⟨Int.gcd n d, n / Int.gcd n d, d / Int.gcd n d, by omega, (Int.mul_ediv_cancel' hn).symm,
    (Int.mul_ediv_cancel' hd').symm, Int.gcd_ediv_gcd_ediv_gcd hpos, ?_⟩
  unfold reduce
  by_cases hone : (Int.gcd n d : Int) = 1
  · simp [hone]
  · simp only [hone, if_false, Int.tdiv_eq_ediv_of_dvd hn, Int.tdiv_eq_ediv_of_dvd hd']

theorem reduced_reduce (n : Int) (hd : d ≠ 0) : (reduce n d).Reduced := by
  obtain ⟨g, a, b, hg, rfl, rfl, hgcd, heq⟩ := reduce_cases n hd
  have hb : b ≠ 0 := right_ne_zero_of_mul hd
  rw [heq]
  split
  case isTrue hneg => exact ⟨Int.neg_pos_of_neg hneg, by rwa [Int.gcd_neg, Int.neg_gcd]⟩
  case isFalse hneg => exact ⟨by simp only; omega, hgcd⟩

theorem value_reduce (n : Int) (hd : d ≠ 0) : (reduce n d).value = (n : Rat) / d := by
  obtain ⟨g, a, b, hg, rfl, rfl, -, heq⟩ := reduce_cases n hd
  have hvalue : (reduce (g * a) (g * b)).value = (a : Rat) / b := by
    rw [heq]
    split
    · simp [value, neg_div_neg_eq]
    · rfl
  rw [hvalue, Int.cast_mul, Int.cast_mul, mul_div_mul_left _ _ (Int.cast_ne_zero.mpr hg)]

/-- Reducing any fraction gives the parts of its value. -/
theorem reduce_eq (n : Int) (hd : d ≠ 0) : reduce n d = parts (n / d) := by
  rw [← value_reduce n hd, parts_value (reduced_reduce n hd)]

@[simp] theorem isZero_parts (q : Rat) : (parts q).isZero = decide (q = 0) := by
  rw [isZero, Bool.eq_iff_iff, beq_iff_eq, decide_eq_true_iff]
  exact Rat.num_eq_zero

end Parts

/-! ### Operations on the parts of rationals -/

section

variable (a b : Rat)

theorem parts_ofFraction? (n d : Int) :
    Parts.ofFraction? n d = (ofFraction? n d).map parts := by
  unfold Parts.ofFraction? ofFraction?
  split
  · rfl
  case isFalse hd => rw [Parts.reduce_eq n hd, Option.map_some, Rat.divInt_eq_div]

theorem parts_ofInt (z : Int) : Parts.ofInt z = parts z := rfl

theorem parts_neg : (parts a).neg = parts (-a) := rfl

theorem parts_abs : (parts a).abs = parts |a| := by
  rw [Parts.abs, parts, parts, Rat.num_abs_eq_abs_num, Rat.den_abs_eq_den, Int.abs_eq_natAbs]

/-- The product of the denominators of two rationals is a denominator. -/
theorem den_mul_den_ne_zero : (a.den : Int) * b.den ≠ 0 :=
  mul_ne_zero (Int.natCast_ne_zero.mpr a.den_nz) (Int.natCast_ne_zero.mpr b.den_nz)

theorem parts_add : (parts a).add (parts b) = parts (a + b) := by
  have ha : (a.den : Rat) ≠ 0 := Nat.cast_ne_zero.mpr a.den_nz
  have hb : (b.den : Rat) ≠ 0 := Nat.cast_ne_zero.mpr b.den_nz
  rw [Parts.add, parts, parts, Parts.reduce_eq _ (den_mul_den_ne_zero a b)]
  congr 1
  conv_rhs => rw [← Rat.num_div_den a, ← Rat.num_div_den b, div_add_div _ _ ha hb]
  push_cast
  ring

theorem parts_sub : (parts a).sub (parts b) = parts (a - b) := by
  have ha : (a.den : Rat) ≠ 0 := Nat.cast_ne_zero.mpr a.den_nz
  have hb : (b.den : Rat) ≠ 0 := Nat.cast_ne_zero.mpr b.den_nz
  rw [Parts.sub, parts, parts, Parts.reduce_eq _ (den_mul_den_ne_zero a b)]
  congr 1
  conv_rhs => rw [← Rat.num_div_den a, ← Rat.num_div_den b, div_sub_div _ _ ha hb]
  push_cast
  ring

theorem parts_mul : (parts a).mul (parts b) = parts (a * b) := by
  rw [Parts.mul, parts, parts, Parts.reduce_eq _ (den_mul_den_ne_zero a b)]
  congr 1
  conv_rhs => rw [← Rat.num_div_den a, ← Rat.num_div_den b, div_mul_div_comm]
  push_cast
  rfl

/-- The numerator becomes the denominator, so its sign has to change sides. -/
theorem parts_inverse? : (parts a).inverse? = (inverse? a).map parts := by
  unfold Parts.inverse? inverse?
  simp only [Parts.isZero_parts, decide_eq_true_eq]
  split
  · rfl
  case isFalse ha =>
    rw [Option.map_some, parts, Parts.reduce_eq _ (Rat.num_ne_zero.mpr ha), Int.cast_natCast,
      ← inv_div, Rat.num_div_den]

theorem parts_divide? : (parts a).divide? (parts b) = (divide? a b).map parts := by
  unfold Parts.divide? divide?
  simp only [Parts.isZero_parts, decide_eq_true_eq]
  split
  · rfl
  case isFalse hb =>
    have hne : (a.den : Int) * b.num ≠ 0 :=
      mul_ne_zero (Int.natCast_ne_zero.mpr a.den_nz) (Rat.num_ne_zero.mpr hb)
    rw [Option.map_some, parts, parts, Parts.reduce_eq _ hne]
    congr 2
    conv_rhs => rw [← Rat.num_div_den a, ← Rat.num_div_den b, div_div_div_eq]
    push_cast
    rfl

/-- Powers of parts without a common divisor have none. -/
theorem parts_power? (e : Int) : (parts a).power? e = (power? a e).map parts := by
  unfold Parts.power? power?
  split
  · -- The base of a negative power is inverted first, and the exponent is looked at only then.
    rw [parts_inverse?]
    cases inverse? a with
    | none => rfl
    | some r =>
      simp only [Option.map_some, Option.bind_some]
      split <;> rfl
  · simp only [Option.bind_some]
    split <;> rfl

theorem parts_parse (radix : Nat) (cs : List Char) :
    Parts.parse radix cs = (parse radix cs).map parts := by
  unfold Parts.parse parse
  cases Numeral.splitSign radix cs with
  | error e => rfl
  | ok sign =>
    cases Text.splitFirst (· == '/') cs with
    | none => cases Integer.parse radix cs <;> rfl
    | some sides =>
      obtain ⟨n, d⟩ := sides
      dsimp only [bind, Except.bind]
      cases Integer.parse radix n with
      | error e => rfl
      | ok numerator =>
        cases Integer.parse radix d with
        | error e => rfl
        | ok denominator =>
          simp only [parts_ofFraction?]
          cases ofFraction? numerator denominator <;> rfl

theorem compare_eq_cmp : compare a b = cmp a b := by
  unfold compare
  rcases lt_trichotomy a b with h | rfl | h
  · rw [if_pos h, (cmp_eq_lt_iff a b).mpr h]
  · simp
  · rw [if_neg h.not_gt, if_neg h.ne', (cmp_eq_gt_iff a b).mpr h]

/-- The order of rationals is that of the cross products, the denominators being positive. -/
theorem compare_parts : (parts a).compare (parts b) = compare a b := by
  unfold Parts.compare compare
  simp only [parts, Rat.lt_iff, Rat.eq_iff_mul_eq_mul]
  rfl

end

/-! ### Everything composed of them -/

/-- Fractions of integers, literals and operations on them, composed in any way. -/
inductive Calculation where
  | fraction (n d : Int)
  | integer (z : Int)
  | literal (radix : Nat) (cs : List Char)
  | abs (s : Calculation)
  | neg (s : Calculation)
  | inverse (s : Calculation)
  | add (s t : Calculation)
  | sub (s t : Calculation)
  | mul (s t : Calculation)
  | divide (s t : Calculation)
  | power (s : Calculation) (e : Int)

namespace Calculation

/-- The fraction that the operations on parts give, if they give one. -/
def byParts : Calculation → Option Parts
  | fraction n d => Parts.ofFraction? n d
  | integer z => some (.ofInt z)
  | literal radix cs => (Parts.parse radix cs).toOption
  | abs s => s.byParts.map Parts.abs
  | neg s => s.byParts.map Parts.neg
  | inverse s => s.byParts.bind Parts.inverse?
  | add s t => s.byParts.bind fun x => t.byParts.map x.add
  | sub s t => s.byParts.bind fun x => t.byParts.map x.sub
  | mul s t => s.byParts.bind fun x => t.byParts.map x.mul
  | divide s t => s.byParts.bind fun x => t.byParts.bind x.divide?
  | power s e => s.byParts.bind fun x => x.power? e

/-- The rational that the operations on rationals give, if they give one. -/
def value? : Calculation → Option Rat
  | fraction n d => ofFraction? n d
  | integer z => some z
  | literal radix cs => (parse radix cs).toOption
  | abs s => s.value?.map (|·|)
  | neg s => s.value?.map (-·)
  | inverse s => s.value?.bind inverse?
  | add s t => s.value?.bind fun a => t.value?.map (a + ·)
  | sub s t => s.value?.bind fun a => t.value?.map (a - ·)
  | mul s t => s.value?.bind fun a => t.value?.map (a * ·)
  | divide s t => s.value?.bind fun a => t.value?.bind (divide? a)
  | power s e => s.value?.bind fun a => power? a e

/-- A calculation by parts gives the parts of the rational that it gives otherwise, and neither gives
anything where the other does not. -/
theorem byParts_eq (s : Calculation) : s.byParts = s.value?.map parts := by
  induction s with
  | fraction n d => exact parts_ofFraction? n d
  | integer z => rfl
  | literal radix cs =>
    simp only [byParts, value?, parts_parse]
    cases parse radix cs <;> rfl
  | abs s ih =>
    simp only [byParts, value?, ih]
    cases s.value? <;> simp [parts_abs]
  | neg s ih =>
    simp only [byParts, value?, ih]
    cases s.value? <;> simp [parts_neg]
  | inverse s ih =>
    simp only [byParts, value?, ih]
    cases s.value? <;> simp [parts_inverse?]
  | add s t ihs iht =>
    simp only [byParts, value?, ihs, iht]
    cases s.value? <;> cases t.value? <;> simp [parts_add]
  | sub s t ihs iht =>
    simp only [byParts, value?, ihs, iht]
    cases s.value? <;> cases t.value? <;> simp [parts_sub]
  | mul s t ihs iht =>
    simp only [byParts, value?, ihs, iht]
    cases s.value? <;> cases t.value? <;> simp [parts_mul]
  | divide s t ihs iht =>
    simp only [byParts, value?, ihs, iht]
    cases s.value? <;> cases t.value? <;> simp [parts_divide?]
  | power s e ih =>
    simp only [byParts, value?, ih]
    cases s.value? <;> simp [parts_power?]

end Calculation

/-- What a literal denotes: an integer, or a fraction of two, which is split at the first slash. -/
inductive Denotes (radix : Nat) : List Char → Rat → Prop where
  | integer {cs : List Char} {z : Int} : '/' ∉ cs → Integer.parse radix cs = .ok z → Denotes radix cs z
  | fraction {ns ds : List Char} {n d : Int} : '/' ∉ ns → Integer.parse radix ns = .ok n →
      Integer.parse radix ds = .ok d → d ≠ 0 → Denotes radix (ns ++ '/' :: ds) (n / d)

theorem denotes_of_parse {radix : Nat} {cs : List Char} {q : Rat} (hq : parse radix cs = .ok q) :
    Denotes radix cs q := by
  obtain ⟨_, -, h⟩ := exists_of_bind_eq_ok hq
  split at h
  case h_1 hsplit =>
    have hslash : '/' ∉ cs := fun hmem => by
      simpa using Text.splitFirst_eq_none_iff.mp hsplit '/' hmem
    obtain ⟨z, hz, h⟩ := exists_of_bind_eq_ok h
    cases h
    exact .integer hslash hz
  case h_2 ns ds hsplit =>
    obtain ⟨n, hn, h⟩ := exists_of_bind_eq_ok h
    obtain ⟨d, hd, h⟩ := exists_of_bind_eq_ok h
    obtain ⟨c, hc, hbefore, rfl⟩ := Text.eq_append_of_splitFirst hsplit
    obtain rfl := beq_iff_eq.mp hc
    have hslash : '/' ∉ ns := fun hmem => by simpa using hbefore '/' hmem
    by_cases hne : d = 0
    · simp only [ofFraction?, hne, if_true] at h
      exact nomatch h
    · simp only [ofFraction?, hne, if_false, Rat.divInt_eq_div] at h
      cases h
      exact .fraction hslash hn hd hne

/-! ### What there is a result of, and its value -/

/-- There is no result exactly if `undefined` holds, and otherwise it has the given value. -/
def Gives (r : Option Parts) (undefined : Prop) (v : Rat) : Prop :=
  (r = none ↔ undefined) ∧ ∀ x ∈ r, x.value = v

theorem gives_ite {c : Prop} [Decidable c] {v : Rat} :
    Gives ((if c then none else some v : Option Rat).map parts) c v := by
  unfold Gives
  split <;> simp_all

theorem gives_ofFraction? (n d : Int) : Gives (Parts.ofFraction? n d) (d = 0) (n / d) := by
  rw [parts_ofFraction?, ofFraction?, Rat.divInt_eq_div]
  exact gives_ite

theorem gives_inverse? (a : Rat) : Gives (parts a).inverse? (a = 0) a⁻¹ := by
  rw [parts_inverse?]
  exact gives_ite

theorem gives_divide? (a b : Rat) : Gives ((parts a).divide? (parts b)) (b = 0) (a / b) := by
  rw [parts_divide?]
  exact gives_ite

/-- A power is there unless it is a negative one of zero or its exponent takes more than 32 bits. -/
theorem power?_eq (a : Rat) (e : Int) :
    power? a e = if a = 0 ∧ e < 0 ∨ 2 ^ 32 - 1 < e.natAbs then none else some (a ^ e) := by
  have hbits : bitLength e.natAbs ≤ 32 ↔ ¬2 ^ 32 - 1 < e.natAbs := by
    rw [bitLength_le_iff]
    omega
  unfold power? inverse?
  by_cases he : e < 0
  · have hpow : a⁻¹ ^ e.natAbs = a ^ e := by
      rw [inv_pow, ← zpow_natCast, ← zpow_neg]
      congr 1
      omega
    by_cases ha : a = 0
    · simp only [he, ha, if_true, Option.bind_none, and_self, true_or]
    · simp only [he, ha, hbits, hpow, if_true, if_false, Option.bind_some, false_and, false_or, ite_not]
  · have hpow : a ^ e.natAbs = a ^ e := by
      rw [← zpow_natCast]
      congr 1
      omega
    simp only [he, hbits, hpow, if_false, and_false, false_or, ite_not]

theorem gives_power? (a : Rat) (e : Int) :
    Gives ((parts a).power? e) (a = 0 ∧ e < 0 ∨ 2 ^ 32 - 1 < e.natAbs) (a ^ e) := by
  rw [parts_power?, power?_eq]
  exact gives_ite

/-- Whatever is calculated of fractions, by parts, is in lowest terms over a positive denominator and has the
exact value, and so do all further results: a fraction over zero, a quotient by zero, the inverse of zero and
a negative power of zero or one with an exponent of more than 32 bits are missing, and nothing else is. Equal
values have equal parts, and the cross products order the values. -/
theorem fractions_stay_in_lowest_terms {s t : Calculation} {x y : Parts} (hx : s.byParts = some x)
    (hy : t.byParts = some y) (n d z e : Int) (radix : Nat) (cs : List Char) :
    (0 < x.denominator ∧ Int.gcd x.numerator x.denominator = 1) ∧
      s.value? = some x.value ∧
      Gives (Parts.ofFraction? n d) (d = 0) (n / d) ∧
      (Parts.ofInt z).value = z ∧
      (∀ r, Parts.parse radix cs = .ok r → Denotes radix cs r.value) ∧
      x.abs.value = |x.value| ∧
      x.neg.value = -x.value ∧
      Gives x.inverse? (x.value = 0) x.value⁻¹ ∧
      (x.add y).value = x.value + y.value ∧
      (x.sub y).value = x.value - y.value ∧
      (x.mul y).value = x.value * y.value ∧
      Gives (x.divide? y) (y.value = 0) (x.value / y.value) ∧
      Gives (x.power? e) (x.value = 0 ∧ e < 0 ∨ 2 ^ 32 - 1 < e.natAbs) (x.value ^ e) ∧
      (x = y ↔ x.value = y.value) ∧
      x.compare y = cmp x.value y.value ∧
      x.compare y = Rational.compare x.value y.value := by
  rw [Calculation.byParts_eq, Option.map_eq_some_iff] at hx hy
  obtain ⟨a, ha, rfl⟩ := hx
  obtain ⟨b, hb, rfl⟩ := hy
  -- With all parts being those of rationals, what is left is what there is a result of.
  have hreduced := Parts.reduced_parts a
  simp only [Parts.value_parts, parts_abs, parts_neg, parts_add, parts_sub, parts_mul, compare_parts]
  refine ⟨⟨hreduced.positive, hreduced.coprime⟩, ha, gives_ofFraction? n d, ?_, ?_, trivial, trivial,
    gives_inverse? a, trivial, trivial, trivial, gives_divide? a b, gives_power? a e, ?_, ?_, trivial⟩
  · rw [parts_ofInt, Parts.value_parts]
  · intro r hr
    rw [parts_parse] at hr
    cases hq : parse radix cs with
    | error e => simp only [hq, Except.map] at hr; exact nomatch hr
    | ok q =>
      simp only [hq, Except.map] at hr
      cases hr
      rw [Parts.value_parts]
      exact denotes_of_parse hq
  · exact ⟨fun h => by rw [← Parts.value_parts a, h, Parts.value_parts], fun h => by rw [h]⟩
  · exact compare_eq_cmp a b

/-- A negative power, whose base is negative, and a quotient by a fraction over a negative denominator. -/
theorem fractions_stay_in_lowest_terms_negative_power :
    let s : Calculation := .power (.inverse (.literal 10 ['-', '6', '/', '8'])) (-3)
    let t : Calculation := .divide (.integer 2) (.fraction 4 (-6))
    s.byParts = some ⟨-27, 64⟩ ∧ t.byParts = some ⟨-3, 1⟩ ∧
      s.value? = some (Parts.value ⟨-27, 64⟩) ∧
      Gives (Parts.divide? ⟨-27, 64⟩ ⟨-3, 1⟩) (Parts.value ⟨-3, 1⟩ = 0)
        (Parts.value ⟨-27, 64⟩ / Parts.value ⟨-3, 1⟩) ∧
      Parts.compare ⟨-27, 64⟩ ⟨-3, 1⟩ = cmp (Parts.value ⟨-27, 64⟩) (Parts.value ⟨-3, 1⟩) := by
  intro s t
  have hs : s.byParts = some ⟨-27, 64⟩ := by decide +kernel
  have ht : t.byParts = some ⟨-3, 1⟩ := by decide +kernel
  obtain ⟨-, hvalue, -, -, -, -, -, -, -, -, -, hdivide, -, -, hcompare, -⟩ :=
    fractions_stay_in_lowest_terms hs ht 0 0 0 0 10 []
  exact ⟨hs, ht, hvalue, hdivide, hcompare⟩

end NumericTower.Rational
