import NumericTower.Proofs.Number.Exact
import NumericTower.Proofs.Rational.LowestTerms
import NumericTower.Proofs.Rounding.Float

/-!
# The order of numbers

Numbers of all representations are compared by their exact values, with the infinities at the ends. There is
one exception: against an infinity a finite number is compared as a float, and from the overflow on that float
is the infinity itself. Such a pair is equal. So equality is not transitive where an infinity meets numbers
beyond the overflow, and everywhere else the order is total and exact.

## Key results
- `Number.saturates_toFloat64?`: the float of a number is infinite from the overflow on
- `Number.compare?_rational` / `Number.compare?_infinite_rational`: the order of numbers
- `comparison_is_exact_unless_swallowed`
-/

namespace NumericTower

/-- The rationals and the two infinities. -/
abbrev Place := WithBot (WithTop Rat)

namespace Place

/-- The place of a rational. -/
def rational (q : Rat) : Place := ((q : WithTop Rat) : WithBot (WithTop Rat))

/-- The place of an infinity. -/
def infinite (negative : Bool) : Place := if negative then ⊥ else ⊤

theorem strictMono_rational : StrictMono rational :=
  WithBot.coe_strictMono.comp WithTop.coe_strictMono

@[simp] theorem cmp_rational (q r : Rat) : cmp (rational q) (rational r) = cmp q r :=
  strictMono_rational.cmp_map_eq q r

theorem rational_ne_infinite (q : Rat) (negative : Bool) : rational q ≠ infinite negative := by
  cases negative with
  | true => exact WithBot.coe_ne_bot
  | false => exact fun h => WithTop.coe_ne_top (WithBot.coe_injective h)

/-- An infinity is beyond all rationals. -/
theorem cmp_infinite_rational (negative : Bool) (q : Rat) :
    cmp (infinite negative) (rational q) = if negative then .lt else .gt := by
  cases negative with
  | true => exact (cmp_eq_lt_iff _ _).mpr (WithBot.bot_lt_coe _)
  | false => exact (cmp_eq_gt_iff _ _).mpr (WithBot.coe_lt_coe.mpr (WithTop.coe_lt_top _))

/-- Whether the second place is that of a rational that the infinity in the first place takes in: its float
of 64 bits is that infinity. -/
def Swallows (x y : Place) : Prop :=
  ∃ q : Rat, y = rational q ∧
    (x = infinite false ∧ FloatFormat.double.overflow ≤ q ∨
      x = infinite true ∧ q ≤ -FloatFormat.double.overflow)

theorem swallows_top_iff (q : Rat) :
    Swallows (infinite false) (rational q) ↔ FloatFormat.double.overflow ≤ q := by
  constructor
  · rintro ⟨r, hr, ⟨-, h⟩ | ⟨hinf, -⟩⟩
    · rwa [strictMono_rational.injective hr]
    · exact absurd hinf (by decide)
  · exact fun h => ⟨q, rfl, .inl ⟨rfl, h⟩⟩

theorem swallows_bot_iff (q : Rat) :
    Swallows (infinite true) (rational q) ↔ q ≤ -FloatFormat.double.overflow := by
  constructor
  · rintro ⟨r, hr, ⟨hinf, -⟩ | ⟨-, h⟩⟩
    · exact absurd hinf (by decide)
    · rwa [strictMono_rational.injective hr]
  · exact fun h => ⟨q, rfl, .inr ⟨rfl, h⟩⟩

/-- A rational swallows nothing. -/
theorem not_rational_swallows (q : Rat) (y : Place) : ¬Swallows (rational q) y := by
  rintro ⟨_, _, ⟨h, _⟩ | ⟨h, _⟩⟩ <;> exact rational_ne_infinite q _ h

/-- No infinity is swallowed. -/
theorem not_swallows_infinite (x : Place) (negative : Bool) : ¬Swallows x (infinite negative) := by
  rintro ⟨q, h, _⟩
  exact rational_ne_infinite q negative h.symm

end Place

/-! ### Floats -/

namespace BinaryFloat

variable {f : FloatFormat}

/-- The ranks of the infinities are beyond those of all finite floats. -/
theorem compare?_infinity_of_isFinite {x : BinaryFloat f} (negative : Bool) (h : x.isFinite = true) :
    (infinity negative).compare? x = some (if negative then .lt else .gt) := by
  cases x with
  | nan | infinity => exact nomatch h
  | finite s rank hrank =>
    rw [compare?, position?, position?, Option.some.injEq]
    cases negative with
    | true =>
      refine Int.compare_eq_lt.mpr ?_
      cases s <;> simp only [Numeral.signed, if_true, Bool.false_eq_true, if_false] <;> omega
    | false =>
      refine Int.compare_eq_gt.mpr ?_
      cases s <;> simp only [Numeral.signed, if_true, Bool.false_eq_true, if_false] <;> omega

theorem compare?_infinity (s t : Bool) :
    (infinity s : BinaryFloat f).compare? (infinity t) =
      some (cmp (Place.infinite s) (Place.infinite t)) := by
  have hpos := f.finiteCount_pos
  have hlt : (⊥ : Place) < ⊤ := bot_lt_top
  simp only [compare?, position?, ← cmp_eq_compare, Option.some.injEq]
  cases s <;> cases t <;> simp only [Numeral.signed, Place.infinite, if_true, Bool.false_eq_true, if_false]
  case true.true | false.false => rw [cmp_self_eq_eq, cmp_self_eq_eq]
  case true.false => rw [(cmp_eq_lt_iff _ _).mpr hlt, cmp_eq_lt_iff]; omega
  case false.true => rw [(cmp_eq_gt_iff _ _).mpr hlt, cmp_eq_gt_iff]; omega

theorem compare?_swap (x y : BinaryFloat f) : (x.compare? y).map Ordering.swap = y.compare? x := by
  unfold compare?
  cases x.position? <;> cases y.position? <;> try rfl
  simp only [Option.map_some, ← cmp_eq_compare, cmp_swap]

end BinaryFloat

namespace Number

variable {a b : Number} {q r : Rat} {x y : Place}

/-- The place of a number among the rationals and the infinities; what is no number has none. -/
def place? : Number → Option Place
  | .real32 (.infinity negative) => some (.infinite negative)
  | .real64 (.infinity negative) => some (.infinite negative)
  | n => n.toRat?.map .rational

/-- A number with a place is finite or infinite. -/
theorem place?_cases (h : a.place? = some x) :
    (∃ q, a.toRat? = some q ∧ x = .rational q) ∨
      ∃ negative, a.toInt? = none ∧ a.toRat? = none ∧ a.toFloat64? = some (.infinity negative) ∧
        x = .infinite negative := by
  have finite : ∀ {n : Number}, n.toRat?.map .rational = some x → ∃ q, n.toRat? = some q ∧ x = .rational q := by
    intro n h
    obtain ⟨q, hq, rfl⟩ := Option.map_eq_some_iff.mp h
    exact ⟨q, hq, rfl⟩
  cases a with
  | real32 v | real64 v =>
    cases v with
    | infinity negative =>
      cases h
      exact .inr ⟨negative, rfl, rfl, rfl, rfl⟩
    | nan | finite => exact .inl (finite h)
  | nat | bigNat | int | bigInt | ratio | bigRatio | bigReal => exact .inl (finite h)

/-- The float of 64 bits of a finite number stands for it as far as it is infinite from the overflow on
only. -/
theorem saturates_toFloat64? (h : a.toRat? = some q) :
    ∃ v : Float64Bits, a.toFloat64? = some v ∧ v.Saturates q := by
  cases a with
  | real64 v => exact ⟨v, rfl, BinaryFloat.saturates_finite h⟩
  | real32 v =>
    cases v with
    | nan | infinity => exact nomatch h
    | finite negative rank hrank =>
      cases (BinaryFloat.toRat?_finite negative rank hrank).symm.trans h
      exact ⟨_, rfl, BinaryFloat.saturates_ofMagnitude _ _ _⟩
  | bigReal v =>
    cases h
    exact ⟨_, rfl, BigReal.saturates_toFloat _ _⟩
  | nat | bigNat | int | bigInt | ratio | bigRatio =>
    cases h
    exact ⟨_, rfl, Rational.saturates_toFloat64 _⟩

/-- If one of the numbers is not finite, their floats are compared. -/
theorem compare?_floats {v w : Float64Bits} (h : a.toRat? = none ∨ b.toRat? = none)
    (hv : a.toFloat64? = some v) (hw : b.toFloat64? = some w) : a.compare? b = v.compare? w := by
  have noInt : ∀ {n : Number}, n.toRat? = none → n.toInt? = none := by
    intro n hn
    cases hz : n.toInt? with
    | none => rfl
    | some z => exact absurd ((toRat?_of_toInt? hz).symm.trans hn) (by simp)
  unfold compare?
  rcases h with h | h
  · simp only [noInt h, h, hv, hw]
  · simp only [noInt h, h, hv, hw]
    cases a.toInt? <;> cases a.toRat? <;> rfl

/-- Finite numbers are compared by their exact values. -/
theorem compare?_rational (ha : a.toRat? = some q) (hb : b.toRat? = some r) :
    a.compare? b = some (cmp q r) := by
  unfold compare?
  split
  case h_1 z w hz hw =>
    -- Both are integers, and their order is that of the rationals.
    cases ha.symm.trans (toRat?_of_toInt? hz)
    cases hb.symm.trans (toRat?_of_toInt? hw)
    rw [Int.cast_strictMono.cmp_map_eq, cmp_eq_compare]
  case h_2 => simp only [ha, hb, Rational.compare_eq_cmp]

/-- An infinity is compared by its place, unless it swallows the finite number. -/
theorem compare?_infinite_rational {negative : Bool} (ha : a.toRat? = none)
    (hinf : a.toFloat64? = some (.infinity negative)) (hb : b.toRat? = some r) :
    (Place.Swallows (Place.infinite negative) (Place.rational r) → a.compare? b = some .eq) ∧
      (¬Place.Swallows (Place.infinite negative) (Place.rational r) →
        a.compare? b = some (cmp (Place.infinite negative) (Place.rational r))) := by
  obtain ⟨w, hw, hsat⟩ := saturates_toFloat64? hb
  rw [compare?_floats (.inl ha) hinf hw, Place.cmp_infinite_rational]
  have hpos := FloatFormat.double.overflow_pos
  -- The float of the finite number is one of the infinities, or itself finite.
  rcases le_or_gt FloatFormat.double.overflow r with habove | hbelow
  · rw [hsat.above habove, BinaryFloat.compare?_infinity]
    cases negative with
    | true =>
      rw [Place.swallows_bot_iff]
      exact ⟨fun h => absurd h (by linarith), fun _ => by decide⟩
    | false =>
      rw [Place.swallows_top_iff]
      exact ⟨fun _ => congrArg some (cmp_self_eq_eq _), fun h => absurd habove h⟩
  rcases le_or_gt r (-FloatFormat.double.overflow) with hbelow' | habove'
  · rw [hsat.below hbelow', BinaryFloat.compare?_infinity]
    cases negative with
    | true =>
      rw [Place.swallows_bot_iff]
      exact ⟨fun _ => congrArg some (cmp_self_eq_eq _), fun h => absurd hbelow' h⟩
    | false =>
      rw [Place.swallows_top_iff]
      exact ⟨fun h => absurd h (by linarith), fun _ => by decide⟩
  · rw [BinaryFloat.compare?_infinity_of_isFinite negative
      (hsat.within (abs_lt.mpr ⟨habove', hbelow⟩))]
    refine ⟨fun h => ?_, fun _ => rfl⟩
    cases negative with
    | true => exact absurd ((Place.swallows_bot_iff r).mp h) habove'.not_ge
    | false => exact absurd ((Place.swallows_top_iff r).mp h) hbelow.not_ge

/-- Two numbers are in an order, and the operators say so. -/
structure Compares (a b : Number) (p : Nat) (o : Ordering) : Prop where
  order : a.compare? b = some o
  eq : Value.binaryOp .eq (.number a) (.number b) p = .ok (.bool o.isEq)
  ne : Value.binaryOp .ne (.number a) (.number b) p = .ok (.bool o.isNe)
  lt : Value.binaryOp .lt (.number a) (.number b) p = .ok (.bool o.isLT)
  le : Value.binaryOp .le (.number a) (.number b) p = .ok (.bool o.isLE)
  gt : Value.binaryOp .gt (.number a) (.number b) p = .ok (.bool o.isGT)
  ge : Value.binaryOp .ge (.number a) (.number b) p = .ok (.bool o.isGE)

theorem compares_of_compare? {o : Ordering} (h : a.compare? b = some o) (p : Nat) :
    a.Compares b p o := by
  refine ⟨h, ?_, ?_, ?_, ?_, ?_, ?_⟩ <;>
    simp only [Value.binaryOp, Value.equal, Value.unequal, Value.binaryOther, BinaryOp.isLogic,
      Value.orderingHolds, h] <;>
    cases o <;> rfl

/-- The order of two numbers with places: exact, unless one is an infinity that swallows the other. -/
theorem compare?_places (ha : a.place? = some x) (hb : b.place? = some y) :
    (x.Swallows y ∨ y.Swallows x → a.compare? b = some .eq) ∧
      (¬(x.Swallows y ∨ y.Swallows x) → a.compare? b = some (cmp x y)) := by
  rcases place?_cases ha with ⟨q, hq, rfl⟩ | ⟨s, -, hq, hinf, rfl⟩
  · rcases place?_cases hb with ⟨r, hr, rfl⟩ | ⟨t, -, hr, hinf, rfl⟩
    -- two finite numbers
    · rw [compare?_rational hq hr, Place.cmp_rational]
      refine ⟨?_, fun _ => rfl⟩
      rintro (h | h) <;> exact absurd h (Place.not_rational_swallows _ _)
    -- a finite number and an infinity, as the other way round
    · obtain ⟨v, hv, -⟩ := saturates_toFloat64? hq
      have hswap : a.compare? b = (b.compare? a).map Ordering.swap := by
        rw [compare?_floats (.inr hr) hv hinf, compare?_floats (.inl hr) hinf hv,
          BinaryFloat.compare?_swap]
      obtain ⟨hswallow, hexact⟩ := compare?_infinite_rational hr hinf hq
      rw [hswap]
      refine ⟨fun h => ?_, fun h => ?_⟩
      · rw [hswallow (h.resolve_left (Place.not_rational_swallows _ _))]
        rfl
      · rw [hexact (fun h' => h (.inr h')), Option.map_some, cmp_swap]
  · rcases place?_cases hb with ⟨r, hr, rfl⟩ | ⟨t, -, hr, hinf', rfl⟩
    · obtain ⟨hswallow, hexact⟩ := compare?_infinite_rational hq hinf hr
      refine ⟨fun h => ?_, fun h => hexact (fun h' => h (.inl h'))⟩
      exact hswallow (h.resolve_right (Place.not_rational_swallows _ _))
    -- two infinities
    · rw [compare?_floats (.inl hq) hinf hinf', BinaryFloat.compare?_infinity]
      refine ⟨?_, fun _ => rfl⟩
      rintro (h | h) <;> exact absurd h (Place.not_swallows_infinite _ _)

end Number

/-- The order of any two numbers, what is no number apart, is that of their exact values, with the
infinities beyond all rationals, and the operators of equality and order follow it. Only an infinity and a
finite number that rounds to it as a float are equal instead. -/
theorem comparison_is_exact_unless_swallowed {a b : Number} {x y : Place} (ha : a.place? = some x)
    (hb : b.place? = some y) (p : Nat) :
    (¬(x.Swallows y ∨ y.Swallows x) → a.Compares b p (cmp x y)) ∧
      (x.Swallows y ∨ y.Swallows x → a.Compares b p .eq) :=
  have h := Number.compare?_places ha hb
  ⟨fun hexact => Number.compares_of_compare? (h.2 hexact) p,
    fun hswallow => Number.compares_of_compare? (h.1 hswallow) p⟩

/-- The positive infinity is above a number that is as far off on the other side. -/
theorem comparison_is_exact_unless_swallowed_far_below :
    (Number.real64 (.infinity false)).place? = some (Place.infinite false) ∧
      (Number.bigInt (-2 ^ 1024)).place? = some (Place.rational (-2 ^ 1024 : Int)) ∧
      ¬((Place.infinite false).Swallows (Place.rational (-2 ^ 1024 : Int)) ∨
        (Place.rational (-2 ^ 1024 : Int)).Swallows (Place.infinite false)) ∧
      (Number.real64 (.infinity false)).Compares (.bigInt (-2 ^ 1024)) 256 .gt := by
  have hswallow : ¬((Place.infinite false).Swallows (Place.rational (-2 ^ 1024 : Int)) ∨
      (Place.rational (-2 ^ 1024 : Int)).Swallows (Place.infinite false)) := by
    rw [Place.swallows_top_iff, not_or, not_le]
    refine ⟨lt_of_le_of_lt ?_ FloatFormat.double.overflow_pos, Place.not_rational_swallows _ _⟩
    exact Int.cast_nonpos.mpr (neg_nonpos.mpr (by positivity))
  refine ⟨rfl, rfl, hswallow, ?_⟩
  have h := (comparison_is_exact_unless_swallowed (a := .real64 (.infinity false))
    (b := .bigInt (-2 ^ 1024)) rfl rfl 256).1 hswallow
  rwa [Place.cmp_infinite_rational] at h

/-- An infinity is equal to different whole numbers, so it is not above them, and equality is not
transitive. -/
theorem infinity_equals_numbers_beyond_overflow :
    (Number.real64 (.infinity false)).compare? (.bigNat (2 ^ 1024)) = some .eq ∧
      (Number.bigNat (2 ^ 1024 + 1)).compare? (.real64 (.infinity false)) = some .eq ∧
      (Number.bigNat (2 ^ 1024 + 1)).compare? (.bigNat (2 ^ 1024)) = some .gt := by
  have hover : ∀ z : Int, 2 ^ 1024 ≤ z → FloatFormat.double.overflow ≤ z := by
    intro z hz
    have hpower := FloatFormat.double.overflow_lt
    rw [show FloatFormat.double.leastExponent + FloatFormat.double.precision +
      2 ^ FloatFormat.double.exponentBits - 3 = (1024 : Nat) by decide, zpow_natCast] at hpower
    have hz : ((2 ^ 1024 : Int) : Rat) ≤ z := Int.cast_le.mpr hz
    rw [Int.cast_pow, Int.cast_ofNat] at hz
    exact hpower.le.trans hz
  refine ⟨?_, ?_, ?_⟩
  · exact (Number.compare?_places rfl rfl).1 (.inl ((Place.swallows_top_iff _).mpr (hover _ le_rfl)))
  · exact (Number.compare?_places rfl rfl).1
      (.inr ((Place.swallows_top_iff _).mpr (hover _ (Int.le_add_of_nonneg_right one_pos.le))))
  · rw [Number.compare?_rational rfl rfl, Int.cast_strictMono.cmp_map_eq, Option.some.injEq,
      cmp_eq_gt_iff]
    exact Int.lt_succ _

end NumericTower
