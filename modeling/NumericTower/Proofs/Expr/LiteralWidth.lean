import Mathlib
import NumericTower.Expr.Build
import NumericTower.Proofs.Number.Conversion
import NumericTower.Proofs.NumericType.Narrowest

/-!
# Widths of exact literals

The width of an integer or ratio literal is found from a number of bits: those of the magnitude, and one more
for the sign of an integer below zero and of every numerator. The least integer of a width has the magnitude of
a power of two, which takes one bit more than all others of the width. So it is put where the integer below it
fits, too, and all other literals are put into the narrowest representation.

## Key results
- `isNarrowest_ofLiteral`: a number of bits is looked up among the widths
- `signedBits_le_iff`: which integers a number of signed bits is enough for
- `literals_are_narrowest_unless_least`
-/

namespace NumericTower

open NumericType

/-! ### Numbers of bits -/

theorem isNarrowest_ofLiteral (kind : NumericKind) (bits : Nat) :
    IsNarrowest kind ((if kind = .ratio then bits * 2 else bits) ≤ ·.width) (ofLiteral kind bits) :=
  isNarrowest_fixedAtLeast? kind _

variable {z : Int} {q : Rat} {w : Nat}

/-- What an integer counts as when its signed width is looked up: one below zero counts as the one below it. -/
def countedAs (z : Int) : Int :=
  if z < 0 then z - 1 else z

/-- Whether an integer is the least one of a fixed width. -/
def LeastOfWidth (z : Int) : Prop :=
  ∃ v : IntegralWidth, z = -2 ^ (v.bits - 1)

theorem unsignedBits_le_iff (hw : w ≠ 0) (hz : 0 ≤ z) : Integer.unsignedBits z ≤ w ↔ z < 2 ^ w := by
  have hbits : bitLength z.natAbs ≤ w ↔ z.natAbs < 2 ^ w := bitLength_le_iff
  have hcast : ((2 ^ w : Nat) : Int) = 2 ^ w := by push_cast; rfl
  unfold Integer.unsignedBits
  omega

theorem signedBits_le_iff (hw : 2 ≤ w) :
    Integer.signedBits z ≤ w ↔ Integer.InSigned w (countedAs z) := by
  have hbits : bitLength z.natAbs ≤ w - 1 ↔ z.natAbs < 2 ^ (w - 1) := bitLength_le_iff
  have hcast : ((2 ^ (w - 1) : Nat) : Int) = 2 ^ (w - 1) := by push_cast; rfl
  unfold Integer.signedBits Integer.unsignedBits Integer.InSigned countedAs
  split <;> omega

/-- A width that holds what an integer counts as holds the integer. -/
theorem inSigned_of_countedAs (h : Integer.InSigned w (countedAs z)) : Integer.InSigned w z := by
  unfold Integer.InSigned countedAs at h
  unfold Integer.InSigned
  split at h <;> omega

/-- Only the least integer of a width counts as one that the width does not hold. -/
theorem inSigned_countedAs_iff (h : ¬LeastOfWidth z) (v : IntegralWidth) :
    Integer.InSigned v.bits (countedAs z) ↔ Integer.InSigned v.bits z := by
  have hne : z ≠ -2 ^ (v.bits - 1) := fun hz => h ⟨v, hz⟩
  unfold Integer.InSigned countedAs
  split <;> omega

theorem LeastOfWidth.neg (h : LeastOfWidth z) : z < 0 := by
  obtain ⟨v, rfl⟩ := h
  have hpos : (0 : Int) < 2 ^ (v.bits - 1) := by positivity
  omega

theorem LeastOfWidth.countedAs_eq (h : LeastOfWidth z) : countedAs z = z - 1 :=
  if_pos h.neg

/-! ### Integers -/

theorem isNarrowest_nat_ofLiteral (hz : 0 ≤ z) :
    IsNarrowest .nat (·.Holds z) (ofLiteral .nat (Integer.unsignedBits z)) := by
  refine (isNarrowest_ofLiteral .nat _).congr fun s hs => ?_
  obtain ⟨hk, hne⟩ := of_mem_fixed hs
  rw [if_neg (by decide), unsignedBits_le_iff hne hz]
  show _ ↔ InRange s.kind s.width z
  rw [hk]
  exact ⟨fun h => ⟨hz, fun _ => h⟩, fun h => h.2 hne⟩

theorem isNarrowest_int_ofLiteral (z : Int) :
    IsNarrowest .int (·.Holds (countedAs z)) (ofLiteral .int (Integer.signedBits z)) := by
  refine (isNarrowest_ofLiteral .int _).congr fun s hs => ?_
  obtain ⟨hk, hne⟩ := of_mem_fixed hs
  obtain ⟨v, hv⟩ := exists_width_of_mem_fixed (t := s) (by rw [hk]; rfl) (by rw [hk]; exact hs)
  rw [if_neg (by decide), signedBits_le_iff (by rw [hv]; cases v <;> decide)]
  show _ ↔ InRange s.kind s.width (countedAs z)
  rw [hk]
  exact ⟨fun h _ => h, fun h => h hne⟩

/-- The narrowest type that holds an integer does hold it, if the unbounded one does. -/
theorem IsNarrowest.holds {kind : NumericKind} {t : NumericType} (h : IsNarrowest kind (·.Holds z) t)
    (hz : InRange kind 0 z) : t.Holds z := by
  rcases h.width_or with hw | ⟨-, hholds⟩
  · show InRange t.kind t.width z
    rwa [h.kind_eq, hw]
  · exact hholds

/-- A type that holds what an integer counts as holds the integer. -/
theorem holds_of_countedAs {t : NumericType} (hk : t.kind = .int) (h : t.Holds (countedAs z)) : t.Holds z := by
  have hcounted : InRange t.kind t.width (countedAs z) := h
  show InRange t.kind t.width z
  rw [hk] at hcounted ⊢
  exact fun hw => inSigned_of_countedAs (hcounted hw)

namespace Build

/-- An integer that is not negative is put into the narrowest natural type that holds it. -/
theorem isNarrowest_integerNumber_of_nonneg (hz : 0 ≤ z) :
    IsNarrowest .nat (·.Holds z) (integerNumber z).type := by
  have h := isNarrowest_nat_ofLiteral hz
  have hholds := h.holds ⟨hz, fun h0 => absurd rfl h0⟩
  rwa [integerNumber, if_neg (not_lt.mpr hz),
    Number.type_natural h.kind_eq (h.width_or.imp_right And.left) hholds]

/-- A negative integer is put into the narrowest integer type that holds the one below it, too. -/
theorem isNarrowest_integerNumber_of_neg (hz : z < 0) :
    IsNarrowest .int (·.Holds (countedAs z)) (integerNumber z).type := by
  have h := isNarrowest_int_ofLiteral z
  have hholds := holds_of_countedAs h.kind_eq (h.holds fun h0 => absurd rfl h0)
  rwa [integerNumber, if_pos hz, Number.type_integer h.kind_eq (h.width_or.imp_right And.left) hholds]

theorem toInt?_integerNumber (z : Int) : (integerNumber z).toInt? = some z := by
  unfold integerNumber
  split
  · exact Number.toInt?_integer z _
  · exact Number.toInt?_natural z _

end Build

/-! ### Ratios -/

/-- Whether a type of ratios holds a numerator and a denominator, each in half of its width. -/
def NumericType.HoldsParts (t : NumericType) (n : Int) (d : Nat) : Prop :=
  Integer.InSigned (t.width / 2) n ∧ d < 2 ^ (t.width / 2)

/-- The parts of a fixed ratio have the widths of fixed integers. -/
theorem NumericType.exists_parts_of_mem_fixed {s : NumericType} (hs : s ∈ fixed .ratio) :
    ∃ (v : RatioWidth) (u : IntegralWidth), s.width = v.bits ∧ v.componentBits = u.bits ∧
      s.width / 2 = u.bits := by
  obtain ⟨v, -, rfl⟩ := List.mem_map.mp (show s ∈ RatioWidth.all.map fun v => ⟨.ratio, v.bits, v.bits_lt⟩ from hs)
  cases v with
  | bits32 => exact ⟨.bits32, .bits16, rfl, rfl, rfl⟩
  | bits64 => exact ⟨.bits64, .bits32, rfl, rfl, rfl⟩
  | bits128 => exact ⟨.bits128, .bits64, rfl, rfl, rfl⟩

theorem isNarrowest_ratio_ofLiteral (q : Rat) :
    IsNarrowest .ratio (·.HoldsParts (countedAs q.num) q.den) (ofLiteral .ratio (Rational.bits q)) := by
  refine (isNarrowest_ofLiteral .ratio _).congr fun s hs => ?_
  obtain ⟨v, u, hwidth, hpart, hhalf⟩ := exists_parts_of_mem_fixed hs
  have hu : 2 ≤ u.bits := by cases u <;> decide
  have hden : Rational.denominatorBits q ≤ u.bits ↔ q.den < 2 ^ u.bits := by
    rw [Rational.denominatorBits, unsignedBits_le_iff (by omega) (Int.natCast_nonneg _)]
    exact_mod_cast Iff.rfl
  have hnum : Rational.numeratorBits q ≤ u.bits ↔ Integer.InSigned u.bits (countedAs q.num) :=
    signedBits_le_iff hu
  have hdouble : Rational.bits q * 2 ≤ s.width ↔ Rational.bits q ≤ u.bits := by
    rw [← hhalf, Nat.le_div_iff_mul_le two_pos]
  rw [if_pos rfl, hdouble, Rational.bits, max_le_iff, hnum, hden, HoldsParts, hhalf]

/-- A ratio type that holds what a numerator counts as holds the ratio. -/
theorem fitsRatio_of_countedAs {t : NumericType} (ht : t.width = 0 ∨ t ∈ fixed .ratio)
    (h : t ∈ fixed .ratio → t.HoldsParts (countedAs q.num) q.den) (v : RatioWidth) (hv : t.width = v.bits) :
    FitsRatio v q := by
  have hmem : t ∈ fixed .ratio := ht.resolve_left (hv ▸ v.bits_ne_zero)
  obtain ⟨v', u, hwidth, hpart, hhalf⟩ := exists_parts_of_mem_fixed hmem
  obtain rfl : v = v' := RatioWidth.bits_injective (hv.symm.trans hwidth)
  obtain ⟨hnum, hden⟩ := h hmem
  rw [hhalf, ← hpart] at hnum hden
  exact ⟨inSigned_of_countedAs hnum, hden⟩

namespace Build

/-- A ratio is put into the narrowest ratio type whose parts hold what its numerator counts as and its
denominator. -/
theorem isNarrowest_ratioNumber (q : Rat) :
    IsNarrowest .ratio (·.HoldsParts (countedAs q.num) q.den) (ratioNumber q).type := by
  have h := isNarrowest_ratio_ofLiteral q
  have hwidth := h.width_or.imp_right And.left
  have hholds : ofLiteral .ratio (Rational.bits q) ∈ fixed .ratio →
      (ofLiteral .ratio (Rational.bits q)).HoldsParts (countedAs q.num) q.den :=
    fun hmem => (h.width_or.resolve_left (of_mem_fixed hmem).2).2
  rwa [ratioNumber, Number.type_rational h.kind_eq hwidth (fitsRatio_of_countedAs hwidth hholds)]

/-! ### Literals -/

theorem integer_eq {src : String} {radix : Nat} (h : Integer.parse radix src.toList = .ok z) (span : Span) :
    integer src radix span = value (.number (integerNumber z)) span := by
  rw [integer, h]
  rfl

theorem ratio_eq {src : String} {radix : Nat} (h : Rational.parse radix src.toList = .ok q) (span : Span) :
    ratio src radix span = value (.number (ratioNumber q)) span := by
  rw [ratio, h]
  rfl

end Build

/-- Every integer that is read becomes a literal of that value in the narrowest natural representation, or
integer one if it is negative, and every ratio in the narrowest one that holds both parts. Only where the integer
or the numerator is the least one of a fixed width, the integer below it has to fit, too. -/
theorem literals_are_narrowest_unless_least (src : String) (radix : Nat) (span : Span) (table : TypeTable) :
    (∀ z, Integer.parse radix src.toList = .ok z →
      ∃ n, Build.integer src radix span table =
          .ok (.literal { type := (TypeTable.numeric n.type table).1, span } (.number n))
            (TypeTable.numeric n.type table).2 ∧
        n.toInt? = some z ∧
        (0 ≤ z → IsNarrowest .nat (·.Holds z) n.type) ∧
        (z < 0 → ¬LeastOfWidth z → IsNarrowest .int (·.Holds z) n.type) ∧
        (LeastOfWidth z → IsNarrowest .int (·.Holds (z - 1)) n.type)) ∧
      ∀ q, Rational.parse radix src.toList = .ok q →
        ∃ n, Build.ratio src radix span table =
            .ok (.literal { type := (TypeTable.numeric n.type table).1, span } (.number n))
              (TypeTable.numeric n.type table).2 ∧
          n.toRat? = some q ∧
          (¬LeastOfWidth q.num → IsNarrowest .ratio (·.HoldsParts q.num q.den) n.type) ∧
          (LeastOfWidth q.num → IsNarrowest .ratio (·.HoldsParts (q.num - 1) q.den) n.type) := by
  constructor
  · intro z hz
    refine ⟨Build.integerNumber z, ?_, Build.toInt?_integerNumber z,
      Build.isNarrowest_integerNumber_of_nonneg, fun hneg hleast => ?_, fun hleast => ?_⟩
    · rw [Build.integer_eq hz, Build.value_number]
    · refine (Build.isNarrowest_integerNumber_of_neg hneg).congr fun s hs => ?_
      obtain ⟨hk, hne⟩ := of_mem_fixed hs
      obtain ⟨v, hv⟩ := exists_width_of_mem_fixed (t := s) (by rw [hk]; rfl) (by rw [hk]; exact hs)
      show InRange s.kind s.width _ ↔ InRange s.kind s.width _
      rw [hk, hv]
      exact imp_congr_right fun _ => inSigned_countedAs_iff hleast v
    · rw [← hleast.countedAs_eq]
      exact Build.isNarrowest_integerNumber_of_neg hleast.neg
  · intro q hq
    refine ⟨Build.ratioNumber q, ?_, Number.toRat?_rational q _, fun hleast => ?_, fun hleast => ?_⟩
    · rw [Build.ratio_eq hq, Build.value_number]
    · refine (Build.isNarrowest_ratioNumber q).congr fun s hs => ?_
      obtain ⟨-, u, -, -, hhalf⟩ := exists_parts_of_mem_fixed hs
      rw [HoldsParts, HoldsParts, hhalf]
      exact and_congr_left fun _ => inSigned_countedAs_iff hleast u
    · rw [← hleast.countedAs_eq]
      exact Build.isNarrowest_ratioNumber q

/-- The integer below the least one of 32 bits takes 64 bits, and no fewer hold it. -/
theorem literals_are_narrowest_unless_least_below_int32 :
    Integer.parse 10 "-2_147_483_649".toList = .ok (-2147483649) ∧ ¬LeastOfWidth (-2147483649) ∧
      ∃ n, Build.integer "-2_147_483_649" 10 ⟨0, 14⟩ .initial =
          .ok (.literal { type := (TypeTable.numeric n.type .initial).1, span := ⟨0, 14⟩ } (.number n))
            (TypeTable.numeric n.type .initial).2 ∧
        n.toInt? = some (-2147483649) ∧ IsNarrowest .int (·.Holds (-2147483649)) n.type := by
  have hparse : Integer.parse 10 "-2_147_483_649".toList = .ok (-2147483649) := by cbv
  have hleast : ¬LeastOfWidth (-2147483649) := by
    rintro ⟨v, hv⟩
    cases v <;> exact absurd hv (by decide)
  obtain ⟨n, hn, hvalue, -, hnarrowest, -⟩ :=
    (literals_are_narrowest_unless_least "-2_147_483_649" 10 ⟨0, 14⟩ .initial).1 _ hparse
  exact ⟨hparse, hleast, n, hn, hvalue, hnarrowest (by decide) hleast⟩

/-- The least integer of 16 bits is put into 32, and the ratio with that numerator into 64. -/
theorem least_integers_take_next_width :
    Integer.parse 10 "-32768".toList = .ok (-32768) ∧
      (∃ n, Build.integer "-32768" 10 ⟨0, 6⟩ .initial =
          .ok (.literal { type := (TypeTable.numeric n.type .initial).1, span := ⟨0, 6⟩ } (.number n))
            (TypeTable.numeric n.type .initial).2 ∧
        n.type.width = 32 ∧ ¬IsNarrowest .int (·.Holds (-32768)) n.type) ∧
      Rational.parse 10 "-32768/1".toList = .ok (-32768) ∧
      ∃ n, Build.ratio "-32768/1" 10 ⟨0, 8⟩ .initial =
          .ok (.literal { type := (TypeTable.numeric n.type .initial).1, span := ⟨0, 8⟩ } (.number n))
            (TypeTable.numeric n.type .initial).2 ∧
        n.type.width = 64 ∧ ¬IsNarrowest .ratio (·.HoldsParts (-32768) 1) n.type := by
  have hinteger : Integer.parse 10 "-32768".toList = .ok (-32768) := by cbv
  have hratio : Rational.parse 10 "-32768/1".toList = .ok (-32768) := by cbv
  have hwidth : (Build.integerNumber (-32768)).type.width = 32 := by decide +kernel
  have hwidth' : (Build.ratioNumber (-32768)).type.width = 64 := by decide +kernel
  refine ⟨hinteger, ⟨Build.integerNumber (-32768), ?_, hwidth, fun h => ?_⟩, hratio,
    Build.ratioNumber (-32768), ?_, hwidth', fun h => ?_⟩
  · rw [Build.integer_eq hinteger, Build.value_number]
  · have hle := h.width_le (s := ⟨.int, 16, by decide⟩) (by decide) (fun _ => by decide)
    rw [hwidth] at hle
    exact absurd hle (by decide)
  · rw [Build.ratio_eq hratio, Build.value_number]
  · have hle := h.width_le (s := ⟨.ratio, 32, by decide⟩) (by decide) (by constructor <;> decide)
    rw [hwidth'] at hle
    exact absurd hle (by decide)

end NumericTower
