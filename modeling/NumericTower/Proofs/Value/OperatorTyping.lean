import Mathlib
import NumericTower.Proofs.Number.Defined
import NumericTower.Proofs.Number.ExponentRange
import NumericTower.Proofs.Value.Equality
import NumericTower.Proofs.Value.Typing
import NumericTower.TypeTable.Promotion

/-!
# Operator types and operators agree

The static type of an operator is found by the operators that the operand types support and by castability;
the evaluator looks at the values. Both say of the same operands that the operator is defined, and the result
is what its static type says. Types know nothing of exponents: an operator also stops where an exponent that is
computed among unbounded reals does not fit into 64 bits.

## Key results
- `Value.HasNode.supportsBinary_eq`: what the type of a value supports
- `TypeTable.binaryResult?_unlike`, `TypeTable.binaryResult?_arithmetic`: static types by the nodes
- `Value.binaryOp_eq_exponentOverflow_iff`: where an operator stops
- `Value.Agrees`: what the evaluator owes a static type
- `operators_agree_with_types`
-/

namespace NumericTower

/-! ### Operator sets -/

theorem BinaryOp.isEquality_iff {op : BinaryOp} : op.isEquality = true ↔ op = .eq ∨ op = .ne := by
  cases op <;> simp [isEquality]

namespace OpSet

theorem supportsBinary_numeric (op : BinaryOp) :
    numeric.supportsBinary op = (op.isArithmetic || op.isComparison) := by
  cases op <;> rfl

theorem supportsBinary_bool (op : BinaryOp) :
    bool.supportsBinary op = (op.isLogic && !op.isOrdering) := by
  cases op <;> rfl

theorem supportsBinary_text (op : BinaryOp) :
    text.supportsBinary op = (op == .concat || op.isEquality) := by
  cases op <;> rfl

theorem supportsBinary_equality (op : BinaryOp) : equality.supportsBinary op = op.isEquality := by
  cases op <;> rfl

end OpSet

namespace Value

/-- Whether values of the shape support the operator. -/
def supports : Value → BinaryOp → Bool
  | .number _, op => op.isArithmetic || op.isComparison
  | .bool _, op => op.isLogic && !op.isOrdering
  | .str .., op => op == .concat || op.isEquality
  | .unit, op | .product _, op => op.isEquality
  | _, _ => false

/-- Whether two values are data of one shape. -/
def Alike : Value → Value → Prop
  | .unit, .unit | .bool _, .bool _ | .number _, .number _ | .str .., .str ..
  | .product _, .product _ => True
  | _, _ => False

theorem Alike.symm {l r : Value} (h : l.Alike r) : r.Alike l := by
  cases l <;> cases r <;> exact h

end Value

namespace Value.HasNode

variable {a : TypeTable} {s t : TypeId} {l r : Value} {n : TypeNode}

/-- The type of data supports what the shape supports. -/
theorem supportsBinary_eq (hl : l.HasNode (a.node s)) (op : BinaryOp) :
    (a.supportedOps s).supportsBinary op = l.supports op := by
  generalize hs : a.node s = n at hl
  rw [TypeTable.supportedOps.eq_def]
  cases hl <;> split <;> simp_all [supports, OpSet.supportsBinary_numeric, OpSet.supportsBinary_bool,
    OpSet.supportsBinary_text, OpSet.supportsBinary_equality]

theorem isPlaceholder_eq (hl : l.HasNode (a.node s)) : a.isPlaceholder s = false := by
  generalize hs : a.node s = n at hl
  rw [TypeTable.isPlaceholder, hs]
  cases hl <;> rfl

theorem node_number {x : Number} (h : (Value.number x).HasNode n) : n = .numeric x.type := by
  cases h with
  | number h => rw [h]

theorem node_str {tag : TextTag} {v : String} (h : (Value.str tag v).HasNode n) :
    n = .text tag.kind := by
  cases h with
  | str _ h => rw [h]

/-- Of the types of data only those of numbers are numeric. -/
theorem exists_number (hl : l.HasNode (a.node s)) (ha : a.Canonical) (h : a.isNumeric s = true) :
    ∃ x, l = .number x := by
  have hnumber : s ≠ .number := by
    rintro rfl
    rw [ha.node_of_isReserved (t := .number) rfl] at hl
    cases hl
  simp only [TypeTable.isNumeric, hnumber, decide_false, Bool.false_or, TypeTable.numericType?] at h
  generalize a.node s = n at hl h
  cases hl with
  | number _ => exact ⟨_, rfl⟩
  | _ => exact nomatch h

theorem supports_of_isEquality (hl : l.HasNode n) {op : BinaryOp} (hop : op.isEquality = true) :
    l.supports op = true := by
  rcases BinaryOp.isEquality_iff.mp hop with rfl | rfl <;> cases hl <;> rfl

theorem alike_of_node_eq (hl : l.HasNode n) (hr : r.HasNode n) : l.Alike r := by
  cases hl <;> cases hr <;> exact trivial

/-- Types of data can be cast only if the shapes are the same. -/
theorem alike_of_isCastable (hl : l.HasNode (a.node s)) (hr : r.HasNode (a.node t)) (ha : a.Canonical)
    (h : a.isCastable s t = true) : l.Alike r := by
  have htop := ha.node_top
  have hbottom := ha.node_bottom
  cases TypeTable.castRule_of_isCastable h with
  | refl hst => exact hl.alike_of_node_eq (hst ▸ hr)
  | top ht =>
    rw [ht, htop] at hr
    cases hr
  | bottom hs =>
    rw [hs, hbottom] at hl
    cases hl
  | numeric hs ht _ | text hs ht _ | product hs ht _ =>
    rw [hs] at hl
    rw [ht] at hr
    cases hl
    cases hr
    trivial
  | placeholder ht | number _ ht | array _ ht _ | intoSum ht _ _ | closure _ ht =>
    rw [ht] at hr
    cases hr
  | fromSum hs _ =>
    rw [hs] at hl
    cases hl

/-- Values of different shapes share no operator but equality. -/
theorem isEquality_of_unlike {m : TypeNode} (hl : l.HasNode n) (hr : r.HasNode m) (h : ¬l.Alike r)
    {op : BinaryOp} (hlop : l.supports op = true) (hrop : r.supports op = true) :
    op.isEquality = true := by
  cases hl <;> cases hr <;>
    first
    | exact absurd trivial h
    | assumption
    | cases op <;> first | rfl | exact absurd hlop Bool.false_ne_true | exact absurd hrop Bool.false_ne_true

end Value.HasNode

/-! ### Static types by the shapes -/

namespace TypeTable

variable {a : TypeTable} {s t : TypeId} {l r : Value} {op : BinaryOp}

/-- Without placeholders an operator that one of the types does not support has no static type. -/
theorem binaryResult?_of_unsupported (hl : l.HasNode (a.node s)) (hr : r.HasNode (a.node t))
    (h : (l.supports op && r.supports op) = false) :
    binaryResult? op s t a = (none, a) := by
  rw [Bool.and_eq_false_iff] at h
  simp only [binaryResult?, hl.isPlaceholder_eq, hr.isPlaceholder_eq, hl.supportsBinary_eq,
    hr.supportsBinary_eq]
  rcases h with h | h <;> simp [h]

/-- A supported logical operator has a static type if the types are related. -/
theorem binaryResult?_logic (hl : l.HasNode (a.node s)) (hr : r.HasNode (a.node t))
    (hlop : l.supports op = true) (hrop : r.supports op = true)
    (hop : op.isLogic = true) :
    binaryResult? op s t a = (if a.logicRelated op s t then some .bool else none, a) := by
  simp [binaryResult?, hl.isPlaceholder_eq, hr.isPlaceholder_eq, hl.supportsBinary_eq,
    hr.supportsBinary_eq, hlop, hrop, hop]

theorem binaryResult?_concat {j k : TextTag} {v w : String} (hl : (Value.str j v).HasNode (a.node s))
    (hr : (Value.str k w).HasNode (a.node t)) :
    binaryResult? .concat s t a = (some (j.kind.join k.kind).typeId, a) := by
  have hlop : (Value.str j v).supports .concat = true := rfl
  have hrop : (Value.str k w).supports .concat = true := rfl
  simp [binaryResult?, hl.isPlaceholder_eq, hr.isPlaceholder_eq, hl.supportsBinary_eq,
    hr.supportsBinary_eq, hlop, hrop, BinaryOp.isLogic, BinaryOp.isComparison, BinaryOp.isEquality,
    BinaryOp.isOrdering, textKind?, hl.node_str, hr.node_str]

/-- The static type of an arithmetic operator on two numeric types with their widths. -/
theorem binaryResult?_arithmetic (ha : a.Canonical) {x y : Number}
    (hl : (Value.number x).HasNode (a.node s)) (hr : (Value.number y).HasNode (a.node t))
    (hop : op.isArithmetic = true) :
    binaryResult? op s t a =
      match NumericType.arithmeticResult? op x.type y.type with
      | some u => (some <$> numeric u) a
      | none => (none, a) := by
  have hnumber : ∀ {u : TypeId} {z : NumericType}, a.node u = .numeric z → u ≠ .number := fun hu =>
    ha.ne_of_node_ne rfl (by rw [hu]; nofun)
  have hlop : (Value.number x).supports op = true := by simp [Value.supports, hop]
  have hrop : (Value.number y).supports op = true := hlop
  have hlogic : op.isLogic = false := by cases op <;> first | rfl | exact nomatch hop
  have hconcat : op ≠ .concat := by
    rintro rfl
    exact nomatch hop
  cases ht : NumericType.arithmeticResult? op x.type y.type <;>
    simp [binaryResult?, hl.isPlaceholder_eq, hr.isPlaceholder_eq, hl.supportsBinary_eq,
      hr.supportsBinary_eq, hlop, hrop, hlogic, hconcat, hnumber hl.node_number, hnumber hr.node_number,
      numericType?, hl.node_number, hr.node_number, ht]

/-- Whether two types may be compared for equality: both are numeric, or one can be cast to the other. -/
def Related (a : TypeTable) (s t : TypeId) : Prop :=
  a.isNumeric s = true ∧ a.isNumeric t = true ∨ a.isCastable s t = true ∨ a.isCastable t s = true

/-- Equality has a static type for related types only. -/
theorem binaryResult?_equality (hl : l.HasNode (a.node s)) (hr : r.HasNode (a.node t))
    (hop : op.isEquality = true) :
    (a.Related s t → binaryResult? op s t a = (some .bool, a)) ∧
      (¬a.Related s t → binaryResult? op s t a = (none, a)) := by
  have hrelated : a.logicRelated op s t = true ↔ a.Related s t := by
    rcases BinaryOp.isEquality_iff.mp hop with rfl | rfl <;> simp [logicRelated, Related, or_assoc]
  have hlogic : op.isLogic = true := by
    rcases BinaryOp.isEquality_iff.mp hop with rfl | rfl <;> rfl
  rw [binaryResult?_logic hl hr (hl.supports_of_isEquality hop)
    (hr.supports_of_isEquality hop) hlogic]
  exact ⟨fun h => by rw [if_pos (hrelated.mpr h)], fun h => by rw [if_neg (mt hrelated.mp h)]⟩

/-- Types of different shapes have no static type for any operator. -/
theorem binaryResult?_unlike (ha : a.Canonical) (hl : l.HasNode (a.node s)) (hr : r.HasNode (a.node t))
    (h : ¬l.Alike r) (op : BinaryOp) : binaryResult? op s t a = (none, a) := by
  -- Only equality is supported by two shapes, and neither numbers nor castability relate them.
  cases hsupported : l.supports op && r.supports op with
  | false => exact binaryResult?_of_unsupported hl hr hsupported
  | true =>
    obtain ⟨hlop, hrop⟩ := Bool.and_eq_true_iff.mp hsupported
    refine (binaryResult?_equality hl hr (hl.isEquality_of_unlike hr h hlop hrop)).2 ?_
    rintro (⟨hs, ht⟩ | hcast | hcast)
    · obtain ⟨x, rfl⟩ := hl.exists_number ha hs
      obtain ⟨y, rfl⟩ := hr.exists_number ha ht
      exact h trivial
    · exact h (hl.alike_of_isCastable hr ha hcast)
    · exact h (hr.alike_of_isCastable hl ha hcast).symm

end TypeTable

/-! ### Agreement -/

namespace Value

/-- Whether a value is one of the type with the node, up to the width of a number. -/
def IsOf (v : Value) : TypeNode → Prop
  | .bool => ∃ b, v = .bool b
  | .text kind => v.textKind? = some kind
  | .numeric t => ∃ n, v = .number n ∧ n.type.kind = t.kind
  | _ => False

/-- Both operands are numbers, and an exponent that is computed for the operator does not fit into 64 bits. -/
def Overflows (op : BinaryOp) (l r : Value) (p : Nat) : Prop :=
  ∃ a b, l = .number a ∧ r = .number b ∧ ∃ e ∈ Number.computedExponents op a b p, ¬Integer.InSigned 64 e

/-- What the evaluator owes the static type of an operator, which comes with the table after it: with a static
type the result is of it, unless it is divided by zero or an exponent does not fit; without one the operator is
undefined, except that tuples can always be compared. -/
structure Agrees (static : Option TypeId × TypeTable) (op : BinaryOp) (l r : Value) (p : Nat)
    (result : Except OpError Value) : Prop where
  defined : ∀ t, static.1 = some t → ¬Overflows op l r p →
    (∃ v, result = .ok v ∧ v.IsOf (static.2.node t)) ∨ result = .error .divisionByZero
  divisionByZero : ∀ t, static.1 = some t → (result = .error .divisionByZero ↔
    (op = .div ∨ op = .mod) ∧ ∃ n, r = .number n ∧ n.toRat? = some 0)
  undefined : ¬((∃ xs, l = .product xs) ∧ ∃ ys, r = .product ys) → static.1 = none →
    result = .error .undefined

namespace Agrees

variable {a : TypeTable} {op : BinaryOp} {l r v : Value} {t : TypeId} {p : Nat} {result : Except OpError Value}

theorem of_ok (h : result = .ok v) (hv : v.IsOf (a.node t)) (hop : op ≠ .div) (hmod : op ≠ .mod) :
    Agrees (some t, a) op l r p result where
  defined t' ht _ := by
    obtain rfl : t = t' := Option.some.inj ht
    exact .inl ⟨v, h, hv⟩
  divisionByZero t' _ := by simp [h, hop, hmod]
  undefined _ hnone := nomatch hnone

theorem of_bool {b : Bool} (ha : a.Canonical) (h : result = .ok (.bool b)) (hop : op.isLogic = true) :
    Agrees (some .bool, a) op l r p result := by
  refine .of_ok h ?_ ?_ ?_
  · rw [ha.node_of_isReserved (t := .bool) rfl]
    exact ⟨b, rfl⟩
  · rintro rfl
    exact nomatch hop
  · rintro rfl
    exact nomatch hop

theorem of_undefined (h : result = .error .undefined) : Agrees (none, a) op l r p result where
  defined _ ht := nomatch ht
  divisionByZero _ ht := nomatch ht
  undefined _ _ := h

end Agrees

variable {a : TypeTable} {s t : TypeId} {l r : Value} {op : BinaryOp}

/-- An operator stops exactly if an exponent that is computed for its operands does not fit into 64 bits. -/
theorem binaryOp_eq_exponentOverflow_iff (op : BinaryOp) (l r : Value) (p : Nat) :
    binaryOp op l r p = .error .exponentOverflow ↔ Overflows op l r p := by
  by_cases hnumbers : (∃ x, l = .number x) ∧ ∃ y, r = .number y
  · obtain ⟨⟨x, rfl⟩, y, rfl⟩ := hnumbers
    rw [Number.binaryOp_number_eq_exponentOverflow_iff]
    constructor
    · exact fun h => ⟨x, y, rfl, rfl, h⟩
    · rintro ⟨_, _, hx, hy, h⟩
      cases hx
      cases hy
      exact h
  · -- Values that are not both numbers have no exponents, and no such error.
    refine iff_of_false (fun h => ?_) ?_
    · have hequal : l.equal r ≠ .error .exponentOverflow := fun h => nomatch eq_undefined_of_equal l r h
      unfold binaryOp at h
      split at h
      · exact hequal (Number.error_of_map h)
      split at h
      · exact hequal (Number.error_of_map (unequal_eq l r ▸ Number.error_of_map h))
      · unfold binaryOther at h
        split at h
        · split at h <;> exact nomatch h
        · split at h <;> exact nomatch h
        · exact hnumbers ⟨⟨_, rfl⟩, _, rfl⟩
        · exact nomatch h
    · rintro ⟨x, y, rfl, rfl, -⟩
      exact hnumbers ⟨⟨x, rfl⟩, y, rfl⟩

/-- Values of different shapes have no result. -/
theorem binaryOp_unlike {n m : TypeNode} (hl : l.HasNode n) (hr : r.HasNode m) (h : ¬l.Alike r)
    (op : BinaryOp) (p : Nat) : binaryOp op l r p = .error .undefined := by
  have hequal : l.equal r = .error .undefined := by
    cases hl <;> cases hr <;> first | exact absurd trivial h | rfl
  have hother : binaryOther op l r p = .error .undefined := by
    cases hl <;> cases hr <;> first | exact absurd trivial h | rfl
  rw [binaryOp, unequal_eq, hequal, hother]
  split
  · rfl
  split <;> rfl

/-- Equality of data of one shape is decided. -/
theorem exists_binaryOp_equality (hl : l.HasNode (a.node s)) (hr : r.HasNode (a.node t))
    (h : l.Alike r) (hop : op.isEquality = true) (p : Nat) :
    ∃ b, binaryOp op l r p = .ok (.bool b) := by
  by_cases hproducts : (∃ xs, l = .product xs) ∧ ∃ ys, r = .product ys
  · obtain ⟨⟨xs, rfl⟩, ys, rfl⟩ := hproducts
    exact exists_binaryOp_product p xs ys op hop
  · generalize a.node s = n at hl
    generalize a.node t = m at hr
    obtain ⟨b, hb⟩ : ∃ b, l.equal r = .ok b := by
      cases hl <;> cases hr <;>
        first | exact absurd h id | exact absurd ⟨⟨_, rfl⟩, _, rfl⟩ hproducts | exact ⟨_, rfl⟩
    rw [binaryOp, unequal_eq, hb]
    rcases BinaryOp.isEquality_iff.mp hop with rfl | rfl <;> exact ⟨_, rfl⟩

/-- Equality of data of one shape agrees with its static type if there is one, and there is one unless tuples
are compared. -/
theorem agrees_equality (ha : a.Canonical) (hl : l.HasNode (a.node s)) (hr : r.HasNode (a.node t))
    (h : l.Alike r) (hop : op.isEquality = true)
    (hrelated : ¬((∃ xs, l = .product xs) ∧ ∃ ys, r = .product ys) → a.Related s t) (p : Nat) :
    Agrees (TypeTable.binaryResult? op s t a) op l r p (binaryOp op l r p) := by
  obtain ⟨b, hb⟩ := exists_binaryOp_equality hl hr h hop p
  have hstatic := TypeTable.binaryResult?_equality hl hr hop
  by_cases hrel : a.Related s t
  · rw [hstatic.1 hrel]
    refine .of_bool ha hb ?_
    rcases BinaryOp.isEquality_iff.mp hop with rfl | rfl <;> rfl
  · rw [hstatic.2 hrel]
    exact ⟨(fun _ ht => nomatch ht), (fun _ ht => nomatch ht), fun hne _ => absurd (hrelated hne) hrel⟩

/-- An operator that the shape does not support is undefined. -/
theorem agrees_unsupported (hl : l.HasNode (a.node s)) (hr : r.HasNode (a.node t))
    (h : l.supports op = false) {p : Nat} (hundefined : binaryOp op l r p = .error .undefined) :
    Agrees (TypeTable.binaryResult? op s t a) op l r p (binaryOp op l r p) := by
  rw [TypeTable.binaryResult?_of_unsupported hl hr (by rw [h, Bool.false_and])]
  exact .of_undefined hundefined

section

variable (ha : a.Canonical) (p : Nat)

include ha

/-- Arithmetic of finite numbers agrees with its static type. -/
theorem agrees_arithmetic {x y : Number} {u v : Rat} (hl : (Value.number x).HasNode (a.node s))
    (hr : (Value.number y).HasNode (a.node t)) (hx : x.Proper) (hy : y.Proper) (hu : x.toRat? = some u)
    (hv : y.toRat? = some v) (harith : op.isArithmetic = true) (hop : op ≠ .pow) :
    Agrees (TypeTable.binaryResult? op s t a) op (.number x) (.number y) p
      (binaryOp op (.number x) (.number y) p) := by
  rw [TypeTable.binaryResult?_arithmetic ha hl hr harith, binaryOp_number harith]
  cases ht : NumericType.arithmeticResult? op x.type y.type with
  | none =>
    refine .of_undefined ?_
    rw [Number.arithmetic, ht]
    rfl
  | some target =>
    have hzero : (op = .div ∨ op = .mod) ∧ (∃ n, Value.number y = .number n ∧ n.toRat? = some 0) ↔
        DividesByZero op v := by
      refine and_congr_right fun _ => ⟨?_, fun h0 => ⟨y, rfl, h0 ▸ hv⟩⟩
      rintro ⟨n, hn, h0⟩
      cases hn
      exact Option.some.inj (hv.symm.trans h0)
    refine ⟨fun t' ht' hoverflow => ?_, fun t' _ => ?_, fun _ hnone => absurd hnone (Option.some_ne_none _)⟩
    · obtain rfl : (TypeTable.numeric target a).1 = t' := Option.some.inj ht'
      have hfits : ∀ e ∈ Number.computedExponents op x y p, Integer.InSigned 64 e := fun e he =>
        not_not.mp fun hexceeds => hoverflow ⟨x, y, rfl, rfl, e, he, hexceeds⟩
      have hdefined := Number.arithmetic_defined hu hv hop ht hfits
      by_cases hdivides : DividesByZero op v
      · exact .inr ((hdefined.map Value.number).error hdivides)
      · obtain ⟨n, hn⟩ := hdefined.ok hdivides
        refine .inl ⟨.number n, by rw [hn]; rfl, ?_⟩
        show (Value.number n).IsOf ((TypeTable.numeric target a).2.node (TypeTable.numeric target a).1)
        rw [ha.node_numeric]
        exact ⟨n, rfl, Number.kind_of_arithmetic hx hy hn ht⟩
    · rw [hzero]
      constructor
      · intro herror
        have herror := Number.error_of_map herror
        have hfits : ∀ e ∈ Number.computedExponents op x y p, Integer.InSigned 64 e := by
          refine Number.inSigned_of_arithmetic_ne ?_
          rw [herror]
          exact fun h => OpError.noConfusion (Except.error.inj h)
        by_contra hdivides
        obtain ⟨n, hn⟩ := (Number.arithmetic_defined hu hv hop ht hfits).ok hdivides
        cases hn.symm.trans herror
      · intro hdivides
        have hfits : ∀ e ∈ Number.computedExponents op x y p, Integer.InSigned 64 e := by
          rw [Number.computedExponents_of_dividesByZero hv hdivides]
          exact fun e he => absurd he List.not_mem_nil
        exact ((Number.arithmetic_defined hu hv hop ht hfits).map Value.number).error hdivides

theorem agrees_number {x y : Number} {u v : Rat} (hl : (Value.number x).HasNode (a.node s))
    (hr : (Value.number y).HasNode (a.node t)) (hx : x.Proper) (hy : y.Proper) (hu : x.toRat? = some u)
    (hv : y.toRat? = some v) (hop : op ≠ .pow) :
    Agrees (TypeTable.binaryResult? op s t a) op (.number x) (.number y) p
      (binaryOp op (.number x) (.number y) p) := by
  have hnumeric : ∀ {u : TypeId} {z : NumericType}, a.node u = .numeric z → a.isNumeric u = true :=
    fun h => by simp [TypeTable.isNumeric, TypeTable.numericType?, h]
  have hs := hnumeric hl.node_number
  have ht := hnumeric hr.node_number
  have hrelated : (a.isNumeric s && a.isNumeric t) = true := by rw [hs, ht]; rfl
  cases op
  case eq | ne => exact agrees_equality ha hl hr trivial rfl (fun _ => .inl ⟨hs, ht⟩) p
  case lt | le | gt | ge =>
    rw [TypeTable.binaryResult?_logic hl hr rfl rfl rfl, if_pos (by exact hrelated)]
    exact .of_bool ha rfl rfl
  case and | or | concat => exact agrees_unsupported hl hr rfl rfl
  all_goals exact agrees_arithmetic ha p hl hr hx hy hu hv rfl hop

theorem agrees_bool {x y : Bool} (hl : (Value.bool x).HasNode (a.node s))
    (hr : (Value.bool y).HasNode (a.node t)) (hs : a.Holds s) (ht : a.Holds t) (op : BinaryOp) :
    Agrees (TypeTable.binaryResult? op s t a) op (.bool x) (.bool y) p
      (binaryOp op (.bool x) (.bool y) p) := by
  have hbool : ∀ {u : TypeId} {z : Bool}, (Value.bool z).HasNode (a.node u) → a.Holds u → u = .bool := by
    intro u z h hu
    refine ha.eq_of_node_eq hu (ha.holds_of_isReserved rfl) ?_
    rw [ha.node_of_isReserved (t := .bool) rfl]
    generalize a.node u = n at h
    cases h
    rfl
  -- Truth values have one type only, so both operands are of the same handle.
  obtain rfl := hbool hl hs
  obtain rfl := hbool hr ht
  cases op
  case eq | ne => exact agrees_equality ha hl hr trivial rfl (fun _ => .inr (.inl (a.isCastable_refl _))) p
  case and | or =>
    rw [TypeTable.binaryResult?_logic hl hr rfl rfl rfl]
    exact .of_bool ha rfl rfl
  all_goals exact agrees_unsupported hl hr rfl rfl

theorem agrees_text {j k : TextTag} {x y : String} (hl : (Value.str j x).HasNode (a.node s))
    (hr : (Value.str k y).HasNode (a.node t)) (op : BinaryOp) :
    Agrees (TypeTable.binaryResult? op s t a) op (.str j x) (.str k y) p
      (binaryOp op (.str j x) (.str k y) p) := by
  cases op
  case eq | ne =>
    refine agrees_equality ha hl hr trivial rfl (fun _ => .inr ?_) p
    rcases Nat.le_total j.kind.level k.kind.level with hle | hle
    · exact .inl (ha.isCastable_of_castRule (.text hl.node_str hr.node_str hle))
    · exact .inr (ha.isCastable_of_castRule (.text hr.node_str hl.node_str hle))
  case concat =>
    rw [TypeTable.binaryResult?_concat hl hr]
    refine .of_ok rfl ?_ (by decide) (by decide)
    rw [ha.node_text]
    cases j <;> cases k <;> rfl
  all_goals exact agrees_unsupported hl hr rfl rfl

/-- Values that can only be equal or not agree with the static type. -/
theorem agrees_compared (hl : l.HasNode (a.node s)) (hr : r.HasNode (a.node t)) (h : l.Alike r)
    (hsupports : l.supports op = op.isEquality) (hother : binaryOther op l r p = .error .undefined)
    (hrelated : ¬((∃ xs, l = .product xs) ∧ ∃ ys, r = .product ys) → a.Related s t) :
    Agrees (TypeTable.binaryResult? op s t a) op l r p (binaryOp op l r p) := by
  cases hop : op.isEquality with
  | true => exact agrees_equality ha hl hr h hop hrelated p
  | false =>
    refine agrees_unsupported hl hr (hsupports.trans hop) ?_
    rw [binaryOp, if_neg (by rintro rfl; cases hop), if_neg (by rintro rfl; cases hop)]
    exact hother

/-- Operators on data agree with the static types of the handles that have their nodes. -/
theorem IsData.agrees (hl : l.IsData) (hr : r.IsData) (hs : a.Holds s) (ht : a.Holds t)
    (hls : l.HasNode (a.node s)) (hrt : r.HasNode (a.node t)) (hop : op ≠ .pow) :
    Agrees (TypeTable.binaryResult? op s t a) op l r p (binaryOp op l r p) := by
  by_cases h : l.Alike r
  · cases hl <;> cases hr <;> try exact False.elim h
    case unit.unit =>
      have hnode : ∀ {n m : TypeNode}, Value.unit.HasNode n → Value.unit.HasNode m → n = m := by
        intro n m hn hm
        cases hn
        cases hm
        rfl
      obtain rfl : s = t := ha.eq_of_node_eq hs ht (hnode hls hrt)
      exact agrees_compared ha p hls hrt h rfl rfl fun _ => .inr (.inl (a.isCastable_refl s))
    case bool.bool => exact agrees_bool ha p hls hrt hs ht op
    case number.number x u hx hu y v hy hv =>
      exact agrees_number ha p hls hrt hx hy hu hv hop
    case str.str => exact agrees_text ha p hls hrt op
    case product.product =>
      exact agrees_compared ha p hls hrt h rfl rfl fun hne => absurd ⟨⟨_, rfl⟩, _, rfl⟩ hne
  · rw [TypeTable.binaryResult?_unlike ha hls hrt h]
    exact .of_undefined (binaryOp_unlike hls hrt h op p)

end

end Value

/-- Take two data values, ask a table that calls of builders make for their types, and at any later time for the
static type of an operator other than the power on them. If there is one, the operator has a result on the
values: a truth value, a text of exactly the kind or a number of the category of the static type; or it is an
error to divide by zero, exactly for a quotient or a remainder by a number that is zero. If there is none, the
operator is undefined for the values, unless both are tuples. The one exception are numbers for which an exponent
is computed that does not fit into 64 bits: for them, and for no other values, the operator stops. -/
theorem operators_agree_with_types {a b : TypeTable} {l r : Value} {op : BinaryOp} (ha : a.Reachable)
    (hl : l.IsData) (hr : r.IsData) (hop : op ≠ .pow)
    (hb : (r.internType (l.internType a).2).2.GrowsTo b) (p : Nat) :
    Value.Agrees (TypeTable.binaryResult? op (l.internType a).1 (r.internType (l.internType a).2).1 b)
      op l r p (Value.binaryOp op l r p) ∧
    (Value.binaryOp op l r p = .error .exponentOverflow ↔ Value.Overflows op l r p) := by
  refine ⟨?_, Value.binaryOp_eq_exponentOverflow_iff op l r p⟩
  -- Types that a table holds keep their nodes in all later tables.
  obtain ⟨hcanonical, hs⟩ := hl.issues_internType ha.canonical
  obtain ⟨hcanonical', ht⟩ := hr.issues_internType hcanonical
  have hext := (Value.extends_internType (l.internType a).2 r).trans hb.extends
  refine hl.agrees (hb.canonical hcanonical') p hr (hext.holds hs) (hb.extends.holds ht) ?_ ?_ hop
  · rw [hext.node_eq hs]
    exact hl.hasNode ha.canonical
  · rw [hb.extends.node_eq ht]
    exact hr.hasNode hcanonical

/-- The quotient of an integer and a float that is zero has a static type, but dividing is an error. -/
theorem operators_agree_with_types_float_zero :
    let l : Value := .number (.int .bits64 ⟨1, by decide⟩)
    let r : Value := .number (.real64 (.zero true))
    let a := (r.internType (l.internType .initial).2).2
    TypeTable.initial.Reachable ∧ l.IsData ∧ r.IsData ∧ BinaryOp.div ≠ .pow ∧ a.GrowsTo a ∧
      (TypeTable.binaryResult? .div (l.internType .initial).1 (r.internType (l.internType .initial).2).1
        a).1 = some .real ∧
      Value.binaryOp .div l r 256 = .error .divisionByZero := by
  intro l r a
  have hl : l.IsData := .number trivial rfl
  have hzero : (Number.real64 (.zero true)).toRat? = some 0 := by decide +kernel
  have hr : r.IsData := .number trivial hzero
  have hcanonical := (hl.issues_internType TypeTable.canonical_initial).1
  have hls : l.HasNode (a.node (l.internType .initial).1) :=
    (Value.extends_internType _ r).node_eq (hl.issues_internType TypeTable.canonical_initial).2 ▸
      hl.hasNode TypeTable.canonical_initial
  have hstatic : (TypeTable.binaryResult? .div (l.internType .initial).1
      (r.internType (l.internType .initial).2).1 a).1 = some .real := by
    have htype : NumericType.arithmeticResult? .div (Number.int .bits64 ⟨1, by decide⟩).type
        (Number.real64 (.zero true)).type = some (.unbounded .real) := by decide
    rw [TypeTable.binaryResult?_arithmetic (hr.issues_internType hcanonical).1 hls
      (hr.hasNode hcanonical) rfl, htype]
    rfl
  refine ⟨.refl, hl, hr, by decide, .refl, hstatic, ?_⟩
  obtain ⟨hagrees, -⟩ := operators_agree_with_types .refl hl hr (show BinaryOp.div ≠ .pow by decide) .refl 256
  exact (hagrees.divisionByZero _ hstatic).mpr ⟨.inl rfl, _, rfl, hzero⟩

/-- The product of two unbounded reals has a static type, but there is none of `2 ^ 2 ^ 62` with itself. -/
theorem product_of_reals_stops :
    let v : Value := .number (.bigReal (.powerOfTwo (2 ^ 62)))
    let a := (v.internType (v.internType .initial).2).2
    TypeTable.initial.Reachable ∧ v.IsData ∧
      (TypeTable.binaryResult? .mul (v.internType .initial).1 (v.internType (v.internType .initial).2).1 a).1 =
        some .real ∧
      Value.binaryOp .mul v v 256 = .error .exponentOverflow := by
  intro v a
  have hv : v.IsData := .number trivial rfl
  have hcanonical := (hv.issues_internType TypeTable.canonical_initial).1
  have hleft : v.HasNode (a.node (v.internType .initial).1) :=
    (Value.extends_internType _ v).node_eq (hv.issues_internType TypeTable.canonical_initial).2 ▸
      hv.hasNode TypeTable.canonical_initial
  refine ⟨.refl, hv, ?_, Number.binaryOp_powerOfTwo_overflow (by decide)⟩
  have htype : NumericType.arithmeticResult? .mul (Number.bigReal (.powerOfTwo (2 ^ 62))).type
      (Number.bigReal (.powerOfTwo (2 ^ 62))).type = some (.unbounded .real) := rfl
  rw [TypeTable.binaryResult?_arithmetic (hv.issues_internType hcanonical).1 hleft (hv.hasNode hcanonical) rfl, htype]
  rfl

end NumericTower
