import NumericTower.Proofs.Number.Order
import NumericTower.Value.Operators

/-!
# Equality of data

Unit, truth values, finite numbers, texts, types and tuples of such values stand for data: a number for a
rational, whatever its width and category, and a text for its characters, whatever its tag. Two values are
equal exactly if they stand for the same datum, which makes equality an equivalence that no operation on
tuples can tell from being the same.

## Key results
- `Value.datum?`: what a value stands for
- `Value.exists_equalAll`: no error of a component gets out of a tuple
- `Value.equal_eq_true_iff`, `Value.equal_eq_error_iff`: equal, and not compared
- `Value.Replaced.datum?_eq`: putting a value for an equal one
- `equality_is_an_equivalence`
-/

namespace NumericTower

/-- What a value stands for. -/
inductive Datum where
  | unit
  | bool (b : Bool)
  | rational (q : Rat)
  | text (s : String)
  | type (id : TypeId)
  | tuple (items : List Datum)

/-- Whether two data are of one kind. -/
def Datum.Alike : Datum → Datum → Prop
  | .unit, .unit | .bool _, .bool _ | .rational _, .rational _ | .text _, .text _ | .type _, .type _
  | .tuple _, .tuple _ => True
  | _, _ => False

theorem Datum.alike_comm {d e : Datum} : d.Alike e ↔ e.Alike d := by
  cases d <;> cases e <;> exact Iff.rfl

namespace Value

mutual

/-- The datum that a value stands for. Functions, modules, handles and numbers that are not finite stand for
none. -/
def datum? : Value → Option Datum
  | .unit => some .unit
  | .bool b => some (.bool b)
  | .number n => n.toRat?.map .rational
  | .str _ s => some (.text s)
  | .type id => some (.type id)
  | .product items => (datums? items).map .tuple
  | .function _ | .module _ | .ref _ => none

/-- The data that the values of a list stand for. -/
def datums? : List Value → Option (List Datum)
  | [] => some []
  | v :: vs => v.datum?.bind fun d => (datums? vs).map (d :: ·)

end

/-- What a value looks like that stands for a datum. -/
inductive StandsFor : Value → Datum → Prop where
  | unit : StandsFor .unit .unit
  | bool (b : Bool) : StandsFor (.bool b) (.bool b)
  | number {n : Number} {q : Rat} (h : n.toRat? = some q) : StandsFor (.number n) (.rational q)
  | str (tag : TextTag) (s : String) : StandsFor (.str tag s) (.text s)
  | type (id : TypeId) : StandsFor (.type id) (.type id)
  | product {items : List Value} {ds : List Datum} (h : datums? items = some ds) :
      StandsFor (.product items) (.tuple ds)

/-- The values that are made of unit, truth values, finite numbers, texts, types and tuples that are not
empty. -/
inductive IsComparable : Value → Prop where
  | unit : IsComparable .unit
  | bool (b : Bool) : IsComparable (.bool b)
  | number {n : Number} {q : Rat} (hq : n.toRat? = some q) : IsComparable (.number n)
  | str (tag : TextTag) (s : String) : IsComparable (.str tag s)
  | type (id : TypeId) : IsComparable (.type id)
  | product {items : List Value} (hne : items ≠ []) (h : ∀ v ∈ items, IsComparable v) :
      IsComparable (.product items)

/-- `Replaced x y v w` says that `w` is the tuple `v` with `y` in the place of a component `x`, at any
depth. -/
inductive Replaced (x y : Value) : Value → Value → Prop where
  | component (before after : List Value) :
      Replaced x y (.product (before ++ x :: after)) (.product (before ++ y :: after))
  | inner {v w : Value} (before after : List Value) (h : Replaced x y v w) :
      Replaced x y (.product (before ++ v :: after)) (.product (before ++ w :: after))

variable {x y z v w : Value} {xs ys vs : List Value} {d e : Datum} {ds es : List Datum} {op : BinaryOp}

/-! ### The data of values -/

theorem datums?_cons_eq_some_iff :
    datums? (v :: vs) = some ds ↔ ∃ d es, v.datum? = some d ∧ datums? vs = some es ∧ d :: es = ds := by
  simp only [datums?, Option.bind_eq_some_iff, Option.map_eq_some_iff]
  grind

theorem standsFor (h : v.datum? = some d) : v.StandsFor d := by
  cases v with
  | unit => exact Option.some.inj h ▸ .unit
  | bool b => exact Option.some.inj h ▸ .bool b
  | number n =>
    obtain ⟨q, hq, rfl⟩ := Option.map_eq_some_iff.mp h
    exact .number hq
  | str tag s => exact Option.some.inj h ▸ .str tag s
  | type id => exact Option.some.inj h ▸ .type id
  | product items =>
    obtain ⟨ds, hds, rfl⟩ := Option.map_eq_some_iff.mp h
    exact .product hds
  | function _ | module _ | ref _ => exact nomatch h

theorem exists_datums? (h : ∀ v ∈ vs, ∃ d, v.datum? = some d) : ∃ ds, datums? vs = some ds := by
  induction vs with
  | nil => exact ⟨[], rfl⟩
  | cons v vs ih =>
    obtain ⟨d, hd⟩ := h v List.mem_cons_self
    obtain ⟨ds, hds⟩ := ih fun w hw => h w (.tail v hw)
    exact ⟨d :: ds, datums?_cons_eq_some_iff.mpr ⟨d, ds, hd, hds, rfl⟩⟩

/-- Every comparable value stands for a datum. -/
theorem IsComparable.exists_datum? (h : v.IsComparable) : ∃ d, v.datum? = some d := by
  induction h with
  | unit => exact ⟨.unit, rfl⟩
  | bool b => exact ⟨.bool b, rfl⟩
  | number hq => exact ⟨.rational _, congrArg (Option.map Datum.rational) hq⟩
  | str tag s => exact ⟨.text s, rfl⟩
  | type id => exact ⟨.type id, rfl⟩
  | product hne h ih =>
    obtain ⟨ds, hds⟩ := exists_datums? ih
    exact ⟨.tuple ds, congrArg (Option.map Datum.tuple) hds⟩

theorem datums?_replace (h : v.datum? = w.datum?) (before after : List Value) :
    datums? (before ++ v :: after) = datums? (before ++ w :: after) := by
  induction before with
  | nil => simp only [List.nil_append, datums?, h]
  | cons u before ih => simp only [List.cons_append, datums?, ih]

/-- A value stands for the same datum after one of its parts was replaced by one that does. -/
theorem Replaced.datum?_eq (hvw : Replaced x y v w) (h : x.datum? = y.datum?) : v.datum? = w.datum? := by
  induction hvw with
  | component before after => rw [datum?, datum?, datums?_replace h]
  | inner before after _ ih => rw [datum?, datum?, datums?_replace ih]

/-! ### Equality by data -/

mutual

/-- The only error of a comparison is that values of these kinds are not compared. -/
theorem eq_undefined_of_equal {err : OpError} : ∀ x y : Value, x.equal y = .error err → err = .undefined
  | .product xs, y, h => by
    cases y with
    | product ys =>
      obtain ⟨b, hb⟩ := exists_equalAll xs ys
      rw [equal, hb] at h
      split at h <;> exact nomatch h
    | _ => exact (Except.error.inj h).symm
  | .unit, y, h | .bool _, y, h | .number _, y, h | .str .., y, h | .type _, y, h => by
    cases y <;> first | exact (Except.error.inj h).symm | exact nomatch h
  | .function _, _, h | .module _, _, h | .ref _, _, h => (Except.error.inj h).symm

/-- Tuples are compared without an error: what is not compared is unequal, and components have no other errors. -/
theorem exists_equalAll : ∀ xs ys : List Value, ∃ b, equalAll xs ys = .ok b
  | [], _ => ⟨true, by rw [equalAll]; nofun⟩
  | _ :: _, [] => ⟨true, by rw [equalAll]; nofun⟩
  | x :: xs, y :: ys => by
    rw [equalAll]
    cases h : x.equal y with
    | ok b =>
      cases b with
      | true => exact exists_equalAll xs ys
      | false => exact ⟨false, rfl⟩
    | error err =>
      rw [eq_undefined_of_equal x y h]
      exact ⟨false, rfl⟩

end

theorem equalAll_cons (x y : Value) (xs ys : List Value) :
    equalAll (x :: xs) (y :: ys) = if x.equal y = .ok true then equalAll xs ys else .ok false := by
  rw [equalAll]
  cases h : x.equal y with
  | ok b => cases b <;> rfl
  | error err =>
    rw [eq_undefined_of_equal x y h]
    rfl

theorem equal_number_eq_true_iff {a b : Number} {q r : Rat} (ha : a.toRat? = some q)
    (hb : b.toRat? = some r) : (Value.number a).equal (.number b) = .ok true ↔ q = r := by
  rw [equal, Number.compare?_rational ha hb, Except.ok.injEq, beq_iff_eq, Option.some.injEq,
    cmp_eq_eq_iff]

/-- Values are not compared exactly if they stand for data of different kinds. -/
theorem equal_eq_error_iff (hx : x.datum? = some d) (hy : y.datum? = some e) :
    x.equal y = .error .undefined ↔ ¬d.Alike e := by
  cases standsFor hx <;> cases standsFor hy <;> try simp [equal, Datum.Alike]
  -- Tuples are compared.
  rename_i xs _ _ ys _ _
  obtain ⟨b, hb⟩ := exists_equalAll xs ys
  rw [hb]
  split <;> nofun

mutual

/-- Two values are equal exactly if they stand for the same datum. -/
theorem equal_eq_true_iff (y : Value) {d e : Datum} (hy : y.datum? = some e) :
    ∀ x : Value, x.datum? = some d → (x.equal y = .ok true ↔ d = e)
  | .unit, hx => by cases standsFor hx; cases standsFor hy <;> simp [equal]
  | .bool _, hx => by cases standsFor hx; cases standsFor hy <;> simp [equal]
  | .number _, hx => by
    cases standsFor hx with | number ha =>
    cases standsFor hy with
    | number hb => rw [equal_number_eq_true_iff ha hb, Datum.rational.injEq]
    | _ => simp [equal]
  | .str .., hx => by cases standsFor hx; cases standsFor hy <;> simp [equal]
  | .type _, hx => by cases standsFor hx; cases standsFor hy <;> simp [equal]
  | .product xs, hx => by
    cases standsFor hx with | product hds =>
    cases standsFor hy with
    | @product ys _ hes =>
      rw [equal, Datum.tuple.injEq, ← equalAll_eq_true_iff ys hes xs hds]
      by_cases hlength : xs.length = ys.length <;> simp [hlength]
    | _ => simp [equal]
  | .function _, hx | .module _, hx | .ref _, hx => nomatch hx

theorem equalAll_eq_true_iff (ys : List Value) {ds es : List Datum} (hes : datums? ys = some es) :
    ∀ xs : List Value, datums? xs = some ds → (xs.length = ys.length ∧ equalAll xs ys = .ok true ↔ ds = es)
  | [], hds => by
    cases Option.some.inj hds
    cases ys with
    | nil => cases Option.some.inj hes; simp [equalAll]
    | cons y ys =>
      obtain ⟨e, es, -, -, rfl⟩ := datums?_cons_eq_some_iff.mp hes
      simp
  | x :: xs, hds => by
    obtain ⟨d, ds, hd, htail, rfl⟩ := datums?_cons_eq_some_iff.mp hds
    cases ys with
    | nil => cases Option.some.inj hes; simp
    | cons y ys =>
      obtain ⟨e, es, he, htail', rfl⟩ := datums?_cons_eq_some_iff.mp hes
      rw [List.cons.injEq, ← equal_eq_true_iff y he x hd, ← equalAll_eq_true_iff ys htail' xs htail, equalAll_cons,
        List.length_cons, List.length_cons, Nat.succ_inj]
      by_cases hhead : x.equal y = .ok true <;> simp [hhead]

end

/-- The outcome of a comparison is known from what the data are. -/
theorem equal_eq_equal {d' e' : Datum} (hx : x.datum? = some d) (hy : y.datum? = some e)
    (hv : v.datum? = some d') (hw : w.datum? = some e') (heq : d = e ↔ d' = e')
    (halike : d.Alike e ↔ d'.Alike e') : x.equal y = v.equal w := by
  rw [← equal_eq_true_iff y hy x hx, ← equal_eq_true_iff w hw v hv] at heq
  rw [← not_iff_not, ← equal_eq_error_iff hx hy, ← equal_eq_error_iff hv hw] at halike
  have herror : ∀ err, x.equal y = .error err → err = .undefined := fun _ => eq_undefined_of_equal x y
  have herror' : ∀ err, v.equal w = .error err → err = .undefined := fun _ => eq_undefined_of_equal v w
  generalize x.equal y = o at heq halike herror ⊢
  generalize v.equal w = o' at heq halike herror' ⊢
  rcases o with err | _ | _ <;> rcases o' with err' | _ | _ <;> simp_all

/-! ### The operators -/

variable {p : Nat}

theorem binaryOp_eq_eq_true_iff : binaryOp .eq x y p = .ok (.bool true) ↔ x.equal y = .ok true := by
  rw [binaryOp, if_pos rfl]
  cases x.equal y <;> simp [Except.map]

/-- The order of two numbers decides whether they are equal, and whether they are not. -/
theorem unequal_eq (x y : Value) : x.unequal y = (x.equal y).map (!·) := by
  unfold unequal
  split
  · rfl
  · rfl

/-- Inequality is the negation of equality, and defined wherever equality is. -/
theorem exists_binaryOp_eq_ne (x y : Value) (p : Nat) :
    ∃ equal : Except OpError Bool, binaryOp .eq x y p = equal.map .bool ∧
      binaryOp .ne x y p = equal.map fun b => .bool !b := by
  refine ⟨x.equal y, if_pos rfl, ?_⟩
  rw [binaryOp, if_neg (by decide), if_pos rfl, unequal_eq]
  cases x.equal y <;> rfl

theorem binaryOp_equality_congr (hop : op.isEquality = true) (h : x.equal y = v.equal w) (p : Nat) :
    binaryOp op x y p = binaryOp op v w p := by
  rw [binaryOp, binaryOp, unequal_eq, unequal_eq, h]
  cases op <;> first | rfl | cases hop

/-- Tuples have no operators but the equalities. -/
theorem binaryOp_product_of_not_isEquality (hop : ¬op.isEquality = true) (xs : List Value) (z : Value)
    (p : Nat) :
    binaryOp op (.product xs) z p = .error .undefined ∧
      binaryOp op z (.product xs) p = .error .undefined := by
  have hother : ∀ l r, binaryOp op l r p = binaryOther op l r p := by
    intro l r
    rw [binaryOp, if_neg (by rintro rfl; exact hop rfl), if_neg (by rintro rfl; exact hop rfl)]
  rw [hother, hother]
  cases z <;> exact ⟨rfl, rfl⟩

/-- Tuples can always be compared. -/
theorem exists_binaryOp_product (p : Nat) (xs ys : List Value) (op : BinaryOp) (hop : op.isEquality = true) :
    ∃ b, binaryOp op (.product xs) (.product ys) p = .ok (.bool b) := by
  obtain ⟨b, hb⟩ : ∃ b, (Value.product xs).equal (.product ys) = .ok b := by
    rw [equal]
    split
    · exact exists_equalAll xs ys
    · exact ⟨false, rfl⟩
  rw [binaryOp, unequal_eq, hb]
  cases op <;> first | exact ⟨_, rfl⟩ | cases hop

theorem Replaced.exists_products (h : Replaced x y v w) : ∃ xs ys, v = .product xs ∧ w = .product ys := by
  cases h <;> exact ⟨_, _, rfl, rfl⟩

/-- No operator tells a tuple from the one with a component replaced by one that stands for the same
datum. -/
theorem Replaced.binaryOp_eq (h : Replaced x y v w) (hxy : x.datum? = y.datum?) (hv : v.datum? = some d)
    (hz : z.datum? = some e) (op : BinaryOp) (p : Nat) :
    binaryOp op v z p = binaryOp op w z p ∧ binaryOp op z v p = binaryOp op z w p := by
  by_cases hop : op.isEquality = true
  · have hw : w.datum? = some d := h.datum?_eq hxy ▸ hv
    exact ⟨binaryOp_equality_congr hop (equal_eq_equal hv hz hw hz Iff.rfl Iff.rfl) p,
      binaryOp_equality_congr hop (equal_eq_equal hz hv hz hw Iff.rfl Iff.rfl) p⟩
  · obtain ⟨xs, ys, rfl, rfl⟩ := h.exists_products
    obtain ⟨hl, hr⟩ := binaryOp_product_of_not_isEquality hop xs z p
    obtain ⟨hl', hr'⟩ := binaryOp_product_of_not_isEquality hop ys z p
    exact ⟨hl.trans hl'.symm, hr.trans hr'.symm⟩

end Value

open Value in
/-- Equality is an equivalence on unit, truth values, finite numbers, texts, types and tuples of them. A value
is equal to itself; operands can be exchanged, also where they are not compared; equality goes on from one
value to the next; inequality is its negation; tuples are always compared; and no operator changes its result
when a component of a tuple, at any depth, is replaced by an equal one. -/
theorem equality_is_an_equivalence {x y z : Value} (hx : x.IsComparable) (hy : y.IsComparable)
    (hz : z.IsComparable) (p : Nat) :
    binaryOp .eq x x p = .ok (.bool true) ∧
    (∀ op, op.isEquality = true → binaryOp op x y p = binaryOp op y x p) ∧
    (binaryOp .eq x y p = .ok (.bool true) → binaryOp .eq y z p = .ok (.bool true) →
      binaryOp .eq x z p = .ok (.bool true)) ∧
    (∃ equal : Except OpError Bool, binaryOp .eq x y p = equal.map .bool ∧
      binaryOp .ne x y p = equal.map fun b => .bool !b) ∧
    (∀ xs ys op, op.isEquality = true → ∃ b, binaryOp op (.product xs) (.product ys) p = .ok (.bool b)) ∧
    (binaryOp .eq x y p = .ok (.bool true) → ∀ v w, v.IsComparable → Replaced x y v w → ∀ op,
      binaryOp op v z p = binaryOp op w z p ∧ binaryOp op z v p = binaryOp op z w p) := by
  obtain ⟨d, hd⟩ := hx.exists_datum?
  obtain ⟨e, he⟩ := hy.exists_datum?
  obtain ⟨f, hf⟩ := hz.exists_datum?
  simp only [binaryOp_eq_eq_true_iff, equal_eq_true_iff y he x hd, equal_eq_true_iff z hf y he,
    equal_eq_true_iff z hf x hd, equal_eq_true_iff x hd x hd]
  refine ⟨trivial, fun op hop => ?_, Eq.trans, exists_binaryOp_eq_ne x y p,
    exists_binaryOp_product p, ?_⟩
  · exact binaryOp_equality_congr hop (equal_eq_equal hd he he hd eq_comm Datum.alike_comm) p
  · rintro rfl v w hv hvw op
    obtain ⟨g, hg⟩ := hv.exists_datum?
    exact hvw.binaryOp_eq (hd.trans he.symm) hg hf op p

open Value in
/-- A natural and a text with the tag of ASCII are replaced by a float and a text of UTF-8, two tuples deep. -/
theorem equality_is_an_equivalence_nested :
    let x : Value := .product [.number (.nat .bits16 ⟨1, by decide⟩), .str .ascii "a"]
    let y : Value := .product [.number (.real64 (.ofInt 1)), .str .utf8 "a"]
    let z : Value := .product [.product [.number (.bigRatio 1), .str .ascii "a"], .unit]
    x.IsComparable ∧ y.IsComparable ∧ z.IsComparable ∧ (Value.product [x, .unit]).IsComparable ∧
      binaryOp .eq x y 256 = .ok (.bool true) ∧
      binaryOp .eq (.product [x, .unit]) z 256 = .ok (.bool true) ∧
      binaryOp .eq (.product [y, .unit]) z 256 = .ok (.bool true) := by
  intro x y z
  have pair : ∀ {v w : Value}, v.IsComparable → w.IsComparable → (Value.product [v, w]).IsComparable :=
    fun hv hw => .product (by simp) fun u hu => by
      rcases List.mem_pair.mp hu with rfl | rfl <;> assumption
  have hfloat : (Number.real64 (.ofInt 1)).toRat? = some 1 := by decide +kernel
  have hx : x.IsComparable := pair (.number rfl) (.str _ _)
  have hy : y.IsComparable := pair (.number hfloat) (.str _ _)
  have hz : z.IsComparable := pair (pair (.number rfl) (.str _ _)) .unit
  have hxy : binaryOp .eq x y 256 = .ok (.bool true) := binaryOp_eq_eq_true_iff.mpr (by decide +kernel)
  have hxz : binaryOp .eq (.product [x, .unit]) z 256 = .ok (.bool true) :=
    binaryOp_eq_eq_true_iff.mpr (by decide +kernel)
  obtain ⟨-, -, -, -, -, hreplaced⟩ := equality_is_an_equivalence hx hy hz 256
  obtain ⟨heq, -⟩ := hreplaced hxy _ _ (pair hx .unit) (.component [] [.unit]) .eq
  exact ⟨hx, hy, hz, pair hx .unit, hxy, hxz, heq ▸ hxz⟩

end NumericTower
