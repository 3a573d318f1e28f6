import Mathlib
import NumericTower.Proofs.TypeTable.Promotion

/-!
# Equality of products

Two types with equality can be compared if both are numeric or if one of them can be cast to the other. A
product is no numeric type, so products can be compared only if all components can be cast in one and the same
direction. Then all components can be compared too; but components can be compared that cannot be cast, or
some of them in one direction only and others only in the other one.

## Key results
- `TypeTable.IsData.binaryResult?_eq`: when types of data can be compared
- `TypeTable.Canonical.isCastable_product_iff`: products are cast component by component
- `TypeTable.products_compare_like_components_unless_crosswise`: all of it for reachable tables
-/

namespace NumericTower

theorem TypeNode.isScalar_cases {n : TypeNode} (h : n.isScalar = true) :
    n = .unit ∨ n = .bool ∨ n = .number ∨ (∃ t, n = .numeric t) ∨ ∃ kind, n = .text kind := by
  cases n <;> simp_all [isScalar]

namespace TypeTable

variable {a b : TypeTable} {s t : TypeId} {xs ys : List TypeId}

/-! ### Types of data -/

/-- The types of data: Unit, Bool, numeric types, texts, and products of such types. -/
inductive IsData (a : TypeTable) : TypeId → Prop where
  | scalar {t : TypeId} (h : (a.node t).isScalar = true) : IsData a t
  | product {t : TypeId} {components : List TypeId} (h : a.node t = .product components)
      (hcomponents : ∀ c ∈ components, IsData a c) : IsData a t

/-- Later tables have the same types of data. -/
theorem Extends.isData (h : a.Extends b) (ht : a.Holds t) (hd : a.IsData t) : b.IsData t := by
  induction hd with
  | scalar hs => exact .scalar (h.node_eq ht ▸ hs)
  | product hn _ ih =>
    refine .product ((h.node_eq ht).trans hn) fun c hc => ih c hc (ht.of_mem_parts ?_)
    rwa [hn]

namespace IsData

theorem isPlaceholder_eq (h : a.IsData t) : a.isPlaceholder t = false := by
  rw [isPlaceholder]
  cases h with
  | scalar h => rcases TypeNode.isScalar_cases h with h | h | h | ⟨_, h⟩ | ⟨_, h⟩ <;> rw [h]
  | product h => rw [h]

/-- All types of data support equality. -/
theorem supportsBinary_eq (h : a.IsData t) : (a.supportedOps t).supportsBinary .eq = true := by
  rw [supportedOps.eq_def]
  cases h with
  | scalar h =>
    rcases TypeNode.isScalar_cases h with h | h | h | ⟨_, h⟩ | ⟨_, h⟩ <;> split <;> simp_all <;> rfl
  | product h =>
    split <;> simp_all
    rfl

/-- Types of data can be compared if they are related. -/
theorem binaryResult?_eq (hs : a.IsData s) (ht : a.IsData t) :
    binaryResult? .eq s t a = (if a.logicRelated .eq s t then some .bool else none, a) := by
  simp [binaryResult?, hs.isPlaceholder_eq, ht.isPlaceholder_eq, hs.supportsBinary_eq, ht.supportsBinary_eq,
    BinaryOp.isLogic, BinaryOp.isComparison, BinaryOp.isEquality]

theorem binaryResult?_eq_some_iff (hs : a.IsData s) (ht : a.IsData t) :
    (binaryResult? .eq s t a).1 = some .bool ↔ a.logicRelated .eq s t = true := by
  rw [binaryResult?_eq hs ht]
  split <;> simp_all

end IsData

/-! ### Products -/

theorem isNumeric_eq_false_of_product (ha : a.Canonical) (ht : a.node t = .product xs) :
    a.isNumeric t = false := by
  have hnumber : t ≠ .number := ha.ne_of_node_ne rfl (by rw [ht]; nofun)
  simp [isNumeric, numericType?, ht, hnumber]

namespace Canonical

/-- The handle of a product stands for its components. -/
theorem node_product (ha : a.Canonical) (hne : xs ≠ []) (h : ∀ x ∈ xs, a.Holds x) :
    (TypeTable.product xs a).2.node (TypeTable.product xs a).1 = .product xs := by
  rw [TypeTable.product, if_neg (by simpa using hne)]
  exact ha.node_intern h

/-- Products are cast component by component. -/
theorem isCastable_product_iff (ha : a.Canonical) (hs : a.node s = .product xs)
    (ht : a.node t = .product ys) :
    a.isCastable s t = true ↔ List.Forall₂ (fun x y => a.isCastable x y = true) xs ys := by
  by_cases hst : s = t
  · obtain rfl := TypeNode.product.inj (hs.symm.trans (hst ▸ ht))
    rw [hst]
    exact iff_of_true (isCastable_refl a t) (List.forall₂_same.mpr fun x _ => isCastable_refl a x)
  · have hbottom : s ≠ .bottom := ha.ne_of_node_ne rfl (by rw [hs]; nofun)
    have htop : t ≠ .top := ha.ne_of_node_ne rfl (by rw [ht]; nofun)
    rw [isCastable_eq_castNodes hst hbottom htop, hs, ht, castNodes, List.forall₂_iff_zip]
    simp

end Canonical

/-- Whether the components can be cast all in one direction neither to the right nor to the left. -/
def Crosswise (a : TypeTable) (xs ys : List TypeId) : Prop :=
  (∃ p ∈ xs.zip ys, a.isCastable p.1 p.2 = false) ∧ ∃ p ∈ xs.zip ys, a.isCastable p.2 p.1 = false

theorem not_crosswise_iff : ¬a.Crosswise xs ys ↔
    (∀ p ∈ xs.zip ys, a.isCastable p.1 p.2 = true) ∨ ∀ p ∈ xs.zip ys, a.isCastable p.2 p.1 = true := by
  rw [Crosswise, not_and_or]
  simp only [not_exists, not_and, Bool.not_eq_false]

/-- Products are related if all components can be cast in one direction. -/
theorem Canonical.logicRelated_product_iff (ha : a.Canonical) (hs : a.node s = .product xs)
    (ht : a.node t = .product ys) :
    a.logicRelated .eq s t = true ↔ xs.length = ys.length ∧ ¬a.Crosswise xs ys := by
  have hright : a.isCastable s t = true ↔
      xs.length = ys.length ∧ ∀ p ∈ xs.zip ys, a.isCastable p.1 p.2 = true := by
    rw [ha.isCastable_product_iff hs ht, List.forall₂_iff_zip, Prod.forall]
  have hleft : a.isCastable t s = true ↔
      xs.length = ys.length ∧ ∀ p ∈ xs.zip ys, a.isCastable p.2 p.1 = true := by
    have hflip : List.Forall₂ (fun y x => a.isCastable y x = true) ys xs ↔
        List.Forall₂ (fun x y => a.isCastable y x = true) xs ys := ⟨.flip, .flip⟩
    rw [ha.isCastable_product_iff ht hs, hflip, List.forall₂_iff_zip, Prod.forall]
  rw [logicRelated, isNumeric_eq_false_of_product ha hs, Bool.false_and, Bool.false_or, Bool.or_eq_true,
    hright, hleft, not_crosswise_iff, and_or_left]

/-- In every table that calls of builders make, two products of types of data can be compared exactly if they
have the same number of components, all their components can be compared, and all components can be cast in
one and the same direction. -/
theorem products_compare_like_components_unless_crosswise (ha : a.Reachable) (hxs : xs ≠ []) (hys : ys ≠ [])
    (hx : ∀ x ∈ xs, a.Holds x ∧ a.IsData x) (hy : ∀ y ∈ ys, a.Holds y ∧ a.IsData y)
    (hb : (product ys (product xs a).2).2.GrowsTo b) :
    (binaryResult? .eq (product xs a).1 (product ys (product xs a).2).1 b).1 = some .bool ↔
      xs.length = ys.length ∧
      (∀ p ∈ xs.zip ys, (binaryResult? .eq p.1 p.2 b).1 = some .bool) ∧
      ¬b.Crosswise xs ys := by
  have hp := (ha.canonical.issues_product fun x h => (hx x h).1).1
  have hext := extends_product a xs
  have hq := (hp.issues_product fun y h => hext.holds (hy y h).1).1
  have hcanonical := hb.canonical hq
  have hpb := (extends_product (product xs a).2 ys).trans hb.extends
  -- In the last table both handles stand for the products, and all components are of data.
  have hs : b.node (product xs a).1 = .product xs := by
    rw [hpb.node_eq (ha.canonical.issues_product fun x h => (hx x h).1).2]
    exact ha.canonical.node_product hxs fun x h => (hx x h).1
  have ht : b.node (product ys (product xs a).2).1 = .product ys := by
    rw [hb.extends.node_eq (hp.issues_product fun y h => hext.holds (hy y h).1).2]
    exact hp.node_product hys fun y h => hext.holds (hy y h).1
  have hdata : ∀ t, a.Holds t ∧ a.IsData t → b.IsData t := fun t h => (hext.trans hpb).isData h.1 h.2
  have hdx : ∀ x ∈ xs, b.IsData x := fun x h => hdata x (hx x h)
  have hdy : ∀ y ∈ ys, b.IsData y := fun y h => hdata y (hy y h)
  rw [(IsData.product hs hdx).binaryResult?_eq_some_iff (.product ht hdy),
    hcanonical.logicRelated_product_iff hs ht]
  refine and_congr_right fun _ => (and_iff_right_of_imp fun hone p hzip => ?_).symm
  -- What can be cast can be compared.
  rw [(hdx _ (List.of_mem_zip hzip).1).binaryResult?_eq_some_iff (hdy _ (List.of_mem_zip hzip).2),
    logicRelated]
  rcases not_crosswise_iff.mp hone with h | h <;> simp [h p hzip]

/-- A product of a natural and a bool and a product of an integer and a bool: all components can be cast to the
right, so the products can be compared. -/
theorem products_compare_like_components_unless_crosswise_widened :
    let a : TypeTable := [BuilderCall.numeric ⟨.nat, 16, by decide⟩, .numeric ⟨.int, 32, by decide⟩].foldl
      (fun a c => (c.run a).2) initial
    let p := product [⟨14⟩, .bool] a
    let q := product [⟨15⟩, .bool] p.2
    a.Reachable ∧ (binaryResult? .eq p.1 q.1 q.2).1 = some .bool ∧
      (binaryResult? .eq ⟨14⟩ ⟨15⟩ q.2).1 = some .bool := by
  intro a p q
  have ha : a.Reachable :=
    (GrowsTo.refl.call (.numeric ⟨.nat, 16, by decide⟩) ⟨by decide, fun _ _ h => nomatch h⟩).call
      (.numeric ⟨.int, 32, by decide⟩) ⟨by decide, fun _ _ h => nomatch h⟩
  have hscalar : ∀ t, a.isScalar t = true → a.IsData t := fun _ h => .scalar h
  have hx : ∀ x ∈ [⟨14⟩, .bool], a.Holds x ∧ a.IsData x := fun x hx =>
    ⟨by revert x; decide, hscalar x (by revert x; decide)⟩
  have hy : ∀ y ∈ [⟨15⟩, .bool], a.Holds y ∧ a.IsData y := fun y hy =>
    ⟨by revert y; decide, hscalar y (by revert y; decide)⟩
  have hiff := products_compare_like_components_unless_crosswise (b := q.2) ha (List.cons_ne_nil _ _)
    (List.cons_ne_nil _ _) hx hy .refl
  have hdata : ∀ t, a.Holds t → a.isScalar t = true → q.2.IsData t := fun t ht h =>
    ((extends_product a [⟨14⟩, .bool]).trans (extends_product p.2 [⟨15⟩, .bool])).isData ht (.scalar h)
  have hcast : q.2.isCastable ⟨14⟩ ⟨15⟩ = true := by
    rw [← castWithin_eq q.2 (fun _ _ => false) (n := 30) (by decide)]
    decide
  have hone : ¬q.2.Crosswise [⟨14⟩, .bool] [⟨15⟩, .bool] := by
    rw [not_crosswise_iff]
    exact .inl (by simp [hcast])
  have hnumbers : (binaryResult? .eq ⟨14⟩ ⟨15⟩ q.2).1 = some .bool := by
    rw [(hdata _ (by decide) (by decide)).binaryResult?_eq_some_iff (hdata _ (by decide) (by decide)),
      logicRelated, hcast, Bool.or_true, Bool.true_or]
  have hbools : (binaryResult? .eq .bool .bool q.2).1 = some .bool := by
    rw [(hdata _ (by decide) (by decide)).binaryResult?_eq_some_iff (hdata _ (by decide) (by decide)),
      logicRelated, isCastable_refl, Bool.or_true]
  exact ⟨ha, hiff.mpr ⟨rfl, by simp [hnumbers, hbools], hone⟩, hnumbers⟩

/-- A natural and an integer of the same width can be compared, but not the products of them, as neither can be
cast to the other. -/
theorem products_of_comparable_numbers_do_not_compare :
    let a : TypeTable := [BuilderCall.numeric ⟨.nat, 16, by decide⟩, .numeric ⟨.int, 16, by decide⟩].foldl
      (fun a c => (c.run a).2) initial
    let p := product [⟨14⟩] a
    let q := product [⟨15⟩] p.2
    a.Reachable ∧ (binaryResult? .eq ⟨14⟩ ⟨15⟩ q.2).1 = some .bool ∧
      (binaryResult? .eq p.1 q.1 q.2).1 = none := by
  intro a p q
  have ha : a.Reachable :=
    (GrowsTo.refl.call (.numeric ⟨.nat, 16, by decide⟩) ⟨by decide, fun _ _ h => nomatch h⟩).call
      (.numeric ⟨.int, 16, by decide⟩) ⟨by decide, fun _ _ h => nomatch h⟩
  have hnumbers : ∀ t ∈ [(⟨14⟩ : TypeId), ⟨15⟩], q.2.IsData t := fun t ht => .scalar (by revert t; decide)
  have hproducts : ∀ x ∈ [(⟨14⟩ : TypeId), ⟨15⟩], ∀ t, q.2.node t = .product [x] → q.2.IsData t :=
    fun x hx t hn => .product hn fun c hc => List.mem_singleton.mp hc ▸ hnumbers x hx
  refine ⟨ha, ?_, ?_⟩
  · rw [(hnumbers ⟨14⟩ (by decide)).binaryResult?_eq_some_iff (hnumbers ⟨15⟩ (by decide))]
    rfl
  · have hcast : q.2.logicRelated .eq p.1 q.1 = false := by
      rw [logicRelated, ← castWithin_eq q.2 (fun _ _ => true) (n := 40) (by decide),
        ← castWithin_eq q.2 (fun _ _ => true) (n := 40) (by decide)]
      decide
    rw [(hproducts ⟨14⟩ (by decide) p.1 (by decide)).binaryResult?_eq
      (hproducts ⟨15⟩ (by decide) q.1 (by decide)), hcast]
    rfl

end TypeTable

end NumericTower
