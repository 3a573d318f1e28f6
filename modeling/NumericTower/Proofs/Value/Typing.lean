import Mathlib
import NumericTower.Proofs.Number.ResultType
import NumericTower.Proofs.TypeTable.Promotion
import NumericTower.Value.Typing

/-!
# Types of values

The type of a value is at most added to the table. For data, which is all but functions, modules, types and
handles, the table then holds the type, and its node has the shape of the value.

## Key results
- `Value.extends_internType`, `Value.canonical_internType`: what becomes of the table
- `Value.IsData.issues_internType`: the table holds the type of data
- `Value.IsData.hasNode`: the node of the type
-/

namespace NumericTower

namespace Value

mutual

theorem extends_internType (a : TypeTable) : ∀ v : Value, a.Extends (v.internType a).2
  | .unit | .bool _ | .str .. | .function _ | .module _ | .type _ | .ref _ => .refl a
  | .number n => a.extends_numeric n.type
  | .product items =>
    (extends_internTypes a items).trans (TypeTable.extends_product _ (internTypes items a).1)

theorem extends_internTypes (a : TypeTable) : ∀ vs : List Value, a.Extends (internTypes vs a).2
  | [] => .refl a
  | v :: vs => (extends_internType a v).trans (extends_internTypes _ vs)

end

theorem canonical_product {a : TypeTable} (ha : a.Canonical) (components : List TypeId) :
    (TypeTable.product components a).2.Canonical := by
  rw [TypeTable.product]
  split
  · exact ha
  · next hne => exact ha.canonical_intern fun hnil => hne (List.isEmpty_iff.mpr hnil)

mutual

/-- The table stays canonical when it is asked for the type of a value, even of a function whose type it does
not hold. -/
theorem canonical_internType {a : TypeTable} (ha : a.Canonical) :
    ∀ v : Value, (v.internType a).2.Canonical
  | .unit | .bool _ | .str .. | .function _ | .module _ | .type _ | .ref _ => ha
  | .number n => (ha.issues_numeric n.type).1
  | .product items => canonical_product (canonical_internTypes ha items) (internTypes items a).1

theorem canonical_internTypes {a : TypeTable} (ha : a.Canonical) :
    ∀ vs : List Value, (internTypes vs a).2.Canonical
  | [] => ha
  | v :: vs => canonical_internTypes (canonical_internType ha v) vs

end

/-- The values that are made of unit, truth values, finite numbers, texts and tuples that are not empty. -/
inductive IsData : Value → Prop where
  | unit : IsData .unit
  | bool (b : Bool) : IsData (.bool b)
  | number {n : Number} {q : Rat} (hproper : n.Proper) (hq : n.toRat? = some q) : IsData (.number n)
  | str (tag : TextTag) (s : String) : IsData (.str tag s)
  | product {items : List Value} (hne : items ≠ []) (h : ∀ v ∈ items, IsData v) :
      IsData (.product items)

/-- The nodes that types of data have. -/
inductive HasNode : Value → TypeNode → Prop where
  | unit : HasNode .unit .unit
  | bool (b : Bool) : HasNode (.bool b) .bool
  | number {n : Number} {t : NumericType} (h : n.type = t) : HasNode (.number n) (.numeric t)
  | str {tag : TextTag} {kind : TextKind} (s : String) (h : tag.kind = kind) :
      HasNode (.str tag s) (.text kind)
  | product (items : List Value) (components : List TypeId) :
      HasNode (.product items) (.product components)

variable {a : TypeTable} {v : Value} {vs : List Value}

/-- The table holds the types of the values of a list if it holds those of each value. -/
theorem issues_internTypes (ha : a.Canonical)
    (h : ∀ v ∈ vs, ∀ a : TypeTable, a.Canonical → TypeTable.Canonical.Issues (v.internType a)) :
    (internTypes vs a).2.Canonical ∧ (∀ t ∈ (internTypes vs a).1, (internTypes vs a).2.Holds t) ∧
      (internTypes vs a).1.length = vs.length := by
  induction vs generalizing a with
  | nil => exact ⟨ha, fun _ hmem => absurd hmem List.not_mem_nil, rfl⟩
  | cons v vs ih =>
    obtain ⟨hb, ht⟩ := h v List.mem_cons_self a ha
    obtain ⟨hcanonical, hheld, hlen⟩ := ih hb fun w hw => h w (.tail v hw)
    refine ⟨hcanonical, fun t hmem => ?_, congrArg Nat.succ hlen⟩
    rcases List.mem_cons.mp hmem with rfl | hmem
    · exact (extends_internTypes _ vs).holds ht
    · exact hheld t hmem

namespace IsData

/-- The table holds the type of data after it was asked for. -/
theorem issues_internType (h : v.IsData) (ha : a.Canonical) :
    TypeTable.Canonical.Issues (v.internType a) := by
  induction h generalizing a with
  | unit | bool b => exact ⟨ha, ha.holds_of_isReserved rfl⟩
  | number _ _ => exact ha.issues_numeric _
  | str tag s => exact ⟨ha, ha.holds_of_isReserved (by cases tag <;> rfl)⟩
  | product hne h ih =>
    obtain ⟨hcanonical, hheld, -⟩ := issues_internTypes ha fun v hv _ => ih v hv
    exact hcanonical.issues_product hheld

/-- The node of the type of data has the shape of the value. -/
theorem hasNode (h : v.IsData) (ha : a.Canonical) :
    v.HasNode ((v.internType a).2.node (v.internType a).1) := by
  cases h with
  | unit => exact ha.node_of_isReserved (t := .unit) rfl ▸ .unit
  | bool b => exact ha.node_of_isReserved (t := .bool) rfl ▸ .bool b
  | @number n q _ _ => exact ha.node_numeric n.type ▸ .number rfl
  | str tag s => exact ha.node_text tag.kind ▸ .str s rfl
  | @product items hne h =>
    obtain ⟨hcanonical, hheld, hlen⟩ := issues_internTypes ha fun v hv _ => (h v hv).issues_internType
    have hcomponents : ¬(internTypes items a).1.isEmpty = true := by
      rw [List.isEmpty_iff, ← List.length_eq_zero_iff, hlen, List.length_eq_zero_iff]
      exact hne
    have hinterned : (Value.product items).internType a =
        TypeTable.intern (.product (internTypes items a).1) (internTypes items a).2 := by
      show TypeTable.product (internTypes items a).1 (internTypes items a).2 = _
      rw [TypeTable.product, if_neg hcomponents]
    rw [hinterned, hcanonical.node_intern (n := .product (internTypes items a).1) hheld]
    exact .product items _

end IsData

end Value

end NumericTower
