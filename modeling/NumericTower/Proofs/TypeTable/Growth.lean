import Mathlib
import NumericTower.TypeTable.Tree

/-!
# Growth of the type table

Builders only append to a table, so a handle stands for the same type in every later table.

## Key results
- `TypeTable.tree_eq`: a type written out in full, one node at a time
- `TypeTable.Extends.tree_eq`: an older handle stands for the same type in a table that extends its own
- `TypeTable.extends_intern`, `TypeTable.extends_sum` and the others: every builder extends the table
-/

namespace NumericTower

theorem TypeId.eq_of_index_eq {s t : TypeId} (h : s.index = t.index) : s = t := by
  cases s
  cases t
  exact congrArg TypeId.mk h

namespace TypeNode

/-- The type of a node, given the types of its components. -/
def treeWith (f : TypeId → TypeTree) : TypeNode → TypeTree
  | .top => .top
  | .bottom => .bottom
  | .type => .type
  | .module => .module
  | .unit => .unit
  | .bool => .bool
  | .number => .number
  | .numeric t => .numeric t
  | .text kind => .text kind
  | .placeholder k usage => .placeholder k usage
  | .array element length => .array (f element) length
  | .function result params => .function (f result) (params.map f)
  | .closure fn closed => .closure (f fn) (closed.map f)
  | .sum cases => .sum (cases.map f)
  | .product components => .product (components.map f)
  | .record fields => .record (fields.map fun field => (field.name, f field.type))

theorem treeWith_congr {f g : TypeId → TypeTree} {n : TypeNode} (h : ∀ p ∈ n.parts, f p = g p) :
    n.treeWith f = n.treeWith g := by
  cases n with
  | array element length => rw [treeWith, treeWith, h element List.mem_cons_self]
  | function result params =>
    rw [treeWith, treeWith, h result List.mem_cons_self,
      List.map_congr_left fun p hp => h p (List.mem_cons_of_mem result hp)]
  | closure fn closed =>
    rw [treeWith, treeWith, h fn List.mem_cons_self,
      List.map_congr_left fun p hp => h p (List.mem_cons_of_mem fn hp)]
  | sum cases => exact congrArg TypeTree.sum (List.map_congr_left h)
  | product components => exact congrArg TypeTree.product (List.map_congr_left h)
  | record fields =>
    refine congrArg TypeTree.record (List.map_congr_left fun field hf => ?_)
    rw [h _ (List.mem_map_of_mem hf)]
  | _ => rfl

end TypeNode

namespace TypeTable

variable {a b c : TypeTable} {t : TypeId} {n : TypeNode}

/-- Whether the table has issued the handle. -/
def Holds (a : TypeTable) (t : TypeId) : Prop :=
  t.index < a.size

instance : Decidable (a.Holds t) :=
  inferInstanceAs (Decidable (t.index < a.size))

theorem holds_of_getElem? (h : a.nodes[t.index]? = some n) : a.Holds t :=
  (Array.getElem?_eq_some_iff.mp h).1

theorem older_of_getElem? {i : Nat} (h : a.nodes[i]? = some n) {p : TypeId} (hp : p ∈ n.parts) :
    p.index < i := by
  obtain ⟨hi, rfl⟩ := Array.getElem?_eq_some_iff.mp h
  exact a.older i hi p hp

/-- The components of a stored node are held. -/
theorem holds_of_mem_parts {i : Nat} (h : a.nodes[i]? = some n) {p : TypeId} (hp : p ∈ n.parts) :
    a.Holds p :=
  (older_of_getElem? h hp).trans (Array.getElem?_eq_some_iff.mp h).1

theorem Holds.getElem? (h : a.Holds t) : a.nodes[t.index]? = some (a.node t) := by
  rw [node, Array.getElem?_eq_getElem h, Option.getD_some]

theorem node_of_getElem? (h : a.nodes[t.index]? = some n) : a.node t = n := by
  rw [node, h, Option.getD_some]

/-- Handles that the table has not issued stand for the top type. -/
theorem holds_of_node_ne_top (h : a.node t ≠ .top) : a.Holds t := by
  by_contra hheld
  refine h ?_
  rw [node, Array.getElem?_eq_none (Nat.not_lt.mp hheld), Option.getD_none]

/-- The components of a type that the table holds are held. -/
theorem Holds.of_mem_parts {p : TypeId} (ht : a.Holds t) (h : p ∈ (a.node t).parts) : a.Holds p :=
  (index_lt_of_mem_parts h).trans ht

theorem tree_eq (a : TypeTable) (t : TypeId) : a.tree t = (a.node t).treeWith a.tree := by
  rw [tree.eq_def]
  split <;> next h => simp [h, TypeNode.treeWith]

/-! ### Extension -/

/-- The nodes of a table stay in place in another. -/
def Extends (a b : TypeTable) : Prop :=
  ∀ (i : Nat) (n : TypeNode), a.nodes[i]? = some n → b.nodes[i]? = some n

namespace Extends

theorem refl (a : TypeTable) : a.Extends a := fun _ _ h => h

theorem trans (h : a.Extends b) (h' : b.Extends c) : a.Extends c :=
  fun i n hn => h' i n (h i n hn)

theorem holds (h : a.Extends b) (ht : a.Holds t) : b.Holds t :=
  holds_of_getElem? (h _ _ ht.getElem?)

theorem node_eq (h : a.Extends b) (ht : a.Holds t) : b.node t = a.node t :=
  node_of_getElem? (h _ _ ht.getElem?)

theorem tree_eq (h : a.Extends b) (ht : a.Holds t) : b.tree t = a.tree t := by
  -- The components are older than the type, so they stand for the same types.
  induction hi : t.index using Nat.strong_induction_on generalizing t with
  | _ i ih =>
    rw [TypeTable.tree_eq, TypeTable.tree_eq a, h.node_eq ht]
    refine TypeNode.treeWith_congr fun p hp => ?_
    exact ih p.index (hi ▸ index_lt_of_mem_parts hp) (ht.of_mem_parts hp) rfl

end Extends

/-! ### Builders -/

theorem extends_push (a : TypeTable) (n : TypeNode) (h : ∀ p ∈ n.parts, p.index < a.nodes.size) :
    a.Extends (a.push n h) := by
  intro i m hm
  obtain ⟨hlt, -⟩ := Array.getElem?_eq_some_iff.mp hm
  rw [push, Array.getElem?_push_lt hlt, ← hm, Array.getElem?_eq_getElem hlt]

theorem extends_intern (a : TypeTable) (n : TypeNode) : a.Extends (intern n a).2 := by
  rw [intern]
  split
  · exact .refl a
  · split
    · next h => exact extends_push a n h
    · exact .refl a

theorem extends_numeric (a : TypeTable) (t : NumericType) : a.Extends (numeric t a).2 := by
  rw [numeric]
  split
  · exact .refl a
  · exact extends_intern a _

theorem extends_placeholder (a : TypeTable) (usage : OpSet) : a.Extends (placeholder usage a).2 :=
  extends_intern { a with nextPlaceholder := a.nextPlaceholder + 1 } _

theorem extends_sum (a : TypeTable) (types : List TypeId) : a.Extends (sum types a).2 := by
  rw [sum]
  split
  · exact .refl a
  · split
    · exact .refl a
    · exact .refl a
    · exact extends_intern a _

theorem extends_product (a : TypeTable) (components : List TypeId) :
    a.Extends (product components a).2 := by
  rw [product]
  split
  · exact .refl a
  · exact extends_intern a _

end TypeTable

end NumericTower
