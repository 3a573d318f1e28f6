import NumericTower.TypeTable.Basic

/-!
# Structural types

A type written out in full: a handle is replaced by what it stands for, all the way down. The text and
the code of a type depend on its tree only, not on the table.
-/

namespace NumericTower

/-- A type with its components in place of their handles. -/
inductive TypeTree where
  | top
  | bottom
  | type
  | module
  | unit
  | bool
  | number
  | numeric (t : NumericType)
  | text (kind : TextKind)
  | placeholder (number : Nat) (usage : OpSet)
  | array (element : TypeTree) (length : Nat)
  | function (result : TypeTree) (params : List TypeTree)
  | closure (fn : TypeTree) (closed : List TypeTree)
  | sum (cases : List TypeTree)
  | product (components : List TypeTree)
  | record (fields : List (String × TypeTree))

/-- The type that a handle stands for. -/
def TypeTable.tree (a : TypeTable) (id : TypeId) : TypeTree :=
  match _h : a.node id with
  | .top => .top
  | .bottom => .bottom
  | .type => .type
  | .module => .module
  | .unit => .unit
  | .bool => .bool
  | .number => .number
  | .numeric t => .numeric t
  | .text kind => .text kind
  | .placeholder number usage => .placeholder number usage
  | .array element length => .array (a.tree element) length
  | .function result params => .function (a.tree result) (params.attach.map fun p => a.tree p.1)
  | .closure fn closed => .closure (a.tree fn) (closed.attach.map fun c => a.tree c.1)
  | .sum cases => .sum (cases.attach.map fun c => a.tree c.1)
  | .product components => .product (components.attach.map fun c => a.tree c.1)
  | .record fields => .record (fields.attach.map fun f => (f.1.name, a.tree f.1.type))
termination_by id.index
decreasing_by
  all_goals
    apply TypeTable.index_lt_of_mem_parts (a := a)
    rw [_h]
    simp only [TypeNode.parts, List.mem_cons, List.mem_map, List.not_mem_nil, true_or, or_false]
  · exact Or.inr p.2
  · exact Or.inr c.2
  · exact c.2
  · exact c.2
  · exact ⟨f.1, f.2, rfl⟩

end NumericTower
