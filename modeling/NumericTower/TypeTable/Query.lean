import NumericTower.TypeTable.Basic

/-!
# Questions about stored types

What a handle stands for, and the parts of the type if it has the shape asked for.
-/

namespace NumericTower.TypeTable

/-- The numeric type with its width; none of the type of all numbers. -/
def numericType? (a : TypeTable) (id : TypeId) : Option NumericType :=
  match a.node id with
  | .numeric t => some t
  | _ => none

/-- Whether the type is numeric, the type of all numbers included. -/
def isNumeric (a : TypeTable) (id : TypeId) : Bool :=
  id = .number || (a.numericType? id).isSome

/-- Whether all values are whole numbers. -/
def isIntegral (a : TypeTable) (id : TypeId) : Bool :=
  (a.numericType? id).any (·.kind.isIntegral)

/-- The kind of a text type. -/
def textKind? (a : TypeTable) (id : TypeId) : Option TextKind :=
  match a.node id with
  | .text kind => some kind
  | _ => none

/-- Whether the type is not known yet. -/
def isPlaceholder (a : TypeTable) (id : TypeId) : Bool :=
  match a.node id with
  | .placeholder .. => true
  | _ => false

/-- Whether values have no inner structure. -/
def isScalar (a : TypeTable) (id : TypeId) : Bool :=
  (a.node id).isScalar

/-- The parameters and the result of a function; those of a closure are its function's. -/
def functionParts? (a : TypeTable) (id : TypeId) : Option (List TypeId × TypeId) :=
  match _h : a.node id with
  | .function result params => some (params, result)
  | .closure fn _ => a.functionParts? fn
  | _ => none
termination_by id.index
decreasing_by exact index_lt_of_mem_parts (a := a) (by rw [_h]; simp [TypeNode.parts])

/-- The element type and the length of an array. -/
def arrayParts? (a : TypeTable) (id : TypeId) : Option (TypeId × Nat) :=
  match a.node id with
  | .array element length => some (element, length)
  | _ => none

/-- The components of a product. -/
def productParts? (a : TypeTable) (id : TypeId) : Option (List TypeId) :=
  match a.node id with
  | .product components => some components
  | _ => none

/-- The cases of a sum. -/
def sumParts? (a : TypeTable) (id : TypeId) : Option (List TypeId) :=
  match a.node id with
  | .sum cases => some cases
  | _ => none

/-- The fields of a record. -/
def recordParts? (a : TypeTable) (id : TypeId) : Option (List RecordField) :=
  match a.node id with
  | .record fields => some fields
  | _ => none

/-- The type of the first field of a record that has the name. -/
def fieldType? (a : TypeTable) (id : TypeId) (name : String) : Option TypeId :=
  (a.recordParts? id).bind fun fields => (fields.find? (·.name == name)).map (·.type)

end NumericTower.TypeTable
