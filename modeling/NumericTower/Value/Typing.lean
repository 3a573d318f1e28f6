import NumericTower.TypeTable.Basic
import NumericTower.Value.Basic

/-!
# Types of values
-/

namespace NumericTower.Value

mutual

/-- The type of a value. What a handle stands for is not known here, so its type is the top type. -/
def internType : Value → TypeTableM TypeId
  | .unit => pure .unit
  | .bool _ => pure .bool
  | .number n => TypeTable.numeric n.type
  | .str tag _ => pure tag.kind.typeId
  | .product items => do TypeTable.product (← internTypes items)
  | .function f => pure f.type
  | .module _ => pure .module
  | .type _ => pure .type
  | .ref _ => pure .top

/-- The types of values, in their order. -/
def internTypes : List Value → TypeTableM (List TypeId)
  | [] => pure []
  | v :: vs => do
    let t ← internType v
    let ts ← internTypes vs
    return t :: ts

end

end NumericTower.Value
