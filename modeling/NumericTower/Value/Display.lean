import NumericTower.TypeTable.Display
import NumericTower.Text.Quoted
import NumericTower.Value.Basic

/-!
# Text of values
-/

namespace NumericTower.Value

mutual

/-- The text of a value; `typeText` is the text of a type. -/
def renderWith (typeText : TypeId → String) : Value → String
  | .unit => "()"
  | .bool b => if b then "true" else "false"
  | .number n => n.render
  | .str _ s => Text.quote s
  | .product items => "(" ++ ", ".intercalate (renderAllWith typeText items) ++ ")"
  | .function _ => "<function>"
  | .module m => "<module " ++ m.name ++ ">"
  | .type id => typeText id
  | .ref r => "<ref " ++ r.render ++ ">"

/-- The texts of values. -/
def renderAllWith (typeText : TypeId → String) : List Value → List String
  | [] => []
  | v :: vs => renderWith typeText v :: renderAllWith typeText vs

end

/-- The text of a value, a type by its handle. -/
def render (v : Value) : String :=
  v.renderWith fun id => "<type #" ++ Numeral.render 10 id.index ++ ">"

/-- The text of a value, a type by its name. -/
def display (a : TypeTable) (v : Value) : String :=
  v.renderWith a.display

/-- The text of a value with the representation of a number. -/
def inspect (v : Value) : String :=
  match v.numericType? with
  | some t => t.name ++ "(" ++ v.render ++ ")"
  | none => v.render

end NumericTower.Value
