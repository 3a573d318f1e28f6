import NumericTower.Numeral.Digit
import NumericTower.TypeTable.Tree

/-!
# Names of types

How a type reads in a message, such as `Nat16`, `Int -> Bool` or `[4]Real64`.
-/

namespace NumericTower

/-- The name of a numeric type: its category, and its width unless it is unbounded. -/
def NumericType.name (t : NumericType) : String :=
  if t.isUnbounded then t.kind.name else t.kind.name ++ Numeral.render 10 t.width

namespace TypeTree

/-- Whether the name has to be put between parentheses when it is part of another. -/
def isCompound : TypeTree → Bool
  | .function .. | .sum _ | .product _ => true
  | _ => false

/-- The name of a component, between parentheses if it would read ambiguously without. -/
def enclose (t : TypeTree) (name : String) : String :=
  if t.isCompound then "(" ++ name ++ ")" else name

mutual

/-- The name of a type. -/
def display : TypeTree → String
  | .top => "Top"
  | .bottom => "Bottom"
  | .type => "Type"
  | .module => "Module"
  | .unit => "Unit"
  | .bool => "Bool"
  | .number => "Number"
  | .numeric t => t.name
  | .text kind => kind.name
  | .placeholder n _ => "?" ++ Numeral.render 10 n
  | .array element length =>
    "[" ++ (if length = 0 then "" else Numeral.render 10 length) ++ "]" ++
      element.enclose element.display
  | .function result params =>
    match displayOperands params with
    | [] => "() -> " ++ result.enclose result.display
    | names => " -> ".intercalate (names ++ [result.enclose result.display])
  | .closure fn _ => "closure(" ++ fn.display ++ ")"
  | .sum cases => " | ".intercalate (displayOperands cases)
  | .product components => " & ".intercalate (displayOperands components)
  | .record fields => "\x7b" ++ ", ".intercalate (displayFields fields) ++ "\x7d"

/-- The names of components. -/
def displayOperands : List TypeTree → List String
  | [] => []
  | t :: ts => t.enclose t.display :: displayOperands ts

/-- The fields of a record with their types. -/
def displayFields : List (String × TypeTree) → List String
  | [] => []
  | (name, t) :: fields => (name ++ ": " ++ t.display) :: displayFields fields

end

end TypeTree

/-- The name of a type. -/
def TypeTable.display (a : TypeTable) (id : TypeId) : String :=
  (a.tree id).display

end NumericTower
