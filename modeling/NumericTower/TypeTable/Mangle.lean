import NumericTower.Numeral.Digit
import NumericTower.TypeTable.Tree

/-!
# Codes of types

A text for each type that can be part of a symbol name. Every number in a code is decimal and ends with
`_`, every list is preceded by its length, and a name by its length in bytes.
-/

namespace NumericTower

/-- A number and the mark that ends it. -/
def countCode (n : Nat) : String :=
  Numeral.render 10 n ++ "_"

/-- A name with its length in bytes. -/
def nameCode (name : String) : String :=
  countCode name.utf8ByteSize ++ name

/-- The letter of a numeric category. -/
def NumericKind.code : NumericKind → String
  | .nat => "N"
  | .int => "I"
  | .ratio => "Q"
  | .real => "R"

/-- The code of a kind of text. -/
def TextKind.code : TextKind → String
  | .string => "Zs"
  | .ascii => "Za"
  | .utf8 => "Zu"

namespace TypeTree

mutual

/-- The code of a type. -/
def mangle : TypeTree → String
  | .top => "Kt"
  | .bottom => "Kb"
  | .type => "Km"
  | .module => "Kd"
  | .unit => "Ku"
  | .bool => "Kl"
  | .number => "Kx"
  | .numeric t => t.kind.code ++ countCode t.width
  | .text kind => kind.code
  | .placeholder n _ => "Y" ++ countCode n
  | .array element length => "A" ++ countCode length ++ element.mangle
  | .function result params =>
    "F" ++ countCode params.length ++ result.mangle ++ mangleAll params
  | .closure fn closed => "C" ++ countCode closed.length ++ fn.mangle ++ mangleAll closed
  | .sum cases => "S" ++ countCode cases.length ++ mangleAll cases
  | .product components => "P" ++ countCode components.length ++ mangleAll components
  | .record fields => "E" ++ countCode fields.length ++ mangleFields fields

/-- The codes of types one after the other. -/
def mangleAll : List TypeTree → String
  | [] => ""
  | t :: ts => t.mangle ++ mangleAll ts

/-- The names and codes of fields one after the other. -/
def mangleFields : List (String × TypeTree) → String
  | [] => ""
  | (name, t) :: fields => nameCode name ++ t.mangle ++ mangleFields fields

end

end TypeTree

/-- The code of a type. -/
def TypeTable.mangle (a : TypeTable) (id : TypeId) : String :=
  (a.tree id).mangle

/-- The symbol of a function by its module, if it is in one, its type and its name. -/
def TypeTable.mangleFunction (a : TypeTable) (module : Option String) (name : String)
    (type : TypeId) : String :=
  let scope := match module with
    | some m => "m" ++ nameCode m
    | none => ""
  "_" ++ scope ++ "f" ++ a.mangle type ++ nameCode name

end NumericTower
