import NumericTower.Number.Basic
import NumericTower.Operator
import NumericTower.Store
import NumericTower.TypeTable.Node

/-!
# Values and expressions

The values that expressions have, and the expressions themselves: a lambda holds the body it was made
from, and an expression can hold any value as a literal.
-/

namespace NumericTower

/-- A place in a source text. -/
structure Span where
  offset : Nat
  length : Nat
  deriving DecidableEq, Repr

/-- What every expression carries: its static type and its place. -/
structure Annotation where
  type : TypeId
  span : Span
  deriving DecidableEq

/-- How a text value is tagged. -/
inductive TextTag where
  | ascii
  | utf8
  deriving DecidableEq, Repr

/-- The kind of text that a tag stands for. -/
def TextTag.kind : TextTag → TextKind
  | .ascii => .ascii
  | .utf8 => .utf8

mutual

/-- A value. -/
inductive Value where
  | unit
  | bool (b : Bool)
  | number (n : Number)
  | str (tag : TextTag) (s : String)
  /-- A tuple. The empty one is written `unit`. -/
  | product (items : List Value)
  | function (f : Function)
  | module (m : Module)
  /-- A type used as a value. -/
  | type (id : TypeId)
  /-- A handle to a stored value. -/
  | ref (r : ValueRef)

/-- A function value. Its identity tells it from every other function. -/
inductive Function where
  /-- A function made by a lambda, with copies of what was visible there. -/
  | lambda (identity : Nat) (type : TypeId) (params : List String) (body : Expr)
    (captured : List (String × Value))
  /-- A function that the host computes, known to the host by a name. -/
  | native (identity : Nat) (type : TypeId) (arity : Nat) (name : String)

/-- A module: the names that its body bound at its top level. -/
inductive Module where
  | mk (identity : Nat) (name : String) (members : List (String × Value))

/-- An expression with its static type and place. -/
inductive Expr where
  | literal (note : Annotation) (v : Value)
  | name (note : Annotation) (name : String)
  | unary (note : Annotation) (op : UnaryOp) (operand : Expr)
  | binary (note : Annotation) (op : BinaryOp) (lhs rhs : Expr)
  /-- Binds a name in the innermost scope; its value is the bound value. -/
  | define (note : Annotation) (name : String) (value : Expr)
  /-- A tuple; without items it is the unit value. -/
  | product (note : Annotation) (items : List Expr)
  | lambda (note : Annotation) (params : List String) (body : Expr)
  | call (note : Annotation) (callee : Expr) (args : List Expr)
  /-- A member of a module. -/
  | access (note : Annotation) (module : Expr) (member : String)
  /-- Expressions in a scope of their own; the value is that of the last one, or unit. -/
  | block (note : Annotation) (items : List Expr)

end

namespace Expr

/-- The static type and the place. -/
def note : Expr → Annotation
  | .literal note _ | .name note _ | .unary note _ _ | .binary note _ _ _ | .define note _ _
  | .product note _ | .lambda note _ _ | .call note _ _ | .access note _ _ | .block note _ => note

/-- The static type. -/
def type (e : Expr) : TypeId := e.note.type

/-- The place in the source text. -/
def span (e : Expr) : Span := e.note.span

end Expr

namespace Function

/-- What tells the function from every other. -/
def identity : Function → Nat
  | .lambda identity .. | .native identity .. => identity

/-- The type that the function was made with. -/
def type : Function → TypeId
  | .lambda _ type .. | .native _ type .. => type

/-- How many arguments the function takes. -/
def arity : Function → Nat
  | .lambda _ _ params _ _ => params.length
  | .native _ _ arity _ => arity

end Function

namespace Module

/-- What tells the module from every other. -/
def identity : Module → Nat
  | mk identity _ _ => identity

/-- The name of the module. -/
def name : Module → String
  | mk _ name _ => name

/-- The names that the body bound, with their values. -/
def members : Module → List (String × Value)
  | mk _ _ members => members

/-- The value of a member. -/
def access? (m : Module) (member : String) : Option Value :=
  m.members.lookup member

/-- The names of the members in ascending order. -/
def memberNames (m : Module) : List String :=
  (m.members.map (·.1)).mergeSort fun a b => decide (a ≤ b)

end Module

namespace Value

/-- A text value, tagged ASCII if all its characters are. -/
def ofText (s : String) : Value :=
  .str (if s.toList.all (·.toNat < 128) then .ascii else .utf8) s

/-- A tuple; of no items it is the unit value. -/
def tuple (items : List Value) : Value :=
  if items.isEmpty then .unit else .product items

/-- The truth value, if it is one. -/
def toBool? : Value → Option Bool
  | .bool b => some b
  | _ => none

/-- The characters of a text. -/
def toText? : Value → Option String
  | .str _ s => some s
  | _ => none

/-- The kind of a text. -/
def textKind? : Value → Option TextKind
  | .str tag _ => some tag.kind
  | _ => none

/-- The number, if it is one. -/
def toNumber? : Value → Option Number
  | .number n => some n
  | _ => none

/-- The numeric type of the representation of a number. -/
def numericType? (v : Value) : Option NumericType :=
  v.toNumber?.map (·.type)

/-- Whether the value is a number. -/
def isNumeric (v : Value) : Bool :=
  v.toNumber?.isSome

mutual

/-- Whether two values have the same representation: the same number in another width is not the same.
Functions and modules are the same only as themselves. -/
def same : Value → Value → Bool
  | .unit, .unit => true
  | .bool a, .bool b => a == b
  | .number a, .number b => a.same b
  | .str v a, .str w b => v = w && a == b
  | .product xs, .product ys => sameAll xs ys
  | .function f, .function g => f.identity == g.identity
  | .module m, .module n => m.identity == n.identity
  | .type a, .type b => a = b
  | .ref a, .ref b => a = b
  | _, _ => false

/-- Whether two lists have the same values one by one. -/
def sameAll : List Value → List Value → Bool
  | [], [] => true
  | x :: xs, y :: ys => x.same y && sameAll xs ys
  | _, _ => false

end

end Value

end NumericTower
