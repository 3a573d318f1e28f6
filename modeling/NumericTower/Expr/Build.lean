import NumericTower.BigReal.Literal
import NumericTower.Eval.Error
import NumericTower.NumericType.Result
import NumericTower.TypeTable.Display
import NumericTower.TypeTable.Promotion
import NumericTower.Value.Typing

/-!
# Building expressions

Expressions are built from the leaves up. Every builder finds the static type of the expression and
refuses one that is not well typed; types that it needs are added to the table, also if it refuses.
-/

namespace NumericTower

/-- A computation that builds expressions over a type table. -/
abbrev BuildM := EStateM EvalError TypeTable

namespace Build

/-- Runs a computation on types. -/
def types {α : Type} (x : TypeTableM α) : BuildM α := fun a =>
  let (v, a) := x a
  .ok v a

/-- The name of a type. -/
def nameOf (t : TypeId) : BuildM String := do
  return (← get).display t

/-- Refuses an expression. -/
def refuse {α : Type} (cause : EvalCause) (span : Span) : BuildM α :=
  throw { cause, span }

/-- The literal of a value. -/
def value (v : Value) (span : Span) : BuildM Expr := do
  return .literal { type := ← types v.internType, span } v

/-- The literal of a number has the type of its representation. -/
theorem value_number (n : Number) (span : Span) (table : TypeTable) :
    value (.number n) span table =
      .ok (.literal { type := (TypeTable.numeric n.type table).1, span } (.number n))
        (TypeTable.numeric n.type table).2 := rfl

/-- The number of an integer literal: the narrowest fixed natural that holds it, or integer if it is
negative, else the unbounded one. -/
def integerNumber (z : Int) : Number :=
  if z < 0 then .integer z (NumericType.ofLiteral .int (Integer.signedBits z)).width
  else .natural z (NumericType.ofLiteral .nat (Integer.unsignedBits z)).width

/-- The number of a ratio literal: the narrowest fixed ratio that holds both parts, else the unbounded
one. -/
def ratioNumber (q : Rat) : Number :=
  .rational q (NumericType.ofLiteral .ratio (Rational.bits q)).width

/-- The number of a real literal: the narrower float that has its value exactly, else the unbounded
real. -/
def realNumber (x : BigReal) : Number :=
  if x.isFloat .single then .real32 (x.toFloat .single)
  else if x.isFloat .double then .real64 (x.toFloat .double)
  else .bigReal x

/-- The literal of a number that was read, or the error that it could not be read. -/
def numeral (read : Except NumeralError Number) (span : Span) : BuildM Expr :=
  match read with
  | .ok n => value (.number n) span
  | .error e => refuse (.invalidLiteral e) span

/-- An integer literal. -/
def integer (src : String) (radix : Nat) (span : Span) : BuildM Expr :=
  numeral ((Integer.parse radix src.toList).map integerNumber) span

/-- A ratio literal. -/
def ratio (src : String) (radix : Nat) (span : Span) : BuildM Expr :=
  numeral ((Rational.parse radix src.toList).map ratioNumber) span

/-- A decimal real literal, rounded to `p` bits. -/
def real (src : String) (p : Nat) (span : Span) : BuildM Expr :=
  numeral ((BigReal.parse 10 src.toList p).map realNumber) span

/-- A name that is bound to a value of the given type. -/
def name (n : String) (type : TypeId) (span : Span) : Expr :=
  .name { type, span } n

/-- A unary operator. -/
def unary (op : UnaryOp) (operand : Expr) (span : Span) : BuildM Expr := do
  match ← types (TypeTable.unaryResult? op operand.type) with
  | some type => return .unary { type, span } op operand
  | none => refuse (.undefinedUnary op (← nameOf operand.type)) span

/-- A binary operator. -/
def binary (op : BinaryOp) (lhs rhs : Expr) (span : Span) : BuildM Expr := do
  match ← types (TypeTable.binaryResult? op lhs.type rhs.type) with
  | some type => return .binary { type, span } op lhs rhs
  | none => refuse (.undefinedBinary op (← nameOf lhs.type) (← nameOf rhs.type)) span

/-- Binds a name in the innermost scope. -/
def define (n : String) (value : Expr) (span : Span) : Expr :=
  .define { type := value.type, span } n value

/-- Expressions in a scope of their own. -/
def block (items : List Expr) (span : Span) : Expr :=
  .block { type := (items.getLast?.map Expr.type).getD .unit, span } items

/-- A tuple. -/
def product (items : List Expr) (span : Span) : BuildM Expr := do
  return .product { type := ← types (TypeTable.product (items.map Expr.type)), span } items

/-- A function of the named parameters. -/
def lambda (params : List (String × TypeId)) (body : Expr) (span : Span) : BuildM Expr := do
  let type ← types (TypeTable.function (params.map (·.2)) body.type)
  return .lambda { type, span } (params.map (·.1)) body

/-- Refuses the first argument that cannot be cast to the type of its parameter. -/
def checkArguments : List Expr → List TypeId → BuildM Unit
  | arg :: args, param :: params => do
    if (← get).isCastable arg.type param then checkArguments args params
    else refuse (.argumentMismatch (← nameOf param) (← nameOf arg.type)) arg.span
  | _, _ => return ()

/-- A call. The callee has to have a function type with as many parameters as there are arguments. -/
def call (callee : Expr) (args : List Expr) (span : Span) : BuildM Expr := do
  match (← get).functionParts? callee.type with
  | none => refuse (.notCallable (← nameOf callee.type)) callee.span
  | some (params, result) =>
    if params.length ≠ args.length then
      refuse (.arityMismatch params.length args.length) span
    checkArguments args params
    return .call { type := result, span } callee args

/-- A member of a module, of the given type. -/
def access (module : Expr) (member : String) (type : TypeId) (span : Span) : Expr :=
  .access { type, span } module member

end Build

end NumericTower
