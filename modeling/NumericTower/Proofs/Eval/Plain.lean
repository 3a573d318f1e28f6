import Mathlib
import NumericTower.Eval.Basic

/-!
# Evaluation without a store

A reference evaluator that keeps plain values in its scopes: binding a name changes the innermost scope, a
block opens one and closes it, a function copies all that is visible, and a call evaluates the body above
what the function captured in a scope with the parameters.
-/

namespace NumericTower.Plain

/-- The types and the identity of the next function or module. -/
structure Memory where
  types : TypeTable
  nextIdentity : Nat

/-- The state of an evaluation; names are bound to values. -/
structure State extends Memory where
  options : EvalOptions
  callDepth : Nat
  scopes : Scopes Value

/-- A computation that may fail; what it changed before it failed stays changed. -/
abbrev PlainM := EStateM EvalError State

/-- Host functions, by name. They have no store to change. -/
abbrev Host := String → HostCall → EStateM EvalError Memory Value

/-- How a function is applied at a place to as many arguments as it takes. -/
abbrev Apply := Span → Function → List Value → PlainM Value

/-! ### Operations -/

/-- Fails with a cause at a place. -/
def fail {α : Type} (cause : EvalCause) (span : Span) : PlainM α :=
  throw { cause, span }

/-- The name of the type of a value. -/
def describe (v : Value) : PlainM String := fun s =>
  let (t, types) := v.internType s.types
  .ok (types.display t) { s with types }

/-- The result of a unary operator, or the error that there is none. -/
def unary (note : Annotation) (op : UnaryOp) (v : Value) : PlainM Value := do
  match v.unaryOp op with
  | .ok r => return r
  | .error .divisionByZero => fail .divisionByZero note.span
  | .error .tooLarge => fail (.resultTooLarge op.symbol) note.span
  | .error .exponentOverflow => fail .exponentOverflow note.span
  | .error .undefined => fail (.undefinedUnary op (← describe v)) note.span

/-- The result of a binary operator, or the error that there is none. -/
def binary (note : Annotation) (op : BinaryOp) (l r : Value) : PlainM Value := do
  match l.binaryOp op r (← get).options.realPrecision with
  | .ok v => return v
  | .error .divisionByZero => fail .divisionByZero note.span
  | .error .tooLarge => fail (.resultTooLarge op.symbol) note.span
  | .error .exponentOverflow => fail .exponentOverflow note.span
  | .error .undefined =>
    let left ← describe l
    let right ← describe r
    fail (.undefinedBinary op left right) note.span

/-- The value that a name is bound to. -/
def lookup (note : Annotation) (name : String) : PlainM Value := do
  match (← get).scopes.find? name with
  | some v => return v
  | none => fail (.unboundName name) note.span

/-- Binds a name in the innermost scope. -/
def bind (name : String) (v : Value) : PlainM Unit :=
  modify fun s => { s with scopes := (s.scopes.insert name v).2 }

/-- A function with a copy of all that is visible. -/
def closeOver (note : Annotation) (params : List String) (body : Expr) : PlainM Value := fun s =>
  .ok (.function (.lambda s.nextIdentity note.type params body s.scopes.visible))
    { s with nextIdentity := s.nextIdentity + 1 }

/-- Runs a computation in a scope of its own. -/
def inScope {α : Type} (x : PlainM α) : PlainM α := fun s =>
  match x { s with scopes := s.scopes.enter } with
  | .ok v s => .ok v { s with scopes := s.scopes.leave.2 }
  | .error e s => .error e { s with scopes := s.scopes.leave.2 }

/-- Applies the value of a callee. -/
def callValue (apply : Apply) (note : Annotation) (f : Function) (args : List Value) :
    PlainM Value := do
  let s ← get
  let params := ((s.types.functionParts? f.type).map (·.1)).getD []
  apply note.span f (Eval.convertArguments s.types s.options.realPrecision args params)

/-- The member of a module. -/
def member (note : Annotation) (m : Module) (name : String) : PlainM Value :=
  match m.access? name with
  | some v => return v
  | none => fail (.noSuchMember m.name name m.memberNames) note.span

/-! ### Expressions -/

mutual

/-- The value of an expression, given how functions are applied. -/
def evalWith (apply : Apply) : Expr → PlainM Value
  | .literal _ v => return v
  | .name note n => lookup note n
  | .unary note op operand => do
    let v ← evalWith apply operand
    unary note op v
  | .binary note op lhs rhs => do
    let l ← evalWith apply lhs
    let r ← evalWith apply rhs
    binary note op l r
  | .define _ n value => do
    let v ← evalWith apply value
    bind n v
    return v
  | .product _ items => do
    let values ← evalAllWith apply items
    return .tuple values
  | .lambda note params body => closeOver note params body
  | .call note callee args => do
    let target ← evalWith apply callee
    match target with
    | .function f =>
      if f.arity ≠ args.length then
        fail (.arityMismatch f.arity args.length) note.span
      let values ← evalAllWith apply args
      callValue apply note f values
    | v => do
      let found ← describe v
      fail (.notCallable found) callee.span
  | .access note container memberName => do
    let target ← evalWith apply container
    match target with
    | .module m => member note m memberName
    | v => do
      let found ← describe v
      fail (.notAModule found) container.span
  | .block _ items => inScope (evalLastWith apply .unit items)

/-- The values of expressions, evaluated in order. -/
def evalAllWith (apply : Apply) : List Expr → PlainM (List Value)
  | [] => return []
  | e :: es => do
    let v ← evalWith apply e
    let vs ← evalAllWith apply es
    return v :: vs

/-- The value of the last of the expressions, evaluated in order; `last` if there are none. -/
def evalLastWith (apply : Apply) (last : Value) : List Expr → PlainM Value
  | [] => return last
  | e :: es => do
    let v ← evalWith apply e
    evalLastWith apply v es

end

/-! ### Functions -/

/-- The scope that a list of bindings makes; a later one of the same name takes the place of an earlier
one. -/
def frameOf (bindings : List (String × Value)) : Frame Value :=
  bindings.foldl (fun frame b => Frame.insert frame b.1 b.2) []

/-- The scopes that the body of a function is evaluated in. -/
def callScopes (params : List String) (captured : List (String × Value)) (args : List Value) :
    Scopes Value :=
  { top := frameOf captured, nested := [frameOf (params.zip args)] }

/-- Runs the body of a lambda as one more active call. -/
def callLambda (apply : Apply) (params : List String) (body : Expr)
    (captured : List (String × Value)) (args : List Value) : PlainM Value := fun s =>
  let called : State :=
    { s with callDepth := s.callDepth + 1, scopes := callScopes params captured args }
  match evalWith apply body called with
  | .ok v s' => .ok v { s' with callDepth := s.callDepth, scopes := s.scopes }
  | .error e s' => .error e { s' with callDepth := s.callDepth, scopes := s.scopes }

/-- Runs a host function as one more active call. -/
def callHost (host : Host) (name : String) (args : List Value) (span : Span) : PlainM Value :=
  fun s =>
    match host name ⟨args, span, s.callDepth + 1⟩ s.toMemory with
    | .ok v memory => .ok v { s with toMemory := memory }
    | .error e memory => .error e { s with toMemory := memory }

/-- Applies a function with so many calls left. -/
def applyWithin (host : Host) : (callsLeft : Nat) → Apply
  | 0, span, _, _ => do
    fail (.callDepthExceeded (← get).options.maxCallDepth) span
  | callsLeft + 1, span, f, args =>
    match f with
    | .lambda _ _ params body captured =>
      callLambda (applyWithin host callsLeft) params body captured args
    | .native _ _ _ name => callHost host name args span

/-- The value of an expression. -/
def eval (host : Host) (e : Expr) : PlainM Value := fun s =>
  evalWith (applyWithin host (s.options.maxCallDepth - s.callDepth)) e s

end NumericTower.Plain
