import NumericTower.Eval.Host
import NumericTower.Number.Convert
import NumericTower.TypeTable.Query
import NumericTower.Value.Operators

/-!
# Evaluation

Expressions are evaluated from left to right in the scopes of a machine. The evaluator of an expression
is given how to apply a function, and applying a function with so many calls left uses the evaluator
with one call less, so evaluation ends even when functions are applied to themselves.
-/

namespace NumericTower

/-- How a function is applied at a place to as many arguments as it takes. -/
abbrev Apply := Span → Function → List Value → EvalM Value

namespace Eval

/-- The result of a unary operator, or the error that there is none. -/
def unary (note : Annotation) (op : UnaryOp) (v : Value) : EvalM Value := do
  match v.unaryOp op with
  | .ok r => return r
  | .error .divisionByZero => fail .divisionByZero note.span
  | .error .tooLarge => fail (.resultTooLarge op.symbol) note.span
  | .error .exponentOverflow => fail .exponentOverflow note.span
  | .error .undefined => fail (.undefinedUnary op (← describe v)) note.span

/-- The result of a binary operator, or the error that there is none. -/
def binary (note : Annotation) (op : BinaryOp) (l r : Value) : EvalM Value := do
  match l.binaryOp op r (← get).options.realPrecision with
  | .ok v => return v
  | .error .divisionByZero => fail .divisionByZero note.span
  | .error .tooLarge => fail (.resultTooLarge op.symbol) note.span
  | .error .exponentOverflow => fail .exponentOverflow note.span
  | .error .undefined =>
    let left ← describe l
    let right ← describe r
    fail (.undefinedBinary op left right) note.span

/-- The value that a name is bound to. -/
def lookup (note : Annotation) (name : String) : EvalM Value := do
  match (← get).scopes.find? name with
  | some v => resolve v note.span
  | none => fail (.unboundName name) note.span

/-- Copies of the values that the bindings of a scope refer to. -/
def resolveFrame (span : Span) : Frame Value → EvalM (Frame Value)
  | [] => return []
  | (name, v) :: frame => do
    let v ← resolve v span
    let frame ← resolveFrame span frame
    return (name, v) :: frame

/-- A function with copies of all that is visible. -/
def closeOver (note : Annotation) (params : List String) (body : Expr) : EvalM Value := do
  let captured ← resolveFrame note.span (← get).scopes.visible
  return .function (.lambda (← freshIdentity) note.type params body captured)

/-- An argument in the representation of the type of its parameter, if that is numeric and holds all
values of the argument's type. -/
def convertArgument (a : TypeTable) (p : Nat) (v : Value) (param : TypeId) : Value :=
  match v, a.numericType? param with
  | .number n, some target => ((n.convertTo? target p).map .number).getD v
  | _, _ => v

/-- Arguments in the representations of the types of their parameters; arguments without a parameter
stay as they are. -/
def convertArguments (a : TypeTable) (p : Nat) : List Value → List TypeId → List Value
  | v :: vs, param :: params => convertArgument a p v param :: convertArguments a p vs params
  | vs, _ => vs

/-- Applies the value of a callee. -/
def callValue (apply : Apply) (note : Annotation) (f : Function) (args : List Value) :
    EvalM Value := do
  let m ← get
  let params := ((m.types.functionParts? f.type).map (·.1)).getD []
  apply note.span f (convertArguments m.types m.options.realPrecision args params)

/-- The member of a module. -/
def member (note : Annotation) (m : Module) (name : String) : EvalM Value :=
  match m.access? name with
  | some v => return v
  | none => fail (.noSuchMember m.name name m.memberNames) note.span

end Eval

namespace Expr

mutual

/-- The value of an expression, given how functions are applied. -/
def evalWith (apply : Apply) : Expr → EvalM Value
  | .literal _ v => return v
  | .name note n => Eval.lookup note n
  | .unary note op operand => do
    let v ← operand.evalWith apply
    Eval.unary note op v
  | .binary note op lhs rhs => do
    let l ← lhs.evalWith apply
    let r ← rhs.evalWith apply
    Eval.binary note op l r
  | .define _ n value => do
    let v ← value.evalWith apply
    Eval.bind n v
    return v
  | .product _ items => do
    let values ← evalAllWith apply items
    return .tuple values
  | .lambda note params body => Eval.closeOver note params body
  | .call note callee args => do
    let target ← callee.evalWith apply
    match target with
    | .function f =>
      -- The number of arguments is checked before any of them is evaluated.
      if f.arity ≠ args.length then
        Eval.fail (.arityMismatch f.arity args.length) note.span
      let values ← evalAllWith apply args
      Eval.callValue apply note f values
    | v => do
      let found ← Eval.describe v
      Eval.fail (.notCallable found) callee.span
  | .access note container memberName => do
    let target ← container.evalWith apply
    match target with
    | .module m => Eval.member note m memberName
    | v => do
      let found ← Eval.describe v
      Eval.fail (.notAModule found) container.span
  | .block _ items => Eval.inScope (evalLastWith apply .unit items)

/-- The values of expressions, evaluated in order. -/
def evalAllWith (apply : Apply) : List Expr → EvalM (List Value)
  | [] => return []
  | e :: es => do
    let v ← e.evalWith apply
    let vs ← evalAllWith apply es
    return v :: vs

/-- The value of the last of the expressions, evaluated in order; `last` if there are none. -/
def evalLastWith (apply : Apply) (last : Value) : List Expr → EvalM Value
  | [] => return last
  | e :: es => do
    let v ← e.evalWith apply
    evalLastWith apply v es

end

end Expr

namespace Eval

/-- The scopes that the body of a function starts in: what it captured at the top level, and a scope
for the parameters. -/
def functionScopes (captured : List (String × Value)) : Scopes Value :=
  { top := captured.foldl (fun frame b => Frame.insert frame b.1 b.2) [], nested := [[]] }

/-- Stores the arguments and binds the parameters to them. What a parameter of the same name was bound
to before is not released. -/
def bindParameters : List String → List Value → EvalM Unit
  | name :: names, v :: vs => do
    let r ← allocate v
    modify fun m => { m with scopes := (m.scopes.insert name (.ref r)).2 }
    bindParameters names vs
  | _, _ => return ()

/-- Closes the scope of the parameters and then the top level of a function. -/
def closeFunction (m : Machine) : Machine :=
  let m := leaveScope m
  { m with store := m.store.releaseFrame m.scopes.top }

/-- Runs the body of a lambda. -/
def callLambda (apply : Apply) (params : List String) (body : Expr)
    (captured : List (String × Value)) (args : List Value) : EvalM Value :=
  withScopes (functionScopes captured)
    (do
      bindParameters params args
      body.evalWith apply)
    closeFunction

/-- Runs a host function. -/
def callHost (host : Host) (name : String) (args : List Value) (span : Span) : EvalM Value :=
  fun m =>
    match host name ⟨args, span, m.callDepth⟩ m.toMemory with
    | .ok v memory => .ok v { m with toMemory := memory }
    | .error e memory => .error e { m with toMemory := memory }

/-- Applies a function with so many calls left. With none left the call fails before the function
runs. -/
def applyWithin (host : Host) : (callsLeft : Nat) → Apply
  | 0, span, _, _ => do
    fail (.callDepthExceeded (← get).options.maxCallDepth) span
  | callsLeft + 1, span, f, args =>
    asCall (match f with
      | .lambda _ _ params body captured =>
        callLambda (applyWithin host callsLeft) params body captured args
      | .native _ _ _ name => callHost host name args span)

/-- How functions are applied in a state: the calls that are active count. -/
def applyIn (host : Host) (m : Machine) : Apply :=
  applyWithin host (m.options.maxCallDepth - m.callDepth)

end Eval

/-- The value of an expression. -/
def Expr.eval (host : Host) (e : Expr) : EvalM Value := fun m =>
  e.evalWith (Eval.applyIn host m) m

end NumericTower
