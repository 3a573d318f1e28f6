import NumericTower.Eval.State
import NumericTower.TypeTable.Query

/-!
# Host functions

Functions that the host provides. A host function gets its arguments, the place of the call and the
number of active calls; it can change the memory but neither the scopes nor the settings.
-/

namespace NumericTower

/-- A call of a host function. -/
structure HostCall where
  args : List Value
  span : Span
  callDepth : Nat

/-- A host: what each of its functions computes, by name. -/
abbrev Host := String → HostCall → EStateM EvalError Memory Value

namespace Host

/-- A function that leaves the memory alone. -/
def pureFunction (f : HostCall → Except EvalError Value) (call : HostCall) :
    EStateM EvalError Memory Value := fun m =>
  match f call with
  | .ok v => .ok v m
  | .error e => .error e m

/-- The texts among values, with a space between each two. -/
def joinTexts (values : List Value) : String :=
  " ".intercalate (values.filterMap Value.toText?)

/-- A host with a few small functions: `tuple` of the arguments, the `first` of them, `join` of the
texts among them, `fail` with a division by zero, and the call `depth`. Any other name gives unit. -/
def standard : Host := fun name =>
  pureFunction fun call =>
    match name with
    | "tuple" => .ok (.tuple call.args)
    | "first" => .ok (call.args.headD .unit)
    | "join" => .ok (.ofText (joinTexts call.args))
    | "fail" => .error ⟨.divisionByZero, call.span⟩
    | "depth" => .ok (.number (.natural call.callDepth 64))
    | _ => .ok .unit

end Host

/-- A new function that the host computes. It takes as many arguments as its type has parameters; one
whose type is no function type takes none. -/
def Eval.hostFunction (type : TypeId) (name : String) : EvalM Value := do
  let arity := (((← get).types.functionParts? type).map (·.1.length)).getD 0
  return .function (.native (← freshIdentity) type arity name)

end NumericTower
