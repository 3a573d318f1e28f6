import NumericTower.Eval.Error
import NumericTower.Scope
import NumericTower.TypeTable.Display
import NumericTower.Value.Typing

/-!
# State of evaluation

What evaluation changes: the types, the stored values, the scopes and how many calls are active.
-/

namespace NumericTower

/-- Settings of an evaluation. -/
structure EvalOptions where
  /-- How many calls may be active at once. -/
  maxCallDepth : Nat := 512
  /-- The precision of unbounded real results and literals. -/
  realPrecision : Nat := BigReal.defaultPrecision

/-- The types and the values that expressions refer to. -/
structure Memory where
  types : TypeTable
  store : Store Value
  /-- The identity of the next function or module. -/
  nextIdentity : Nat

/-- The memory with the reserved types only. -/
def Memory.initial : Memory := ⟨.initial, .empty, 0⟩

/-- The memory, the settings, and how many calls are active. -/
structure EvalState extends Memory where
  options : EvalOptions
  callDepth : Nat

/-- The state before any evaluation. -/
def EvalState.initial (options : EvalOptions) : EvalState :=
  { Memory.initial with options, callDepth := 0 }

/-- The state of an evaluation with the scopes that names are looked up in. -/
structure Machine extends EvalState where
  scopes : Scopes Value

/-- A computation that may fail; what it changed before it failed stays changed. -/
abbrev EvalM := EStateM EvalError Machine

namespace Store

/-- Follows handles to the value at the end, at most `steps` of them; none if a handle finds nothing. -/
def follow (s : Store Value) : (steps : Nat) → Value → Option Value
  | steps, .ref r =>
    match steps with
    | 0 => none
    | steps + 1 => (s.get? r).bind (s.follow steps)
  | _, v => some v

/-- The value at the end of a chain of handles. A chain without a cycle is no longer than there are
slots. -/
def resolve? (s : Store Value) (v : Value) : Option Value :=
  s.follow s.slots.size v

/-- Releases the values that the bindings of a scope refer to. -/
def releaseFrame (s : Store Value) (frame : Frame Value) : Store Value :=
  frame.foldl (fun s b => match b.2 with
    | .ref r => (s.release r).2
    | _ => s) s

end Store

namespace Eval

/-- Fails with a cause at a place. -/
def fail {α : Type} (cause : EvalCause) (span : Span) : EvalM α :=
  throw { cause, span }

/-- Runs a computation on types. -/
def types {α : Type} (x : TypeTableM α) : EvalM α := fun m =>
  let (v, types) := x m.types
  .ok v { m with types }

/-- The name of the type of a value. -/
def describe (v : Value) : EvalM String := do
  let t ← types v.internType
  return (← get).types.display t

/-- A new identity. -/
def freshIdentity : EvalM Nat := fun m =>
  .ok m.nextIdentity { m with nextIdentity := m.nextIdentity + 1 }

/-- The value at the end of a chain of handles. -/
def resolve (v : Value) (span : Span) : EvalM Value := do
  match (← get).store.resolve? v with
  | some v => return v
  | none => fail .danglingReference span

/-- Stores a value. -/
def allocate (v : Value) : EvalM ValueRef := fun m =>
  let (r, store) := m.store.insert v
  .ok r { m with store }

/-- Binds a name in the innermost scope to a stored value, and releases the one that it was bound to
there. -/
def bind (name : String) (v : Value) : EvalM Unit := do
  let r ← allocate v
  modify fun m =>
    let (old, scopes) := m.scopes.insert name (.ref r)
    let store := match old with
      | some (.ref r) => (m.store.release r).2
      | _ => m.store
    { m with scopes, store }

/-- Runs a computation and then, whether it fails or not, changes the state. -/
def afterwards {α : Type} (x : EvalM α) (change : Machine → Machine) : EvalM α := fun m =>
  match x m with
  | .ok v m => .ok v (change m)
  | .error e m => .error e (change m)

/-- Closes the innermost scope and releases what it refers to. -/
def leaveScope (m : Machine) : Machine :=
  match m.scopes.leave with
  | (some frame, scopes) => { m with scopes, store := m.store.releaseFrame frame }
  | (none, _) => m

/-- Runs a computation in a scope of its own. -/
def inScope {α : Type} (x : EvalM α) : EvalM α := fun m =>
  afterwards x leaveScope { m with scopes := m.scopes.enter }

/-- Runs a computation in other scopes and comes back to the present ones; `close` is done with the
other scopes at the end. -/
def withScopes {α : Type} (scopes : Scopes Value) (x : EvalM α) (close : Machine → Machine) :
    EvalM α := fun m =>
  afterwards x (fun m' => { close m' with scopes := m.scopes }) { m with scopes }

/-- Runs a computation as one more active call. -/
def asCall {α : Type} (x : EvalM α) : EvalM α := fun m =>
  afterwards x (fun m' => { m' with callDepth := m'.callDepth - 1 })
    { m with callDepth := m.callDepth + 1 }

end Eval

end NumericTower
