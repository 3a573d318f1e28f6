import NumericTower.Eval.Basic

/-!
# Loading modules

The body of a module is evaluated in scopes of its own. What it binds at its top level becomes the
members; their values are taken out of the store.
-/

namespace NumericTower.Module

/-- Takes the values of bindings out of a store; a binding whose value is gone is left out. -/
def takeOut (s : Store Value) : Frame Value → List (String × Value) × Store Value
  | [] => ([], s)
  | (name, .ref r) :: frame =>
    let (v, s) := s.release r
    let (members, s) := takeOut s frame
    (match v with
      | some v => (name, v) :: members
      | none => members, s)
  | (name, v) :: frame =>
    let (members, s) := takeOut s frame
    ((name, v) :: members, s)

/-- Evaluates the body of a module and collects its members. If an expression fails, so does the module,
and the store is cleared of what the body bound. -/
def load (host : Host) (name : String) (body : List Expr) : EStateM EvalError EvalState Module :=
  fun s =>
    let m : Machine := { s with scopes := .empty }
    -- The members are taken out of the store in either case.
    let collect (m : Machine) : List (String × Value) × EvalState :=
      let (members, store) := takeOut m.store m.scopes.top
      (members, { m.toEvalState with store })
    match Expr.evalLastWith (Eval.applyIn host m) .unit body m with
    | .ok _ m =>
      let (members, s) := collect m
      .ok (.mk s.nextIdentity name members) { s with nextIdentity := s.nextIdentity + 1 }
    | .error e m => .error e (collect m).2

end NumericTower.Module
