import Mathlib
import NumericTower.Eval.Module
import NumericTower.Proofs.Eval.Discipline
import NumericTower.Proofs.Scope
import NumericTower.Proofs.Store

/-!
# Steps of evaluation

What each operation of the evaluator does, as a change of the state: binding a name, running in a scope of
its own, calling a function and coming back, and taking the members of a module out of the store.

## Key results
- `Eval.bind_eq`, `Eval.inScope_eq`, `Eval.callLambda_eq`, `Module.load_eq`: the operations as changes of
  the state
- `Eval.resolve_eq`, `Eval.resolveFrame_eq`: reading leaves the state alone
-/

namespace NumericTower

/-- Changes the state that a computation ends in. -/
def Eval.mapState {ε σ τ α : Type} (f : σ → τ) : EStateM.Result ε σ α → EStateM.Result ε τ α
  | .ok v s => .ok v (f s)
  | .error e s => .error e (f s)

/-- The handles among values. -/
def Value.handles (vs : List Value) : List ValueRef :=
  vs.filterMap Value.toRef?

theorem Value.mem_handles {vs : List Value} {r : ValueRef} : r ∈ handles vs ↔ .ref r ∈ vs := by
  simp only [handles, List.mem_filterMap]
  constructor
  · rintro ⟨v, hv, h⟩
    cases v with
    | ref r' =>
      obtain rfl := Option.some.inj h
      exact hv
    | _ => exact nomatch h
  · exact fun h => ⟨_, h, rfl⟩

theorem Store.releaseFrame_eq (s : Store Value) (frame : Frame Value) :
    s.releaseFrame frame = s.releaseAll (Value.handles frame.values) := by
  rw [releaseFrame]
  induction frame generalizing s with
  | nil => rfl
  | cons b frame ih =>
    obtain ⟨name, v⟩ := b
    rw [List.foldl_cons, ih]
    cases v <;> rfl

namespace Machine

/-- The handles that names are bound to. -/
def handles (m : Machine) : List ValueRef :=
  Value.handles m.scopes.values

/-- Binds a name in the innermost scope to a newly stored value. -/
def bindNew (m : Machine) (name : String) (v : Value) : Machine :=
  { m with
    scopes := (m.scopes.insert name (.ref (m.store.insert v).1)).2
    store := (m.store.insert v).2 }

/-- Releases what a name of the innermost scope was bound to. -/
def releaseOld (m : Machine) (old : Option Value) : Machine :=
  { m with store := m.store.releaseAll (Value.handles old.toList) }

/-- Binds a name anew. -/
def bind (m : Machine) (name : String) (v : Value) : Machine :=
  (m.bindNew name v).releaseOld (m.scopes.innermost.find? name)

/-- Binds parameters to arguments. -/
def bindAll (m : Machine) : List String → List Value → Machine
  | name :: names, v :: vs => (m.bindNew name v).bindAll names vs
  | _, _ => m

/-- Opens a scope. -/
def enter (m : Machine) : Machine :=
  { m with scopes := m.scopes.enter }

/-- The state in which the body of a function is evaluated, with as many active calls as before. -/
def bodyStart (m : Machine) (params : List String) (captured : List (String × Value))
    (args : List Value) : Machine :=
  { m with scopes := Eval.functionScopes captured }.bindAll params args

/-- The state in which the body of a function is evaluated by a call. -/
def call (m : Machine) (params : List String) (captured : List (String × Value))
    (args : List Value) : Machine :=
  { m with callDepth := m.callDepth + 1, scopes := Eval.functionScopes captured }.bindAll params args

/-- Comes back to the caller from the state in which the body of a function ended. -/
def comeBack (m final : Machine) : Machine :=
  { final with
    scopes := m.scopes
    store := (Eval.closeFunction final).store
    callDepth := final.callDepth - 1 }

end Machine

namespace Eval

theorem bind_run {ε σ α β : Type} (x : EStateM ε σ α) (f : α → EStateM ε σ β) (s : σ) :
    (x >>= f) s = match x s with
      | .ok v s => f v s
      | .error e s => .error e s := by
  show EStateM.bind x f s = _
  rw [EStateM.bind]
  cases x s <;> rfl

theorem get_run {ε σ β : Type} (f : σ → EStateM ε σ β) (s : σ) : (get >>= f) s = f s s := rfl

theorem modify_run {ε σ : Type} (f : σ → σ) (s : σ) :
    (modify f : EStateM ε σ PUnit) s = .ok () (f s) := rfl

/-! ### Reading -/

theorem resolve_eq (v : Value) (span : Span) (m : Machine) :
    resolve v span m = match m.store.resolve? v with
      | some w => .ok w m
      | none => .error ⟨.danglingReference, span⟩ m := by
  rw [resolve, get_run]
  cases m.store.resolve? v <;> rfl

/-- The bindings of a scope with what their chains of handles end in. -/
def resolved? (s : Store Value) : Frame Value → Option (Frame Value)
  | [] => some []
  | (name, v) :: frame => do
    let v ← s.resolve? v
    let frame ← resolved? s frame
    return (name, v) :: frame

theorem resolveFrame_eq (span : Span) (frame : Frame Value) (m : Machine) :
    resolveFrame span frame m = match resolved? m.store frame with
      | some frame => .ok frame m
      | none => .error ⟨.danglingReference, span⟩ m := by
  induction frame with
  | nil => rfl
  | cons b frame ih =>
    obtain ⟨name, v⟩ := b
    rw [resolveFrame, resolved?, bind_run, resolve_eq]
    cases m.store.resolve? v with
    | none => rfl
    | some w =>
      show (resolveFrame span frame >>= fun frame => pure ((name, w) :: frame)) m = _
      rw [bind_run, ih]
      cases resolved? m.store frame <;> rfl

theorem mem_resolved? {s : Store Value} {frame captured : Frame Value}
    (h : resolved? s frame = some captured) {b : String × Value} (hb : b ∈ captured) :
    ∃ v ∈ frame.values, s.resolve? v = some b.2 := by
  induction frame generalizing captured with
  | nil =>
    obtain rfl := Option.some.inj h
    exact nomatch hb
  | cons c frame ih =>
    obtain ⟨name, v⟩ := c
    obtain ⟨w, hw, h⟩ := Option.bind_eq_some_iff.mp h
    obtain ⟨rest, hrest, h⟩ := Option.bind_eq_some_iff.mp h
    obtain rfl := Option.some.inj h
    rcases List.mem_cons.mp hb with rfl | hb
    · exact ⟨v, List.mem_cons_self, hw⟩
    · obtain ⟨u, hu, hs⟩ := ih hrest hb
      exact ⟨u, List.mem_cons_of_mem v hu, hs⟩

/-! ### Binding -/

theorem bind_eq (name : String) (v : Value) (m : Machine) :
    Eval.bind name v m = .ok () (m.bind name v) := by
  have hallocate : allocate v m = .ok (m.store.insert v).1 { m with store := (m.store.insert v).2 } :=
    rfl
  have hold : (m.scopes.insert name (.ref (m.store.insert v).1)).1 = m.scopes.innermost.find? name :=
    rfl
  rw [Eval.bind, bind_run, hallocate]
  simp only [modify_run]
  rw [Machine.bind, Machine.releaseOld]
  -- Only a handle is released, so the value that was bound is taken apart.
  cases hf : m.scopes.innermost.find? name with
  | none =>
    rw [hf] at hold
    simp only [hold]
    rfl
  | some old =>
    rw [hf] at hold
    cases old <;> simp only [hold] <;> rfl

theorem bindParameters_eq (params : List String) (args : List Value) (m : Machine) :
    bindParameters params args m = .ok () (m.bindAll params args) := by
  induction params generalizing args m with
  | nil => rfl
  | cons name params ih =>
    cases args with
    | nil => rfl
    | cons v args => exact ih args (m.bindNew name v)

/-! ### Scopes and calls -/

theorem afterwards_eq {α : Type} (x : EvalM α) (change : Machine → Machine) (m : Machine) :
    afterwards x change m = mapState change (x m) := by
  rw [afterwards]
  cases x m <;> rfl

theorem inScope_eq {α : Type} (x : EvalM α) (m : Machine) :
    inScope x m = mapState leaveScope (x m.enter) :=
  afterwards_eq x leaveScope m.enter

theorem closeFunction_eq (m : Machine) :
    closeFunction m =
      { m with store := (closeFunction m).store, scopes := (closeFunction m).scopes } := by
  obtain ⟨state, nested, top⟩ := m
  cases nested <;> rfl

theorem callLambda_run (apply : Apply) (params : List String) (body : Expr)
    (captured : List (String × Value)) (args : List Value) (m : Machine) :
    callLambda apply params body captured args m =
      mapState (fun final => { closeFunction final with scopes := m.scopes })
        (body.evalWith apply (m.bodyStart params captured args)) := by
  simp only [callLambda, withScopes, afterwards_eq, bind_run, bindParameters_eq]
  rfl

theorem callLambda_eq (apply : Apply) (params : List String) (body : Expr)
    (captured : List (String × Value)) (args : List Value) (m : Machine) :
    asCall (callLambda apply params body captured args) m =
      mapState m.comeBack (body.evalWith apply (m.call params captured args)) := by
  rw [asCall, afterwards_eq, callLambda_run]
  show mapState _ (mapState _ (body.evalWith apply (m.call params captured args))) = _
  -- Closing the scopes of the function changes no more than the store and the scopes, and coming back
  -- replaces the scopes.
  cases body.evalWith apply (m.call params captured args) with
  | ok v final =>
    simp only [mapState]
    rw [closeFunction_eq]
    rfl
  | error e final =>
    simp only [mapState]
    rw [closeFunction_eq]
    rfl

/-- What a function is given for its arguments: their values in the representations of its parameters. -/
def passed (m : Machine) (f : Function) (args : List Value) : List Value :=
  convertArguments m.types m.options.realPrecision args
    (((m.types.functionParts? f.type).map (·.1)).getD [])

theorem callHost_eq (host : Host) (name : String) (args : List Value) (span : Span) (m : Machine) :
    asCall (callHost host name args span) m =
      mapState (fun memory => { m with toMemory := memory })
        (host name ⟨args, span, m.callDepth + 1⟩ m.toMemory) := by
  simp only [asCall, callHost, afterwards_eq]
  cases host name ⟨args, span, m.callDepth + 1⟩ m.toMemory <;> rfl

end Eval

/-! ### Modules -/

theorem Module.takeOut_snd (s : Store Value) (frame : Frame Value) :
    (takeOut s frame).2 = s.releaseAll (Value.handles frame.values) := by
  induction frame generalizing s with
  | nil => rfl
  | cons b frame ih =>
    obtain ⟨name, v⟩ := b
    cases v <;> exact ih _

/-- The state after a module is loaded: what its body bound is taken out of the store. -/
def Module.unload (m : Machine) : EvalState :=
  { m.toEvalState with store := m.store.releaseAll (Value.handles m.scopes.top.values) }

theorem Module.unload_eq (m : Machine) :
    unload m = { m.toEvalState with store := (takeOut m.store m.scopes.top).2 } := by
  rw [unload, takeOut_snd]

theorem Module.load_eq (host : Host) (name : String) (body : List Expr) (s : EvalState) :
    load host name body s =
      match Expr.evalLastWith (Eval.applyIn host { s with scopes := .empty }) .unit body
        { s with scopes := .empty } with
      | .ok _ m => .ok (.mk m.nextIdentity name (takeOut m.store m.scopes.top).1)
          { unload m with nextIdentity := m.nextIdentity + 1 }
      | .error e m => .error e (unload m) := by
  rw [load]
  cases Expr.evalLastWith (Eval.applyIn host { s with scopes := .empty }) .unit body
    { s with scopes := .empty } with
  | ok v m =>
    exact congrArg (fun s : EvalState => EStateM.Result.ok _
      { s with nextIdentity := m.nextIdentity + 1 }) (unload_eq m).symm
  | error e m => exact congrArg (EStateM.Result.error e) (unload_eq m).symm

end NumericTower
