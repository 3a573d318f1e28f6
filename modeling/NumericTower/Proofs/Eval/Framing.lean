import Mathlib
import NumericTower.Proofs.Eval.Guarantee

/-!
# Scopes around an evaluation

An evaluation changes the innermost scope only, by binding names in it, and an expression that binds
nothing outside of its blocks and functions changes no scope.

## Key results
- `Machine.sound_framing`: every step leaves the outer scopes, the settings and the number of active calls
  as they were
- `Expr.scopes_eval`: an expression that binds nothing leaves all scopes as they were
-/

namespace NumericTower

namespace Machine

variable {m m' : Machine}

/-- The scopes around the innermost one, the settings and the number of active calls are the same. -/
structure Framed (m m' : Machine) : Prop where
  outer : m'.scopes.outer = m.scopes.outer
  options : m'.options = m.options
  callDepth : m'.callDepth = m.callDepth

theorem Framed.refl (m : Machine) : m.Framed m := ⟨rfl, rfl, rfl⟩

theorem Framed.trans {m'' : Machine} (h : m.Framed m') (h' : m'.Framed m'') : m.Framed m'' :=
  ⟨h'.outer.trans h.outer, h'.options.trans h.options, h'.callDepth.trans h.callDepth⟩

/-! ### The steps -/

theorem framed_bindNew (m : Machine) (name : String) (v : Value) : m.Framed (m.bindNew name v) :=
  ⟨Scopes.outer_insert _ _ _, rfl, rfl⟩

theorem framed_bind (m : Machine) (name : String) (v : Value) : m.Framed (m.bind name v) :=
  ⟨Scopes.outer_insert _ _ _, rfl, rfl⟩

theorem framed_bindAll (m : Machine) (params : List String) (args : List Value) :
    m.Framed (m.bindAll params args) := by
  induction params generalizing m args with
  | nil => exact .refl m
  | cons name params ih =>
    cases args with
    | nil => exact .refl m
    | cons v args => exact (framed_bindNew m name v).trans (ih _ args)

theorem leaveScope_eq (h : m'.scopes.outer = m.scopes.frames) :
    Eval.leaveScope m' =
      { m' with
        scopes := m.scopes
        store := m'.store.releaseAll (Value.handles m'.scopes.innermost.values) } := by
  rw [Eval.leaveScope, Scopes.leave_of_outer h]
  simp only [Store.releaseFrame_eq]

theorem framed_leaveScope (h : m.enter.Framed m') : m.Framed (Eval.leaveScope m') := by
  rw [leaveScope_eq h.outer]
  exact ⟨rfl, h.options, h.callDepth⟩

variable {params : List String} {captured : List (String × Value)} {args : List Value}

theorem framed_comeBack (h : (m.call params captured args).Framed m') :
    m.Framed (m.comeBack m') := by
  have hbody := (framed_bindAll _ params args).trans h
  refine ⟨rfl, hbody.options, ?_⟩
  show m'.callDepth - 1 = m.callDepth
  rw [hbody.callDepth]
  exact Nat.add_sub_cancel _ _

/-- What an evaluation guarantees about the scopes around it. -/
def framing : Guarantee :=
  ⟨fun _ => True, Framed⟩

theorem sound_framing (host : Host) : framing.Sound .any host where
  refl _ := .refl _
  trans h h' := h.trans h'
  resolve _ _ _ := ⟨Value.obeys_any _, trivial⟩
  types _ _ := ⟨trivial, rfl, rfl, rfl⟩
  identity _ := ⟨trivial, rfl, rfl, rfl⟩
  bind _ _ := ⟨trivial, framed_bind _ _ _⟩
  enter _ := trivial
  leave _ _ h := ⟨trivial, framed_leaveScope h⟩
  call _ _ _ := trivial
  comeBack _ _ _ _ h := ⟨trivial, framed_comeBack h⟩
  host {m name args span} _ _ := by
    cases host name ⟨args, span, m.callDepth + 1⟩ m.toMemory with
    | ok v memory => exact ⟨trivial, ⟨rfl, rfl, rfl⟩, v.obeys_any⟩
    | error e memory => exact ⟨trivial, rfl, rfl, rfl⟩

/-! ### Expressions that bind nothing -/

/-- No scope changes. -/
def still : Guarantee :=
  ⟨fun _ => True, fun m m' => m'.scopes = m.scopes⟩

theorem calm_still : still.Calm .any where
  refl _ := rfl
  trans h h' := h'.trans h
  resolve _ _ _ := ⟨Value.obeys_any _, trivial⟩
  types _ _ := ⟨trivial, rfl⟩
  identity _ := ⟨trivial, rfl⟩

/-- Applying a function comes back to the scopes of the caller. -/
theorem still_applyWithin (host : Host) (callsLeft : Nat) :
    still.EnsuresApply .any (Eval.applyWithin host callsLeft) := by
  intro span f args _ _ m _
  cases callsLeft with
  | zero => exact ⟨trivial, rfl⟩
  | succ callsLeft =>
    cases f with
    | native identity type arity name =>
      show still.Holds _ m (Eval.asCall (Eval.callHost host name args span) m)
      rw [Eval.callHost_eq]
      cases host name ⟨args, span, m.callDepth + 1⟩ m.toMemory with
      | ok v memory => exact ⟨trivial, rfl, v.obeys_any⟩
      | error e memory => exact ⟨trivial, rfl⟩
    | lambda identity type params body captured =>
      show still.Holds _ m (Eval.asCall (Eval.callLambda (Eval.applyWithin host callsLeft) params body
        captured args) m)
      rw [Eval.callLambda_eq]
      -- Wherever the body ended, its scopes are gone.
      cases body.evalWith (Eval.applyWithin host callsLeft) (m.call params captured args) with
      | ok v m' => exact ⟨trivial, rfl, v.obeys_any⟩
      | error e m' => exact ⟨trivial, rfl⟩

/-- A block closes the scope that its items bind names in. -/
theorem still_block (host : Host) (callsLeft : Nat) (items : List Expr) :
    still.Ensures (·.Obeys .any)
      (Eval.inScope (Expr.evalLastWith (Eval.applyWithin host callsLeft) .unit items)) := by
  intro m _
  -- The items may bind names, but they leave the scopes around the new one as they were.
  have h := (sound_framing host).evalLast callsLeft (Expr.allObey_any items) Value.unit.obeys_any
    m.enter trivial
  rw [Eval.inScope_eq]
  refine h.mapState fun m' _ hframed => ⟨trivial, ?_⟩
  show (Eval.leaveScope m').scopes = m.scopes
  rw [leaveScope_eq hframed.outer]

theorem closed_still (host : Host) (callsLeft : Nat) :
    still.Closed .any False (Eval.applyWithin host callsLeft) :=
  { calm_still with
    calls := still_applyWithin host callsLeft
    define := False.elim
    inScope := fun _ _ => still_block host callsLeft _ }

end Machine

/-- An expression that binds nothing leaves every scope as it was. -/
theorem Expr.scopes_eval (host : Host) {e : Expr} (he : e.BindsNothing) (m : Machine) :
    (Guarantee.finalState (e.eval host m)).scopes = m.scopes :=
  ((Machine.closed_still host _).evalWith e.obeys_any (Or.inr he) m trivial).final.2

end NumericTower
