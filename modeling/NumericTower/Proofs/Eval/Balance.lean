import Mathlib
import NumericTower.Proofs.Eval.Framing
import NumericTower.Proofs.Value.Typing

/-!
# Balance of scopes and calls

An evaluation closes every scope that it opens and ends every call that it begins, also when it fails in the
middle, and of the types it leaves the present ones as they are.

## Key results
- `Machine.sound_growth`: every step of evaluation only adds types
- `evaluation_is_balanced`: the depths, the outer scopes and the types after an evaluation
-/

namespace NumericTower

/-- A host whose functions may add types but change none. One that leaves the memory alone is such a
host. -/
def Host.OnlyAddsTypes (host : Host) : Prop :=
  ∀ (name : String) (call : HostCall) (s : Memory),
    s.types.Extends (Guarantee.finalState (host name call s)).types

/-- A host whose functions change the types by calls of builders only. -/
def Host.OnlyBuildsTypes (host : Host) : Prop :=
  ∀ (name : String) (call : HostCall) (s : Memory),
    s.types.GrowsTo (Guarantee.finalState (host name call s)).types

theorem Host.OnlyBuildsTypes.onlyAddsTypes {host : Host} (h : host.OnlyBuildsTypes) :
    host.OnlyAddsTypes :=
  fun name call s => (h name call s).extends

theorem Host.onlyBuildsTypes_pureFunction (f : String → HostCall → Except EvalError Value) :
    Host.OnlyBuildsTypes fun name => pureFunction (f name) := by
  intro name call s
  show s.types.GrowsTo (Guarantee.finalState (pureFunction (f name) call s)).types
  rw [pureFunction]
  cases f name call <;> exact .refl

theorem Host.onlyAddsTypes_pureFunction (f : String → HostCall → Except EvalError Value) :
    Host.OnlyAddsTypes fun name => pureFunction (f name) :=
  (onlyBuildsTypes_pureFunction f).onlyAddsTypes

namespace Machine

variable {m m' : Machine}

theorem types_bindAll (m : Machine) (params : List String) (args : List Value) :
    (m.bindAll params args).types = m.types := by
  induction params generalizing m args with
  | nil => rfl
  | cons name params ih =>
    cases args with
    | nil => rfl
    | cons v args => exact ih (m.bindNew name v) args

theorem types_leaveScope (m : Machine) : (Eval.leaveScope m).types = m.types := by
  obtain ⟨state, nested, top⟩ := m
  cases nested <;> rfl

/-- Types are only added. -/
def growth : Guarantee :=
  ⟨fun _ => True, fun m m' => m.types.Extends m'.types⟩

theorem sound_growth {host : Host} (hhost : host.OnlyAddsTypes) : growth.Sound .any host where
  refl _ := .refl _
  trans h h' := h.trans h'
  resolve _ _ _ := ⟨Value.obeys_any _, trivial⟩
  types {m v} _ _ := ⟨trivial, v.extends_internType m.types⟩
  identity _ := ⟨trivial, .refl _⟩
  bind _ _ := ⟨trivial, .refl _⟩
  enter _ := trivial
  leave {m m'} _ _ h := by
    refine ⟨trivial, ?_⟩
    show m.types.Extends (Eval.leaveScope m').types
    rw [types_leaveScope]
    exact h
  call _ _ _ := trivial
  comeBack {m m'} identity type params body captured args _ _ _ _ h := by
    refine ⟨trivial, ?_⟩
    change (m.call params captured args).types.Extends m'.types at h
    rw [call, types_bindAll] at h
    exact h
  host {m name args span} _ _ := by
    have h := hhost name ⟨args, span, m.callDepth + 1⟩ m.toMemory
    cases hr : host name ⟨args, span, m.callDepth + 1⟩ m.toMemory with
    | ok v memory =>
      rw [hr] at h
      exact ⟨trivial, h, v.obeys_any⟩
    | error e memory =>
      rw [hr] at h
      exact ⟨trivial, h⟩

theorem Framed.depth_eq (h : m.Framed m') : m'.scopes.depth = m.scopes.depth := by
  -- There is one scope more than there are around the innermost one.
  have hlength : ∀ s : Scopes Value, s.depth = s.outer.length := fun s => by
    simp [Scopes.depth, Scopes.outer, Scopes.frames]
  rw [hlength, hlength, h.outer]

end Machine

/-- Whether an expression has a value or fails, after its evaluation as many scopes are open and as many
calls are active as before, the scopes around the innermost one are the same, and every handle to a type
stands for what it stood for. -/
theorem evaluation_is_balanced {host : Host} (hhost : host.OnlyAddsTypes) (e : Expr) (m : Machine) :
    let m' := Guarantee.finalState (e.eval host m)
    m'.scopes.depth = m.scopes.depth ∧ m'.callDepth = m.callDepth ∧
      m'.scopes.outer = m.scopes.outer ∧ m.types.Extends m'.types ∧
      ∀ t, m.types.Holds t → m'.types.node t = m.types.node t ∧ m'.types.tree t = m.types.tree t := by
  have hframed := ((Machine.sound_framing host).eval e.obeys_any m trivial).final.2
  have hgrowth := ((Machine.sound_growth hhost).eval e.obeys_any m trivial).final.2
  exact ⟨hframed.depth_eq, hframed.callDepth, hframed.outer, hgrowth,
    fun t ht => ⟨hgrowth.node_eq ht, hgrowth.tree_eq ht⟩⟩

/-- A function that fails in a block of its body, called in a block. -/
theorem evaluation_is_balanced_failing_call :
    let note : Annotation := ⟨.unit, ⟨0, 1⟩⟩
    let m : Machine := { EvalState.initial {} with scopes := .empty }
    let body : Expr := .block note [.define note "y" (.name note "x"), .name note "z"]
    let e : Expr := .block note [.define note "f" (.lambda note ["x"] body),
      .call note (.name note "f") [.literal note .unit]]
    let m' := Guarantee.finalState (e.eval Host.standard m)
    Host.standard.OnlyAddsTypes ∧
      (match e.eval Host.standard m with
        | .ok .. => none
        | .error err _ => some err) = some ⟨.unboundName "z", ⟨0, 1⟩⟩ ∧
      m'.scopes.depth = 0 ∧ m'.callDepth = 0 ∧ m'.scopes.outer = [] ∧ m.types.Extends m'.types := by
  intro note m body e m'
  have hhost : Host.standard.OnlyAddsTypes := Host.onlyAddsTypes_pureFunction _
  obtain ⟨hdepth, hcalls, houter, htypes, -⟩ := evaluation_is_balanced hhost e m
  exact ⟨hhost, by decide +kernel, hdepth, hcalls, houter, htypes⟩

end NumericTower
