import Mathlib
import NumericTower.Proofs.Eval.Ownership

/-!
# The number of stored values

Evaluation neither leaks stored values nor releases one twice: the number of stored values changes by the
number of names newly bound in the innermost scope, whether evaluation succeeds or fails.

## Key results
- `live_count_follows_bindings`: for expressions, applications of functions and modules
- `live_count_of_binding_argument`: an argument that binds a name changes the number during a call
-/

namespace NumericTower

namespace Machine

variable {d : Discipline} {m m' : Machine}

/-- How many names of the innermost scope are bound to stored values. -/
def liveBindings (m : Machine) : Nat :=
  m.scopes.innermost.countP fun b => (b.2.toRef?.bind m.store.get?).isSome

theorem countP_live {s : Store Value} {frame : Frame Value}
    (h : ∀ r ∈ Value.handles frame.values, ∃ v, s.get? r = some v) :
    frame.countP (fun b => (b.2.toRef?.bind s.get?).isSome) =
      (Value.handles frame.values).length := by
  induction frame with
  | nil => rfl
  | cons b frame ih =>
    obtain ⟨name, v⟩ := b
    have hvalues : Frame.values ((name, v) :: frame) = v :: Frame.values frame := rfl
    rw [hvalues] at h ⊢
    cases hv : v.toRef? with
    | none =>
      -- A binding without a handle adds to neither side.
      have hhandles : Value.handles (v :: Frame.values frame) = Value.handles (Frame.values frame) := by
        simp [Value.handles, hv]
      rw [hhandles] at h ⊢
      rw [List.countP_cons, ih h]
      simp [hv]
    | some r =>
      have hhandles : Value.handles (v :: Frame.values frame) =
          r :: Value.handles (Frame.values frame) := by
        simp [Value.handles, hv]
      rw [hhandles] at h ⊢
      obtain ⟨w, hw⟩ := h r List.mem_cons_self
      rw [List.countP_cons, ih fun r' hr' => h r' (List.mem_cons_of_mem r hr')]
      simp [hv, hw]

theorem Owned.liveBindings_eq (hm : m.Owned d) :
    m.liveBindings = (Value.handles m.scopes.innermost.values).length := by
  refine countP_live fun r hr => hm.live r ?_
  rw [handles_eq]
  exact List.mem_append_left _ hr

theorem Owned.liveCount_of_evolves (hm : m.Owned d) (hm' : m'.Owned d) (h : m.Evolves d m')
    (hd : ∀ params, d.params params → params.Nodup) :
    m'.store.liveCount + m.liveBindings = m.store.liveCount + m'.liveBindings := by
  -- The outer scopes are the same ones, so their handles cancel out.
  have hbalance := h.balanced hd
  rw [Balanced, handles_eq m, handles_eq m', h.outer, List.length_append, List.length_append,
    ← hm.liveBindings_eq, ← hm'.liveBindings_eq] at hbalance
  omega

theorem liveCount_of_scopes (h : m.Evolves d m') (hscopes : m'.scopes = m.scopes)
    (hd : ∀ params, d.params params → params.Nodup) : m'.store.liveCount = m.store.liveCount := by
  have hbalance := h.balanced hd
  rw [Balanced, handles, handles, hscopes] at hbalance
  omega

/-- With no scope around the innermost one all handles are bound at the top level. -/
theorem handles_of_outermost (h : m.scopes.outer = []) :
    m.handles = Value.handles m.scopes.top.values := by
  rw [handles, Scopes.eq_of_outer_eq_nil h]
  simp [Scopes.values, Scopes.frames]

/-- A module starts with nothing bound, and taking its members out of the store leaves none of them. -/
theorem Owned.liveCount_unload (hm' : m'.Owned d) (h : m.Evolves d m')
    (hscopes : m.scopes = .empty) (hd : ∀ params, d.params params → params.Nodup) :
    (Module.unload m').store.liveCount = m.store.liveCount := by
  -- The body ran in the outermost scope, so all handles are bound there.
  have hhandles : m'.handles = Value.handles m'.scopes.top.values :=
    handles_of_outermost (by rw [h.outer, hscopes]; rfl)
  have hempty : m.handles = [] := by rw [handles, hscopes]; rfl
  have hbalance := h.balanced hd
  have hrelease := hm'.liveCount_releaseAll
  rw [Balanced, hempty, List.length_nil] at hbalance
  rw [Module.unload, ← hhandles]
  show (m'.store.releaseAll m'.handles).liveCount = _
  omega

end Machine

/-! ### Expressions, functions and modules -/

section

open Guarantee (finalState)

variable {host : Host} {known : ValueRef → Prop} (hhost : host.Keeps (.owning known))
include hhost

theorem Machine.sound_owning_known : (owning (.owning known)).Sound (.owning known) host :=
  sound_owning (fun _ => Iff.rfl) hhost

theorem Expr.liveCount_eval {e : Expr} {m : Machine} (he : e.Obeys (.owning known))
    (hm : m.Owned (.owning known)) :
    (finalState (e.eval host m)).store.liveCount + m.liveBindings =
      m.store.liveCount + (finalState (e.eval host m)).liveBindings := by
  obtain ⟨hgood, hmove⟩ := ((Machine.sound_owning_known hhost).eval he m hm).final
  exact hm.liveCount_of_evolves hgood hmove fun _ h => h

theorem Expr.liveCount_eval_of_bindsNothing {e : Expr} {m : Machine} (he : e.Obeys (.owning known))
    (hm : m.Owned (.owning known)) (hb : e.BindsNothing) :
    (finalState (e.eval host m)).store.liveCount = m.store.liveCount := by
  obtain ⟨-, hmove⟩ := ((Machine.sound_owning_known hhost).eval he m hm).final
  exact Machine.liveCount_of_scopes hmove (Expr.scopes_eval host hb m) fun _ h => h

theorem Eval.liveCount_applyIn {f : Function} {args : List Value} {m : Machine} (span : Span)
    (hf : f.Obeys (.owning known)) (hargs : Value.AllObey (.owning known) args)
    (hm : m.Owned (.owning known)) :
    (finalState (Eval.applyIn host m span f args m)).store.liveCount = m.store.liveCount := by
  obtain ⟨-, hmove⟩ :=
    ((Machine.sound_owning_known hhost).applyWithin _ span f args hf hargs m hm).final
  have hstill := Machine.still_applyWithin host (m.options.maxCallDepth - m.callDepth) span f args
    f.obeys_any (Value.allObey_any args) m trivial
  exact Machine.liveCount_of_scopes hmove hstill.final.2 fun _ h => h

theorem Module.liveCount_load {body : List Expr} {s : EvalState} (name : String)
    (hbody : Expr.AllObey (.owning known) body)
    (hs : Machine.Owned (.owning known) { s with scopes := .empty }) :
    (finalState (Module.load host name body s)).store.liveCount = s.store.liveCount := by
  have hlast := (Machine.sound_owning_known hhost).evalLast (s.options.maxCallDepth - s.callDepth)
    hbody (show Value.unit.Obeys (.owning known) from trivial) _ hs
  change Guarantee.Holds _ _ _ (Expr.evalLastWith (Eval.applyIn host { s with scopes := .empty }) _ _ _)
    at hlast
  rw [Module.load_eq]
  cases hr : Expr.evalLastWith (Eval.applyIn host { s with scopes := .empty }) .unit body
    { s with scopes := .empty } with
  | ok v m' =>
    rw [hr] at hlast
    exact hlast.1.liveCount_unload hlast.2.1 rfl fun _ h => h
  | error e m' =>
    rw [hr] at hlast
    exact hlast.1.liveCount_unload hlast.2 rfl fun _ h => h

/-- The number of stored values changes by the change in the number of names of the innermost scope that
are bound to stored values. It does not change by a block or another expression that binds nothing there,
by applying a function, or by loading a module. -/
theorem live_count_follows_bindings :
    (∀ (e : Expr) (m : Machine), e.Obeys (.owning known) → m.Owned (.owning known) →
      let m' := finalState (e.eval host m)
      m'.store.liveCount + m.liveBindings = m.store.liveCount + m'.liveBindings ∧
        (e.BindsNothing → m'.store.liveCount = m.store.liveCount)) ∧
    (∀ (note : Annotation) (items : List Expr) (m : Machine),
      Expr.AllObey (.owning known) items → m.Owned (.owning known) →
      (finalState ((Expr.block note items).eval host m)).store.liveCount = m.store.liveCount) ∧
    (∀ (span : Span) (f : Function) (args : List Value) (m : Machine),
      f.Obeys (.owning known) → Value.AllObey (.owning known) args → m.Owned (.owning known) →
      (finalState (Eval.applyIn host m span f args m)).store.liveCount = m.store.liveCount) ∧
    (∀ (name : String) (body : List Expr) (s : EvalState),
      Expr.AllObey (.owning known) body →
      Machine.Owned (.owning known) { s with scopes := .empty } →
      (finalState (Module.load host name body s)).store.liveCount = s.store.liveCount) := by
  refine ⟨?_, ?_, ?_, ?_⟩
  · intro e m he hm
    exact ⟨Expr.liveCount_eval hhost he hm, Expr.liveCount_eval_of_bindsNothing hhost he hm⟩
  · intro note items m hitems hm
    exact Expr.liveCount_eval_of_bindsNothing hhost (e := .block note items) hitems hm trivial
  · intro span f args m hf hargs hm
    exact Eval.liveCount_applyIn hhost span hf hargs hm
  · intro name body s hbody hs
    exact Module.liveCount_load hhost name hbody hs

end

/-- A block that binds a name, binds it anew and then fails, where the name is bound outside too. -/
theorem live_count_follows_bindings_failing_block :
    let note : Annotation := ⟨.unit, 0, 1⟩
    let m : Machine := { EvalState.initial {} with scopes := .empty }
    let items : List Expr := [.define note "x" (.literal note .unit),
      .define note "x" (.name note "x"), .name note "y"]
    Host.standard.Keeps (.owning fun _ => False) ∧
      Expr.AllObey (.owning fun _ => False) items ∧
      (m.bind "x" (.bool true)).Owned (.owning fun _ => False) ∧
      (Guarantee.finalState ((Expr.block note items).eval Host.standard
        (m.bind "x" (.bool true)))).store.liveCount = (m.bind "x" (.bool true)).store.liveCount := by
  intro note m items
  have hhost := Host.keeps_standard (.owning fun _ => False)
  have hitems : Expr.AllObey (.owning fun _ => False) items := ⟨trivial, trivial, trivial, trivial⟩
  have hm : (m.bind "x" (.bool true)).Owned (.owning fun _ => False) :=
    (Machine.owned_initial _ {}).bind "x" trivial
  exact ⟨hhost, hitems, hm, (live_count_follows_bindings hhost).2.1 note items _ hitems hm⟩

/-! ### Where the number does change -/

/-- Arguments are evaluated in the scopes of the caller, so one that binds a name changes the number. So
does a function that captured a handle instead of a copy. -/
theorem live_count_of_binding_argument :
    (¬ ∀ (note : Annotation) (callee : Expr) (args : List Expr) (m : Machine),
      (Expr.call note callee args).Obeys (.owning fun _ => False) →
      m.Owned (.owning fun _ => False) →
      (Guarantee.finalState ((Expr.call note callee args).eval Host.standard m)).store.liveCount =
        m.store.liveCount) ∧
    ¬ ∀ (e : Expr) (m : Machine), e.Obeys ⟨fun _ => False, List.Nodup, fun _ => True⟩ →
      m.Owned ⟨fun _ => True, List.Nodup, fun _ => True⟩ →
      let m' := Guarantee.finalState (e.eval Host.standard m)
      m'.store.liveCount + m.liveBindings = m.store.liveCount + m'.liveBindings := by
  have hinitial := fun d => Machine.owned_initial d {}
  constructor
  -- a call whose argument is a definition: one value is stored more
  · intro h
    have hcall := h ⟨.unit, 0, 1⟩
      (.literal ⟨.unit, 0, 1⟩ (.function (.lambda 0 .unit ["y"] (.name ⟨.unit, 0, 1⟩ "y") [])))
      [.define ⟨.unit, 0, 1⟩ "x" (.literal ⟨.unit, 0, 1⟩ .unit)] _
      ⟨⟨List.nodup_singleton "y", trivial, trivial, fun _ hb => nomatch hb⟩, trivial, trivial⟩
      (hinitial _)
    exact absurd hcall (by decide +kernel)
  -- a call of a function that captured the only handle to a value: one value is stored less
  · intro h
    let d : Discipline := ⟨fun _ => True, List.Nodup, fun _ => True⟩
    let f : Function := .lambda 0 .unit [] (.literal ⟨.unit, 0, 1⟩ .unit) [("c", .ref ⟨0, 0⟩)]
    have hc := (hinitial d).bind "c" (v := .bool true) trivial
    have hf : f.Obeys d := ⟨List.nodup_nil, trivial, ⟨trivial, trivial⟩, fun _ _ => trivial⟩
    have hm : Machine.Owned d { { EvalState.initial {} with scopes := .empty : Machine }.bind "c"
        (.bool true) with scopes := ⟨[], [("f", .function f)]⟩ } := by
      refine ⟨hc.store, List.nodup_nil, (fun _ hr => nomatch hr), fun v hv _ => ?_, fun r v _ hv => ?_⟩
      · obtain rfl := List.mem_singleton.mp hv
        exact hf
      · exact hc.stored r v (Or.inr trivial) hv
    have hcall := h (.call ⟨.unit, 0, 1⟩ (.name ⟨.unit, 0, 1⟩ "f") []) _ ⟨trivial, trivial⟩ hm
    exact absurd hcall (by decide +kernel)

end NumericTower
