import Mathlib
import NumericTower.Proofs.Eval.Ownership

/-!
# Stored arguments

A call stores every argument, and at its end it releases what the scope of the parameters refers to. A
parameter list may name a parameter twice. Then the scope keeps the later argument only, and the value that
is stored for the earlier one is not released.

## Key results
- `BindsHandles.length_handles`: the scope of the parameters refers to one stored value for each name
- `call_releases_all_but_repeated_parameters`: how many values a call leaves behind
- `repeated_parameter_stays_stored`: a call that leaves one behind
-/

namespace NumericTower

/-! ### The scope of the parameters -/

/-- A scope in which exactly the given names are bound, each once, and to handles. -/
structure BindsHandles (names : List String) (frame : Frame Value) : Prop where
  nodup : frame.names.Nodup
  mem_iff : ∀ n, n ∈ frame.names ↔ n ∈ names
  handles : ∀ v ∈ frame.values, v.toRef?.isSome

namespace BindsHandles

variable {names : List String} {frame : Frame Value}

theorem nil : BindsHandles [] [] :=
  ⟨List.nodup_nil, fun _ => Iff.rfl, fun _ h => nomatch h⟩

theorem insert (h : BindsHandles names frame) (name : String) (r : ValueRef) :
    BindsHandles (names ++ [name]) (frame.insert name (.ref r)) where
  nodup := Frame.nodup_names_insert h.nodup name _
  mem_iff n := by simp [Frame.mem_names_insert, h.mem_iff n]
  handles v hv := by
    rcases Frame.mem_values_insert hv with rfl | hv
    · rfl
    · exact h.handles v hv

/-- A name that occurs twice has one handle. -/
theorem length_handles (h : BindsHandles names frame) :
    (Value.handles frame.values).length = names.dedup.length := by
  -- The names of the scope are the given ones without repetitions, in whatever order.
  have hperm : frame.names.Perm names.dedup := by
    refine (List.perm_ext_iff_of_nodup h.nodup (List.nodup_dedup names)).mpr fun n => ?_
    rw [h.mem_iff, List.mem_dedup]
  have hall : (Value.handles frame.values).length = frame.values.length :=
    List.filterMap_length_eq_length.mpr h.handles
  rw [hall, ← hperm.length_eq, Frame.values, Frame.names, List.length_map, List.length_map]

end BindsHandles

namespace Machine

variable {m m' : Machine} {params : List String} {captured : List (String × Value)} {args : List Value}

theorem bindsHandles_bindAll {names : List String} (h : BindsHandles names m.scopes.innermost) :
    BindsHandles (names ++ params.take args.length) (m.bindAll params args).scopes.innermost := by
  induction params generalizing m args names with
  | nil => simpa [bindAll] using h
  | cons name params ih =>
    cases args with
    | nil => simpa [bindAll] using h
    | cons v args =>
      have hone : BindsHandles (names ++ [name]) (m.bindNew name v).scopes.innermost := by
        show BindsHandles _ (m.scopes.insert name _).2.innermost
        rw [Scopes.innermost_insert]
        exact h.insert name _
      have hall : BindsHandles (names ++ [name] ++ params.take args.length)
          ((m.bindNew name v).bindAll params args).scopes.innermost := ih hone
      rwa [List.append_assoc] at hall

theorem liveCount_bindAll :
    (m.bindAll params args).store.liveCount = m.store.liveCount + (params.take args.length).length := by
  induction params generalizing m args with
  | nil => simp [bindAll]
  | cons name params ih =>
    cases args with
    | nil => simp [bindAll]
    | cons v args =>
      have hone : (m.bindNew name v).store.liveCount = m.store.liveCount + 1 :=
        Store.liveCount_insert m.store v
      have hall : ((m.bindNew name v).bindAll params args).store.liveCount =
          (m.bindNew name v).store.liveCount + (params.take args.length).length := ih
      rw [bindAll, hall, hone, List.length_cons, List.take_succ_cons, List.length_cons]
      omega

/-! ### The body -/

/-- As many values are stored as before, and the innermost scope has the same bindings to the same stored
values. -/
structure Undisturbed (m m' : Machine) : Prop where
  liveCount : m'.store.liveCount = m.store.liveCount
  innermost : m'.scopes.innermost = m.scopes.innermost
  stored : ∀ r ∈ Value.handles m.scopes.innermost.values, m'.store.get? r = m.store.get? r

theorem Undisturbed.refl (m : Machine) : m.Undisturbed m :=
  ⟨rfl, rfl, fun _ _ => rfl⟩

theorem owned_bodyStart (hm : m.store.Reachable) (hcaptured : ∀ b ∈ captured, b.2.toRef? = none) :
    (m.bodyStart params captured args).Owned .any :=
  ((owned_of_no_handles (m := { m with scopes := Eval.functionScopes captured }) hm
    (handles_functionScopes hcaptured) (fun v _ => v.obeys_any) fun _ v _ _ => v.obeys_any).bindAll
      params (Value.allObey_any args)).1

theorem outer_bodyStart (m : Machine) (params : List String) (captured : List (String × Value))
    (args : List Value) :
    (m.bodyStart params captured args).scopes.outer = [(Eval.functionScopes captured).top] :=
  (framed_bindAll { m with scopes := Eval.functionScopes captured } params args).outer

/-- What the function captured are copies, so only parameters are bound to handles. -/
theorem handles_bodyStart (hcaptured : ∀ b ∈ captured, b.2.toRef? = none) :
    (m.bodyStart params captured args).handles =
      Value.handles (m.bodyStart params captured args).scopes.innermost.values := by
  have htop : Value.handles (Eval.functionScopes captured).top.values = [] := by
    simpa [Scopes.values, Scopes.frames, Eval.functionScopes, Frame.values] using
      handles_functionScopes hcaptured
  rw [handles_eq, outer_bodyStart, List.flatMap_singleton, htop, List.append_nil]

theorem length_handles_bodyStart (hcaptured : ∀ b ∈ captured, b.2.toRef? = none) :
    (m.bodyStart params captured args).handles.length =
      (params.take args.length).dedup.length := by
  have hframe : BindsHandles (params.take args.length)
      (m.bodyStart params captured args).scopes.innermost :=
    bindsHandles_bindAll (m := { m with scopes := Eval.functionScopes captured }) .nil
  rw [handles_bodyStart hcaptured, hframe.length_handles]

/-- Closing a function after an undisturbed body releases one value for each handle at its start. -/
theorem Undisturbed.liveCount_closeFunction {top : Frame Value} (h : m.Undisturbed m')
    (hframed : m.Framed m') (hm : m.Owned .any) (houter : m.scopes.outer = [top])
    (hinner : m.handles = Value.handles m.scopes.innermost.values) :
    (Eval.closeFunction m').store.liveCount + m.handles.length = m.store.liveCount := by
  have hhandles : m'.handles = m.handles := by
    rw [handles_eq, handles_eq, h.innermost, hframed.outer]
  have hlive : ∀ r ∈ m'.handles, (m'.store.get? r).isSome := by
    intro r hr
    rw [hhandles] at hr
    rw [h.stored r (hinner ▸ hr)]
    exact hm.isSome_get? hr
  have hdistinct : m'.handles.Nodup := hhandles ▸ hm.distinct
  -- The counter is the one at the start, which counts all of these handles.
  have hcounted : m'.handles.length ≤ m'.store.liveCount := by
    rw [hhandles, h.liveCount]
    exact Store.length_le_liveCount hm.store.wellFormed hm.distinct fun _ => hm.isSome_get?
  have hrelease := Store.liveCount_releaseAll hdistinct hlive hcounted
  rw [closeFunction_store (hframed.outer.trans houter), ← h.liveCount, ← hrelease, hhandles]

end Machine

/-! ### The call -/

section

open Guarantee (finalState)
open Machine (Undisturbed)

variable {host : Host} {callsLeft : Nat} {params : List String} {body : Expr}
  {captured : List (String × Value)} {args : List Value} {m : Machine}

theorem undisturbed_literal (apply : Apply) (note : Annotation) (v : Value) (m : Machine) :
    m.Undisturbed (finalState ((Expr.literal note v).evalWith apply m)) :=
  .refl m

theorem undisturbed_name (apply : Apply) (note : Annotation) (name : String) (m : Machine) :
    m.Undisturbed (finalState ((Expr.name note name).evalWith apply m)) := by
  have hstate : finalState ((Expr.name note name).evalWith apply m) = m := by
    rw [Expr.evalWith, Eval.lookup, Eval.get_run]
    cases m.scopes.find? name with
    | none => rfl
    | some v =>
      simp only [Eval.resolve_eq]
      cases m.store.resolve? v <;> rfl
  rw [hstate]
  exact .refl m

/-- A function whose body disturbs neither the number of stored values nor the parameters leaves behind
one value for every repetition of a name among the parameters, whether its body has a value or fails. So a
call releases all that it stores exactly if the parameters are distinct. -/
theorem call_releases_all_but_repeated_parameters (hm : m.store.Reachable)
    (hcaptured : ∀ b ∈ captured, b.2.toRef? = none)
    (hbody : (m.bodyStart params captured args).Undisturbed
      (finalState (body.evalWith (Eval.applyWithin host callsLeft)
        (m.bodyStart params captured args)))) :
    let m' := finalState
      (Eval.callLambda (Eval.applyWithin host callsLeft) params body captured args m)
    let bound := params.take args.length
    m'.store.liveCount + bound.dedup.length = m.store.liveCount + bound.length ∧
      (m'.store.liveCount = m.store.liveCount ↔ bound.Nodup) := by
  intro m' bound
  let start := m.bodyStart params captured args
  have hsound := Machine.sound_framing host
  have hframed : start.Framed
      (finalState (body.evalWith (Eval.applyWithin host callsLeft) start)) :=
    ((hsound.closed (hsound.applyWithin callsLeft)).evalWith body.obeys_any (Or.inl trivial) start
      trivial).final.2
  have hstored : start.store.liveCount = m.store.liveCount + bound.length :=
    Machine.liveCount_bindAll
  have hclosed := hbody.liveCount_closeFunction hframed (Machine.owned_bodyStart hm hcaptured)
    (Machine.outer_bodyStart m params captured args) (Machine.handles_bodyStart hcaptured)
  rw [hstored, Machine.length_handles_bodyStart hcaptured] at hclosed
  have hfinal : m'.store.liveCount + bound.dedup.length = m.store.liveCount + bound.length := by
    have hrun : m'.store = (Eval.closeFunction
        (finalState (body.evalWith (Eval.applyWithin host callsLeft) start))).store := by
      show (finalState (Eval.callLambda _ params body captured args m)).store = _
      rw [Eval.callLambda_run]
      cases body.evalWith (Eval.applyWithin host callsLeft) start <;> rfl
    rw [hrun]
    exact hclosed
  refine ⟨hfinal, ?_⟩
  -- Without repetitions there is nothing to drop, and otherwise a name is dropped.
  rw [← List.dedup_eq_self]
  constructor
  · intro hsame
    have hlength : bound.dedup.length = bound.length := by omega
    exact (List.dedup_sublist bound).eq_of_length hlength
  · intro hdedup
    rw [hdedup] at hfinal
    omega

/-- Three arguments for two names: the first of them stays stored. -/
theorem call_releases_all_but_repeated_parameters_two_names :
    let note : Annotation := ⟨.unit, 0, 1⟩
    let m : Machine := { EvalState.initial {} with scopes := .empty }
    let apply := Eval.applyWithin Host.standard 3
    let params := ["x", "y", "x"]
    let args : List Value := [.bool true, .unit, .bool false]
    let m' := finalState (Eval.callLambda apply params (.name note "x") [("c", .unit)] args m)
    m.store.Reachable ∧ m'.store.liveCount + 2 = m.store.liveCount + 3 ∧
      m'.store.liveCount ≠ m.store.liveCount := by
  intro note m apply params args m'
  have hbody : (m.bodyStart params [("c", .unit)] args).Undisturbed (finalState
      ((Expr.name note "x").evalWith apply (m.bodyStart params [("c", .unit)] args))) :=
    undisturbed_name _ note "x" _
  have hresult := call_releases_all_but_repeated_parameters .empty (by simp [Value.toRef?]) hbody
  exact ⟨.empty, hresult.1, fun hsame => absurd (hresult.2.mp hsame) (by decide)⟩

/-- A function that names a parameter twice does not release the first of the two arguments, though its
body is a literal. -/
theorem repeated_parameter_stays_stored :
    ¬ ∀ (params : List String) (body : Expr) (captured : List (String × Value)) (args : List Value)
        (m : Machine), m.store.Reachable → (∀ b ∈ captured, b.2.toRef? = none) →
      (m.bodyStart params captured args).Undisturbed (finalState
        (body.evalWith (Eval.applyWithin Host.standard 512) (m.bodyStart params captured args))) →
      (finalState (Eval.callLambda (Eval.applyWithin Host.standard 512) params body captured args
        m)).store.liveCount = m.store.liveCount := by
  intro h
  let m : Machine := { EvalState.initial {} with scopes := .empty }
  have hcall := h ["x", "x"] (.literal ⟨.unit, 0, 1⟩ .unit) [] [.bool true, .bool false] m .empty
    (fun _ hb => nomatch hb) (undisturbed_literal _ _ _ _)
  exact absurd hcall (by decide +kernel)

end

end NumericTower
