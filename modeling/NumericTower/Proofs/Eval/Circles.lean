import Mathlib
import NumericTower.Proofs.Eval.Begins
import NumericTower.Proofs.Eval.Ownership

/-!
# No new circles

A circle of handles consists of stored handles. Evaluation stores only handles that the expression, the values that
are bound or stored at the start and the host bring along. If these find values that evaluation does not release and
their chains end, then no chain runs into a circle in any later state either.

## Key results
- `Machine.Anchors`: the handles that evaluation leaves alone, with chains that end
- `Machine.Settles.not_runsInCircle`: where only they are stored there are no circles
- `Machine.sound_settling`: every step of evaluation keeps the anchored handles, and stores no others
- `Expr.Anchored.not_runsInCircle`: no chain runs into a circle wherever an evaluation begins
-/

namespace NumericTower

open Relation

/-- A handle that evaluation from a state leaves alone, and whose chain ends: it finds a value, and no name of the
innermost scope, which alone can be bound anew, is bound to it. -/
structure Machine.Anchors (start : Machine) (r : ValueRef) : Prop where
  live : (start.store.get? r).isSome
  unbound : r ∉ Value.handles start.scopes.innermost.values
  ends : ¬start.store.RunsInCircle r

/-- Anchored handles only, and copies instead of handles in what functions captured. -/
def Discipline.anchored (start : Machine) : Discipline :=
  ⟨start.Anchors, fun _ => True, fun v => v.toRef? = none⟩

namespace Machine

/-- A store in which the anchored handles find what they found at the start, and no other handles are stored. -/
structure Settles (start : Machine) (s : Store Value) : Prop where
  reachable : s.Reachable
  stored : ∀ r v, s.get? r = some v → v.Obeys (.anchored start)
  kept : ∀ r, start.Anchors r → s.get? r = start.store.get? r

/-- A later state of an evaluation: besides, no name of the innermost scope is bound to an anchored handle. -/
structure Settled (start m : Machine) : Prop where
  store : start.Settles m.store
  bound : ∀ v ∈ m.scopes.values, v.toRef? = none → v.Obeys (.anchored start)
  innermost : ∀ r ∈ Value.handles m.scopes.innermost.values, ¬start.Anchors r

end Machine

/-- A host whose functions release no anchored handles, and neither store nor return others if they get none. -/
def Host.KeepsAnchored (host : Host) (start : Machine) : Prop :=
  ∀ name call s, start.Settles s.store → Value.AllObey (.anchored start) call.args →
    match host name call s with
    | .ok v s' => start.Settles s'.store ∧ v.Obeys (.anchored start)
    | .error _ s' => start.Settles s'.store

theorem Host.Keeps.keepsAnchored {host : Host} {start : Machine} (h : host.Keeps (.anchored start)) :
    host.KeepsAnchored start := by
  intro name call s hs hargs
  cases hr : host name call s with
  | ok v s' =>
    obtain ⟨hstore, hv⟩ := h.ok hr
    exact ⟨hstore ▸ hs, hv hargs⟩
  | error e s' =>
    show start.Settles s'.store
    rw [h.error hr]
    exact hs

/-- All handles in an expression and in the values that are bound or stored are anchored, and the host keeps them.
Names may be bound to any handles. -/
structure Expr.Anchored (host : Host) (e : Expr) (m : Machine) : Prop where
  reachable : m.store.Reachable
  stored : ∀ r v, m.store.get? r = some v → v.Obeys (.anchored m)
  bound : ∀ v ∈ m.scopes.values, v.toRef? = none → v.Obeys (.anchored m)
  expr : e.Obeys (.anchored m)
  host : host.KeepsAnchored m

namespace Machine

variable {start m m' : Machine} {s : Store Value} {r c : ValueRef} {v w : Value}

theorem Anchors.exists_get? (h : start.Anchors r) : ∃ v, start.store.get? r = some v :=
  Option.isSome_iff_exists.mp h.live

/-! ### Stores -/

namespace Settles

/-- A new handle is not anchored: it found nothing before. -/
theorem not_anchors_insert (h : start.Settles s) (v : Value) : ¬start.Anchors (s.insert v).1 := by
  intro hnew
  obtain ⟨w, hw⟩ := hnew.exists_get?
  rw [← h.kept _ hnew, Store.get?_insert_fresh h.reachable.wellFormed v] at hw
  exact nomatch hw

theorem insert (h : start.Settles s) (hv : v.Obeys (.anchored start)) : start.Settles (s.insert v).2 where
  reachable := h.reachable.insert v
  stored := by
    intro r w hw
    rw [Store.get?_insert h.reachable.wellFormed] at hw
    split at hw
    · obtain rfl := Option.some.inj hw
      exact hv
    · exact h.stored r w hw
  kept := by
    intro r hr
    have hne : r ≠ (s.insert v).1 := fun heq => h.not_anchors_insert v (heq ▸ hr)
    rw [Store.get?_insert_of_ne h.reachable.wellFormed v hne]
    exact h.kept r hr

theorem releaseAll (h : start.Settles s) {rs : List ValueRef} (hrs : ∀ r ∈ rs, ¬start.Anchors r) :
    start.Settles (s.releaseAll rs) where
  reachable := h.reachable.releaseAll rs
  stored := by
    intro r w hw
    rw [Store.get?_releaseAll] at hw
    split at hw
    · exact nomatch hw
    · exact h.stored r w hw
  kept := by
    intro r hr
    rw [Store.get?_releaseAll, if_neg fun hmem => hrs r hmem hr]
    exact h.kept r hr

/-- A chain goes on from one anchored handle to the next, as it did at the start. -/
theorem transGen_pointsTo (h : start.Settles s) (hr : start.Anchors r) (hrc : TransGen s.PointsTo r c) :
    TransGen start.store.PointsTo r c ∧ start.Anchors c := by
  have hnext : ∀ {b c}, start.Anchors b → s.PointsTo b c → start.store.PointsTo b c ∧ start.Anchors c :=
    fun {b c} hb hbc => ⟨(h.kept b hb).symm.trans hbc, h.stored b (.ref c) hbc⟩
  induction hrc with
  | single hrb =>
    obtain ⟨hlink, hb⟩ := hnext hr hrb
    exact ⟨.single hlink, hb⟩
  | tail _ hbc ih =>
    obtain ⟨hpath, hb⟩ := ih
    obtain ⟨hlink, hc⟩ := hnext hb hbc
    exact ⟨hpath.tail hlink, hc⟩

/-- Every handle of a circle is stored, so a circle would have been there at the start. -/
theorem not_runsInCircle (h : start.Settles s) (r : ValueRef) : ¬s.RunsInCircle r := by
  rintro ⟨c, -, hcc⟩
  obtain ⟨b, -, hbc⟩ := TransGen.tail'_iff.mp hcc
  have hc : start.Anchors c := h.stored b (.ref c) hbc
  exact hc.ends ⟨c, .refl, (h.transGen_pointsTo hc hcc).1⟩

end Settles

/-! ### Steps -/

namespace Settled

theorem of_eq (hm : start.Settled m) (hstore : start.Settles m'.store) (hscopes : m'.scopes = m.scopes) :
    start.Settled m' :=
  ⟨hstore, hscopes ▸ hm.bound, hscopes ▸ hm.innermost⟩

theorem bindNew (hm : start.Settled m) (name : String) (hv : v.Obeys (.anchored start)) :
    start.Settled (m.bindNew name v) where
  store := hm.store.insert hv
  bound w hw href := hm.bound w (mem_values_of_bindNew hw href) href
  innermost := by
    intro r hr
    have hmem : .ref r ∈ ((m.scopes.insert name (.ref (m.store.insert v).1)).2).innermost.values :=
      Value.mem_handles.mp hr
    rw [Scopes.innermost_insert] at hmem
    rcases Frame.mem_values_insert hmem with hnew | hold
    · cases hnew
      exact hm.store.not_anchors_insert v
    · exact hm.innermost r (Value.mem_handles.mpr hold)

theorem bind (hm : start.Settled m) (name : String) (hv : v.Obeys (.anchored start)) :
    start.Settled (m.bind name v) := by
  have hnew := hm.bindNew name hv
  refine hnew.of_eq (hnew.store.releaseAll fun r hr => ?_) rfl
  -- What is released was bound in the innermost scope.
  rw [Value.mem_handles, Option.mem_toList] at hr
  exact hm.innermost r (Value.mem_handles.mpr (Frame.mem_values_of_find? hr))

theorem bindAll (hm : start.Settled m) (params : List String) {args : List Value}
    (hargs : Value.AllObey (.anchored start) args) : start.Settled (m.bindAll params args) := by
  induction params generalizing args m with
  | nil => exact hm
  | cons name params ih =>
    cases args with
    | nil => exact hm
    | cons v args => exact ih (hm.bindNew name hargs.1) hargs.2

theorem enter (hm : start.Settled m) : start.Settled m.enter :=
  ⟨hm.store, hm.bound, fun _ hr => nomatch hr⟩

theorem leaveScope (hm : start.Settled m) (hm' : start.Settled m') (h : m.enter.Framed m') :
    start.Settled (Eval.leaveScope m') := by
  rw [leaveScope_eq h.outer]
  exact hm.of_eq (hm'.store.releaseAll hm'.innermost) rfl

variable {params : List String} {captured : List (String × Value)} {args : List Value}

theorem callee (hm : start.Settled m) (hcaptured : Value.BindingsObey (.anchored start) captured) :
    start.Settled (m.callee captured) where
  store := hm.store
  bound := by
    intro v hv _
    obtain ⟨b, hb, rfl⟩ := mem_values_functionScopes hv
    exact Value.bindingsObey_iff.mp hcaptured b hb
  innermost := fun _ hr => nomatch hr

theorem comeBack (hm : start.Settled m) (hcopies : ∀ b ∈ captured, b.2.toRef? = none) (hm' : start.Settled m')
    (h : (m.call params captured args).Framed m') : start.Settled (m.comeBack m') := by
  refine hm.of_eq ?_ rfl
  rw [comeBack_store h]
  refine hm'.store.releaseAll fun r hr => ?_
  -- What a function captured are copies, so all handles that are released were bound in its innermost scope.
  have houter : Value.handles (m'.scopes.outer.flatMap Frame.values) = [] := by
    rw [((framed_bindAll (m.callee captured) params args).trans h).outer]
    have hnone := handles_functionScopes hcopies
    rw [Scopes.values_eq, Value.handles, List.filterMap_append, List.append_eq_nil_iff] at hnone
    exact hnone.2
  rw [handles_eq, houter, List.append_nil] at hr
  exact hm'.innermost r hr

theorem obeys_resolve? (hm : start.Settled m) (hv : v ∈ m.scopes.values) (hw : m.store.resolve? v = some w) :
    w.Obeys (.anchored start) ∧ w.toRef? = none :=
  Store.obeys_resolve? (fun r u _ => hm.store.stored r u) (hm.bound v hv) (fun r u _ => hm.store.stored r u) hw

end Settled

/-- What an evaluation guarantees about the anchored handles. -/
def settling (start : Machine) : Guarantee :=
  ⟨fun m => start.Settled m, Framed⟩

theorem sound_settling {host : Host} (hhost : host.KeepsAnchored start) :
    (settling start).Sound (.anchored start) host where
  refl _ := .refl _
  trans h h' := h.trans h'
  resolve hm hv hw := hm.obeys_resolve? hv hw
  types hm _ := ⟨hm.of_eq hm.store rfl, rfl, rfl, rfl⟩
  identity hm := ⟨hm.of_eq hm.store rfl, rfl, rfl, rfl⟩
  bind hm hv := ⟨hm.bind _ hv, framed_bind _ _ _⟩
  enter hm := hm.enter
  leave hm hm' h := ⟨hm.leaveScope hm' h, framed_leaveScope h⟩
  call hm hf hargs := (hm.callee hf.2.2.1).bindAll _ hargs
  comeBack hm hf _ hm' h := ⟨hm.comeBack hf.2.2.2 hm' h, framed_comeBack h⟩
  host := by
    intro m name args span hm hargs
    have hmemory := hhost name ⟨args, span, m.callDepth + 1⟩ m.toMemory hm.store hargs
    cases hr : host name ⟨args, span, m.callDepth + 1⟩ m.toMemory with
    | ok v memory =>
      rw [hr] at hmemory
      exact ⟨hm.of_eq hmemory.1 rfl, ⟨rfl, rfl, rfl⟩, hmemory.2⟩
    | error e memory =>
      rw [hr] at hmemory
      exact ⟨hm.of_eq hmemory rfl, rfl, rfl, rfl⟩

end Machine

namespace Expr.Anchored

variable {host : Host} {e e' : Expr} {m m' : Machine} {k : Nat}

theorem settled (h : e.Anchored host m) : m.Settled m :=
  ⟨⟨h.reachable, h.stored, fun _ _ => rfl⟩, h.bound, fun _ hr hanchored => hanchored.unbound hr⟩

/-- Wherever something begins inside the evaluation, no chain runs into a circle. -/
theorem not_runsInCircle (h : e.Anchored host m) (hbegins : Begins host e m k (.expr e') m') (r : ValueRef) :
    ¬m'.store.RunsInCircle r :=
  ((Machine.sound_settling h.host).begins h.settled h.expr hbegins).1.store.not_runsInCircle r

end Expr.Anchored

end NumericTower
