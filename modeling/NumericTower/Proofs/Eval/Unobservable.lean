import Mathlib
import NumericTower.Proofs.Eval.Ownership
import NumericTower.Proofs.Eval.Plain
import NumericTower.Value.Display

/-!
# The store is not observable

Evaluation with a store has the results of evaluation with plain values in the scopes, errors included, as
long as no value or expression mentions a handle.

## Key results
- `Machine.plain`: a state with every bound handle replaced by the value that is stored for it
- `Machine.Owned.plain_bind`, `Machine.Owned.plain_leaveScope`, `Machine.Owned.plain_call`,
  `Machine.Owned.plain_comeBack`: the steps on plain states
- `store_is_unobservable`: every expression has the same result, and it mentions no handle
-/

namespace NumericTower

/-- The value that is stored for a handle; any other value is itself. -/
def Store.contents (s : Store Value) : Value → Value
  | .ref r => (s.get? r).getD (.ref r)
  | v => v

/-- The state with plain values in the scopes. -/
def Machine.plain (m : Machine) : Plain.State where
  types := m.types
  nextIdentity := m.nextIdentity
  options := m.options
  callDepth := m.callDepth
  scopes := m.scopes.map m.store.contents

/-- Host functions that work beside a store. -/
def Plain.Host.withStore (host : Plain.Host) : NumericTower.Host := fun name call s =>
  match host name call ⟨s.types, s.nextIdentity⟩ with
  | .ok v p => .ok v { s with types := p.types, nextIdentity := p.nextIdentity }
  | .error e p => .error e { s with types := p.types, nextIdentity := p.nextIdentity }

/-- Host functions that make no handles. -/
def Plain.Host.HandleFree (host : Plain.Host) : Prop :=
  ∀ name call s v s', host name call s = .ok v s' → Value.AllObey .handleFree call.args →
    v.Obeys .handleFree

/-- Host functions that fail with causes that may occur. -/
def Plain.Host.FailsOnly (host : Plain.Host) (May : EvalCause → Prop) : Prop :=
  ∀ name call s error s', host name call s = .error error s' → May error.cause

theorem Plain.Host.keeps_withStore {host : Plain.Host} (hhost : host.HandleFree) :
    host.withStore.Keeps .handleFree where
  ok {name call s v s'} h := by
    rw [withStore] at h
    split at h
    · next w p hw =>
      obtain ⟨rfl, rfl⟩ := EStateM.Result.ok.inj h
      exact ⟨rfl, hhost _ _ _ w p hw⟩
    · exact nomatch h
  error {name call s e s'} h := by
    rw [withStore] at h
    split at h
    · exact nomatch h
    · obtain ⟨-, rfl⟩ := EStateM.Result.error.inj h
      rfl

/-- Host functions without the store, as they are with an empty one. -/
def Host.plain (host : Host) : Plain.Host := fun name call p =>
  match host name call ⟨p.types, .empty, p.nextIdentity⟩ with
  | .ok v s => .ok v ⟨s.types, s.nextIdentity⟩
  | .error e s => .error e ⟨s.types, s.nextIdentity⟩

theorem Host.withStore_plain_pureFunction (f : String → HostCall → Except EvalError Value) :
    (Host.plain fun name => pureFunction (f name)).withStore = fun name => pureFunction (f name) := by
  funext name call s
  simp only [Plain.Host.withStore, plain, pureFunction]
  cases f name call <;> rfl

/-- The standard host does not touch the store. -/
theorem Host.withStore_plain_standard : standard.plain.withStore = standard :=
  withStore_plain_pureFunction _

theorem Host.handleFree_standard : standard.plain.HandleFree := by
  intro name call p v p' h hargs
  rw [plain] at h
  split at h
  · next w s hw =>
    obtain ⟨rfl, -⟩ := EStateM.Result.ok.inj h
    exact ((keeps_standard .handleFree).ok hw).2 hargs
  · exact nomatch h

/-- Where no handles may occur, no value is a handle. -/
theorem Value.Obeys.toRef?_eq_none {d : Discipline} (hd : ∀ r, ¬d.handles r) {v : Value}
    (h : v.Obeys d) : v.toRef? = none := by
  cases v with
  | ref r => exact absurd h (hd r)
  | _ => rfl

theorem Discipline.not_handles_handleFree (r : ValueRef) : ¬Discipline.handleFree.handles r :=
  id

namespace Store

variable {s s' : Store Value}

theorem contents_of_toRef? {v : Value} (h : v.toRef? = none) : s.contents v = v := by
  cases v with
  | ref r => exact nomatch h
  | _ => rfl

theorem contents_ref {r : ValueRef} {v : Value} (h : s.get? r = some v) :
    s.contents (.ref r) = v := by
  rw [contents, h, Option.getD_some]

/-- Stores that agree on the bound handles have the same contents for what is bound. -/
theorem map_contents_congr {scopes : Scopes Value}
    (h : ∀ r ∈ Value.handles scopes.values, s.get? r = s'.get? r) :
    scopes.map s.contents = scopes.map s'.contents := by
  refine Scopes.map_congr fun v hv => ?_
  cases v with
  | ref r => rw [contents, contents, h r (Value.mem_handles.mpr hv)]
  | _ => rfl

end Store

namespace Machine

variable {d : Discipline} {m m' : Machine}

/-! ### Steps on plain states -/

theorem Owned.resolve?_eq (hm : m.Owned d) (hd : ∀ r, ¬d.handles r) {v : Value}
    (hv : v ∈ m.scopes.values) : m.store.resolve? v = some (m.store.contents v) := by
  rw [Store.resolve?]
  cases hr : v.toRef? with
  | none => rw [Store.follow_of_toRef? hr, Store.contents_of_toRef? hr]
  | some r =>
    cases v with
    | ref r =>
      have hmem : r ∈ m.handles := Value.mem_handles.mpr hv
      -- The chain ends after one step, as what is stored is no handle itself.
      obtain ⟨w, hw⟩ := hm.live r hmem
      have hfree := (hm.stored r w (Or.inl hmem) hw).toRef?_eq_none hd
      obtain ⟨steps, hsteps⟩ := Nat.exists_eq_succ_of_ne_zero (Store.slots_pos hw).ne'
      rw [hsteps, Store.contents_ref hw, Store.follow, hw]
      exact Store.follow_of_toRef? hfree steps
    | _ => cases hr

theorem Owned.plain_bindNew (hm : m.Owned d) (name : String) (v : Value) :
    (m.bindNew name v).plain = { m.plain with scopes := (m.plain.scopes.insert name v).2 } := by
  -- The new handle stands for the new value, and every handle in scope for what it stood for.
  have hnew : (m.store.insert v).2.contents (.ref (m.store.insert v).1) = v :=
    Store.contents_ref (Store.get?_insert_self hm.store.wellFormed v)
  have hold : m.scopes.map (m.store.insert v).2.contents = m.scopes.map m.store.contents := by
    refine Store.map_contents_congr fun r hr => Store.get?_insert_of_ne hm.store.wellFormed v ?_
    rintro rfl
    exact hm.fresh v hr
  have hscopes : (m.bindNew name v).plain.scopes = (m.plain.scopes.insert name v).2 := by
    show (m.scopes.insert name _).2.map (m.store.insert v).2.contents =
      ((m.scopes.map m.store.contents).insert name v).2
    rw [← Scopes.insert_map, hnew, hold]
  rw [← hscopes]
  rfl

theorem plain_releaseAll {rs : List ValueRef} (h : ∀ r ∈ m.handles, r ∉ rs) :
    { m with store := m.store.releaseAll rs }.plain = m.plain := by
  have hscopes : m.scopes.map (m.store.releaseAll rs).contents = m.scopes.map m.store.contents := by
    refine Store.map_contents_congr fun r hr => ?_
    rw [Store.get?_releaseAll, if_neg (h r hr)]
  simp only [plain, hscopes]

theorem Owned.plain_bind (hm : m.Owned d) (name : String) (v : Value) :
    (m.bind name v).plain = { m.plain with scopes := (m.plain.scopes.insert name v).2 } := by
  rw [← hm.plain_bindNew]
  exact plain_releaseAll fun r hr hold =>
    (List.nodup_append.mp (hm.distinct_bindNew name v)).2.2 r hr r hold rfl

theorem Owned.plain_leaveScope (hm' : m'.Owned d) (h : m'.scopes.outer = m.scopes.frames) :
    (Eval.leaveScope m').plain = { m'.plain with scopes := m'.plain.scopes.leave.2 } := by
  have hdistinct := hm'.distinct
  rw [handles_of_outer h, List.nodup_append] at hdistinct
  have hscopes : m'.plain.scopes.leave.2 = m.scopes.map m'.store.contents := by
    show (m'.scopes.map m'.store.contents).leave.2 = _
    rw [Scopes.leave_map, Scopes.leave_of_outer h]
  rw [leaveScope_eq h, hscopes]
  exact plain_releaseAll (m := { m' with scopes := m.scopes }) fun r hr hin =>
    hdistinct.2.2 r hin r hr rfl

/-! ### Calls -/

variable {params : List String} {captured : List (String × Value)} {args : List Value}

theorem Owned.plain_bindAll (hm : m.Owned d) (hargs : Value.AllObey d args) :
    (m.bindAll params args).plain =
      { m.plain with
        scopes := m.plain.scopes.insertAll (params.zip args) } := by
  induction params generalizing args m with
  | nil => rfl
  | cons name params ih =>
    cases args with
    | nil => rfl
    | cons v args =>
      show ((m.bindNew name v).bindAll params args).plain = _
      rw [ih (hm.bindNew name hargs.1) hargs.2, hm.plain_bindNew name v]
      rfl

theorem Owned.plain_call (hm : m.Owned d) (hobey : Value.BindingsObey d captured)
    (hcopies : ∀ b ∈ captured, b.2.toRef? = none) (hargs : Value.AllObey d args) :
    (m.call params captured args).plain =
      { m.plain with
        callDepth := m.plain.callDepth + 1
        scopes := Plain.callScopes params captured args } := by
  -- Captured values are copies, so there is nothing to replace in them.
  have hscopes : (m.callee captured).plain.scopes = Eval.functionScopes captured := by
    have hid : ∀ v ∈ (Eval.functionScopes captured).values, m.store.contents v = id v := by
      intro v hv
      obtain ⟨b, hb, rfl⟩ := mem_values_functionScopes hv
      exact Store.contents_of_toRef? (hcopies b hb)
    show (Eval.functionScopes captured).map m.store.contents = _
    rw [Scopes.map_congr hid]
    simp [Scopes.map, Frame.mapValues, Eval.functionScopes]
  show ((m.callee captured).bindAll params args).plain = _
  rw [(hm.callee hobey hcopies).plain_bindAll hargs, hscopes, Eval.functionScopes,
    Scopes.insertAll_nested]
  rfl

theorem Owned.plain_comeBack (hm : m.Owned d) (hobey : Value.BindingsObey d captured)
    (hcopies : ∀ b ∈ captured, b.2.toRef? = none) (hargs : Value.AllObey d args)
    (h : (m.call params captured args).Evolves d m') :
    (m.comeBack m').plain =
      { m'.plain with callDepth := m.plain.callDepth, scopes := m.plain.scopes } := by
  -- What the names of the caller are bound to is still stored after the call.
  have hscopes : m.scopes.map (m.comeBack m').store.contents = m.scopes.map m.store.contents := by
    refine Store.map_contents_congr fun r hr => ?_
    obtain ⟨v, hv⟩ := hm.live r hr
    rw [hm.get?_comeBack hobey hcopies hargs h hv, hv]
  have hdepth := (framed_comeBack h.toFramed).callDepth
  have hplain : (m.comeBack m').plain =
      { m'.plain with
        callDepth := (m.comeBack m').callDepth
        scopes := m.scopes.map (m.comeBack m').store.contents } := rfl
  rw [hplain, hdepth, hscopes]
  rfl

end Machine

/-! ### Simulation -/

/-- The result with plain values is the result with a store, and an error has a cause that may occur. -/
def Agrees {α : Type} (May : EvalCause → Prop) :
    EStateM.Result EvalError Machine α → EStateM.Result EvalError Plain.State α → Prop
  | .ok v m, s => s = .ok v m.plain
  | .error e m, s => s = .error e m.plain ∧ May e.cause

/-- Changes of the two states at the end, which agree on every state that the computation may end in. -/
theorem Agrees.mapState {α : Type} {May : EvalCause → Prop} {Q : α → Prop} {m : Machine}
    {change : Machine → Machine} {change' : Plain.State → Plain.State}
    {r : EStateM.Result EvalError Machine α} {r' : EStateM.Result EvalError Plain.State α}
    (h : Agrees May r r') (hr : (Machine.owning .handleFree).Holds Q m r)
    (hchange : ∀ m', m'.Owned .handleFree → m.Evolves .handleFree m' →
      (change m').plain = change' m'.plain) :
    Agrees May (Eval.mapState change r) (Eval.mapState change' r') := by
  cases r with
  | ok v m' =>
    rw [show r' = .ok v m'.plain from h]
    show EStateM.Result.ok v (change' m'.plain) = .ok v (change m').plain
    rw [hchange m' hr.1 hr.2.1]
  | error e m' =>
    rw [h.1]
    refine ⟨?_, h.2⟩
    show EStateM.Result.error e (change' m'.plain) = .error e (change m').plain
    rw [hchange m' hr.1 hr.2]

/-- A computation with a store has the results of a computation with plain values. -/
def Simulates {α : Type} (May : EvalCause → Prop) (x : EvalM α) (y : Plain.PlainM α) : Prop :=
  ∀ m, m.Owned .handleFree → Agrees May (x m) (y m.plain)

namespace Simulates

variable {α β : Type} {May : EvalCause → Prop}

theorem pure (v : α) : Simulates May (Pure.pure v) (Pure.pure v) :=
  fun _ _ => rfl

theorem fail {cause : EvalCause} (h : May cause) (span : Span) :
    Simulates (α := α) May (Eval.fail cause span) (Plain.fail cause span) :=
  fun _ _ => ⟨rfl, h⟩

theorem seq {Q : α → Prop} {x : EvalM α} {y : Plain.PlainM α} {f : α → EvalM β}
    {g : α → Plain.PlainM β} (hx : (Machine.owning .handleFree).Ensures Q x)
    (hxy : Simulates May x y) (hfg : ∀ v, Q v → Simulates May (f v) (g v)) :
    Simulates May (x >>= f) (y >>= g) := by
  intro m hm
  have hgood := hx m hm
  have hrun := hxy m hm
  rw [Eval.bind_run, Eval.bind_run]
  cases hr : x m with
  | ok v m' =>
    rw [hr] at hgood hrun
    rw [show y m.plain = .ok v m'.plain from hrun]
    exact hfg v hgood.2.2 m' hgood.1
  | error e m' =>
    rw [hr] at hrun
    rw [hrun.1]
    exact ⟨rfl, hrun.2⟩

end Simulates

/-! ### The operations of the evaluator -/

section

open Machine (owning)

variable {May : EvalCause → Prop} (hmay : ∀ cause, cause ≠ .danglingReference → May cause)

theorem simulates_describe (v : Value) : Simulates May (Eval.describe v) (Plain.describe v) :=
  fun _ _ => rfl

theorem simulates_bind (name : String) (v : Value) :
    Simulates May (Eval.bind name v) (Plain.bind name v) := by
  intro m hm
  rw [Eval.bind_eq]
  show Plain.bind name v m.plain = .ok () (m.bind name v).plain
  rw [hm.plain_bind name v]
  rfl

theorem resolved?_eq {s : Store Value} {frame : Frame Value}
    (h : ∀ v ∈ frame.values, s.resolve? v = some (s.contents v)) :
    Eval.resolved? s frame = some (frame.mapValues s.contents) := by
  induction frame with
  | nil => rfl
  | cons b frame ih =>
    obtain ⟨name, v⟩ := b
    have hv := h v List.mem_cons_self
    have hrest := ih fun w hw => h w (List.mem_cons_of_mem v hw)
    simp only [Eval.resolved?, hv, hrest]
    rfl

theorem simulates_closeOver (note : Annotation) (params : List String) (body : Expr) :
    Simulates May (Eval.closeOver note params body) (Plain.closeOver note params body) := by
  intro m hm
  have hcaptured : Eval.resolved? m.store m.scopes.visible =
      some (m.scopes.visible.mapValues m.store.contents) := by
    refine resolved?_eq fun v hv => hm.resolve?_eq Discipline.not_handles_handleFree ?_
    obtain ⟨b, hb, rfl⟩ := List.mem_map.mp hv
    exact Scopes.mem_values_of_visible hb
  show Agrees May ((Eval.resolveFrame note.span m.scopes.visible >>= fun captured =>
    Eval.freshIdentity >>= fun identity =>
      Pure.pure (Value.function (.lambda identity note.type params body captured))) m) _
  rw [Eval.bind_run, Eval.resolveFrame_eq, hcaptured, ← Scopes.visible_map]
  rfl

include hmay

theorem simulates_lookup (note : Annotation) (name : String) :
    Simulates May (Eval.lookup note name) (Plain.lookup note name) := by
  intro m hm
  have hfind : m.plain.scopes.find? name = (m.scopes.find? name).map m.store.contents :=
    Scopes.find?_map _ _ name
  rw [Eval.lookup, Plain.lookup, Eval.get_run, Eval.get_run, hfind]
  cases hv : m.scopes.find? name with
  | none => exact ⟨rfl, hmay _ (by simp)⟩
  | some v =>
    simp only [Eval.resolve_eq, hm.resolve?_eq Discipline.not_handles_handleFree (Scopes.mem_values_of_find? hv)]
    rfl

theorem simulates_unary (note : Annotation) (op : UnaryOp) {v : Value}
    (hdescribe : (owning .handleFree).Ensures (fun _ => True) (Eval.describe v)) :
    Simulates May (Eval.unary note op v) (Plain.unary note op v) := by
  rw [Eval.unary, Plain.unary]
  cases v.unaryOp op with
  | ok w => exact .pure w
  | error e =>
    cases e with
    | divisionByZero => exact .fail (hmay _ (by simp)) _
    | tooLarge => exact .fail (hmay _ (by simp)) _
    | exponentOverflow => exact .fail (hmay _ (by simp)) _
    | undefined =>
      exact .seq hdescribe (simulates_describe v) fun _ _ => .fail (hmay _ (by simp)) _

theorem simulates_binary (note : Annotation) (op : BinaryOp) {l r : Value}
    (hl : (owning .handleFree).Ensures (fun _ => True) (Eval.describe l))
    (hr : (owning .handleFree).Ensures (fun _ => True) (Eval.describe r)) :
    Simulates May (Eval.binary note op l r) (Plain.binary note op l r) := by
  intro m hm
  have hprecision : m.plain.options = m.options := rfl
  rw [Eval.binary, Plain.binary, Eval.get_run, Eval.get_run, hprecision]
  cases l.binaryOp op r m.options.realPrecision with
  | ok w => exact rfl
  | error e =>
    cases e with
    | divisionByZero => exact ⟨rfl, hmay _ (by simp)⟩
    | tooLarge => exact ⟨rfl, hmay _ (by simp)⟩
    | exponentOverflow => exact ⟨rfl, hmay _ (by simp)⟩
    | undefined =>
      -- The message names both types, the left one first.
      have herror : Simulates (α := Value) May
          (Eval.describe l >>= fun left => Eval.describe r >>= fun right =>
            Eval.fail (.undefinedBinary op left right) note.span)
          (Plain.describe l >>= fun left => Plain.describe r >>= fun right =>
            Plain.fail (.undefinedBinary op left right) note.span) :=
        .seq hl (simulates_describe l) fun _ _ =>
          .seq hr (simulates_describe r) fun _ _ => .fail (hmay _ (by simp)) _
      exact herror m hm

theorem simulates_member (note : Annotation) (c : Module) (name : String) :
    Simulates May (Eval.member note c name) (Plain.member note c name) := by
  rw [Eval.member, Plain.member]
  cases c.access? name with
  | some v => exact .pure v
  | none => exact .fail (hmay _ (by simp)) _

end

/-! ### Expressions -/

section

open Machine (owning)

variable {May : EvalCause → Prop}

theorem Plain.inScope_eq {α : Type} (x : Plain.PlainM α) (s : Plain.State) :
    Plain.inScope x s =
      Eval.mapState (fun s' => { s' with scopes := s'.scopes.leave.2 })
        (x { s with scopes := s.scopes.enter }) := by
  rw [Plain.inScope]
  cases x _ <;> rfl

theorem simulates_inScope {x : EvalM Value} {y : Plain.PlainM Value} {Q : Value → Prop}
    (hx : (owning .handleFree).Ensures Q x) (hxy : Simulates May x y) :
    Simulates May (Eval.inScope x) (Plain.inScope y) := by
  intro m hm
  have henter := hm.enter
  have hgood := hx m.enter henter
  have hrun := hxy m.enter henter
  have hplain : m.enter.plain = { m.plain with scopes := m.plain.scopes.enter } := rfl
  rw [hplain] at hrun
  rw [Eval.inScope_eq, Plain.inScope_eq]
  -- What the scope bound is released, and no name of the scopes around it was bound to that.
  exact hrun.mapState hgood fun _ hm' hmove => hm'.plain_leaveScope hmove.outer

/-- How functions are applied with a store simulates how they are applied without one. -/
structure SimulatesCalls (May : EvalCause → Prop) (apply : Apply) (apply' : Plain.Apply) : Prop where
  may : ∀ cause, cause ≠ .danglingReference → May cause
  closed : (owning .handleFree).Closed .handleFree True apply
  calls : ∀ {f args} span, f.Obeys .handleFree → Value.AllObey .handleFree args →
    Simulates May (apply span f args) (apply' span f args)

variable {apply : Apply} {apply' : Plain.Apply}

mutual

theorem simulates_evalWith (h : SimulatesCalls May apply apply') :
    ∀ {e : Expr}, e.Obeys .handleFree → Simulates May (e.evalWith apply) (Plain.evalWith apply' e)
  | .literal _ v, _ => .pure v
  | .name note n, _ => simulates_lookup h.may note n
  | .unary note op operand, he => by
    rw [Expr.evalWith, Plain.evalWith]
    refine .seq (h.closed.evalWith he (Or.inl trivial)) (simulates_evalWith h he) fun v hv => ?_
    exact simulates_unary h.may note op (h.closed.describe hv)
  | .binary note op lhs rhs, he => by
    rw [Expr.evalWith, Plain.evalWith]
    refine .seq (h.closed.evalWith he.1 (Or.inl trivial)) (simulates_evalWith h he.1) fun l hl => ?_
    refine .seq (h.closed.evalWith he.2 (Or.inl trivial)) (simulates_evalWith h he.2) fun r hr => ?_
    exact simulates_binary h.may note op (h.closed.describe hl) (h.closed.describe hr)
  | .define note name value, he => by
    rw [Expr.evalWith, Plain.evalWith]
    refine .seq (h.closed.evalWith he (Or.inl trivial)) (simulates_evalWith h he) fun v hv => ?_
    exact .seq (h.closed.define trivial hv) (simulates_bind name v) fun _ _ => .pure v
  | .product note items, he => by
    rw [Expr.evalWith, Plain.evalWith]
    exact .seq (h.closed.evalAllWith he (Or.inl trivial)) (simulates_evalAllWith h he) fun vs _ =>
      .pure _
  | .lambda note params body, _ => simulates_closeOver note params body
  | .call note callee args, he => by
    rw [Expr.evalWith, Plain.evalWith]
    refine .seq (h.closed.evalWith he.1 (Or.inl trivial)) (simulates_evalWith h he.1)
      fun target htarget => ?_
    cases target with
    | function f =>
      have hargs := h.closed.evalAllWith he.2 (Or.inl trivial)
      have hsim := simulates_evalAllWith h he.2
      simp only
      split
      -- another number of arguments: both fail before they evaluate any
      · exact .seq (Q := fun _ => False) (h.closed.fail _ _) (.fail (h.may _ (by simp)) _)
          fun _ hfalse => hfalse.elim
      · refine .seq hargs hsim fun vs hvs m hm => ?_
        exact h.calls note.span htarget (Value.obeys_convertArguments hvs) m hm
    | _ =>
      exact .seq (h.closed.describe htarget) (simulates_describe _) fun _ _ => .fail (h.may _ (by simp)) _
  | .access note container name, he => by
    rw [Expr.evalWith, Plain.evalWith]
    refine .seq (h.closed.evalWith he (Or.inl trivial)) (simulates_evalWith h he)
      fun target htarget => ?_
    cases target with
    | module c => exact simulates_member h.may note c name
    | _ =>
      exact .seq (h.closed.describe htarget) (simulates_describe _) fun _ _ => .fail (h.may _ (by simp)) _
  | .block note items, he => by
    rw [Expr.evalWith, Plain.evalWith]
    have hunit : Value.unit.Obeys .handleFree := trivial
    exact simulates_inScope (h.closed.evalLastWith trivial he hunit) (simulates_evalLastWith h he hunit)

theorem simulates_evalAllWith (h : SimulatesCalls May apply apply') :
    ∀ {es : List Expr}, Expr.AllObey .handleFree es →
      Simulates May (Expr.evalAllWith apply es) (Plain.evalAllWith apply' es)
  | [], _ => .pure []
  | e :: es, he => by
    rw [Expr.evalAllWith, Plain.evalAllWith]
    refine .seq (h.closed.evalWith he.1 (Or.inl trivial)) (simulates_evalWith h he.1) fun v hv => ?_
    exact .seq (h.closed.evalAllWith he.2 (Or.inl trivial)) (simulates_evalAllWith h he.2)
      fun vs _ => .pure _

theorem simulates_evalLastWith (h : SimulatesCalls May apply apply') :
    ∀ {es : List Expr} {last : Value}, Expr.AllObey .handleFree es → last.Obeys .handleFree →
      Simulates May (Expr.evalLastWith apply last es) (Plain.evalLastWith apply' last es)
  | [], last, _, _ => .pure last
  | e :: es, _, he, _ => by
    rw [Expr.evalLastWith, Plain.evalLastWith]
    exact .seq (h.closed.evalWith he.1 (Or.inl trivial)) (simulates_evalWith h he.1) fun v hv =>
      simulates_evalLastWith h he.2 hv

end

end

/-! ### Functions -/

section

variable {May : EvalCause → Prop} {host : Plain.Host}

theorem sound_withStore (hhost : host.HandleFree) :
    (Machine.owning .handleFree).Sound .handleFree host.withStore :=
  Machine.sound_owning (fun _ => Iff.rfl) (Plain.Host.keeps_withStore hhost)

theorem simulates_callHost (hfail : host.FailsOnly May) (name : String) (args : List Value)
    (span : Span) : Simulates May (Eval.asCall (Eval.callHost host.withStore name args span))
      (Plain.callHost host name args span) := by
  intro m hm
  rw [Eval.callHost_eq, Plain.callHost, Plain.Host.withStore]
  show Agrees May (Eval.mapState _ (match host name ⟨args, span, m.callDepth + 1⟩
    ⟨m.types, m.nextIdentity⟩ with
      | .ok v p => _
      | .error e p => _))
    (match host name ⟨args, span, m.callDepth + 1⟩ ⟨m.types, m.nextIdentity⟩ with
      | .ok v p => _
      | .error e p => _)
  cases hr : host name ⟨args, span, m.callDepth + 1⟩ ⟨m.types, m.nextIdentity⟩ with
  | ok v p => rfl
  | error e p => exact ⟨rfl, hfail _ _ _ e p hr⟩

theorem Plain.callLambda_eq (apply : Plain.Apply) (params : List String) (body : Expr)
    (captured : List (String × Value)) (args : List Value) (s : Plain.State) :
    Plain.callLambda apply params body captured args s =
      Eval.mapState (fun s' => { s' with callDepth := s.callDepth, scopes := s.scopes })
        (Plain.evalWith apply body
          { s with
            callDepth := s.callDepth + 1
            scopes := Plain.callScopes params captured args }) := by
  rw [Plain.callLambda]
  cases Plain.evalWith apply body _ <;> rfl

theorem simulates_callLambda {apply : Apply} {apply' : Plain.Apply}
    (h : SimulatesCalls May apply apply') {identity : Nat} {type : TypeId} {params : List String}
    {body : Expr} {captured : List (String × Value)} {args : List Value}
    (hf : (Function.lambda identity type params body captured).Obeys .handleFree)
    (hargs : Value.AllObey .handleFree args) :
    Simulates May (Eval.asCall (Eval.callLambda apply params body captured args))
      (Plain.callLambda apply' params body captured args) := by
  intro m hm
  have hcall : (m.call params captured args).Owned .handleFree :=
    hm.call hf.2.2.1 hf.2.2.2 hargs
  have hgood := h.closed.evalWith hf.2.1 (Or.inl trivial) _ hcall
  have hrun := simulates_evalWith h hf.2.1 _ hcall
  rw [Eval.callLambda_eq, Plain.callLambda_eq, ← hm.plain_call hf.2.2.1 hf.2.2.2 hargs]
  exact hrun.mapState hgood fun _ _ hmove => hm.plain_comeBack hf.2.2.1 hf.2.2.2 hargs hmove

theorem simulatesCalls_applyWithin (hhost : host.HandleFree)
    (hmay : ∀ cause, cause ≠ .danglingReference → May cause) (hfail : host.FailsOnly May)
    (callsLeft : Nat) :
    SimulatesCalls May (Eval.applyWithin host.withStore callsLeft)
      (Plain.applyWithin host callsLeft) := by
  induction callsLeft with
  | zero =>
    have hg := sound_withStore hhost
    exact ⟨hmay, hg.closed (hg.applyWithin 0), fun span _ _ m _ => ⟨rfl, hmay _ (by simp)⟩⟩
  | succ callsLeft ih =>
    have hg := sound_withStore hhost
    refine ⟨hmay, hg.closed (hg.applyWithin (callsLeft + 1)), ?_⟩
    intro f args span hf hargs
    cases f with
    | native identity type arity name => exact simulates_callHost hfail name args span
    | lambda identity type params body captured => exact simulates_callLambda ih hf hargs

theorem simulates_eval (hhost : host.HandleFree)
    (hmay : ∀ cause, cause ≠ .danglingReference → May cause) (hfail : host.FailsOnly May)
    {e : Expr} (he : e.Obeys .handleFree) : Simulates May (e.eval host.withStore) (Plain.eval host e) :=
  fun m hm => simulates_evalWith (simulatesCalls_applyWithin hhost hmay hfail _) he m hm

end

/-- The results of evaluation with a store are those of evaluation with plain values, and so are the
errors. No value mentions a handle, and no handle is found dangling unless the host says so. -/
theorem store_is_unobservable (host : Plain.Host) (hhost : host.HandleFree) (e : Expr) (m : Machine)
    (he : e.Obeys .handleFree) (hm : m.Owned .handleFree) :
    Eval.mapState Machine.plain (e.eval host.withStore m) = Plain.eval host e m.plain ∧
    (∀ v m', e.eval host.withStore m = .ok v m' → v.Obeys .handleFree) ∧
    (host.FailsOnly (· ≠ .danglingReference) →
      ∀ error m', e.eval host.withStore m = .error error m' → error.cause ≠ .danglingReference) := by
  refine ⟨?_, ?_, ?_⟩
  -- the same results
  · have hsim : Agrees (fun _ => True) (e.eval host.withStore m) (Plain.eval host e m.plain) :=
      simulates_eval hhost (fun _ _ => trivial) (fun _ _ _ _ _ _ => trivial) he m hm
    cases hr : e.eval host.withStore m with
    | ok v m' =>
      rw [hr] at hsim
      exact hsim.symm
    | error error m' =>
      rw [hr] at hsim
      exact hsim.1.symm
  -- no handle in a value
  · intro v m' hr
    have hgood := (sound_withStore hhost).eval he m hm
    rw [hr] at hgood
    exact hgood.2.2
  -- no handle found dangling: the causes that may occur are all others
  · intro hfail error m' hr
    have hsim : Agrees (· ≠ .danglingReference) (e.eval host.withStore m)
        (Plain.eval host e m.plain) := simulates_eval hhost (fun _ h => h) hfail he m hm
    rw [hr] at hsim
    exact hsim.2

/-- A closure keeps the value of a name that is bound anew afterwards. -/
theorem store_is_unobservable_closure :
    let note : Annotation := ⟨.unit, 0, 1⟩
    let m : Machine := { EvalState.initial {} with scopes := .empty }
    let e : Expr := .block note [
      .define note "f" (.lambda note ["y"] (.product note [.name note "x", .name note "y"])),
      .define note "x" (.literal note (.bool false)),
      .call note (.name note "f") [.name note "x"]]
    Host.standard.plain.HandleFree ∧ e.Obeys .handleFree ∧
      (m.bind "x" (.bool true)).Owned .handleFree ∧
      Eval.mapState Machine.plain (e.eval Host.standard (m.bind "x" (.bool true))) =
        Plain.eval Host.standard.plain e (m.bind "x" (.bool true)).plain := by
  intro note m e
  have he : e.Obeys .handleFree :=
    ⟨⟨trivial, trivial, trivial, trivial⟩, trivial, ⟨trivial, trivial, trivial⟩, trivial⟩
  have hm : (m.bind "x" (.bool true)).Owned .handleFree :=
    (Machine.owned_initial _ {}).bind "x" trivial
  have hresult := (store_is_unobservable _ Host.handleFree_standard e _ he hm).1
  rw [Host.withStore_plain_standard] at hresult
  exact ⟨Host.handleFree_standard, he, hm, hresult⟩

example :
    let note : Annotation := ⟨.unit, 0, 1⟩
    let e : Expr := .block note [
      .define note "x" (.literal note (.bool true)),
      .define note "f" (.lambda note ["y"] (.product note [.name note "x", .name note "y"])),
      .define note "x" (.literal note (.bool false)),
      .call note (.name note "f") [.name note "x"]]
    (match e.eval Host.standard { EvalState.initial {} with scopes := .empty } with
      | .ok v _ => v.render
      | .error e _ => e.cause.message) = "(true, false)" := by
  cbv

end NumericTower
