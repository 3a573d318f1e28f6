import Mathlib
import NumericTower.Proofs.Eval.Framing

/-!
# Ownership of stored values

Every handle that a name is bound to finds a value, and no two names share one. Evaluation keeps this, and
it keeps every stored value that no name of the present scopes is bound to: of the values stored before, it
releases only those of names in the innermost scope that are bound anew.

## Key results
- `Machine.Owned`: the invariant
- `Machine.Evolves`: what an evaluation keeps, the balance of stored and bound values included
- `Machine.sound_owning`: every step of evaluation keeps both
-/

namespace NumericTower

/-- A host whose functions leave the store alone and whose results obey a discipline if the arguments
do. -/
structure Host.Keeps (host : Host) (d : Discipline) : Prop where
  ok : ∀ {name call s v s'}, host name call s = .ok v s' →
    s'.store = s.store ∧ (Value.AllObey d call.args → v.Obeys d)
  error : ∀ {name call s e s'}, host name call s = .error e s' → s'.store = s.store

theorem Host.keeps_pureFunction {d : Discipline} {f : String → HostCall → Except EvalError Value}
    (hf : ∀ name call v, f name call = .ok v → Value.AllObey d call.args → v.Obeys d) :
    Host.Keeps (fun name => pureFunction (f name)) d where
  ok {name call s v s'} h := by
    rw [pureFunction] at h
    split at h
    · next w hw =>
      obtain ⟨rfl, rfl⟩ := EStateM.Result.ok.inj h
      exact ⟨rfl, hf name call w hw⟩
    · exact nomatch h
  error {name call s e s'} h := by
    rw [pureFunction] at h
    split at h
    · exact nomatch h
    · obtain ⟨-, rfl⟩ := EStateM.Result.error.inj h
      rfl

theorem Host.keeps_standard (d : Discipline) : Host.standard.Keeps d := by
  refine keeps_pureFunction fun name call v h hargs => ?_
  split at h
  · obtain rfl := Except.ok.inj h
    exact Value.obeys_tuple hargs
  · obtain rfl := Except.ok.inj h
    cases hc : call.args with
    | nil => trivial
    | cons w ws =>
      rw [hc] at hargs
      exact hargs.1
  · obtain rfl := Except.ok.inj h
    trivial
  · exact nomatch h
  · obtain rfl := Except.ok.inj h
    trivial
  · obtain rfl := Except.ok.inj h
    trivial

namespace Machine

variable {d : Discipline} {m m' : Machine}

/-- Every handle in a scope is the only one to its value, and all that is bound obeys the discipline. -/
structure Owned (d : Discipline) (m : Machine) : Prop where
  store : m.store.Reachable
  distinct : m.handles.Nodup
  live : ∀ r ∈ m.handles, ∃ v, m.store.get? r = some v
  bound : ∀ v ∈ m.scopes.values, v.toRef? = none → v.Obeys d
  stored : ∀ r v, r ∈ m.handles ∨ d.handles r → m.store.get? r = some v → v.Obeys d

theorem Owned.isSome_get? (hm : m.Owned d) {r : ValueRef} (hr : r ∈ m.handles) :
    (m.store.get? r).isSome := by
  obtain ⟨v, hv⟩ := hm.live r hr
  rw [hv]
  rfl

/-- Stored values that no name was bound to stay as they are, and no name is bound to them. -/
def Kept (m m' : Machine) : Prop :=
  ∀ r v, m.store.get? r = some v → r ∉ m.handles → m'.store.get? r = some v ∧ r ∉ m'.handles

/-- As many values were stored as names were bound to handles. -/
def Balanced (m m' : Machine) : Prop :=
  m'.store.liveCount + m.handles.length = m.store.liveCount + m'.handles.length

/-- What an evaluation keeps. -/
structure Evolves (d : Discipline) (m m' : Machine) : Prop extends m.Framed m' where
  kept : m.Kept m'
  balanced : (∀ params, d.params params → params.Nodup) → m.Balanced m'

theorem Kept.trans {m'' : Machine} (h : m.Kept m') (h' : m'.Kept m'') : m.Kept m'' := by
  intro r v hv hr
  obtain ⟨hv', hr'⟩ := h r v hv hr
  exact h' r v hv' hr'

theorem Balanced.trans {m'' : Machine} (h : m.Balanced m') (h' : m'.Balanced m'') :
    m.Balanced m'' := by
  unfold Balanced at h h' ⊢
  omega

/-- Two states that differ in types and identities only. -/
theorem Evolves.of_eq (hstore : m'.store = m.store) (hscopes : m'.scopes = m.scopes)
    (hoptions : m'.options = m.options) (hdepth : m'.callDepth = m.callDepth) :
    m.Evolves d m' := by
  have hhandles : m'.handles = m.handles := by rw [handles, handles, hscopes]
  refine ⟨⟨by rw [hscopes], hoptions, hdepth⟩, fun r v hv hr => ?_, fun _ => ?_⟩
  · rw [hstore, hhandles]
    exact ⟨hv, hr⟩
  · rw [Balanced, hstore, hhandles]

theorem Evolves.trans {m'' : Machine} (h : m.Evolves d m') (h' : m'.Evolves d m'') :
    m.Evolves d m'' where
  toFramed := h.toFramed.trans h'.toFramed
  kept := h.kept.trans h'.kept
  balanced hd := (h.balanced hd).trans (h'.balanced hd)

theorem Owned.of_eq (hm : m.Owned d) (hstore : m'.store = m.store)
    (hscopes : m'.scopes = m.scopes) : m'.Owned d := by
  have hhandles : m'.handles = m.handles := by rw [handles, handles, hscopes]
  constructor
  · rw [hstore]
    exact hm.store
  · rw [hhandles]
    exact hm.distinct
  · rw [hhandles, hstore]
    exact hm.live
  · rw [hscopes]
    exact hm.bound
  · rw [hhandles, hstore]
    exact hm.stored

/-- Without bound handles there is nothing to own, however many values are stored. -/
theorem owned_of_no_handles (hm : m.store.Reachable) (h : m.handles = [])
    (hbound : ∀ v ∈ m.scopes.values, v.Obeys d)
    (hstored : ∀ r v, d.handles r → m.store.get? r = some v → v.Obeys d) : m.Owned d := by
  refine ⟨hm, ?_, ?_, fun v hv _ => hbound v hv, ?_⟩
  · rw [h]
    exact List.nodup_nil
  · rw [h]
    exact fun r hr => nomatch hr
  · rw [h]
    exact fun r v hr => hstored r v (hr.resolve_left fun hmem => nomatch hmem)

theorem owned_initial (d : Discipline) (options : EvalOptions) :
    { EvalState.initial options with scopes := .empty : Machine }.Owned d := by
  refine owned_of_no_handles .empty rfl (fun _ h => nomatch h) fun r v _ h => ?_
  -- No handle finds anything in the empty store.
  have hnone : Store.empty.get? r = (none : Option Value) := rfl
  exact nomatch hnone.symm.trans h

/-! ### Reading -/

theorem Owned.obeys_resolve? (hm : m.Owned d) {v w : Value} (hv : v ∈ m.scopes.values)
    (hw : m.store.resolve? v = some w) : w.Obeys d ∧ w.toRef? = none := by
  refine Store.obeys_resolve? (fun r u hr => hm.stored r u (Or.inr hr)) (hm.bound v hv) ?_ hw
  rintro r u rfl hu
  exact hm.stored r u (Or.inl (Value.mem_handles.mpr hv)) hu

/-! ### Binding -/

theorem handles_bindNew (m : Machine) (name : String) (v : Value) :
    ((m.bindNew name v).handles ++ Value.handles (m.scopes.innermost.find? name).toList).Perm
      ((m.store.insert v).1 :: m.handles) := by
  have h := (Scopes.values_insert m.scopes name (.ref (m.store.insert v).1)).filterMap Value.toRef?
  rw [List.filterMap_append] at h
  exact h

theorem mem_handles_bindNew {name : String} {v : Value} {r : ValueRef}
    (h : r ∈ (m.bindNew name v).handles) : r = (m.store.insert v).1 ∨ r ∈ m.handles :=
  List.mem_cons.mp ((handles_bindNew m name v).subset (List.mem_append_left _ h))

/-- The new binding is a handle, so all other values were bound before. -/
theorem mem_values_of_bindNew {name : String} {v w : Value} (hw : w ∈ (m.bindNew name v).scopes.values)
    (href : w.toRef? = none) : w ∈ m.scopes.values := by
  have hmem : w ∈ .ref (m.store.insert v).1 :: m.scopes.values :=
    (Scopes.values_insert m.scopes name _).subset (List.mem_append_left _ hw)
  rcases List.mem_cons.mp hmem with rfl | hmem
  · exact nomatch href
  · exact hmem

theorem Owned.fresh (hm : m.Owned d) (v : Value) : (m.store.insert v).1 ∉ m.handles := by
  intro hmem
  obtain ⟨w, hw⟩ := hm.live _ hmem
  rw [Store.get?_insert_fresh hm.store.wellFormed v] at hw
  exact nomatch hw

theorem Owned.get?_bindNew (hm : m.Owned d) {r : ValueRef} (name : String) (v : Value)
    (hr : r ≠ (m.store.insert v).1) : (m.bindNew name v).store.get? r = m.store.get? r :=
  Store.get?_insert_of_ne hm.store.wellFormed v hr

theorem Owned.distinct_bindNew (hm : m.Owned d) (name : String) (v : Value) :
    ((m.bindNew name v).handles ++
      Value.handles (m.scopes.innermost.find? name).toList).Nodup :=
  (handles_bindNew m name v).nodup_iff.mpr (List.nodup_cons.mpr ⟨hm.fresh v, hm.distinct⟩)

theorem Owned.bindNew (hm : m.Owned d) (name : String) {v : Value} (hv : v.Obeys d) :
    (m.bindNew name v).Owned d where
  store := hm.store.insert v
  distinct := (hm.distinct_bindNew name v).of_append_left
  live := by
    intro r hr
    by_cases hnew : r = (m.store.insert v).1
    · exact ⟨v, hnew ▸ Store.get?_insert_self hm.store.wellFormed v⟩
    · rw [hm.get?_bindNew name v hnew]
      exact hm.live r ((mem_handles_bindNew hr).resolve_left hnew)
  bound w hw href := hm.bound w (mem_values_of_bindNew hw href) href
  stored := by
    intro r w hr hw
    by_cases hnew : r = (m.store.insert v).1
    · have hself := Store.get?_insert_self hm.store.wellFormed v
      rw [← hnew] at hself
      obtain rfl := Option.some.inj (hself.symm.trans hw)
      exact hv
    · rw [hm.get?_bindNew name v hnew] at hw
      exact hm.stored r w (hr.imp_left fun h => (mem_handles_bindNew h).resolve_left hnew) hw

theorem Owned.kept_bindNew (hm : m.Owned d) (name : String) (v : Value) :
    m.Kept (m.bindNew name v) := by
  intro r w hw hr
  -- A handle that found a value before is not the new one.
  have hnew : r ≠ (m.store.insert v).1 := by
    rintro rfl
    rw [Store.get?_insert_fresh hm.store.wellFormed v] at hw
    exact nomatch hw
  rw [hm.get?_bindNew name v hnew]
  exact ⟨hw, fun h => hr ((mem_handles_bindNew h).resolve_left hnew)⟩

/-! ### Releasing -/

/-- Releasing values that no name is bound to. -/
theorem Owned.releaseAll (hm : m.Owned d) {rs : List ValueRef} (hrs : ∀ r ∈ rs, r ∉ m.handles) :
    { m with store := m.store.releaseAll rs }.Owned d where
  store := hm.store.releaseAll rs
  distinct := hm.distinct
  live := by
    intro r hr
    obtain ⟨v, hv⟩ := hm.live r hr
    refine ⟨v, ?_⟩
    show (m.store.releaseAll rs).get? r = some v
    rw [Store.get?_releaseAll, if_neg fun h => hrs r h hr, hv]
  bound := hm.bound
  stored := by
    intro r v hr hv
    change (m.store.releaseAll rs).get? r = some v at hv
    rw [Store.get?_releaseAll] at hv
    split at hv
    · exact nomatch hv
    · exact hm.stored r v hr hv

theorem Owned.bind (hm : m.Owned d) (name : String) {v : Value} (hv : v.Obeys d) :
    (m.bind name v).Owned d :=
  (hm.bindNew name hv).releaseAll fun _ hold hmem =>
    (List.nodup_append.mp (hm.distinct_bindNew name v)).2.2 _ hmem _ hold rfl

theorem Owned.evolves_bind (hm : m.Owned d) (name : String) {v : Value} (hv : v.Obeys d) :
    m.Evolves d (m.bind name v) := by
  have hperm := handles_bindNew m name v
  have hdistinct := hm.distinct_bindNew name v
  have hnew := hm.bindNew name hv
  -- What is released was bound before, so it is not the new value.
  have hold : ∀ r ∈ Value.handles (m.scopes.innermost.find? name).toList,
      r ∈ m.handles ∧ r ≠ (m.store.insert v).1 := by
    intro r hr
    have hmem : r ∈ m.handles := by
      rw [Value.mem_handles, Option.mem_toList] at hr
      exact Value.mem_handles.mpr (Scopes.mem_values
        (by rw [Scopes.frames_eq]; exact List.mem_cons_self) (Frame.mem_values_of_find? hr))
    exact ⟨hmem, fun h => hm.fresh v (h ▸ hmem)⟩
  refine ⟨framed_bind m name v, ?_, fun _ => ?_⟩
  · intro r w hw hr
    obtain ⟨hw, hr'⟩ := hm.kept_bindNew name v r w hw hr
    refine ⟨?_, hr'⟩
    show ((m.bindNew name v).store.releaseAll _).get? r = some w
    rw [Store.get?_releaseAll, if_neg fun h => hr (hold r h).1, hw]
  · -- One value is stored, and one is released for every handle that lost its name.
    have hlive : ∀ r ∈ Value.handles (m.scopes.innermost.find? name).toList,
        ((m.bindNew name v).store.get? r).isSome := by
      intro r hr
      obtain ⟨hmem, hne⟩ := hold r hr
      obtain ⟨w, hw⟩ := hm.live r hmem
      rw [hm.get?_bindNew name v hne, hw]
      rfl
    have hnew : (m.bindNew name v).store.WellFormed := hm.store.wellFormed.insert v
    have hrelease := hnew.liveCount_releaseAll hdistinct.of_append_right hlive
    have hinsert : (m.bindNew name v).store.liveCount = m.store.liveCount + 1 :=
      Store.liveCount_insert m.store v
    have hlength := hperm.length_eq
    rw [List.length_append, List.length_cons] at hlength
    show ((m.bindNew name v).store.releaseAll _).liveCount + m.handles.length =
      m.store.liveCount + (m.bindNew name v).handles.length
    omega

/-! ### Leaving a scope -/

theorem handles_eq (m : Machine) :
    m.handles = Value.handles m.scopes.innermost.values ++
      Value.handles (m.scopes.outer.flatMap Frame.values) := by
  rw [handles, Scopes.values_eq]
  exact List.filterMap_append

/-- Forgetting scopes without releasing what they refer to. -/
theorem Owned.withScopes (hm : m.Owned d) {s : Scopes Value}
    (hs : s.values.Sublist m.scopes.values) : { m with scopes := s }.Owned d := by
  have hsub : (Value.handles s.values).Sublist m.handles := hs.filterMap Value.toRef?
  refine ⟨hm.store, hm.distinct.sublist hsub, fun r hr => hm.live r (hsub.subset hr), ?_, ?_⟩
  · exact fun v hv => hm.bound v (hs.subset hv)
  · exact fun r v hr => hm.stored r v (hr.imp_left fun h => hsub.subset h)

theorem Owned.enter (hm : m.Owned d) : m.enter.Owned d :=
  hm.withScopes (List.Sublist.refl _)

theorem handles_of_outer (h : m'.scopes.outer = m.scopes.frames) :
    m'.handles = Value.handles m'.scopes.innermost.values ++ m.handles := by
  rw [handles_eq, h]
  rfl

theorem Owned.leaveScope (hm' : m'.Owned d) (h : m'.scopes.outer = m.scopes.frames) :
    (Eval.leaveScope m').Owned d := by
  have hsub : m.scopes.values.Sublist m'.scopes.values := by
    rw [Scopes.values_eq m'.scopes, h]
    exact List.sublist_append_right _ _
  have hdistinct := hm'.distinct
  rw [handles_of_outer h, List.nodup_append] at hdistinct
  rw [leaveScope_eq h]
  -- The scope is forgotten first, so that no name is bound to what is released.
  exact (hm'.withScopes hsub).releaseAll fun r hr hmem => hdistinct.2.2 r hr r hmem rfl

theorem Owned.evolves_leaveScope (hm' : m'.Owned d) (h : m.enter.Evolves d m') :
    m.Evolves d (Eval.leaveScope m') := by
  have houter : m'.scopes.outer = m.scopes.frames := h.outer
  have hhandles := handles_of_outer houter
  refine ⟨framed_leaveScope h.toFramed, ?_, fun hd => ?_⟩
  · intro r v hv hr
    -- Within the scope too no name is bound to `r`, so leaving does not release it.
    obtain ⟨hv', hr'⟩ := h.kept r v hv hr
    rw [hhandles, List.mem_append, not_or] at hr'
    rw [leaveScope_eq houter]
    refine ⟨?_, hr'.2⟩
    show (m'.store.releaseAll _).get? r = some v
    rw [Store.get?_releaseAll, if_neg hr'.1, hv']
  · have hdistinct := hm'.distinct
    have hlive : ∀ r ∈ Value.handles m'.scopes.innermost.values, (m'.store.get? r).isSome := by
      intro r hr
      exact hm'.isSome_get? (by rw [hhandles]; exact List.mem_append_left _ hr)
    rw [hhandles] at hdistinct
    have hrelease := hm'.store.wellFormed.liveCount_releaseAll hdistinct.of_append_left hlive
    have hbalance : m'.store.liveCount + m.handles.length = m.store.liveCount + m'.handles.length :=
      h.balanced hd
    rw [hhandles, List.length_append] at hbalance
    rw [leaveScope_eq houter]
    show (m'.store.releaseAll _).liveCount + m.handles.length = m.store.liveCount + m.handles.length
    omega

/-! ### Calling a function -/

theorem mem_values_functionScopes {captured : List (String × Value)} {v : Value}
    (h : v ∈ (Eval.functionScopes captured).values) : ∃ b ∈ captured, b.2 = v := by
  rw [Scopes.values_eq, List.mem_append] at h
  rcases h with h | h
  · exact nomatch h
  · obtain ⟨frame, hf, hv⟩ := List.mem_flatMap.mp h
    obtain rfl := List.mem_singleton.mp hf
    exact (Frame.mem_values_insertAll hv).resolve_left fun h => nomatch h

theorem handles_functionScopes {captured : List (String × Value)}
    (h : ∀ b ∈ captured, b.2.toRef? = none) :
    Value.handles (Eval.functionScopes captured).values = [] := by
  refine List.filterMap_eq_nil_iff.mpr fun v hv => ?_
  obtain ⟨b, hb, rfl⟩ := mem_values_functionScopes hv
  exact h b hb

theorem Owned.bindAll (hm : m.Owned d) (params : List String) {args : List Value}
    (hargs : Value.AllObey d args) :
    (m.bindAll params args).Owned d ∧ m.Kept (m.bindAll params args) := by
  induction params generalizing args m with
  | nil => exact ⟨hm, fun r v hv hr => ⟨hv, hr⟩⟩
  | cons name params ih =>
    cases args with
    | nil => exact ⟨hm, fun r v hv hr => ⟨hv, hr⟩⟩
    | cons v args =>
      obtain ⟨howned, hkept⟩ := ih (hm.bindNew name hargs.1) hargs.2
      exact ⟨howned, (hm.kept_bindNew name v).trans hkept⟩

/-- Parameters that are not bound yet and differ from each other release nothing. -/
theorem Owned.balanced_bindAll (hm : m.Owned d) {params : List String} {args : List Value}
    (hargs : Value.AllObey d args) (hdistinct : params.Nodup)
    (hfree : ∀ name ∈ params, m.scopes.innermost.find? name = none) :
    m.Balanced (m.bindAll params args) := by
  induction params generalizing args m with
  | nil => exact rfl
  | cons name params ih =>
    cases args with
    | nil => exact rfl
    | cons v args =>
      obtain ⟨hname, hdistinct⟩ := List.nodup_cons.mp hdistinct
      -- The other parameters differ from this one, so they are still not bound.
      have hrest : ∀ name' ∈ params, (m.bindNew name v).scopes.innermost.find? name' = none := by
        intro name' hmem
        have hne : name' ≠ name := fun h => hname (h ▸ hmem)
        show (m.scopes.insert name _).2.innermost.find? name' = none
        rw [Scopes.innermost_insert, Frame.find?_insert_of_ne hne]
        exact hfree name' (List.mem_cons_of_mem name hmem)
      have hone : m.Balanced (m.bindNew name v) := by
        have hlength := (handles_bindNew m name v).length_eq
        rw [hfree name List.mem_cons_self] at hlength
        have hinsert : (m.bindNew name v).store.liveCount = m.store.liveCount + 1 :=
          Store.liveCount_insert m.store v
        simp only [Option.toList_none, Value.handles, List.filterMap_nil, List.append_nil,
          List.length_cons] at hlength
        rw [Balanced]
        omega
      exact hone.trans (ih (hm.bindNew name hargs.1) hargs.2 hdistinct hrest)

/-- The state of a call before its parameters are bound. -/
def callee (m : Machine) (captured : List (String × Value)) : Machine :=
  { m with callDepth := m.callDepth + 1, scopes := Eval.functionScopes captured }

theorem Owned.callee (hm : m.Owned d) {captured : List (String × Value)}
    (hobey : Value.BindingsObey d captured) (hcopies : ∀ b ∈ captured, b.2.toRef? = none) :
    (m.callee captured).Owned d := by
  refine owned_of_no_handles hm.store (handles_functionScopes hcopies) ?_ fun r v hr =>
    hm.stored r v (Or.inr hr)
  intro v hv
  obtain ⟨b, hb, rfl⟩ := mem_values_functionScopes hv
  exact Value.bindingsObey_iff.mp hobey b hb

theorem closeFunction_store {top : Frame Value} (h : m.scopes.outer = [top]) :
    (Eval.closeFunction m).store = m.store.releaseAll m.handles := by
  have hframes : m.scopes.outer = Scopes.frames ⟨[], top⟩ := h
  rw [Eval.closeFunction, leaveScope_eq (m := { m with scopes := ⟨[], top⟩ }) hframes]
  simp only [Store.releaseFrame_eq, ← Store.releaseAll_append]
  rw [handles_eq, h, List.flatMap_singleton]

theorem Owned.liveCount_releaseAll (hm : m.Owned d) :
    (m.store.releaseAll m.handles).liveCount + m.handles.length = m.store.liveCount :=
  hm.store.wellFormed.liveCount_releaseAll hm.distinct fun _ => hm.isSome_get?

variable {params : List String} {captured : List (String × Value)} {args : List Value}

theorem Owned.call (hm : m.Owned d) (hobey : Value.BindingsObey d captured)
    (hcopies : ∀ b ∈ captured, b.2.toRef? = none) (hargs : Value.AllObey d args) :
    (m.call params captured args).Owned d :=
  ((hm.callee hobey hcopies).bindAll params hargs).1

theorem comeBack_store (h : (m.call params captured args).Framed m') :
    (m.comeBack m').store = m'.store.releaseAll m'.handles :=
  closeFunction_store ((framed_bindAll (m.callee captured) params args).trans h).outer

/-- A call keeps every value that was stored before it. -/
theorem Owned.get?_comeBack (hm : m.Owned d) (hobey : Value.BindingsObey d captured)
    (hcopies : ∀ b ∈ captured, b.2.toRef? = none) (hargs : Value.AllObey d args)
    (h : (m.call params captured args).Evolves d m') {r : ValueRef} {v : Value}
    (hv : m.store.get? r = some v) : (m.comeBack m').store.get? r = some v := by
  obtain ⟨-, hkept⟩ := (hm.callee hobey hcopies).bindAll params hargs
  -- The callee starts with no handle bound, so what was stored before is not its own.
  have hnone : r ∉ (m.callee captured).handles := by
    rw [handles, Machine.callee, handles_functionScopes hcopies]
    exact List.not_mem_nil
  obtain ⟨hv', hr'⟩ := (hkept.trans h.kept) r v hv hnone
  rw [comeBack_store h.toFramed, Store.get?_releaseAll, if_neg hr', hv']

theorem Owned.comeBack (hm : m.Owned d) (hobey : Value.BindingsObey d captured)
    (hcopies : ∀ b ∈ captured, b.2.toRef? = none) (hargs : Value.AllObey d args)
    (hm' : m'.Owned d) (h : (m.call params captured args).Evolves d m') :
    (m.comeBack m').Owned d where
  store := by
    rw [comeBack_store h.toFramed]
    exact hm'.store.releaseAll _
  distinct := hm.distinct
  live := by
    intro r hr
    obtain ⟨v, hv⟩ := hm.live r hr
    exact ⟨v, hm.get?_comeBack hobey hcopies hargs h hv⟩
  bound := hm.bound
  stored := by
    intro r v hr hv
    rcases hr with hr | hr
    · -- What the caller's names are bound to has not changed.
      obtain ⟨w, hw⟩ := hm.live r hr
      obtain rfl := Option.some.inj (hv.symm.trans (hm.get?_comeBack hobey hcopies hargs h hw))
      exact hm.stored r v (Or.inl hr) hw
    · rw [comeBack_store h.toFramed, Store.get?_releaseAll] at hv
      split at hv
      · exact nomatch hv
      · exact hm'.stored r v (Or.inr hr) hv

theorem Owned.evolves_comeBack (hm : m.Owned d) (hparams : d.params params)
    (hobey : Value.BindingsObey d captured) (hcopies : ∀ b ∈ captured, b.2.toRef? = none)
    (hargs : Value.AllObey d args) (hm' : m'.Owned d)
    (h : (m.call params captured args).Evolves d m') : m.Evolves d (m.comeBack m') := by
  have hcallee := hm.callee hobey hcopies
  refine ⟨framed_comeBack h.toFramed, ?_, fun hd => ?_⟩
  · exact fun r v hv hr => ⟨hm.get?_comeBack hobey hcopies hargs h hv, hr⟩
  · have hempty : (m.callee captured).handles = [] := handles_functionScopes hcopies
    have hfree : ∀ name ∈ params, (m.callee captured).scopes.innermost.find? name = none :=
      fun _ _ => rfl
    -- Binding the parameters and the body keep the balance, and closing releases all that is bound.
    have hbind := hcallee.balanced_bindAll hargs (hd params hparams) hfree
    have hbody := hbind.trans (h.balanced hd)
    have hclose := hm'.liveCount_releaseAll
    have hsame : (m.callee captured).store.liveCount = m.store.liveCount := rfl
    rw [Balanced, hempty, List.length_nil] at hbody
    rw [Balanced, comeBack_store h.toFramed]
    show _ + m.handles.length = _ + m.handles.length
    omega

/-! ### Every step -/

/-- What an evaluation guarantees about ownership. -/
def owning (d : Discipline) : Guarantee :=
  ⟨fun m => m.Owned d, fun m m' => m.Evolves d m'⟩

theorem sound_owning {host : Host} (hcaptured : ∀ v, d.captured v ↔ v.toRef? = none)
    (hhost : host.Keeps d) : (owning d).Sound d host where
  refl _ := Evolves.of_eq rfl rfl rfl rfl
  trans h h' := h.trans h'
  resolve hm hv hw := by
    rw [hcaptured]
    exact hm.obeys_resolve? hv hw
  types hm _ := ⟨hm.of_eq rfl rfl, Evolves.of_eq rfl rfl rfl rfl⟩
  identity hm := ⟨hm.of_eq rfl rfl, Evolves.of_eq rfl rfl rfl rfl⟩
  bind hm hv := ⟨hm.bind _ hv, hm.evolves_bind _ hv⟩
  enter hm := hm.enter
  leave _ hm' h := ⟨hm'.leaveScope h.outer, hm'.evolves_leaveScope h⟩
  call hm hf hargs := hm.call hf.2.2.1 (fun b hb => (hcaptured b.2).mp (hf.2.2.2 b hb)) hargs
  comeBack hm hf hargs hm' h := by
    have hcopies := fun b hb => (hcaptured b.2).mp (hf.2.2.2 b hb)
    exact ⟨hm.comeBack hf.2.2.1 hcopies hargs hm' h,
      hm.evolves_comeBack hf.1 hf.2.2.1 hcopies hargs hm' h⟩
  host := by
    intro m name args span hm hargs
    cases hr : host name ⟨args, span, m.callDepth + 1⟩ m.toMemory with
    | ok v memory =>
      obtain ⟨hstore, hv⟩ := hhost.ok hr
      exact ⟨hm.of_eq hstore rfl, Evolves.of_eq hstore rfl rfl rfl, hv hargs⟩
    | error e memory =>
      have hstore := hhost.error hr
      exact ⟨hm.of_eq hstore rfl, Evolves.of_eq hstore rfl rfl rfl⟩

end Machine

end NumericTower
