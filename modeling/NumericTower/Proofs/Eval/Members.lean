import Mathlib
import NumericTower.Proofs.Eval.Definitions
import NumericTower.Proofs.Eval.LiveCount
import NumericTower.Proofs.Eval.Rules

/-!
# Members of modules

Loading a module evaluates its body and takes what the body bound at its top level out of the store. The
members are the names that the body defines there, each with the value that it would have had behind the
body, and what was stored before is stored afterwards, whether the body fails or not.

## Key results
- `Module.takeOut_fst`: the members are the values that names are bound to
- `Module.Collects`: what is true of the members of a module after its body
- `Module.get?_unload`: no handle finds anything else than before the body
- `loading_collects_top_level`: loading, with a value or with the first error
-/

namespace NumericTower

open Eval (andThen)

/-! ### Taking members out of the store -/

theorem Store.contents_release {s : Store Value} {r : ValueRef} {v : Value} (h : v ≠ .ref r) :
    (s.release r).2.contents v = s.contents v := by
  cases v with
  | ref r' =>
    have hne : r' ≠ r := fun he => h (by rw [he])
    rw [contents, contents, get?_release_of_ne hne]
  | _ => rfl

/-- Where every handle is the only one to its value, all values are found. -/
theorem Module.takeOut_fst {s : Store Value} {frame : Frame Value}
    (hdistinct : (Value.handles frame.values).Nodup)
    (hlive : ∀ r ∈ Value.handles frame.values, ∃ v, s.get? r = some v) :
    (takeOut s frame).1 = frame.mapValues s.contents := by
  induction frame generalizing s with
  | nil => rfl
  | cons b frame ih =>
    obtain ⟨name, v⟩ := b
    cases v with
    | ref r =>
      obtain ⟨hr, hdistinct⟩ := List.nodup_cons.mp hdistinct
      obtain ⟨v, hv⟩ := hlive r List.mem_cons_self
      -- The other handles are different ones, so they still find their values.
      have hne : ∀ w ∈ Frame.values frame, w ≠ .ref r := by
        rintro w hw rfl
        exact hr (Value.mem_handles.mpr hw)
      have hrest : ∀ r' ∈ Value.handles (Frame.values frame),
          ∃ w, (s.release r).2.get? r' = some w := by
        intro r' hr'
        have hne' : r' ≠ r := fun he => hr (he ▸ hr')
        rw [Store.get?_release_of_ne hne']
        exact hlive r' (List.mem_cons_of_mem r hr')
      have hmembers := ih hdistinct hrest
      rw [Frame.mapValues_congr fun w hw => Store.contents_release (hne w hw)] at hmembers
      have hrelease : s.release r = (some v, (s.release r).2) :=
        Prod.ext (by rw [Store.release_fst, hv]) rfl
      rw [takeOut, hrelease]
      show (name, v) :: (takeOut (s.release r).2 frame).1 = _
      rw [hmembers, ← Store.contents_ref hv]
      rfl
    | _ => exact congrArg (_ :: ·) (ih hdistinct hlive)

/-! ### Evaluating the items of a body -/

section

variable {host : Host} {m m₁ m₂ : Machine}

theorem Expr.evalAll_append {es : List Expr} {vs : List Value}
    (h : evalAll host es m = .ok vs m₁) (es' : List Expr) :
    evalAll host (es ++ es') m =
      andThen (evalAll host es' m₁) fun ws m => .ok (vs ++ ws) m := by
  induction es generalizing m vs with
  | nil =>
    obtain ⟨rfl, rfl⟩ := EStateM.Result.ok.inj h
    show evalAll host es' m = _
    cases evalAll host es' m <;> rfl
  | cons e es ih =>
    cases he : e.eval host m with
    | error err m' =>
      rw [evalAll_cons_of_error he] at h
      exact nomatch h
    | ok v m' =>
      rw [evalAll_cons he] at h
      cases hes : evalAll host es m' with
      | error err m'' =>
        rw [hes] at h
        exact nomatch h
      | ok ws m'' =>
        rw [hes] at h
        obtain ⟨rfl, rfl⟩ := EStateM.Result.ok.inj h
        rw [List.cons_append, evalAll_cons he, ih hes]
        cases evalAll host es' m'' <;> rfl

/-- The expressions in front have values, and then one fails. -/
def Expr.FailsAt (host : Host) (before : List Expr) (e : Expr) (m : Machine) (err : EvalError)
    (m' : Machine) : Prop :=
  ∃ vs m₁, evalAll host before m = .ok vs m₁ ∧ e.eval host m₁ = .error err m'

/-- What stands behind the one that fails does not matter. -/
theorem Expr.FailsAt.evalAll_eq {before : List Expr} {e : Expr} {err : EvalError}
    (h : FailsAt host before e m err m₂) (after : List Expr) :
    evalAll host (before ++ e :: after) m = .error err m₂ := by
  obtain ⟨vs, m₁, hbefore, he⟩ := h
  rw [evalAll_append hbefore, evalAll_cons_of_error he]
  rfl

/-- Either all expressions have values, or one of them is the first that fails. -/
theorem Expr.evalAll_ok_or_failsAt (host : Host) (es : List Expr) (m : Machine) :
    (∃ vs m', evalAll host es m = .ok vs m') ∨
      ∃ before e after err m', es = before ++ e :: after ∧ FailsAt host before e m err m' := by
  induction es generalizing m with
  | nil => exact .inl ⟨[], m, rfl⟩
  | cons e es ih =>
    cases he : e.eval host m with
    | error err m' => exact .inr ⟨[], e, es, err, m', rfl, [], m, rfl, he⟩
    | ok v m' =>
      rcases ih m' with ⟨vs, m'', hes⟩ | ⟨before, e', after, err, m'', rfl, vs, m₁, hbefore, he'⟩
      · exact .inl ⟨v :: vs, m'', by rw [evalAll_cons he, hes]; rfl⟩
      · refine .inr ⟨e :: before, e', after, err, m'', rfl, v :: vs, m₁, ?_, he'⟩
        rw [evalAll_cons he, hbefore]
        rfl

end

/-! ### What names are bound to -/

namespace Machine

variable {d : Discipline} {m : Machine}

theorem Owned.eval_name (hm : m.Owned d) (hd : ∀ r, ¬d.handles r) (host : Host) (note : Annotation)
    (n : String) :
    (Expr.name note n).eval host m =
      match m.plain.scopes.find? n with
      | some v => .ok v m
      | none => .error ⟨.unboundName n, note.span⟩ m := by
  have hplain : m.plain.scopes.find? n = (m.scopes.find? n).map m.store.contents :=
    Scopes.find?_map _ _ n
  rw [hplain]
  cases hv : m.scopes.find? n with
  | none => exact Expr.eval_name_of_unbound hv note
  | some v =>
    rw [Expr.eval_name hv, hm.resolve?_eq hd (Scopes.mem_values_of_find? hv)]
    rfl

theorem Owned.obeys_contents (hm : m.Owned d) (hd : ∀ r, ¬d.handles r) {v : Value}
    (hv : v ∈ m.scopes.values) : (m.store.contents v).Obeys d :=
  (hm.obeys_resolve? hv (hm.resolve?_eq hd hv)).1

end Machine

/-! ### Loading -/

namespace Module

variable {host : Host} {name : String} {body : List Expr} {s : EvalState} {m : Machine}

/-- The state in which the body of a module is evaluated. -/
def start (s : EvalState) : Machine :=
  { s with scopes := .empty }

theorem load_eq_evalAll (host : Host) (name : String) (body : List Expr) (s : EvalState) :
    load host name body s =
      match Expr.evalAll host body (start s) with
      | .ok _ m => .ok (.mk m.nextIdentity name (takeOut m.store m.scopes.top).1)
          { unload m with nextIdentity := m.nextIdentity + 1 }
      | .error e m => .error e (unload m) := by
  have hall : Expr.evalAllWith (Eval.applyIn host { s with scopes := .empty }) body
      { s with scopes := .empty } = Expr.evalAll host body (start s) := rfl
  rw [load_eq, Expr.evalLastWith_eq, hall]
  cases Expr.evalAll host body (start s) <;> rfl

/-! ### After the body -/

/-- The members of a module are what its body bound at the top level, where the body ended in the state `m`.
They mention no handle, so they do not depend on what is stored. -/
structure Collects (host : Host) (body : List Expr) (m : Machine) (c : Module) : Prop where
  mem_memberNames : ∀ n, n ∈ c.memberNames ↔ n ∈ Expr.allDefined body
  nodup : c.memberNames.Nodup
  eval_name : ∀ note n, (Expr.name note n).eval host m =
    match c.access? n with
    | some v => .ok v m
    | none => .error ⟨.unboundName n, note.span⟩ m
  obeys : c.Obeys (.owning fun _ => False)

theorem mem_memberNames {c : Module} {n : String} : n ∈ c.memberNames ↔ n ∈ Frame.names c.members := by
  rw [memberNames, List.mem_mergeSort]
  rfl

theorem nodup_memberNames {c : Module} : c.memberNames.Nodup ↔ (Frame.names c.members).Nodup :=
  (List.mergeSort_perm _ _).nodup_iff

theorem owned_start (hs : s.store.Reachable) : (start s).Owned (.owning fun _ => False) :=
  Machine.owned_of_no_handles hs rfl (fun _ h => nomatch h) fun _ _ h => h.elim

section

variable (hm : m.Owned (.owning fun _ => False)) (h : (start s).Evolves (.owning fun _ => False) m)
include hm h

/-- What the body bound is taken out of the store, and nothing else is. -/
theorem get?_unload (hs : s.store.Reachable) (r : ValueRef) :
    (unload m).store.get? r = s.store.get? r := by
  have hunloaded : (unload m).store.WellFormed := (hm.store.releaseAll _).wellFormed
  have hcount := hm.liveCount_unload h rfl fun _ h => h
  refine Store.get?_eq_of_liveCount_le hs.wellFormed hunloaded (fun r v hv => ?_) hcount.le r
  obtain ⟨hv', hr⟩ := h.kept r v hv List.not_mem_nil
  rw [Machine.handles_of_outermost h.outer] at hr
  show (m.store.releaseAll _).get? r = some v
  rw [Store.get?_releaseAll, if_neg hr, hv']

theorem takeOut_top : (takeOut m.store m.scopes.top).1 = m.plain.scopes.top := by
  have hhandles := Machine.handles_of_outermost h.outer
  exact takeOut_fst (hhandles ▸ hm.distinct) fun r hr => hm.live r (hhandles ▸ hr)

end

section

variable (hhost : host.Keeps (.owning fun _ => False)) (hs : s.store.Reachable)
  (hbody : Expr.AllObey (.owning fun _ => False) body)
include hhost hs hbody

theorem evolves_evalAll :
    let m := Guarantee.finalState (Expr.evalAll host body (start s))
    m.Owned (.owning fun _ => False) ∧ (start s).Evolves (.owning fun _ => False) m :=
  ((Machine.sound_owning_known hhost).evalAll _ hbody (start s) (owned_start hs)).final

theorem evolves_of_ok {vs : List Value} (h : Expr.evalAll host body (start s) = .ok vs m) :
    m.Owned (.owning fun _ => False) ∧ (start s).Evolves (.owning fun _ => False) m := by
  have hfinal := evolves_evalAll hhost hs hbody
  rwa [h] at hfinal

/-- At the end the top level has the definitions of the body, one after another. -/
theorem exists_bindings {vs : List Value} (h : Expr.evalAll host body (start s) = .ok vs m) :
    ∃ bindings : List (String × Value), bindings.map (·.1) = Expr.allDefined body ∧
      m.plain.scopes = ⟨[], Frame.insertAll [] bindings⟩ := by
  obtain ⟨bindings, hnames, hscopes⟩ := Expr.binds_evalAllWith
    (bindsInCalls_applyWithin (fun _ => Iff.rfl) hhost _) hbody _ vs m (owned_start hs) h
  refine ⟨bindings, hnames, ?_⟩
  have houter : m.plain.scopes.outer = [] := by
    rw [hscopes, Scopes.outer_insertAll]
    rfl
  rw [Scopes.eq_of_outer_eq_nil houter, hscopes, Scopes.innermost_insertAll]
  rfl

theorem collects_of_ok {vs : List Value} (h : Expr.evalAll host body (start s) = .ok vs m)
    (identity : Nat) : Collects host body m (.mk identity name m.plain.scopes.top) := by
  obtain ⟨hm, hmove⟩ := evolves_of_ok hhost hs hbody h
  obtain ⟨bindings, hnames, hscopes⟩ := exists_bindings hhost hs hbody h
  have htop : m.plain.scopes.top = Frame.insertAll [] bindings := by rw [hscopes]
  constructor
  · intro n
    rw [mem_memberNames, members, htop, Frame.mem_names_insertAll, hnames]
    simp [Frame.names]
  · rw [nodup_memberNames, members, htop]
    have hempty : (Frame.names ([] : Frame Value)).Nodup := List.nodup_nil
    exact Frame.nodup_names_insertAll hempty bindings
  · intro note n
    -- There is no scope but the top level, so this is where a name is found.
    have hfind : m.plain.scopes.find? n = m.plain.scopes.top.find? n := by
      rw [hscopes]
      simp [Scopes.find?, Scopes.frames]
    rw [hm.eval_name (fun _ h => h), hfind]
    rfl
  · refine Value.bindingsObey_iff.mpr fun b hb => ?_
    obtain ⟨b', hb', rfl⟩ := List.mem_map.mp hb
    have htop : m.scopes.top ∈ m.scopes.frames := List.mem_append_right _ List.mem_cons_self
    exact hm.obeys_contents (fun _ h => h) (Scopes.mem_values htop (List.mem_map_of_mem hb'))

/-- A definition counts if no expression after it defines the same name. -/
theorem access?_of_last {before after : List Expr} {note : Annotation} {n : String} {value : Expr}
    {ws vs : List Value} {v : Value} {m₁ m₂ : Machine}
    (hsplit : body = before ++ .define note n value :: after)
    (hbefore : Expr.evalAll host before (start s) = .ok ws m₁)
    (hvalue : value.eval host m₁ = .ok v m₂) (hlast : n ∉ Expr.allDefined after)
    (h : Expr.evalAll host body (start s) = .ok vs m) (identity : Nat) :
    (Module.mk identity name m.plain.scopes.top).access? n = some v := by
  have hobey := hbody
  rw [hsplit, Expr.allObey_append] at hobey
  obtain ⟨hobeyBefore, hobeyValue, hobeyAfter⟩ := hobey
  have hm₁ := (evolves_of_ok hhost hs hobeyBefore hbefore).1
  have hm₂ := (Machine.sound_owning_known hhost).eval (e := value) hobeyValue m₁ hm₁
  rw [hvalue] at hm₂
  obtain ⟨hm₂, -, hv⟩ := hm₂
  have hafter : ∃ us, Expr.evalAll host after (m₂.bind n v) = .ok us m := by
    have hdefine : (Expr.define note n value).eval host m₁ = .ok v (m₂.bind n v) := by
      rw [Expr.eval_define, hvalue]
      rfl
    rw [hsplit, Expr.evalAll_append hbefore, Expr.evalAll_cons hdefine] at h
    cases hr : Expr.evalAll host after (m₂.bind n v) with
    | error err m' =>
      rw [hr] at h
      exact nomatch h
    | ok us m' =>
      rw [hr] at h
      obtain ⟨-, rfl⟩ := EStateM.Result.ok.inj h
      exact ⟨us, rfl⟩
  obtain ⟨us, hafter⟩ := hafter
  obtain ⟨bindings, hnames, hscopes⟩ := Expr.binds_evalAllWith
    (bindsInCalls_applyWithin (fun _ => Iff.rfl) hhost _) hobeyAfter _ us m (hm₂.bind n hv) hafter
  have hinner : m.plain.scopes.innermost.find? n = some v := by
    have hnone : Frame.find? bindings.reverse n = none := by
      rw [Frame.find?_eq_none_iff, Frame.names, List.map_reverse, List.mem_reverse, hnames]
      exact hlast
    rw [hscopes, Scopes.innermost_insertAll, Frame.find?_insertAll, hnone, hm₂.plain_bind,
      Scopes.innermost_insert, Frame.find?_insert_self]
    rfl
  obtain ⟨_, _, htop⟩ := exists_bindings hhost hs hbody h
  rw [htop] at hinner
  rw [access?, members, htop]
  exact hinner

end

end Module

/-- Loading a module whose body evaluates without an error collects exactly what the body defines at its top
level. A member is what its name stands for after the body, which is what it was defined as last. If an
expression fails, then so does the module, with that error and whatever stands behind the expression. In
either case every handle finds afterwards what it found before. -/
theorem loading_collects_top_level {host : Host} (hhost : host.Keeps (.owning fun _ => False))
    (name : String) {body : List Expr} (hbody : Expr.AllObey (.owning fun _ => False) body)
    {s : EvalState} (hs : s.store.Reachable) :
    (∀ vs m, Expr.evalAll host body (Module.start s) = .ok vs m →
      ∃ c store, Module.load host name body s =
          .ok c { m.toEvalState with store, nextIdentity := m.nextIdentity + 1 } ∧
        c.name = name ∧ Module.Collects host body m c ∧
        (∀ before note n value after ws m₁ v m₂, body = before ++ .define note n value :: after →
          Expr.evalAll host before (Module.start s) = .ok ws m₁ →
          value.eval host m₁ = .ok v m₂ → n ∉ Expr.allDefined after → c.access? n = some v) ∧
        ∀ r, store.get? r = s.store.get? r) ∧
    (∀ before e after err m, body = before ++ e :: after →
      Expr.FailsAt host before e (Module.start s) err m →
      ∃ store, Module.load host name body s = .error err { m.toEvalState with store } ∧
        ∀ r, store.get? r = s.store.get? r) ∧
    ((∃ vs m, Expr.evalAll host body (Module.start s) = .ok vs m) ∨
      ∃ before e after err m, body = before ++ e :: after ∧
        Expr.FailsAt host before e (Module.start s) err m) := by
  refine ⟨?_, ?_, Expr.evalAll_ok_or_failsAt host body (Module.start s)⟩
  · intro vs m h
    obtain ⟨hm, hmove⟩ := Module.evolves_of_ok hhost hs hbody h
    refine ⟨.mk m.nextIdentity name m.plain.scopes.top, (Module.unload m).store, ?_, rfl,
      Module.collects_of_ok hhost hs hbody h _, ?_, Module.get?_unload hm hmove hs⟩
    · rw [Module.load_eq_evalAll, h, ← Module.takeOut_top hm hmove]
      rfl
    · intro before note n value after ws m₁ v m₂ hsplit hbefore hvalue hlast
      exact Module.access?_of_last hhost hs hbody hsplit hbefore hvalue hlast h _
  · intro before e after err m hsplit hfails
    have h := hfails.evalAll_eq after
    rw [← hsplit] at h
    have hfinal := Module.evolves_evalAll hhost hs hbody
    rw [h] at hfinal
    refine ⟨(Module.unload m).store, ?_, Module.get?_unload hfinal.1 hfinal.2 hs⟩
    rw [Module.load_eq_evalAll, h]
    rfl

/-- A body that binds a name anew, another one in a block, and a third in a function that it calls. With an
unbound name behind them the module fails and leaves nothing behind. -/
theorem loading_collects_top_level_rebinding :
    let note : Annotation := ⟨.unit, 0, 1⟩
    let s := EvalState.initial {}
    let body : List Expr := [.define note "x" (.literal note (.bool true)),
      .define note "f" (.lambda note ["z"] (.define note "w" (.name note "z"))),
      .block note [.define note "y" (.call note (.name note "f") [.name note "x"])],
      .define note "x" (.literal note .unit)]
    Host.standard.Keeps (.owning fun _ => False) ∧ Expr.AllObey (.owning fun _ => False) body ∧
      s.store.Reachable ∧
      (∃ c s', Module.load Host.standard "m" body s = .ok c s' ∧
        (∀ n, n ∈ c.memberNames ↔ n ∈ ["x", "f", "x"]) ∧ c.access? "x" = some .unit ∧
        ∀ r, s'.store.get? r = s.store.get? r) ∧
      ∃ err s', Module.load Host.standard "m" (body ++ [.name note "y"]) s = .error err s' ∧
        err.cause = .unboundName "y" ∧ ∀ r, s'.store.get? r = s.store.get? r := by
  intro note s body
  have hhost := Host.keeps_standard (.owning fun _ => False)
  have hbody : Expr.AllObey (.owning fun _ => False) body :=
    ⟨trivial, ⟨List.nodup_singleton "z", trivial⟩, ⟨⟨trivial, trivial, trivial⟩, trivial⟩, trivial,
      trivial⟩
  obtain ⟨vs, m, hall⟩ := Eval.exists_ok_of_cause?_eq_none
    (r := Expr.evalAll Host.standard body (Module.start s)) (by decide +kernel)
  refine ⟨hhost, hbody, .empty, ?_, ?_⟩
  · obtain ⟨ws, m₁, hbefore⟩ := Eval.exists_ok_of_cause?_eq_none
      (r := Expr.evalAll Host.standard (body.take 3) (Module.start s)) (by decide +kernel)
    obtain ⟨c, store, hload, -, hcollects, hlast, hstore⟩ :=
      (loading_collects_top_level hhost "m" hbody (s := s) .empty).1 vs m hall
    exact ⟨c, _, hload, hcollects.mem_memberNames, hlast (body.take 3) note "x" (.literal note .unit) []
      ws m₁ .unit m₁ rfl hbefore rfl List.not_mem_nil, hstore⟩
  · have hfails : Expr.AllObey (.owning fun _ => False) (body ++ [.name note "y"]) :=
      Expr.allObey_append.mpr ⟨hbody, trivial, trivial⟩
    have hunbound : Eval.cause? (Expr.evalAll Host.standard (body ++ [.name note "y"])
        (Module.start s)) = some (.unboundName "y") := by decide +kernel
    obtain ⟨err, m', hall', hcause⟩ := Eval.exists_error_of_cause?_eq_some hunbound
    have hname : (Expr.name note "y").eval Host.standard m = .error err m' := by
      rw [Expr.evalAll_append hall] at hall'
      cases hr : (Expr.name note "y").eval Host.standard m with
      | ok v m₂ =>
        rw [Expr.evalAll_cons hr] at hall'
        exact nomatch hall'
      | error e m₂ =>
        rw [Expr.evalAll_cons_of_error hr] at hall'
        obtain ⟨rfl, rfl⟩ := EStateM.Result.error.inj hall'
        rfl
    obtain ⟨store, hload, hstore⟩ := (loading_collects_top_level hhost "m" hfails (s := s) .empty).2.1
      body (.name note "y") [] err m' rfl ⟨vs, m, hall, hname⟩
    exact ⟨err, _, hload, hcause, hstore⟩

end NumericTower
