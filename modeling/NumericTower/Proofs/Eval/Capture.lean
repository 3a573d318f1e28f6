import NumericTower.Proofs.Eval.CallLimit
import NumericTower.Proofs.Scope.Lookup

/-!
# What functions capture

A function made by a lambda copies what every visible name refers to. Wherever it is called, its body is
evaluated above these copies, in a scope with the parameters, so a name that neither is a parameter nor is
defined in the body stands for the value that it had where the function was made, whatever has become of the
scopes and the store.

## Key results
- `Expr.extends_eval`: an evaluation binds names that the expression defines, in the innermost scope
- `Begins.exists_run`: the scopes in which the parts of an expression are evaluated
- `Eval.find?_captured`, `Expr.exists_captured`: what a lambda captures
- `Expr.SeesIn`, `closures_see_what_was_found`: what the body of a function sees
-/

namespace NumericTower

open Eval

/-- Whether the expression defines the name, in the scope that it is evaluated in or in a block. What the bodies
of its functions define is not meant. -/
inductive Expr.Defines : Expr → String → Prop where
  | here {note : Annotation} {n : String} {value : Expr} : Defines (.define note n value) n
  | part {e x : Expr} {n : String} (hx : x ∈ e.parts) (h : Defines x n) : Defines e n

variable {host : Host} {e x : Expr} {m m' m₁ : Machine} {names names' : String → Prop}

/-! ### What an evaluation binds -/

namespace Machine

/-- The scopes are those from before, with some of the names bound in the innermost one. -/
def Extends (names : String → Prop) (m m' : Machine) : Prop :=
  ∃ bindings : List (String × Value), m'.scopes = m.scopes.insertAll bindings ∧ ∀ b ∈ bindings, names b.1

namespace Extends

theorem of_scopes_eq (h : m'.scopes = m.scopes) : Extends names m m' :=
  ⟨[], h, fun _ hb => nomatch hb⟩

theorem mono (h : Extends names m m₁) (hnames : ∀ n, names n → names' n) : Extends names' m m₁ :=
  let ⟨bindings, hscopes, hbindings⟩ := h
  ⟨bindings, hscopes, fun b hb => hnames b.1 (hbindings b hb)⟩

theorem trans (h : Extends names m m₁) (h' : Extends names m₁ m') : Extends names m m' := by
  obtain ⟨bindings, hscopes, hbindings⟩ := h
  obtain ⟨bindings', hscopes', hbindings'⟩ := h'
  refine ⟨bindings ++ bindings', ?_, fun b hb => ?_⟩
  · rw [hscopes', hscopes, Scopes.insertAll_append]
  · exact (List.mem_append.mp hb).elim (hbindings b) (hbindings' b)

theorem bind (name : String) (v : Value) (hname : names name) : Extends names m (m.bind name v) :=
  ⟨[(name, .ref (m.store.insert v).1)], rfl, fun b hb => by rwa [List.mem_singleton.mp hb]⟩

/-- A computation that changes no scope. -/
theorem of_still {α : Type} {Q : α → Prop} {f : EvalM α} {v : α} (hf : still.Ensures Q f)
    (h : f m = .ok v m') : Extends names m m' := by
  have hstill := hf m trivial
  rw [h] at hstill
  exact .of_scopes_eq hstill.2.1

theorem exists_run (h : Extends names m m') :
    ∃ ops, m'.scopes = m.scopes.run ops ∧ ∀ op ∈ ops, op.Deepens names := by
  obtain ⟨bindings, hscopes, hbindings⟩ := h
  refine ⟨_, hscopes.trans (Scopes.insertAll_eq_run _ _), fun op hop => ?_⟩
  obtain ⟨b, hb, rfl⟩ := List.mem_map.mp hop
  exact hbindings b hb

end Extends

end Machine

/-! ### What evaluations with a value bind -/

section

variable {note : Annotation} {v : Value}

open Machine (Extends calm_still)

theorem Expr.extends_of_bindsNothing (h : e.eval host m = .ok v m') (he : e.BindsNothing) :
    Extends names m m' := by
  have hscopes := scopes_eval host he m
  rw [h] at hscopes
  exact .of_scopes_eq hscopes

theorem Expr.extends_of_part (hx : x ∈ e.parts) (h : Extends x.Defines m m') : Extends e.Defines m m' :=
  h.mono fun _ hn => .part hx hn

mutual

/-- An evaluation that has a value has bound names that the expression defines, and nothing else. -/
theorem Expr.extends_eval (host : Host) : ∀ (e : Expr) {m m' : Machine} {v : Value},
    e.eval host m = .ok v m' → Extends e.Defines m m'
  | .literal .., _, _, _, h | .name .., _, _, _, h | .lambda .., _, _, _, h | .block .., _, _, _, h =>
    extends_of_bindsNothing h trivial
  | .unary note op operand, m, m', v, h => by
    rw [eval_unary] at h
    obtain ⟨u, m₁, hu, h⟩ := exists_of_andThen_eq_ok h
    exact (extends_of_part (.head _) (extends_eval host operand hu)).trans
      (.of_still (calm_still.unary note op u.obeys_any) h)
  | .binary note op lhs rhs, m, m', v, h => by
    obtain ⟨l, m₁, r, m₂, hl, hr, h⟩ := exists_of_eval_binary_eq_ok h
    have hlhs := extends_of_part (e := .binary note op lhs rhs) (.head _) (extends_eval host lhs hl)
    have hrhs := extends_of_part (e := .binary note op lhs rhs) (.tail _ (.head _)) (extends_eval host rhs hr)
    exact (hlhs.trans hrhs).trans (.of_still (calm_still.binary note op l.obeys_any r.obeys_any) h)
  | .define note n value, m, m', v, h => by
    rw [eval_define] at h
    obtain ⟨u, m₁, hu, h⟩ := exists_of_andThen_eq_ok h
    obtain ⟨-, rfl⟩ := EStateM.Result.ok.inj h
    exact (extends_of_part (.head _) (extends_eval host value hu)).trans (.bind n u .here)
  | .product note items, m, m', v, h => by
    rw [eval_product] at h
    obtain ⟨vs, m₁, hvs, h⟩ := exists_of_andThen_eq_ok h
    obtain ⟨-, rfl⟩ := EStateM.Result.ok.inj h
    exact (extends_evalAll host items hvs).mono fun n ⟨x, hx, hn⟩ => .part hx hn
  | .call note callee args, m, m', v, h => by
    obtain ⟨f, m₁, vs, m₂, hc, hvs, h⟩ := exists_of_eval_call_eq_ok h
    have hcallee := extends_of_part (e := .call note callee args) (.head _) (extends_eval host callee hc)
    have hargs := (extends_evalAll host args hvs).mono fun n ⟨x, hx, hn⟩ =>
      Expr.Defines.part (e := .call note callee args) (.tail _ hx) hn
    have hcall := Machine.still_applyWithin host (m₁.options.maxCallDepth - m₁.callDepth) note.span f
      (passed m₂ f vs) f.obeys_any (Value.allObey_any _)
    exact (hcallee.trans hargs).trans (.of_still hcall h)
  | .access note container n, m, m', v, h => by
    rw [eval_access] at h
    obtain ⟨c, m₁, hc, h⟩ := exists_of_andThen_eq_ok h
    refine (extends_of_part (.head _) (extends_eval host container hc)).trans ?_
    cases c with
    | module c => exact .of_still (calm_still.member note c.obeys_any n) h
    | _ => exact nomatch h

theorem Expr.extends_evalAll (host : Host) : ∀ (es : List Expr) {m m' : Machine} {vs : List Value},
    evalAll host es m = .ok vs m' → Extends (fun n => ∃ x ∈ es, x.Defines n) m m'
  | [], m, m', vs, h => by
    obtain ⟨-, rfl⟩ := EStateM.Result.ok.inj h
    exact .of_scopes_eq rfl
  | e :: es, m, m', vs, h => by
    obtain ⟨v, m₁, ws, he, hws, -⟩ := exists_of_evalAll_cons_eq_ok h
    have hhead : Extends (fun n => ∃ x ∈ e :: es, x.Defines n) m m₁ :=
      (extends_eval host e he).mono fun n hn => ⟨e, List.mem_cons_self, hn⟩
    exact hhead.trans ((extends_evalAll host es hws).mono fun n ⟨x, hx, hn⟩ => ⟨x, .tail _ hx, hn⟩)

end

end

/-! ### Where the parts of an expression are evaluated -/

theorem Expr.exists_run_opened (e : Expr) (m : Machine) (names : String → Prop) :
    ∃ ops, (e.opened m).scopes = m.scopes.run ops ∧ ∀ op ∈ ops, op.Deepens names := by
  cases e with
  | block => exact ⟨[.enter], rfl, List.forall_mem_singleton.mpr trivial⟩
  | _ => exact ⟨[], rfl, nofun⟩

/-- A part is evaluated in deeper scopes, in which names of the whole have been bound. -/
theorem Starts.exists_run (h : Starts host e m 0 (.expr x) m') :
    x ∈ e.parts ∧ ∃ ops, m'.scopes = m.scopes.run ops ∧ ∀ op ∈ ops, op.Deepens e.Defines := by
  cases h with
  | part hparts hbefore hon =>
    have hx : x ∈ e.parts := hparts ▸ List.mem_append_right _ List.mem_cons_self
    have hextends : (e.opened m).Extends e.Defines m' :=
      (Expr.extends_evalAll host _ hbefore).mono fun n ⟨y, hy, hn⟩ =>
        .part (hparts ▸ List.mem_append_left _ hy) hn
    obtain ⟨ops, hopened, hops⟩ := e.exists_run_opened m e.Defines
    obtain ⟨ops', hscopes, hops'⟩ := hextends.exists_run
    refine ⟨hx, ops ++ ops', ?_, fun op hop => ?_⟩
    · rw [hscopes, hopened, Scopes.run_append]
    · exact (List.mem_append.mp hop).elim (hops op) (hops' op)

/-- What begins in an evaluation, but in no call inside of it, begins in deeper scopes, in which names that the
expression defines have been bound. -/
theorem Begins.exists_run (h : Begins host e m 0 (.expr x) m') :
    (∀ n, x.Defines n → e.Defines n) ∧
      ∃ ops, m'.scopes = m.scopes.run ops ∧ ∀ op ∈ ops, op.Deepens e.Defines := by
  generalize hk : 0 = k at h
  generalize htask : Task.expr x = task at h
  induction h generalizing x with
  | here =>
    cases htask
    exact ⟨fun _ => id, [], rfl, nofun⟩
  | @next k j e₁ task m₁ m' h hstart ih =>
    obtain ⟨rfl, rfl⟩ : k = 0 ∧ j = 0 := by omega
    subst htask
    obtain ⟨hdefines, ops, hscopes, hops⟩ := ih rfl rfl
    obtain ⟨hx, ops', hscopes', hops'⟩ := hstart.exists_run
    refine ⟨fun n hn => hdefines n (.part hx hn), ops ++ ops', ?_, fun op hop => ?_⟩
    · rw [hscopes', hscopes, Scopes.run_append]
    · rcases List.mem_append.mp hop with hop | hop
      · exact hops op hop
      · exact (hops' op hop).mono hdefines

/-! ### Making a function -/

section

variable {s : Store Value} {frame captured : Frame Value} {n : String} {v w : Value} {note : Annotation}
  {params : List String} {body : Expr}

theorem Eval.resolved?_cons_eq_some_iff :
    resolved? s ((n, v) :: frame) = some captured ↔
      ∃ w rest, s.resolve? v = some w ∧ resolved? s frame = some rest ∧ (n, w) :: rest = captured := by
  simp only [Store.resolved?_cons, Option.bind_eq_some_iff, Option.map_eq_some_iff, exists_and_left]

theorem Eval.names_resolved? (h : resolved? s frame = some captured) : captured.names = frame.names := by
  induction frame generalizing captured with
  | nil => exact Option.some.inj h ▸ rfl
  | cons b frame ih =>
    obtain ⟨w, rest, -, hrest, rfl⟩ := resolved?_cons_eq_some_iff.mp h
    exact congrArg (b.1 :: ·) (ih hrest)

/-- A name is captured with the value at the end of the chain that it is bound to. -/
theorem Eval.find?_resolved? (h : resolved? s frame = some captured) (n : String) :
    Frame.find? captured n = (Frame.find? frame n).bind s.resolve? := by
  induction frame generalizing captured with
  | nil => exact Option.some.inj h ▸ rfl
  | cons b frame ih =>
    obtain ⟨w, rest, hw, hrest, rfl⟩ := resolved?_cons_eq_some_iff.mp h
    rw [Frame.find?_cons, Frame.find?_cons, ih hrest]
    split
    · exact hw.symm
    · rfl

theorem Eval.exists_resolved? (h : ∀ v ∈ frame.values, (s.resolve? v).isSome) :
    ∃ captured, resolved? s frame = some captured := by
  induction frame with
  | nil => exact ⟨[], rfl⟩
  | cons b frame ih =>
    obtain ⟨w, hw⟩ := Option.isSome_iff_exists.mp (h b.2 List.mem_cons_self)
    obtain ⟨rest, hrest⟩ := ih fun v hv => h v (.tail _ hv)
    exact ⟨(b.1, w) :: rest, resolved?_cons_eq_some_iff.mpr ⟨w, rest, hw, hrest, rfl⟩⟩

theorem Store.toRef?_eq_none_of_resolve? (h : s.resolve? v = some w) : w.toRef? = none :=
  (obeys_follow (d := .any) (fun _ u _ _ => u.obeys_any) v.obeys_any h).2

/-- What a name refers to: the value at the end of the chain that it is bound to. -/
def Machine.value? (m : Machine) (n : String) : Option Value :=
  (m.scopes.find? n).bind m.store.resolve?

theorem Machine.toRef?_eq_none_of_value? (h : m.value? n = some v) : v.toRef? = none := by
  obtain ⟨u, -, hu⟩ := Option.bind_eq_some_iff.mp h
  exact Store.toRef?_eq_none_of_resolve? hu

theorem Eval.find?_captured (h : resolved? m.store m.scopes.visible = some captured) (n : String) :
    Frame.find? captured n = m.value? n := by
  rw [find?_resolved? h, Scopes.find?_visible, Machine.value?]

/-- A function can be made if every name that is found leads to a value. -/
theorem Expr.exists_captured (hnodup : m.scopes.visible.names.Nodup)
    (hvalues : ∀ n v, m.scopes.find? n = some v → (m.store.resolve? v).isSome) :
    ∃ captured, resolved? m.store m.scopes.visible = some captured := by
  refine exists_resolved? fun v hv => ?_
  obtain ⟨b, hb, rfl⟩ := List.mem_map.mp hv
  refine hvalues b.1 b.2 ?_
  rw [← Scopes.find?_visible]
  exact (Frame.mem_iff_find? hnodup).mp hb

theorem Expr.eval_lambda_of_dangling (h : m.scopes.find? n = some v) (hv : m.store.resolve? v = none) :
    (Expr.lambda note params body).eval host m = .error ⟨.danglingReference, note.span⟩ m := by
  rw [eval_lambda]
  cases hc : resolved? m.store m.scopes.visible with
  | none => rfl
  | some captured =>
    -- The name is among those that were captured, but with no value.
    have hnone : Frame.find? captured n = none := by rw [find?_captured hc, Machine.value?, h, Option.bind_some, hv]
    rw [Frame.find?_eq_none_iff, names_resolved? hc, ← Frame.find?_eq_none_iff, Scopes.find?_visible, h] at hnone
    exact nomatch hnone

end

/-! ### Calling it -/

section

variable {params : List String} {args : List Value} {captured : Frame Value} {body : Expr}

namespace Machine

theorem exists_bindings_bindAll (h : args.length = params.length) :
    ∃ bindings : List (String × Value),
      (m.bindAll params args).scopes = m.scopes.insertAll bindings ∧ bindings.map (·.1) = params := by
  induction params generalizing m args with
  | nil => exact ⟨[], rfl, rfl⟩
  | cons name params ih =>
    cases args with
    | nil => exact nomatch h
    | cons v args =>
      obtain ⟨bindings, hscopes, hnames⟩ := ih (m := m.bindNew name v) (Nat.succ.inj h)
      exact ⟨(name, .ref (m.store.insert v).1) :: bindings, hscopes, congrArg (name :: ·) hnames⟩

/-- The body of a function starts above what was captured, in a scope with the parameters. -/
theorem inside_call (h : args.length = params.length) (names : String → Prop) :
    Scopes.Inside (functionScopes captured).top (· ∈ params) names (m.call params captured args).scopes := by
  obtain ⟨bindings, hscopes, rfl⟩ := exists_bindings_bindAll
    (m := { m with callDepth := m.callDepth + 1, scopes := functionScopes captured }) h
  have hcall : (m.call (bindings.map (·.1)) captured args).scopes =
      ⟨[Frame.insertAll [] bindings], (functionScopes captured).top⟩ :=
    hscopes.trans (Scopes.insertAll_nested [] [] _ bindings)
  have hiff : ∀ n, Scopes.BoundInside ⟨[Frame.insertAll [] bindings], (functionScopes captured).top⟩ n ↔
      n ∈ bindings.map (·.1) := fun n => by
    simp only [Scopes.BoundInside, List.mem_singleton, exists_eq_left, Frame.mem_names_insertAll]
    exact or_iff_right List.not_mem_nil
  rw [hcall]
  exact ⟨rfl, List.cons_ne_nil _ _, fun n => (hiff n).mpr, fun n hn => .inl ((hiff n).mp hn)⟩

theorem get?_bindAll (hm : m.store.Reachable) {r : ValueRef} {v : Value} (hr : m.store.get? r = some v) :
    (m.bindAll params args).store.get? r = some v := by
  induction params generalizing m args with
  | nil => exact hr
  | cons name params ih =>
    cases args with
    | nil => exact hr
    | cons w args =>
      have hne : r ≠ (m.store.insert w).1 := by
        rintro rfl
        exact nomatch hr.symm.trans (Store.get?_insert_fresh hm.wellFormed w)
      exact ih (m := m.bindNew name w) (hm.insert w) ((Store.get?_insert_of_ne hm.wellFormed w hne).trans hr)

/-- Distinct parameters are bound to their arguments. -/
theorem bindAll_arguments (hm : m.store.Reachable) (hparams : params.Nodup) (h : args.length = params.length) :
    ∀ p v, (p, v) ∈ params.zip args → ∃ r, (m.bindAll params args).scopes.find? p = some (.ref r) ∧
      (m.bindAll params args).store.get? r = some v := by
  induction params generalizing m args with
  | nil => exact fun p v hmem => nomatch hmem
  | cons name params ih =>
    obtain ⟨hname, hparams⟩ := List.nodup_cons.mp hparams
    cases args with
    | nil => exact nomatch h
    | cons w args =>
      have hlen := Nat.succ.inj h
      have hstore : (m.bindNew name w).store.Reachable := hm.insert w
      intro p v hmem
      rcases List.mem_cons.mp hmem with heq | hmem
      · cases heq
        obtain ⟨bindings, hscopes, rfl⟩ := exists_bindings_bindAll (m := m.bindNew name w) hlen
        refine ⟨(m.store.insert w).1, ?_, get?_bindAll hstore (Store.get?_insert_self hm.wellFormed w)⟩
        rw [bindAll, hscopes, Scopes.find?_insertAll_of_not_mem hname]
        exact Scopes.find?_insert_self _ _ _
      · exact ih hstore hparams hlen p v hmem

end Machine

/-- At the top level of a function stands what was captured. -/
theorem Eval.find?_functionScopes (h : captured.names.Nodup) (n : String) :
    (functionScopes captured).top.find? n = captured.find? n := by
  have hreverse : (Frame.names captured.reverse).Nodup := by
    rw [Frame.names, List.map_reverse]
    exact List.nodup_reverse.mpr h
  have hall : (functionScopes captured).top.find? n = Frame.find? captured.reverse n := by
    rw [← Option.or_none (o := Frame.find? captured.reverse n)]
    exact Frame.find?_insertAll [] captured n
  rw [hall]
  refine Option.ext fun v => ?_
  rw [← Frame.mem_iff_find? hreverse, ← Frame.mem_iff_find? h, List.mem_reverse]

end

/-- The outcome of a name that stands for a copy of a value, or for nothing. -/
def Eval.copied (note : Annotation) (n : String) (m : Machine) : Option Value → Outcome Value
  | some v => .ok v m
  | none => .error ⟨.unboundName n, note.span⟩ m

/-- What the body of a function sees, wherever it is evaluated, but not in the calls inside of it. A name that
is bound above the top level of the function, by a parameter or by a definition of the body, shadows what stands
for the name outside. -/
structure Expr.SeesIn (host : Host) (body : Expr) (start : Machine) (params : List String) (args : List Value)
    (outside : String → Option Value) : Prop where
  /-- The parameters are bound to the arguments. -/
  arguments : ∀ p v, (p, v) ∈ params.zip args →
    ∃ r, start.scopes.find? p = some (.ref r) ∧ start.store.get? r = some v
  /-- Names that the body does not define stay bound to what they were. -/
  unchanged : ∀ {x m n}, Begins host body start 0 (.expr x) m → ¬body.Defines n →
    m.scopes.find? n = start.scopes.find? n
  /-- The parameters are shadowed everywhere. -/
  shadowed : ∀ {x m n}, Begins host body start 0 (.expr x) m → n ∈ params → m.scopes.BoundInside n
  /-- Names that are no parameters and that the body does not define are shadowed nowhere. -/
  free : ∀ {x m n}, Begins host body start 0 (.expr x) m → n ∉ params → ¬body.Defines n →
    ¬m.scopes.BoundInside n
  /-- A name that is not shadowed has the value from outside. -/
  name : ∀ {note n m}, Begins host body start 0 (.expr (.name note n)) m → ¬m.scopes.BoundInside n →
    (Expr.name note n).eval host m = copied note n m (outside n)
  /-- A function that is made in the body captures the values from outside. -/
  lambda : ∀ {note ps b m f m₁}, Begins host body start 0 (.expr (.lambda note ps b)) m →
    (Expr.lambda note ps b).eval host m = .ok f m₁ → ∃ identity captured,
      f = .function (.lambda identity note.type ps b captured) ∧
      ∀ n, ¬m.scopes.BoundInside n → Frame.find? captured n = outside n

section

variable {params : List String} {args : List Value} {captured : Frame Value} {body : Expr}
  {outside : String → Option Value}

theorem Expr.seesIn_call (hm : m.store.Reachable) (hparams : params.Nodup) (hlen : args.length = params.length)
    (hnodup : captured.names.Nodup) (hcaptured : ∀ n, captured.find? n = outside n)
    (hcopies : ∀ n v, outside n = some v → v.toRef? = none) :
    Expr.SeesIn host body (m.call params captured args) params args outside := by
  -- All that the body runs before, outside of its calls, enters scopes and binds names that it defines.
  have hinside : ∀ {x m'}, Begins host body (m.call params captured args) 0 (.expr x) m' →
      m'.scopes.Inside (functionScopes captured).top (· ∈ params) body.Defines := fun h => by
    obtain ⟨-, ops, hscopes, hops⟩ := h.exists_run
    exact hscopes ▸ (Machine.inside_call hlen body.Defines).run hops
  have hfind : ∀ {x m' n}, Begins host body (m.call params captured args) 0 (.expr x) m' →
      ¬m'.scopes.BoundInside n → m'.scopes.find? n = outside n := fun h hn => by
    rw [(hinside h).find?_eq hn, find?_functionScopes hnodup, hcaptured]
  exact {
    arguments := Machine.bindAll_arguments
      (m := { m with callDepth := m.callDepth + 1, scopes := functionScopes captured }) hm hparams hlen
    unchanged := fun h hn => by
      obtain ⟨-, ops, hscopes, hops⟩ := h.exists_run
      rw [hscopes, Scopes.find?_run_of_deepens hops hn]
    shadowed := fun h hn => (hinside h).boundInside _ hn
    free := fun h hn hdefines hbound => ((hinside h).bound_or _ hbound).elim hn hdefines
    name := fun {note n m'} h hn => by
      cases hv : outside n with
      | none => exact eval_name_of_unbound ((hfind h hn).trans hv) note
      | some v =>
        -- A copy is no handle, so the store has no say in it.
        rw [eval_name ((hfind h hn).trans hv), Store.resolve?, Store.follow_of_toRef? (hcopies n v hv)]
        rfl
    lambda := fun {note ps b m' f m₁} h heval => by
      obtain ⟨captured', hc, rfl⟩ := exists_of_eval_lambda_eq_ok heval
      refine ⟨m'.nextIdentity, captured', rfl, fun n hn => ?_⟩
      rw [find?_captured hc, Machine.value?, hfind h hn]
      cases hv : outside n with
      | none => rfl
      | some v => exact Store.follow_of_toRef? (hcopies n v hv) _ }

end

/-- In scopes that came about by any operations, all that is visible are the names that any of them binds, each
once with what it is found to be bound to; and leaving a scope takes back what was bound since it was entered,
except at the top level. A lambda is evaluated there if every name that is found leads to a value, and fails if
one does not. Wherever its function is called then, whatever the scopes and the store have become, the body is
evaluated with the parameters bound to the arguments, and other names stand for the values that they had where
the function was made. -/
theorem closures_see_what_was_found {ops : List (Scopes.Op Value)} {m : Machine}
    (hm : m.scopes = Scopes.empty.run ops) (host : Host) :
    (m.scopes.visible.names.Nodup ∧
      (∀ n v, (n, v) ∈ m.scopes.visible ↔ m.scopes.find? n = some v) ∧
      ∀ n, n ∈ m.scopes.visible.names ↔ ∃ frame ∈ m.scopes.frames, n ∈ frame.names) ∧
    (∀ since n, Scopes.Balanced since → (∀ v, .insertTop n v ∉ since) →
      (m.scopes.enter.run since).leave.2.find? n = m.scopes.find? n) ∧
    (∀ note params body n v, m.scopes.find? n = some v → m.store.resolve? v = none →
      (Expr.lambda note params body).eval host m = .error ⟨.danglingReference, note.span⟩ m) ∧
    ∀ note params body, params.Nodup →
      (∀ n v, m.scopes.find? n = some v → (m.store.resolve? v).isSome) →
      ∃ captured, (Expr.lambda note params body).eval host m =
          .ok (.function (.lambda m.nextIdentity note.type params body captured))
            { m with nextIdentity := m.nextIdentity + 1 } ∧
        ∀ (m' : Machine) span args, m'.store.Reachable → args.length = params.length →
          body.SeesIn host (m'.call params captured args) params args m.value? ∧
          (m'.callDepth < m'.options.maxCallDepth →
            applyIn host m' span (.lambda m.nextIdentity note.type params body captured) args m' =
              mapState m'.comeBack (body.eval host (m'.call params captured args))) := by
  obtain ⟨hnodup, hmem, hnames⟩ := Scopes.visible_run ops
  rw [← hm] at hnodup hmem hnames
  refine ⟨⟨hnodup, hmem, hnames⟩, fun since n hsince hn => Scopes.find?_leave hsince m.scopes hn,
    fun note params body n v hv hnone => Expr.eval_lambda_of_dangling hv hnone,
    fun note params body hparams hvalues => ?_⟩
  obtain ⟨captured, hcaptured⟩ := Expr.exists_captured hnodup hvalues
  refine ⟨captured, by rw [Expr.eval_lambda, hcaptured, closed], fun m' span args hstore hlen => ?_⟩
  have hcopies : ∀ n v, m.value? n = some v → v.toRef? = none :=
    fun n v h => Machine.toRef?_eq_none_of_value? h
  have hcapturedNodup : captured.names.Nodup := names_resolved? hcaptured ▸ hnodup
  exact ⟨Expr.seesIn_call hstore hparams hlen hcapturedNodup (find?_captured hcaptured) hcopies,
    fun hlimit => applyIn_lambda hlimit _ _ _ _ _⟩

/-- The function has the inner one of two bindings of a name, though at its call both values have been released
and the name is bound anew. -/
theorem closures_see_what_was_found_released :
    let note : Annotation := ⟨.top, ⟨1, 1⟩⟩
    let store : Store Value := ((Store.empty.insert (.bool true)).2.insert (.bool false)).2
    let ops : List (Scopes.Op Value) :=
      [.insert "x" (.ref ⟨0, 0⟩), .enter, .insert "x" (.ref ⟨1, 0⟩), .insertTop "y" (.ref ⟨0, 0⟩)]
    let start : EvalState := { EvalState.initial {} with store }
    let m : Machine := { start with scopes := Scopes.empty.run ops }
    let m' : Machine := { m with
      store := ((store.release ⟨0, 0⟩).2.release ⟨1, 0⟩).2
      scopes := Scopes.empty.run [.insert "x" .unit] }
    let body : Expr := .name note "x"
    ∃ captured m₂, (Expr.lambda note ["y"] body).eval Host.standard m =
        .ok (.function (.lambda m.nextIdentity note.type ["y"] body captured))
          { m with nextIdentity := m.nextIdentity + 1 } ∧
      applyIn Host.standard m' note.span (.lambda m.nextIdentity note.type ["y"] body captured) [.bool true] m' =
        .ok (.bool false) m₂ := by
  intro note store ops start m m' body
  obtain ⟨-, -, -, hmake⟩ := closures_see_what_was_found (rfl : m.scopes = Scopes.empty.run ops) Host.standard
  have hvalues : ∀ n v, m.scopes.find? n = some v → (m.store.resolve? v).isSome := by
    intro n v hv
    have hmem : v ∈ [Value.ref ⟨1, 0⟩, .ref ⟨0, 0⟩, .ref ⟨0, 0⟩] := Scopes.mem_values_of_find? hv
    fin_cases hmem <;> rfl
  obtain ⟨captured, heval, hcall⟩ := hmake note ["y"] body (List.nodup_singleton _) hvalues
  have hstore : m'.store.Reachable := (((Store.Reachable.empty.insert _).insert _).release _).release _
  obtain ⟨hsees, happly⟩ := hcall m' note.span [.bool true] hstore rfl
  have hdefines : ¬(Expr.name note "x").Defines "x" := fun h => by
    cases h with
    | part hx _ => exact nomatch hx
  have hname := hsees.name .here (hsees.free .here (by decide) hdefines)
  refine ⟨captured, m'.comeBack (m'.call ["y"] captured [.bool true]), heval, ?_⟩
  rw [happly (by decide), hname]
  rfl

end NumericTower
