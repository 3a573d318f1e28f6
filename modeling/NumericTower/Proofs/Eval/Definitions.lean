import Mathlib
import NumericTower.Proofs.Eval.Unobservable

/-!
# Definitions

The names that an expression defines in the scope that it is evaluated in are known from the expression
alone. An evaluation that ends with a value has bound exactly these, one after another, and nothing else;
what blocks and functions bind is gone.

## Key results
- `Expr.defined`: the names that an expression defines
- `Expr.binds_evalWith`, `Expr.binds_evalAllWith`: evaluation binds these names, one after another
- `bindsInCalls_applyWithin`: applying a function binds none
-/

namespace NumericTower

mutual

/-- The names that an expression defines in the scope that it is evaluated in, in the order of their
definitions. -/
def Expr.defined : Expr → List String
  | .literal .. | .name .. | .lambda .. | .block .. => []
  | .unary _ _ operand => operand.defined
  | .binary _ _ lhs rhs => lhs.defined ++ rhs.defined
  | .define _ n value => value.defined ++ [n]
  | .product _ items => Expr.allDefined items
  | .call _ callee args => callee.defined ++ Expr.allDefined args
  | .access _ container _ => container.defined

/-- The names that expressions define, evaluated one after the other. -/
def Expr.allDefined : List Expr → List String
  | [] => []
  | e :: es => e.defined ++ Expr.allDefined es

end

/-! ### Computations that bind names -/

/-- Whenever a computation has a value, it has bound these names in the innermost scope, one after another,
and no other binding is changed. -/
def Binds {α : Type} (d : Discipline) (names : List String) (x : EvalM α) : Prop :=
  ∀ m v m', m.Owned d → x m = .ok v m' →
    ∃ bindings : List (String × Value),
      bindings.map (·.1) = names ∧ m'.plain.scopes = m.plain.scopes.insertAll bindings

/-- Neither the scopes nor the store change. -/
def Machine.resting : Guarantee :=
  ⟨fun _ => True, fun m m' => m'.scopes = m.scopes ∧ m'.store = m.store⟩

theorem Machine.calm_resting : resting.Calm .any where
  refl _ := ⟨rfl, rfl⟩
  trans h h' := ⟨h'.1.trans h.1, h'.2.trans h.2⟩
  resolve _ _ _ := ⟨Value.obeys_any _, trivial⟩
  types _ _ := ⟨trivial, rfl, rfl⟩
  identity _ := ⟨trivial, rfl, rfl⟩

namespace Binds

open Machine (resting owning)

variable {α β : Type} {d : Discipline} {names names' : List String}

theorem of_resting {Q : α → Prop} {x : EvalM α} (hx : resting.Ensures Q x) : Binds d [] x := by
  intro m v m' _ hr
  have hrest := hx m trivial
  rw [hr] at hrest
  obtain ⟨-, ⟨hscopes, hstore⟩, -⟩ := hrest
  refine ⟨[], rfl, ?_⟩
  show m'.scopes.map m'.store.contents = m.scopes.map m.store.contents
  rw [hscopes, hstore]

/-- A computation that fails has no value, so there is nothing to show. -/
theorem fail_bind (cause : EvalCause) (span : Span) (f : α → EvalM β) :
    Binds d names (Eval.fail cause span >>= f) :=
  fun _ _ _ _ hr => nomatch hr

theorem describe_fail (v : Value) (cause : String → EvalCause) (span : Span) :
    Binds (α := α) d names (Eval.describe v >>= fun found => Eval.fail (cause found) span) :=
  fun _ _ _ _ hr => nomatch hr

theorem pure (v : α) : Binds d [] (Pure.pure v) :=
  of_resting (Machine.calm_resting.pure (Q := fun _ => True) trivial)

theorem seq {Q : α → Prop} {x : EvalM α} {f : α → EvalM β} (hx : (owning d).Ensures Q x)
    (hbx : Binds d names x) (hbf : ∀ v, Q v → Binds d names' (f v)) :
    Binds d (names ++ names') (x >>= f) := by
  intro m w m'' hm hr
  have hgood := hx m hm
  rw [Eval.bind_run] at hr
  cases hxm : x m with
  | error e m' =>
    rw [hxm] at hr
    exact nomatch hr
  | ok v m' =>
    rw [hxm] at hr hgood
    obtain ⟨bindings, rfl, hscopes⟩ := hbx m v m' hm hxm
    obtain ⟨bindings', rfl, hscopes'⟩ := hbf v hgood.2.2 m' w m'' hgood.1 hr
    refine ⟨bindings ++ bindings', List.map_append, ?_⟩
    rw [hscopes', hscopes, Scopes.insertAll_append]

/-- Computing a value and going on without binding anything. -/
theorem seq_still {Q : α → Prop} {x : EvalM α} {f : α → EvalM β} (hx : (owning d).Ensures Q x)
    (hbx : Binds d names x) (hbf : ∀ v, Q v → Binds d [] (f v)) : Binds d names (x >>= f) := by
  have h := seq hx hbx hbf
  rwa [List.append_nil] at h

theorem bind (name : String) (v : Value) : Binds d [name] (Eval.bind name v) := by
  intro m u m' hm hr
  rw [Eval.bind_eq] at hr
  obtain ⟨-, rfl⟩ := EStateM.Result.ok.inj hr
  refine ⟨[(name, v)], rfl, ?_⟩
  rw [hm.plain_bind name v]
  rfl

/-- A block comes back to the scopes around it, in which its items have changed nothing. -/
theorem inScope {Q : α → Prop} {x : EvalM α} (hx : (owning d).Ensures Q x) (hbx : Binds d names x) :
    Binds d [] (Eval.inScope x) := by
  intro m v m' hm hr
  have henter := hm.enter
  have hgood := hx m.enter henter
  rw [Eval.inScope_eq] at hr
  cases hxm : x m.enter with
  | error e final =>
    rw [hxm] at hr
    exact nomatch hr
  | ok w final =>
    rw [hxm] at hr hgood
    obtain ⟨-, rfl⟩ := EStateM.Result.ok.inj hr
    obtain ⟨bindings, -, hscopes⟩ := hbx m.enter w final henter hxm
    have houter : final.plain.scopes.outer = m.plain.scopes.frames := by
      rw [hscopes, Scopes.outer_insertAll]
      rfl
    refine ⟨[], rfl, ?_⟩
    show (Eval.leaveScope final).plain.scopes = m.plain.scopes
    rw [hgood.1.plain_leaveScope hgood.2.1.outer, Scopes.leave_of_outer houter]

end Binds

/-! ### Expressions -/

section

open Machine (owning)

variable {d : Discipline}

/-- What evaluating expressions needs of how functions are applied. -/
structure BindsInCalls (d : Discipline) (apply : Apply) : Prop where
  closed : (owning d).Closed d True apply
  calls : ∀ {f args} span, f.Obeys d → Value.AllObey d args → Binds d [] (apply span f args)

variable {apply : Apply}

mutual

theorem Expr.binds_evalWith (h : BindsInCalls d apply) :
    ∀ {e : Expr}, e.Obeys d → Binds d e.defined (e.evalWith apply)
  | .literal _ v, _ => .pure v
  | .name note n, _ => .of_resting (Machine.calm_resting.lookup note n)
  | .unary note op operand, he => by
    rw [evalWith]
    exact .seq_still (h.closed.evalWith he (Or.inl trivial)) (binds_evalWith h he) fun v _ =>
      .of_resting (Machine.calm_resting.unary note op v.obeys_any)
  | .binary note op lhs rhs, he => by
    rw [evalWith, defined]
    refine .seq (h.closed.evalWith he.1 (Or.inl trivial)) (binds_evalWith h he.1) fun l _ => ?_
    exact .seq_still (h.closed.evalWith he.2 (Or.inl trivial)) (binds_evalWith h he.2) fun r _ =>
      .of_resting (Machine.calm_resting.binary note op l.obeys_any r.obeys_any)
  | .define note n value, he => by
    rw [evalWith, defined]
    refine .seq (h.closed.evalWith he (Or.inl trivial)) (binds_evalWith h he) fun v hv => ?_
    exact .seq_still (h.closed.define trivial hv) (.bind n v) fun _ _ => .pure v
  | .product note items, he => by
    rw [evalWith, defined]
    exact .seq_still (h.closed.evalAllWith he (Or.inl trivial)) (binds_evalAllWith h he) fun vs _ =>
      .pure _
  | .lambda note params body, _ =>
    .of_resting (Machine.calm_resting.closeOver note trivial body.obeys_any)
  | .call note callee args, he => by
    rw [evalWith, defined]
    refine .seq (h.closed.evalWith he.1 (Or.inl trivial)) (binds_evalWith h he.1)
      fun target htarget => ?_
    cases target with
    | function f =>
      simp only
      split
      -- another number of arguments: none of them is evaluated
      · exact .fail_bind _ _ _
      · refine .seq_still (h.closed.evalAllWith he.2 (Or.inl trivial)) (binds_evalAllWith h he.2)
          fun vs hvs m v m' hm hr => ?_
        exact h.calls note.span htarget (Value.obeys_convertArguments hvs) m v m' hm hr
    | _ => exact .describe_fail _ _ _
  | .access note container n, he => by
    rw [evalWith, defined]
    refine .seq_still (h.closed.evalWith he (Or.inl trivial)) (binds_evalWith h he)
      fun target htarget => ?_
    cases target with
    | module c => exact .of_resting (Machine.calm_resting.member note c.obeys_any n)
    | _ => exact .describe_fail _ _ _
  | .block note items, he => by
    have hunit : Value.unit.Obeys d := trivial
    rw [evalWith]
    exact .inScope (h.closed.evalLastWith trivial he hunit) (binds_evalLastWith h he hunit)

theorem Expr.binds_evalAllWith (h : BindsInCalls d apply) :
    ∀ {es : List Expr}, AllObey d es → Binds d (allDefined es) (evalAllWith apply es)
  | [], _ => .pure []
  | e :: es, he => by
    rw [evalAllWith, allDefined]
    refine .seq (h.closed.evalWith he.1 (Or.inl trivial)) (binds_evalWith h he.1) fun v _ => ?_
    exact .seq_still (h.closed.evalAllWith he.2 (Or.inl trivial)) (binds_evalAllWith h he.2)
      fun vs _ => .pure _

theorem Expr.binds_evalLastWith (h : BindsInCalls d apply) :
    ∀ {es : List Expr} {last : Value}, AllObey d es → last.Obeys d →
      Binds d (allDefined es) (evalLastWith apply last es)
  | [], last, _, _ => .pure last
  | e :: es, _, he, _ => by
    rw [evalLastWith, allDefined]
    exact .seq (h.closed.evalWith he.1 (Or.inl trivial)) (binds_evalWith h he.1) fun v hv =>
      binds_evalLastWith h he.2 hv

end

/-! ### Functions -/

variable {host : Host}

theorem binds_callHost (hhost : host.Keeps d) (name : String) (args : List Value) (span : Span) :
    Binds d [] (Eval.asCall (Eval.callHost host name args span)) := by
  intro m v m' _ hr
  rw [Eval.callHost_eq] at hr
  cases hx : host name ⟨args, span, m.callDepth + 1⟩ m.toMemory with
  | error e memory =>
    rw [hx] at hr
    exact nomatch hr
  | ok w memory =>
    rw [hx] at hr
    obtain ⟨-, rfl⟩ := EStateM.Result.ok.inj hr
    refine ⟨[], rfl, ?_⟩
    show m.scopes.map memory.store.contents = m.scopes.map m.store.contents
    rw [(hhost.ok hx).1]

variable (hcaptured : ∀ v, d.captured v ↔ v.toRef? = none) (hhost : host.Keeps d)
include hcaptured hhost

/-- Wherever the body of a function ends, what it defined is gone. -/
theorem binds_callLambda (callsLeft : Nat) {identity : Nat} {type : TypeId} {params : List String}
    {body : Expr} {captured : List (String × Value)} {args : List Value}
    (hf : (Function.lambda identity type params body captured).Obeys d)
    (hargs : Value.AllObey d args) :
    Binds d [] (Eval.asCall
      (Eval.callLambda (Eval.applyWithin host callsLeft) params body captured args)) := by
  intro m v m' hm hr
  have hsound := Machine.sound_owning hcaptured hhost
  have hcopies := fun b hb => (hcaptured b.2).mp (hf.2.2.2 b hb)
  have hgood := (hsound.closed (hsound.applyWithin callsLeft)).evalWith hf.2.1 (Or.inl trivial) _
    (hsound.call hm hf hargs)
  rw [Eval.callLambda_eq] at hr
  cases hx : body.evalWith (Eval.applyWithin host callsLeft) (m.call params captured args) with
  | error e final =>
    rw [hx] at hr
    exact nomatch hr
  | ok w final =>
    rw [hx] at hr hgood
    obtain ⟨-, rfl⟩ := EStateM.Result.ok.inj hr
    refine ⟨[], rfl, ?_⟩
    rw [hm.plain_comeBack hf.2.2.1 hcopies hargs hgood.2.1]
    rfl

theorem bindsInCalls_applyWithin (callsLeft : Nat) :
    BindsInCalls d (Eval.applyWithin host callsLeft) := by
  have hsound := Machine.sound_owning hcaptured hhost
  refine ⟨hsound.closed (hsound.applyWithin callsLeft), fun {f args} span hf hargs => ?_⟩
  cases callsLeft with
  | zero => exact fun _ _ _ _ hr => nomatch hr
  | succ callsLeft =>
    cases f with
    | native identity type arity name => exact binds_callHost hhost name args span
    | lambda identity type params body captured =>
      exact binds_callLambda hcaptured hhost callsLeft hf hargs

end

end NumericTower
