import Mathlib
import NumericTower.Proofs.Eval.Circles
import NumericTower.Proofs.Eval.Stops

/-!
# Ends of evaluations and the limit of calls

Every evaluation ends, also when functions are applied to themselves: the rules derive a result for every
expression in every state, as long as no chain of handles runs into a circle. No chain ever does if all handles that
there are at the start find values that evaluation leaves alone, in chains that end. The evaluations that begin inside
an evaluation count the calls that are active around them, and they are never more than the settings allow.

## Key results
- `evaluates_eval`: the rules derive what the evaluator computes
- `Expr.Anchored.safe`: a condition on the start only
- `not_evaluates_name`: a name whose chain runs into a circle has no result
- `evaluation_ends_within_call_limit`
-/

namespace NumericTower

open Eval

variable {host : Host} {e x : Expr} {m m₁ m' : Machine} {k j : Nat} {task : Task}

/-! ### Derivations -/

/-- No chain of handles from a name runs into a circle. -/
def Machine.Acyclic (m : Machine) : Prop :=
  ∀ r ∈ m.handles, ¬m.store.RunsInCircle r

theorem Machine.Acyclic.of_mem (h : m.Acyclic) {v : Value} (hv : v ∈ m.scopes.values) :
    ∀ r, v = .ref r → ¬m.store.RunsInCircle r := by
  rintro r rfl
  exact h r (Value.mem_handles.mpr hv)

/-- Wherever an expression is evaluated inside an evaluation, no chain runs into a circle. -/
def Expr.Safe (host : Host) (e : Expr) (m : Machine) : Prop :=
  ∀ k e' m', Begins host e m k (.expr e') m' → m'.Acyclic

/-- The same for expressions that are evaluated one after the other. -/
def Expr.AllSafe (host : Host) (es : List Expr) (m : Machine) : Prop :=
  ∀ before x after vs m₁, es = before ++ x :: after → evalAll host before m = .ok vs m₁ → x.Safe host m₁

namespace Expr

theorem Safe.start (h : e.Safe host m) (hstart : Starts host e m j (.expr x) m₁) : x.Safe host m₁ :=
  fun k e' m' hbegins => h (j + k) e' m' (hstart.begins hbegins)

theorem Safe.acyclic (h : e.Safe host m) : m.Acyclic :=
  h 0 e m .here

theorem Safe.parts (h : e.Safe host m) (hon : ∀ vs, e.GoesOn vs) : AllSafe host e.parts (e.opened m) :=
  fun _ _ _ vs _ hparts hbefore => h.start (.part hparts hbefore (hon vs))

theorem AllSafe.head {es : List Expr} (h : AllSafe host (e :: es) m) : e.Safe host m :=
  h [] e es [] m rfl rfl

theorem AllSafe.tail {es : List Expr} {v : Value} (h : AllSafe host (e :: es) m)
    (he : e.eval host m = .ok v m₁) : AllSafe host es m₁ := by
  rintro before x after vs m₂ rfl hbefore
  refine h (e :: before) x after (v :: vs) m₂ rfl ?_
  rw [evalAll_cons he, hbefore]
  rfl

end Expr

/-- Whether the body of a function that is applied is safe. -/
def Function.Safe (host : Host) (f : Function) (args : List Value) (m : Machine) : Prop :=
  ∀ identity type params body captured, f = .lambda identity type params body captured →
    m.callDepth < m.options.maxCallDepth → body.Safe host (m.call params captured args)

/-- With so many calls left, every application has a derivation. -/
def CallsDerived (host : Host) (n : Nat) : Prop :=
  ∀ (span : Span) (f : Function) (args : List Value) (m : Machine), m.callsLeft = n →
    f.Safe host args m → Applies host span f args m (applyIn host m span f args m)

variable {n : Nat}

/-- A call, if its callee, its arguments and what they apply have derivations. -/
theorem evaluates_call (hcalls : CallsDerived host n) {note : Annotation} {callee : Expr}
    {args : List Expr} (hn : m.callsLeft = n) (h : (Expr.call note callee args).Safe host m)
    (hcallee : Evaluates host callee m (callee.eval host m))
    (hargs : ∀ {m : Machine}, m.callsLeft = n → Expr.AllSafe host args m →
      EvaluatesAll host args m (Expr.evalAll host args m)) :
    Evaluates host (.call note callee args) m ((Expr.call note callee args).eval host m) := by
  cases hr : callee.eval host m with
  | error err m₁ =>
    rw [Expr.eval_call_of_error hr]
    exact .callee (hr ▸ hcallee)
  | ok v m₁ =>
    rw [hr] at hcallee
    by_cases hv : ∃ f, v = .function f
    · obtain ⟨f, rfl⟩ := hv
      by_cases harity : f.arity = args.length
      · have hn₁ : m₁.callsLeft = n := (Expr.framed_eval hr).callsLeft_eq.trans hn
        -- The arguments are the parts after the callee, and its value is a function of so many.
        have hsafe : Expr.AllSafe host args m₁ := by
          rintro before x after vs m₂ hsplit hbefore
          have hparts : (Expr.call note callee args).parts = (callee :: before) ++ x :: after :=
            congrArg (callee :: ·) hsplit
          have hvalues : Expr.evalAll host (callee :: before) m = .ok (.function f :: vs) m₂ := by
            rw [Expr.evalAll_cons hr, hbefore]
            rfl
          exact h.start (.part hparts hvalues ⟨f, rfl, harity⟩)
        have hvalues := hargs hn₁ hsafe
        cases has : Expr.evalAll host args m₁ with
        | error err m₂ =>
          rw [Expr.eval_call_of_arity_eq hr harity, has]
          exact .arguments hcallee harity (has ▸ hvalues)
        | ok vs m₂ =>
          rw [Expr.eval_call hr harity has]
          refine .call hcallee harity (has ▸ hvalues) (hcalls _ _ _ _ ?_ ?_)
          · exact (Expr.framed_evalAll has).callsLeft_eq.trans hn₁
          · rintro identity type params body captured rfl hlimit
            exact h.start (.body hr harity has hlimit)
      · rw [Expr.eval_call_of_arity_ne hr harity]
        exact .arity hcallee harity
    · rw [Expr.eval_call_of_no_function hr (not_exists.mp hv)]
      exact .noFunction hcallee (not_exists.mp hv)

-- Structural in the expression: all parts have as many calls left as the whole, so one fact about calls serves.
mutual

theorem evaluates_of_calls (hcalls : CallsDerived host n) : ∀ (e : Expr) {m : Machine},
    m.callsLeft = n → e.Safe host m → Evaluates host e m (e.eval host m)
  | .literal .., _, _, _ => .literal
  | .name note name, m, _, h => by
    cases hv : m.scopes.find? name with
    | none =>
      rw [Expr.eval_name_of_unbound hv]
      exact .unbound hv
    | some v =>
      rw [Expr.eval_name hv]
      exact .name hv (Store.leadsTo_resolve? (h.acyclic.of_mem (Scopes.mem_values_of_find? hv)))
  | .unary note op operand, m, hn, h => by
    rw [Expr.eval_unary]
    exact .unary (evaluates_of_calls hcalls operand hn (h.parts fun _ => trivial).head)
  | .binary note op lhs rhs, m, hn, h => by
    have hparts : Expr.AllSafe host [lhs, rhs] m := h.parts fun _ => trivial
    have hlhs := evaluates_of_calls hcalls lhs hn hparts.head
    cases hl : lhs.eval host m with
    | error err m₁ =>
      rw [Expr.eval_binary_of_error hl]
      exact .left (hl ▸ hlhs)
    | ok l m₁ =>
      rw [Expr.eval_binary hl]
      have hn₁ := (Expr.framed_eval hl).callsLeft_eq.trans hn
      exact .binary (hl ▸ hlhs) (evaluates_of_calls hcalls rhs hn₁ (hparts.tail hl).head)
  | .define note name value, m, hn, h => by
    rw [Expr.eval_define]
    exact .define (evaluates_of_calls hcalls value hn (h.parts fun _ => trivial).head)
  | .product note items, m, hn, h => by
    rw [Expr.eval_product]
    exact .product (evaluatesAll_of_calls hcalls items hn (h.parts fun _ => trivial))
  | .lambda note params body, m, _, h => by
    rw [Expr.eval_lambda]
    refine .lambda (Store.allLeadTo_resolved? fun v hv => ?_)
    obtain ⟨b, hb, rfl⟩ := List.mem_map.mp hv
    exact h.acyclic.of_mem (Scopes.mem_values_of_visible hb)
  | .call note callee args, m, hn, h => by
    have hcallee : callee.Safe host m :=
      h.start (.part (show _ = [] ++ callee :: args from rfl)
        (show Expr.evalAll host [] m = .ok [] m from rfl) trivial)
    exact evaluates_call hcalls hn h (evaluates_of_calls hcalls callee hn hcallee)
      (evaluatesAll_of_calls hcalls args)
  | .access note container name, m, hn, h => by
    rw [Expr.eval_access]
    exact .access (evaluates_of_calls hcalls container hn (h.parts fun _ => trivial).head)
  | .block note items, m, hn, h => by
    rw [Expr.eval_block]
    exact .block (evaluatesAll_of_calls hcalls items hn (h.parts fun _ => trivial))

theorem evaluatesAll_of_calls (hcalls : CallsDerived host n) : ∀ (es : List Expr) {m : Machine},
    m.callsLeft = n → Expr.AllSafe host es m → EvaluatesAll host es m (Expr.evalAll host es m)
  | [], _, _, _ => .nil
  | e :: es, m, hn, h => by
    have he := evaluates_of_calls hcalls e hn h.head
    cases hr : e.eval host m with
    | error err m₁ =>
      rw [Expr.evalAll_cons_of_error hr]
      exact .head (hr ▸ he)
    | ok v m₁ =>
      rw [Expr.evalAll_cons hr]
      have hn₁ := (Expr.framed_eval hr).callsLeft_eq.trans hn
      exact .cons (hr ▸ he) (evaluatesAll_of_calls hcalls es hn₁ (h.tail hr))

end

/-- Applications have derivations with any number of calls left: the functions that are applied below have one
call less. -/
theorem callsDerived (host : Host) (n : Nat) : CallsDerived host n := by
  induction n with
  | zero =>
    intro span f args m hn _
    have hlimit : m.options.maxCallDepth ≤ m.callDepth := Nat.sub_eq_zero_iff_le.mp hn
    rw [applyIn_of_limit hlimit]
    exact .tooDeep hlimit
  | succ n ih =>
    intro span f args m hn hsafe
    have hlimit : m.callDepth < m.options.maxCallDepth := Nat.lt_of_sub_eq_succ hn
    cases f with
    | native identity type arity name =>
      rw [applyIn_native hlimit]
      exact .native hlimit
    | lambda identity type params body captured =>
      obtain ⟨hdepth, hoptions⟩ := m.callDepth_call params captured args
      have hless : (m.call params captured args).callsLeft = n := by
        rw [Machine.callsLeft] at hn ⊢
        rw [hdepth, hoptions]
        omega
      rw [applyIn_lambda hlimit]
      exact .lambda hlimit (evaluates_of_calls ih body hless (hsafe _ _ _ _ _ rfl hlimit))

/-- The evaluation of every expression has a derivation. -/
theorem evaluates_eval (h : e.Safe host m) : Evaluates host e m (e.eval host m) :=
  evaluates_of_calls (callsDerived host _) e rfl h

/-- Where all handles are anchored at the start, no chain runs into a circle. -/
theorem Expr.Anchored.safe (h : e.Anchored host m) : e.Safe host m :=
  fun _ _ _ hbegins r _ => h.not_runsInCircle hbegins r

/-- In the state before any evaluation there are no handles to anchor but those of the expression. -/
theorem Expr.anchored_initial {options : EvalOptions}
    (he : e.Obeys (.anchored { EvalState.initial options with scopes := .empty })) :
    e.Anchored Host.standard { EvalState.initial options with scopes := .empty } where
  reachable := .empty
  stored r v hv := by
    -- No handle finds anything in the empty store.
    have hnone : Store.empty.get? r = (none : Option Value) := rfl
    exact nomatch hnone.symm.trans hv
  bound _ hv := nomatch hv
  expr := he
  host := (Host.keeps_standard _).keepsAnchored

/-- A name whose chain runs into a circle has no result. -/
theorem not_evaluates_name {name : String} {r : ValueRef} (hname : m.scopes.find? name = some (.ref r))
    (hcircle : m.store.RunsInCircle r) (note : Annotation) (o : Outcome Value) :
    ¬Evaluates host (.name note name) m o := by
  intro h
  cases h with
  | unbound hnone => exact nomatch hnone.symm.trans hname
  | name hsome hv =>
    obtain rfl := Option.some.inj (hsome.symm.trans hname)
    exact hv.not_runsInCircle r rfl hcircle

/-- Whatever calls what, if all handles are anchored at the start, then exactly one result has a derivation by the
rules, which is finite, and it is the one that is computed; more generally, if no chain of handles runs into a circle
wherever an evaluation begins. The result is a value or an error, except that the program stops exactly if an exponent
does not fit for an operator or in a host function that begins inside. Where something begins inside the evaluation,
as many calls are active as enclose it, at least one and no more than the settings allow if it is run by a call. A
call at the limit fails when its arguments are evaluated, and nothing of its callee begins. -/
theorem evaluation_ends_within_call_limit (host : Host) (e : Expr) (m : Machine) :
    (e.Anchored host m → ∀ r, Evaluates host e m r ↔ e.eval host m = r) ∧
    (e.Safe host m → ∀ r, Evaluates host e m r ↔ e.eval host m = r) ∧
    (Eval.Stops (e.eval host m) ↔ ∃ k task m', Begins host e m k task m' ∧ task.Overflows host m') ∧
    (∀ k task m', Begins host e m k task m' →
      m'.callDepth = m.callDepth + k ∧ m'.options = m.options ∧
        (k ≠ 0 → 1 ≤ m'.callDepth ∧ m'.callDepth ≤ m.options.maxCallDepth)) ∧
    (∀ k note callee args m₁ m₂ m₃ f vs,
      Begins host e m k (.expr (.call note callee args)) m₁ →
      callee.eval host m₁ = .ok (.function f) m₂ → f.arity = args.length →
      Expr.evalAll host args m₂ = .ok vs m₃ → m.options.maxCallDepth ≤ m₁.callDepth →
      (Expr.call note callee args).eval host m₁ =
          .error ⟨.callDepthExceeded m.options.maxCallDepth, note.span⟩ m₃ ∧
        ∀ task m', ¬Starts host (.call note callee args) m₁ 1 task m') := by
  have hderived : e.Safe host m → ∀ r, Evaluates host e m r ↔ e.eval host m = r :=
    fun hsafe r => ⟨Evaluates.eval_eq, fun h => h ▸ evaluates_eval hsafe⟩
  refine ⟨fun h => hderived h.safe, hderived, Expr.stops_iff_begins, fun k task m' h => ?_,
    fun k note callee args m₁ m₂ m₃ f vs h hcallee harity hargs hlimit => ?_⟩
  · obtain ⟨hdepth, hoptions, hbound⟩ := h.callDepth_eq
    exact ⟨hdepth, hoptions, fun hk => ⟨by omega, hbound hk⟩⟩
  · obtain ⟨-, hoptions, -⟩ := h.callDepth_eq
    -- Callee and arguments leave the active calls and the settings as they were.
    have hframed := (Expr.framed_eval hcallee).trans (Expr.framed_evalAll hargs)
    have hoptions₃ := hframed.options.trans hoptions
    constructor
    · rw [Expr.eval_call hcallee harity hargs, applyIn_of_limit, hoptions₃]
      rwa [hoptions₃, hframed.callDepth]
    · intro task m' hstart
      obtain ⟨hdepth, -, hbound⟩ := hstart.callDepth_eq
      have := hbound Nat.one_ne_zero
      rw [hoptions] at this
      omega

/-- A function that is applied to itself, which applies it to itself again, until two calls are active. -/
theorem evaluation_ends_within_call_limit_self_application :
    let note : Annotation := ⟨.top, ⟨1, 1⟩⟩
    let m : Machine := { EvalState.initial { maxCallDepth := 2 } with scopes := .empty }
    let self : Expr := .lambda note ["f"] (.call note (.name note "f") [.name note "f"])
    let e : Expr := .call note self [self]
    e.Anchored Host.standard m ∧
      ∃ r, Evaluates Host.standard e m r ∧ cause? r = some (.callDepthExceeded 2) := by
  intro note m self e
  have hself : self.Obeys (.anchored m) := ⟨trivial, trivial, trivial, trivial⟩
  have hanchored : e.Anchored Host.standard m := Expr.anchored_initial ⟨hself, hself, trivial⟩
  have hresult := ((evaluation_ends_within_call_limit Host.standard e m).1 hanchored _).mpr rfl
  exact ⟨hanchored, e.eval Host.standard m, hresult, by decide +kernel⟩

/-- From the state before any evaluation the product of `2 ^ 2 ^ 62` with itself stops, and a name that is defined as
the handle that the definition gives out has no result, though no values are stored at the start. -/
theorem evaluation_without_result :
    let note : Annotation := ⟨.top, ⟨1, 1⟩⟩
    let m : Machine := { EvalState.initial {} with scopes := .empty }
    let v : Value := .number (.bigReal (.powerOfTwo (2 ^ 62)))
    let product : Expr := .binary note .mul (.literal note v) (.literal note v)
    let circle : Expr := .block note [.define note "x" (.literal note (.ref ⟨0, 0⟩)), .name note "x"]
    product.Anchored Host.standard m ∧ Eval.Stops (product.eval Host.standard m) ∧
      m.store = .empty ∧ ∀ r, ¬Evaluates Host.standard circle m r := by
  intro note m v product circle
  refine ⟨Expr.anchored_initial ⟨trivial, trivial⟩, ?_, rfl, fun r h => ?_⟩
  · have hoverflows : Value.Overflows .mul v v 256 :=
      (Value.binaryOp_eq_exponentOverflow_iff _ _ _ _).mp (Number.binaryOp_powerOfTwo_overflow (by decide))
    exact Expr.stops_iff_begins.mpr ⟨0, _, m, .here, .binary rfl rfl hoverflows⟩
  · have hdefine : (Expr.define note "x" (.literal note (.ref ⟨0, 0⟩))).eval Host.standard m.enter =
        .ok (.ref ⟨0, 0⟩) (m.enter.bind "x" (.ref ⟨0, 0⟩)) := rfl
    -- The first handle that a definition gives out is the one that is stored.
    have hlink : (m.enter.bind "x" (.ref ⟨0, 0⟩)).store.PointsTo ⟨0, 0⟩ ⟨0, 0⟩ := rfl
    have hname : ∀ o, ¬Evaluates Host.standard (.name note "x") (m.enter.bind "x" (.ref ⟨0, 0⟩)) o :=
      not_evaluates_name rfl ⟨⟨0, 0⟩, .refl, .single hlink⟩ note
    change Evaluates Host.standard (.block note _) m r at h
    cases h with
    | block hitems =>
      cases hitems with
      | head h => exact nomatch hdefine.symm.trans h.eval_eq
      | cons h hrest =>
        obtain ⟨rfl, rfl⟩ := EStateM.Result.ok.inj (hdefine.symm.trans h.eval_eq)
        cases hrest with
        | head h => exact hname _ h
        | cons h _ => exact hname _ h

end NumericTower
