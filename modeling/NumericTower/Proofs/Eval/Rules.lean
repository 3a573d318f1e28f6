import Mathlib
import NumericTower.Proofs.Eval.Chains
import NumericTower.Proofs.Eval.Framing

/-!
# Rules of evaluation

Evaluation as rules that know of no calls that are left. The parts of an expression are evaluated one after
the other, names are looked up by following chains of handles to the end, and the body of a function is
evaluated if fewer calls are active than the settings allow. What has a derivation by the rules is evaluated
in finitely many steps.

## Key results
- `Evaluates`, `EvaluatesAll`, `Applies`: the rules
- `Evaluates.eval_eq`: what the rules derive is what the evaluator computes
-/

namespace NumericTower

namespace Eval

/-- What a computation ended in. -/
abbrev Outcome (α : Type) := EStateM.Result EvalError Machine α

/-- The cause of the error, if there is one. -/
def cause? {α : Type} : Outcome α → Option EvalCause
  | .ok .. => none
  | .error err _ => some err.cause

theorem exists_ok_of_cause?_eq_none {α : Type} {r : Outcome α} (h : cause? r = none) :
    ∃ v m, r = .ok v m := by
  cases r with
  | ok v m => exact ⟨v, m, rfl⟩
  | error e m => exact nomatch h

theorem exists_error_of_cause?_eq_some {α : Type} {r : Outcome α} {cause : EvalCause}
    (h : cause? r = some cause) : ∃ e m, r = .error e m ∧ e.cause = cause := by
  cases r with
  | ok v m => exact nomatch h
  | error e m => exact ⟨e, m, rfl, Option.some.inj h⟩

/-- Goes on after a value. An error stays. -/
def andThen {α β : Type} (r : Outcome α) (f : α → EvalM β) : Outcome β :=
  match r with
  | .ok v m => f v m
  | .error e m => .error e m

theorem bind_eq_andThen {α β : Type} (x : EvalM α) (f : α → EvalM β) (m : Machine) :
    (x >>= f) m = andThen (x m) f := by
  rw [bind_run]
  cases x m <;> rfl

/-- The value of a name, from what its chain ends in. -/
def lookedUp (span : Span) (m : Machine) : Option Value → Outcome Value
  | some v => .ok v m
  | none => .error ⟨.danglingReference, span⟩ m

/-- The function that captured what the chains of all visible names end in. -/
def closed (note : Annotation) (params : List String) (body : Expr) (m : Machine) :
    Option (Frame Value) → Outcome Value
  | some captured => .ok (.function (.lambda m.nextIdentity note.type params body captured))
      { m with nextIdentity := m.nextIdentity + 1 }
  | none => .error ⟨.danglingReference, note.span⟩ m

/-- The member of a value, if it is a module. -/
def memberOf (note : Annotation) (span : Span) (name : String) : Value → EvalM Value
  | .module c => member note c name
  | v => do
    let found ← describe v
    fail (.notAModule found) span

/-- The error of a call of a value that is no function. -/
def notCallable (v : Value) (span : Span) : EvalM Value := do
  let found ← describe v
  fail (.notCallable found) span

end Eval

open Eval

mutual

/-- The evaluation of an expression in a state ends in a value or an error. -/
inductive Evaluates (host : Host) : Expr → Machine → Outcome Value → Prop where
  | literal {note : Annotation} {v : Value} {m : Machine} :
      Evaluates host (.literal note v) m (.ok v m)
  | unbound {note : Annotation} {name : String} {m : Machine} (h : m.scopes.find? name = none) :
      Evaluates host (.name note name) m (.error ⟨.unboundName name, note.span⟩ m)
  | name {note : Annotation} {name : String} {m : Machine} {v : Value} {x : Option Value}
      (h : m.scopes.find? name = some v) (hv : m.store.LeadsTo v x) :
      Evaluates host (.name note name) m (lookedUp note.span m x)
  | unary {note : Annotation} {op : UnaryOp} {operand : Expr} {m : Machine} {r : Outcome Value}
      (h : Evaluates host operand m r) :
      Evaluates host (.unary note op operand) m (andThen r (Eval.unary note op))
  | left {note : Annotation} {op : BinaryOp} {lhs rhs : Expr} {m m₁ : Machine} {err : EvalError}
      (h : Evaluates host lhs m (.error err m₁)) :
      Evaluates host (.binary note op lhs rhs) m (.error err m₁)
  | binary {note : Annotation} {op : BinaryOp} {lhs rhs : Expr} {m m₁ : Machine} {l : Value}
      {r : Outcome Value} (hl : Evaluates host lhs m (.ok l m₁)) (hr : Evaluates host rhs m₁ r) :
      Evaluates host (.binary note op lhs rhs) m (andThen r (Eval.binary note op l))
  | define {note : Annotation} {name : String} {value : Expr} {m : Machine} {r : Outcome Value}
      (h : Evaluates host value m r) :
      Evaluates host (.define note name value) m (andThen r fun v m => .ok v (m.bind name v))
  | product {note : Annotation} {items : List Expr} {m : Machine} {r : Outcome (List Value)}
      (h : EvaluatesAll host items m r) :
      Evaluates host (.product note items) m (andThen r fun vs m => .ok (.tuple vs) m)
  | lambda {note : Annotation} {params : List String} {body : Expr} {m : Machine}
      {x : Option (Frame Value)} (h : m.store.AllLeadTo m.scopes.visible x) :
      Evaluates host (.lambda note params body) m (closed note params body m x)
  | callee {note : Annotation} {callee : Expr} {args : List Expr} {m m₁ : Machine} {err : EvalError}
      (h : Evaluates host callee m (.error err m₁)) :
      Evaluates host (.call note callee args) m (.error err m₁)
  | noFunction {note : Annotation} {callee : Expr} {args : List Expr} {m m₁ : Machine} {v : Value}
      (h : Evaluates host callee m (.ok v m₁)) (hv : ∀ f, v ≠ .function f) :
      Evaluates host (.call note callee args) m (notCallable v callee.span m₁)
  | arity {note : Annotation} {callee : Expr} {args : List Expr} {m m₁ : Machine} {f : Function}
      (h : Evaluates host callee m (.ok (.function f) m₁)) (harity : f.arity ≠ args.length) :
      Evaluates host (.call note callee args) m
        (.error ⟨.arityMismatch f.arity args.length, note.span⟩ m₁)
  | arguments {note : Annotation} {callee : Expr} {args : List Expr} {m m₁ m₂ : Machine} {f : Function}
      {err : EvalError} (h : Evaluates host callee m (.ok (.function f) m₁))
      (harity : f.arity = args.length) (hargs : EvaluatesAll host args m₁ (.error err m₂)) :
      Evaluates host (.call note callee args) m (.error err m₂)
  | call {note : Annotation} {callee : Expr} {args : List Expr} {m m₁ m₂ : Machine} {f : Function}
      {vs : List Value} {r : Outcome Value} (h : Evaluates host callee m (.ok (.function f) m₁))
      (harity : f.arity = args.length) (hargs : EvaluatesAll host args m₁ (.ok vs m₂))
      (hcall : Applies host note.span f (passed m₂ f vs) m₂ r) :
      Evaluates host (.call note callee args) m r
  | access {note : Annotation} {container : Expr} {name : String} {m : Machine} {r : Outcome Value}
      (h : Evaluates host container m r) :
      Evaluates host (.access note container name) m (andThen r (memberOf note container.span name))
  | block {note : Annotation} {items : List Expr} {m : Machine} {r : Outcome (List Value)}
      (h : EvaluatesAll host items m.enter r) :
      Evaluates host (.block note items) m
        (mapState leaveScope (andThen r fun vs m => .ok (vs.getLastD .unit) m))

/-- The evaluation of expressions, one after the other, ends in their values or an error. -/
inductive EvaluatesAll (host : Host) : List Expr → Machine → Outcome (List Value) → Prop where
  | nil {m : Machine} : EvaluatesAll host [] m (.ok [] m)
  | head {e : Expr} {es : List Expr} {m m₁ : Machine} {err : EvalError}
      (h : Evaluates host e m (.error err m₁)) : EvaluatesAll host (e :: es) m (.error err m₁)
  | cons {e : Expr} {es : List Expr} {m m₁ : Machine} {v : Value} {r : Outcome (List Value)}
      (h : Evaluates host e m (.ok v m₁)) (hes : EvaluatesAll host es m₁ r) :
      EvaluatesAll host (e :: es) m (andThen r fun vs m => .ok (v :: vs) m)

/-- The application of a function ends in a value or an error. At the limit it fails, and nothing of the
function runs. -/
inductive Applies (host : Host) : Span → Function → List Value → Machine → Outcome Value → Prop where
  | tooDeep {span : Span} {f : Function} {args : List Value} {m : Machine}
      (h : m.options.maxCallDepth ≤ m.callDepth) :
      Applies host span f args m (.error ⟨.callDepthExceeded m.options.maxCallDepth, span⟩ m)
  | lambda {span : Span} {identity : Nat} {type : TypeId} {params : List String} {body : Expr}
      {captured : List (String × Value)} {args : List Value} {m : Machine} {r : Outcome Value}
      (h : m.callDepth < m.options.maxCallDepth)
      (hbody : Evaluates host body (m.call params captured args) r) :
      Applies host span (.lambda identity type params body captured) args m (mapState m.comeBack r)
  | native {span : Span} {identity : Nat} {type : TypeId} {arity : Nat} {name : String}
      {args : List Value} {m : Machine} (h : m.callDepth < m.options.maxCallDepth) :
      Applies host span (.native identity type arity name) args m
        (mapState (fun memory => { m with toMemory := memory })
          (host name ⟨args, span, m.callDepth + 1⟩ m.toMemory))

end

/-! ### What the evaluator does -/

/-- How many more calls may be active. -/
def Machine.callsLeft (m : Machine) : Nat :=
  m.options.maxCallDepth - m.callDepth

/-- The values of expressions, one after the other. -/
def Expr.evalAll (host : Host) (es : List Expr) : EvalM (List Value) := fun m =>
  evalAllWith (applyIn host m) es m

variable {host : Host} {m m₁ : Machine}

theorem Expr.framed_eval {e : Expr} {v : Value} (h : e.eval host m = .ok v m₁) : m.Framed m₁ := by
  have hframed := ((Machine.sound_framing host).eval e.obeys_any m trivial).final.2
  rwa [h] at hframed

theorem Expr.framed_evalAll {es : List Expr} {vs : List Value} (h : evalAll host es m = .ok vs m₁) :
    m.Framed m₁ := by
  have hframed : m.Framed (Guarantee.finalState (evalAll host es m)) :=
    ((Machine.sound_framing host).evalAll _ (allObey_any es) m trivial).final.2
  rwa [h] at hframed

theorem Machine.Framed.callsLeft_eq (h : m.Framed m₁) : m₁.callsLeft = m.callsLeft := by
  rw [callsLeft, callsLeft, h.options, h.callDepth]

theorem Eval.applyIn_eq (h : m.Framed m₁) : applyIn host m = applyIn host m₁ := by
  rw [applyIn, applyIn, h.options, h.callDepth]

/-- Evaluating an expression and going on. -/
theorem Expr.evalWith_bind {β : Type} {e : Expr} {r : Outcome Value} (h : e.eval host m = r)
    (f : Value → EvalM β) : (e.evalWith (applyIn host m) >>= f) m = andThen r f := by
  rw [bind_eq_andThen]
  exact congrArg (andThen · f) h

/-- The last value is the last of all values. -/
theorem Expr.evalLastWith_eq (apply : Apply) (last : Value) (es : List Expr) (m : Machine) :
    evalLastWith apply last es m = andThen (evalAllWith apply es m) fun vs m => .ok (vs.getLastD last) m := by
  induction es generalizing last m with
  | nil => rfl
  | cons e es ih =>
    rw [evalLastWith, evalAllWith, bind_eq_andThen, bind_eq_andThen]
    cases e.evalWith apply m with
    | error err m₁ => rfl
    | ok v m₁ =>
      simp only [andThen, ih, bind_eq_andThen]
      cases evalAllWith apply es m₁ with
      | error err m₂ => rfl
      | ok vs m₂ => cases vs <;> rfl

theorem Expr.eval_name_of_unbound {name : String} (h : m.scopes.find? name = none) (note : Annotation) :
    (Expr.name note name).eval host m = .error ⟨.unboundName name, note.span⟩ m := by
  rw [eval, evalWith, lookup, get_run, h]
  rfl

theorem Expr.eval_name {note : Annotation} {name : String} {v : Value}
    (h : m.scopes.find? name = some v) :
    (Expr.name note name).eval host m = lookedUp note.span m (m.store.resolve? v) := by
  rw [eval, evalWith, lookup, get_run, h]
  simp only [resolve_eq]
  cases m.store.resolve? v <;> rfl

theorem Expr.eval_unary (note : Annotation) (op : UnaryOp) (operand : Expr) (m : Machine) :
    (unary note op operand).eval host m = andThen (operand.eval host m) (Eval.unary note op) := by
  rw [eval, evalWith, evalWith_bind rfl]

theorem Expr.eval_define (note : Annotation) (name : String) (value : Expr) (m : Machine) :
    (define note name value).eval host m =
      andThen (value.eval host m) fun v m => .ok v (m.bind name v) := by
  rw [eval, evalWith, evalWith_bind rfl]
  congr 1
  funext v m'
  rw [bind_eq_andThen, bind_eq]
  rfl

theorem Expr.eval_product (note : Annotation) (items : List Expr) (m : Machine) :
    (product note items).eval host m =
      andThen (evalAll host items m) fun vs m => .ok (.tuple vs) m := by
  rw [eval, evalWith, bind_eq_andThen]
  rfl

theorem Expr.eval_lambda (note : Annotation) (params : List String) (body : Expr) (m : Machine) :
    (lambda note params body).eval host m =
      closed note params body m (resolved? m.store m.scopes.visible) := by
  rw [eval, evalWith, closeOver, get_run, bind_eq_andThen, resolveFrame_eq]
  cases resolved? m.store m.scopes.visible <;> rfl

theorem Expr.eval_access (note : Annotation) (container : Expr) (name : String) (m : Machine) :
    (access note container name).eval host m =
      andThen (container.eval host m) (memberOf note container.span name) := by
  rw [eval, evalWith, evalWith_bind rfl]
  rfl

theorem Expr.eval_block (note : Annotation) (items : List Expr) (m : Machine) :
    (block note items).eval host m =
      mapState leaveScope (andThen (evalAll host items m.enter) fun vs m => .ok (vs.getLastD .unit) m) := by
  rw [eval, evalWith, inScope_eq, evalLastWith_eq]
  rfl

section

variable {e : Expr} {err : EvalError} {v : Value}

theorem Expr.evalAll_cons_of_error (h : e.eval host m = .error err m₁) (es : List Expr) :
    evalAll host (e :: es) m = .error err m₁ := by
  rw [evalAll, evalAllWith, evalWith_bind h]
  rfl

theorem Expr.evalAll_cons (h : e.eval host m = .ok v m₁) (es : List Expr) :
    evalAll host (e :: es) m = andThen (evalAll host es m₁) fun vs m => .ok (v :: vs) m := by
  rw [evalAll, evalAllWith, evalWith_bind h, applyIn_eq (framed_eval h)]
  exact bind_eq_andThen _ _ m₁

theorem Expr.eval_binary_of_error (h : e.eval host m = .error err m₁) (note : Annotation) (op : BinaryOp)
    (rhs : Expr) : (binary note op e rhs).eval host m = .error err m₁ := by
  rw [eval, evalWith, evalWith_bind h]
  rfl

theorem Expr.eval_binary (h : e.eval host m = .ok v m₁) (note : Annotation) (op : BinaryOp)
    (rhs : Expr) :
    (binary note op e rhs).eval host m = andThen (rhs.eval host m₁) (Eval.binary note op v) := by
  rw [eval, evalWith, evalWith_bind h, applyIn_eq (framed_eval h)]
  exact bind_eq_andThen _ _ m₁

end

section

variable {note : Annotation} {callee : Expr} {args : List Expr} {f : Function} {v : Value}
  {err : EvalError} {vs : List Value} {m₂ : Machine}

theorem Expr.eval_call_of_error (h : callee.eval host m = .error err m₁) :
    (call note callee args).eval host m = .error err m₁ := by
  rw [eval, evalWith, evalWith_bind h]
  rfl

theorem Expr.eval_call_of_no_function (h : callee.eval host m = .ok v m₁) (hv : ∀ f, v ≠ .function f) :
    (call note callee args).eval host m = notCallable v callee.span m₁ := by
  rw [eval, evalWith, evalWith_bind h]
  cases v with
  | function f => exact absurd rfl (hv f)
  | _ => rfl

theorem Expr.eval_call_of_arity_ne (h : callee.eval host m = .ok (.function f) m₁)
    (harity : f.arity ≠ args.length) :
    (call note callee args).eval host m =
      .error ⟨.arityMismatch f.arity args.length, note.span⟩ m₁ := by
  rw [eval, evalWith, evalWith_bind h]
  simp only [andThen, if_pos harity]
  rfl

/-- With as many arguments as the function takes, their values are converted and passed. -/
theorem Expr.eval_call_of_arity_eq (h : callee.eval host m = .ok (.function f) m₁)
    (harity : f.arity = args.length) :
    (call note callee args).eval host m =
      andThen (evalAll host args m₁) fun vs m₂ =>
        applyIn host m₁ note.span f (passed m₂ f vs) m₂ := by
  rw [eval, evalWith, evalWith_bind h, applyIn_eq (framed_eval h)]
  simp only [andThen, harity, ne_eq, not_true_eq_false, if_false]
  exact bind_eq_andThen _ _ m₁

theorem Expr.eval_call (h : callee.eval host m = .ok (.function f) m₁) (harity : f.arity = args.length)
    (hargs : evalAll host args m₁ = .ok vs m₂) :
    (call note callee args).eval host m = applyIn host m₂ note.span f (passed m₂ f vs) m₂ := by
  rw [eval_call_of_arity_eq h harity, hargs, ← applyIn_eq (framed_evalAll hargs)]
  rfl

end

/-! ### Applying a function -/

section

variable {span : Span} {args : List Value}

/-- At the limit nothing of the function runs. -/
theorem Eval.applyIn_of_limit (h : m.options.maxCallDepth ≤ m.callDepth) (f : Function) :
    applyIn host m span f args m = .error ⟨.callDepthExceeded m.options.maxCallDepth, span⟩ m := by
  rw [applyIn, Nat.sub_eq_zero_of_le h]
  rfl

theorem Machine.callDepth_call (m : Machine) (params : List String) (captured : List (String × Value))
    (args : List Value) :
    (m.call params captured args).callDepth = m.callDepth + 1 ∧
      (m.call params captured args).options = m.options := by
  have h := framed_bindAll
    { m with callDepth := m.callDepth + 1, scopes := functionScopes captured } params args
  exact ⟨h.callDepth, h.options⟩

/-- The body of a function is evaluated with one more active call. -/
theorem Eval.applyIn_lambda (h : m.callDepth < m.options.maxCallDepth) (identity : Nat) (type : TypeId)
    (params : List String) (body : Expr) (captured : List (String × Value)) :
    applyIn host m span (.lambda identity type params body captured) args m =
      mapState m.comeBack (body.eval host (m.call params captured args)) := by
  obtain ⟨hdepth, hoptions⟩ := m.callDepth_call params captured args
  -- One call less is left for the body, which is what the state with one more active call leaves.
  have hleft : m.options.maxCallDepth - m.callDepth =
      m.options.maxCallDepth - (m.callDepth + 1) + 1 := by omega
  rw [applyIn, hleft, applyWithin, callLambda_eq, Expr.eval, applyIn, hdepth, hoptions]

theorem Eval.applyIn_native (h : m.callDepth < m.options.maxCallDepth) (identity : Nat) (type : TypeId)
    (arity : Nat) (name : String) :
    applyIn host m span (.native identity type arity name) args m =
      mapState (fun memory => { m with toMemory := memory })
        (host name ⟨args, span, m.callDepth + 1⟩ m.toMemory) := by
  have hleft : m.options.maxCallDepth - m.callDepth =
      m.options.maxCallDepth - (m.callDepth + 1) + 1 := by omega
  rw [applyIn, hleft, applyWithin, callHost_eq]

end

/-! ### Evaluations with a value -/

section

variable {note : Annotation} {e : Expr} {v : Value} {m' : Machine}

theorem Eval.exists_of_andThen_eq_ok {α β : Type} {r : Outcome α} {f : α → EvalM β} {w : β}
    (h : andThen r f = .ok w m') : ∃ v m₁, r = .ok v m₁ ∧ f v m₁ = .ok w m' := by
  cases r with
  | ok v m₁ => exact ⟨v, m₁, rfl, h⟩
  | error e m₁ => exact nomatch h

theorem Expr.exists_of_eval_binary_eq_ok {op : BinaryOp} {lhs rhs : Expr}
    (h : (binary note op lhs rhs).eval host m = .ok v m') : ∃ l m₁ r m₂, lhs.eval host m = .ok l m₁ ∧
      rhs.eval host m₁ = .ok r m₂ ∧ Eval.binary note op l r m₂ = .ok v m' := by
  cases hl : lhs.eval host m with
  | error err m₁ => exact nomatch (eval_binary_of_error hl note op rhs).symm.trans h
  | ok l m₁ =>
    rw [eval_binary hl] at h
    obtain ⟨r, m₂, hr, h⟩ := exists_of_andThen_eq_ok h
    exact ⟨l, m₁, r, m₂, rfl, hr, h⟩

theorem Expr.exists_of_eval_call_eq_ok {callee : Expr} {args : List Expr}
    (h : (call note callee args).eval host m = .ok v m') : ∃ f m₁ vs m₂,
      callee.eval host m = .ok (.function f) m₁ ∧ evalAll host args m₁ = .ok vs m₂ ∧
      applyIn host m₁ note.span f (passed m₂ f vs) m₂ = .ok v m' := by
  cases hc : callee.eval host m with
  | error err m₁ => exact nomatch (eval_call_of_error hc).symm.trans h
  | ok c m₁ =>
    by_cases hf : ∃ f, c = .function f
    · obtain ⟨f, rfl⟩ := hf
      by_cases harity : f.arity = args.length
      · rw [eval_call_of_arity_eq hc harity] at h
        obtain ⟨vs, m₂, hvs, h⟩ := exists_of_andThen_eq_ok h
        exact ⟨f, m₁, vs, m₂, rfl, hvs, h⟩
      · exact nomatch (eval_call_of_arity_ne hc harity).symm.trans h
    · exact nomatch (eval_call_of_no_function hc (not_exists.mp hf)).symm.trans h

theorem Expr.exists_of_eval_lambda_eq_ok {params : List String} {body : Expr}
    (h : (lambda note params body).eval host m = .ok v m') :
    ∃ captured, resolved? m.store m.scopes.visible = some captured ∧
      v = .function (.lambda m.nextIdentity note.type params body captured) := by
  rw [eval_lambda] at h
  cases hc : resolved? m.store m.scopes.visible with
  | none =>
    rw [hc] at h
    exact nomatch h
  | some captured =>
    rw [hc] at h
    obtain ⟨rfl, -⟩ := EStateM.Result.ok.inj h
    exact ⟨captured, rfl, rfl⟩

theorem Expr.exists_of_evalAll_cons_eq_ok {es : List Expr} {vs : List Value}
    (h : evalAll host (e :: es) m = .ok vs m') :
    ∃ v m₁ ws, e.eval host m = .ok v m₁ ∧ evalAll host es m₁ = .ok ws m' ∧ vs = v :: ws := by
  cases he : e.eval host m with
  | error err m₁ => exact nomatch (evalAll_cons_of_error he es).symm.trans h
  | ok v m₁ =>
    rw [evalAll_cons he] at h
    obtain ⟨ws, m₂, hws, h⟩ := exists_of_andThen_eq_ok h
    obtain ⟨rfl, rfl⟩ := EStateM.Result.ok.inj h
    exact ⟨v, m₁, ws, rfl, hws, rfl⟩

end

/-! ### Rules and evaluator -/

mutual

/-- What the rules derive is what the evaluator computes. -/
theorem Evaluates.eval_eq : ∀ {e : Expr} {m : Machine} {r : Outcome Value},
    Evaluates host e m r → e.eval host m = r
  | _, _, _, .literal => rfl
  | _, _, _, .unbound h => Expr.eval_name_of_unbound h _
  | _, _, _, .name h hv => by rw [Expr.eval_name h, hv.resolve?_eq]
  | _, _, _, .unary h => by rw [Expr.eval_unary, h.eval_eq]
  | _, _, _, .left h => Expr.eval_binary_of_error h.eval_eq ..
  | _, _, _, .binary hl hr => by rw [Expr.eval_binary hl.eval_eq, hr.eval_eq]
  | _, _, _, .define h => by rw [Expr.eval_define, h.eval_eq]
  | _, _, _, .product h => by rw [Expr.eval_product, h.evalAll_eq]
  | _, _, _, .lambda h => by rw [Expr.eval_lambda, h.resolved?_eq]
  | _, _, _, .callee h => Expr.eval_call_of_error h.eval_eq
  | _, _, _, .noFunction h hv => Expr.eval_call_of_no_function h.eval_eq hv
  | _, _, _, .arity h harity => Expr.eval_call_of_arity_ne h.eval_eq harity
  | _, _, _, .arguments h harity hargs => by
    rw [Expr.eval_call_of_arity_eq h.eval_eq harity, hargs.evalAll_eq]
    rfl
  | _, _, _, .call h harity hargs hcall => by
    rw [Expr.eval_call h.eval_eq harity hargs.evalAll_eq, hcall.applyIn_eq]
  | _, _, _, .access h => by rw [Expr.eval_access, h.eval_eq]
  | _, _, _, .block h => by rw [Expr.eval_block, h.evalAll_eq]

theorem EvaluatesAll.evalAll_eq : ∀ {es : List Expr} {m : Machine} {r : Outcome (List Value)},
    EvaluatesAll host es m r → Expr.evalAll host es m = r
  | _, _, _, .nil => rfl
  | _, _, _, .head h => Expr.evalAll_cons_of_error h.eval_eq _
  | _, _, _, .cons h hes => by rw [Expr.evalAll_cons h.eval_eq, hes.evalAll_eq]

theorem Applies.applyIn_eq : ∀ {span : Span} {f : Function} {args : List Value} {m : Machine}
    {r : Outcome Value}, Applies host span f args m r → applyIn host m span f args m = r
  | _, _, _, _, _, .tooDeep h => applyIn_of_limit h _
  | _, _, _, _, _, .lambda h hbody => by rw [applyIn_lambda h, hbody.eval_eq]
  | _, _, _, _, _, .native h => applyIn_native h ..

end

end NumericTower
