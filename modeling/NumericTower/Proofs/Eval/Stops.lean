import Mathlib
import NumericTower.Proofs.Eval.Begins
import NumericTower.Proofs.Value.OperatorTyping

/-!
# Where evaluation stops

Where an exponent does not fit into 64 bits, the program stops: it ends neither with a value nor with an error that
it reports. This happens in a binary operator, when both operands have their values, or in a function of the host,
and nowhere else. Whatever is around it stops with it.

## Key results
- `Task.Overflows`: what stops by itself
- `Expr.stops_iff`: an expression by what starts below it
- `Starts.lt`: what starts below an evaluation has fewer calls left, or is a part of the expression
- `Expr.stops_iff_begins`: an evaluation stops exactly if something that begins inside it stops by itself
-/

namespace NumericTower

namespace Eval

/-- The program stops in a computation. -/
def Stops {σ α : Type} (r : EStateM.Result EvalError σ α) : Prop :=
  ∃ err s, r = .error err s ∧ err.cause = .exponentOverflow

variable {α β σ τ : Type} {r : Outcome α} {m : Machine}

@[simp] theorem not_stops_ok (v : α) (s : σ) : ¬Stops (.ok v s : EStateM.Result EvalError σ α) := by
  rintro ⟨err, s', h, -⟩
  exact nomatch h

@[simp] theorem stops_error_iff {err : EvalError} {s : σ} :
    Stops (.error err s : EStateM.Result EvalError σ α) ↔ err.cause = .exponentOverflow := by
  constructor
  · rintro ⟨err', s', h, hcause⟩
    cases h
    exact hcause
  · exact fun h => ⟨err, s, rfl, h⟩

/-- Changing the state at the end changes nothing about stopping. -/
theorem stops_mapState_iff (f : σ → τ) {r : EStateM.Result EvalError σ α} : Stops (mapState f r) ↔ Stops r := by
  cases r <;> simp [mapState]

theorem stops_andThen_iff {f : α → EvalM β} :
    Stops (andThen r f) ↔ Stops r ∨ ∃ v m, r = .ok v m ∧ Stops (f v m) := by
  cases r <;> simp [andThen]

/-- Going on with what does not stop. -/
theorem stops_andThen_iff_of_not {f : α → EvalM β} (hf : ∀ v m, ¬Stops (f v m)) :
    Stops (andThen r f) ↔ Stops r := by
  cases r <;> simp [andThen, hf]

theorem stops_andThen_ok_iff {f : α → Machine → β} {g : α → Machine → Machine} :
    Stops (andThen r fun v m => .ok (f v m) (g v m)) ↔ Stops r :=
  stops_andThen_iff_of_not fun v m => not_stops_ok (f v m) (g v m)

/-! ### Steps that do not stop -/

theorem not_stops_lookedUp (span : Span) (m : Machine) (x : Option Value) : ¬Stops (lookedUp span m x) := by
  cases x <;> simp [lookedUp]

theorem not_stops_closed (note : Annotation) (params : List String) (body : Expr) (m : Machine)
    (x : Option (Frame Value)) : ¬Stops (closed note params body m x) := by
  cases x <;> simp [closed]

theorem not_stops_unary (note : Annotation) (op : UnaryOp) (v : Value) (m : Machine) :
    ¬Stops (unary note op v m) := by
  cases op <;> cases v <;> rintro ⟨err, m', h, hcause⟩ <;> cases h <;> exact nomatch hcause

theorem not_stops_memberOf (note : Annotation) (span : Span) (name : String) (v : Value) (m : Machine) :
    ¬Stops (memberOf note span name v m) := by
  cases v with
  | module c =>
    show ¬Stops (member note c name m)
    unfold member
    cases c.access? name with
    | some v => exact not_stops_ok v m
    | none => exact stops_error_iff.not.mpr nofun
  | _ => exact stops_error_iff.not.mpr nofun

theorem not_stops_notCallable (v : Value) (span : Span) (m : Machine) : ¬Stops (notCallable v span m) :=
  stops_error_iff.not.mpr nofun

/-- A binary operator stops where an exponent does not fit. -/
theorem stops_binary_iff {note : Annotation} {op : BinaryOp} {l v : Value} :
    Stops (binary note op l v m) ↔ Value.Overflows op l v m.options.realPrecision := by
  rw [← Value.binaryOp_eq_exponentOverflow_iff, binary, get_run]
  cases l.binaryOp op v m.options.realPrecision with
  | ok w =>
    refine iff_of_false (not_stops_ok w m) fun h => ?_
    cases h
  | error e =>
    cases e with
    | exponentOverflow => exact iff_of_true (stops_error_iff.mpr rfl) rfl
    | undefined | divisionByZero | tooLarge =>
      refine iff_of_false (stops_error_iff.not.mpr fun h => ?_) fun h => ?_ <;> cases h

end Eval

open Eval

/-- What stops by itself: a binary operator whose operands have their values, or a function of the host. -/
inductive Task.Overflows (host : Host) : Task → Machine → Prop where
  | binary {note : Annotation} {op : BinaryOp} {lhs rhs : Expr} {m m₁ m₂ : Machine} {l r : Value}
      (hl : lhs.eval host m = .ok l m₁) (hr : rhs.eval host m₁ = .ok r m₂)
      (h : Value.Overflows op l r m₂.options.realPrecision) :
      Task.Overflows host (.expr (.binary note op lhs rhs)) m
  | native {name : String} {args : List Value} {span : Span} {m : Machine}
      (h : Stops (host name ⟨args, span, m.callDepth⟩ m.toMemory)) : Task.Overflows host (.native name args span) m

/-- What runs stops. -/
def Task.Stops (host : Host) : Task → Machine → Prop
  | .expr e, m => Eval.Stops (e.eval host m)
  | .native name args span, m => Eval.Stops (host name ⟨args, span, m.callDepth⟩ m.toMemory)

variable {host : Host} {e x : Expr} {m m₁ m' : Machine} {j k : Nat} {task : Task}

/-- A function that is applied stops if its body does, or what the host runs for it. -/
theorem Eval.stops_applyIn_iff {span : Span} {f : Function} {args : List Value} :
    Eval.Stops (applyIn host m span f args m) ↔ m.callDepth < m.options.maxCallDepth ∧
      match f with
      | .lambda _ _ params body captured => Eval.Stops (body.eval host (m.call params captured args))
      | .native _ _ _ name =>
        Task.Stops host (.native name args span) { m with callDepth := m.callDepth + 1 } := by
  by_cases hlimit : m.callDepth < m.options.maxCallDepth
  · rw [and_iff_right hlimit]
    cases f with
    | lambda identity type params body captured => rw [applyIn_lambda hlimit, stops_mapState_iff]
    | native identity type arity name =>
      rw [applyIn_native hlimit, stops_mapState_iff]
      rfl
  · rw [applyIn_of_limit (Nat.le_of_not_lt hlimit), stops_error_iff]
    exact iff_of_false nofun fun h => hlimit h.1

/-! ### One expression -/

namespace Expr

theorem stops_evalAll_cons_iff {es : List Expr} : Eval.Stops (evalAll host (e :: es) m) ↔
    Eval.Stops (e.eval host m) ∨ ∃ v m₁, e.eval host m = .ok v m₁ ∧ Eval.Stops (evalAll host es m₁) := by
  cases he : e.eval host m with
  | error err m₁ => simp [evalAll_cons_of_error he]
  | ok v m₁ =>
    rw [evalAll_cons he, stops_andThen_ok_iff]
    simp

theorem stops_evalAll_singleton_iff : Eval.Stops (evalAll host [e] m) ↔ Eval.Stops (e.eval host m) := by
  rw [stops_evalAll_cons_iff, or_iff_left]
  rintro ⟨v, m₁, -, h⟩
  exact not_stops_ok [] m₁ h

/-- Expressions one after the other stop where one of them does, when those before it have their values. -/
theorem stops_evalAll_iff {es : List Expr} : Eval.Stops (evalAll host es m) ↔
    ∃ before x after vs m₁, es = before ++ x :: after ∧ evalAll host before m = .ok vs m₁ ∧
      Eval.Stops (x.eval host m₁) := by
  induction es generalizing m with
  | nil =>
    refine iff_of_false (not_stops_ok [] m) ?_
    rintro ⟨before, x, after, -, -, hnil, -⟩
    exact nomatch List.append_eq_nil_iff.mp hnil.symm
  | cons e es ih =>
    rw [stops_evalAll_cons_iff]
    constructor
    · rintro (h | ⟨v, m₁, he, h⟩)
      · exact ⟨[], e, es, [], m, rfl, rfl, h⟩
      · obtain ⟨before, x, after, vs, m₂, rfl, hbefore, hx⟩ := ih.mp h
        refine ⟨e :: before, x, after, v :: vs, m₂, rfl, ?_, hx⟩
        rw [evalAll_cons he, hbefore]
        rfl
    · rintro ⟨before, x, after, vs, m₂, hsplit, hbefore, hx⟩
      cases before with
      | nil =>
        obtain ⟨rfl, rfl⟩ := List.cons.inj hsplit
        obtain ⟨-, rfl⟩ := EStateM.Result.ok.inj hbefore
        exact .inl hx
      | cons e' before =>
        obtain ⟨rfl, rfl⟩ := List.cons.inj hsplit
        obtain ⟨v, m₁, ws, he, hws, -⟩ := exists_of_evalAll_cons_eq_ok hbefore
        exact .inr ⟨v, m₁, he, ih.mpr ⟨before, x, after, ws, m₂, rfl, hws, hx⟩⟩

theorem overflows_binary_iff {note : Annotation} {op : BinaryOp} {lhs rhs : Expr} :
    Task.Overflows host (.expr (.binary note op lhs rhs)) m ↔ ∃ l m₁ r m₂, lhs.eval host m = .ok l m₁ ∧
      rhs.eval host m₁ = .ok r m₂ ∧ Value.Overflows op l r m₂.options.realPrecision := by
  constructor
  · rintro (⟨hl, hr, h⟩ | _)
    exact ⟨_, _, _, _, hl, hr, h⟩
  · rintro ⟨l, m₁, r, m₂, hl, hr, h⟩
    exact .binary hl hr h

theorem stops_eval_binary_iff {note : Annotation} {op : BinaryOp} {lhs rhs : Expr} :
    Eval.Stops ((binary note op lhs rhs).eval host m) ↔
      Task.Overflows host (.expr (.binary note op lhs rhs)) m ∨ Eval.Stops (evalAll host [lhs, rhs] m) := by
  rw [overflows_binary_iff, stops_evalAll_cons_iff]
  cases hl : lhs.eval host m with
  | error err m₁ => simp [eval_binary_of_error hl]
  | ok l m₁ =>
    rw [eval_binary hl, stops_andThen_iff]
    simp only [stops_binary_iff, not_stops_ok, false_or, EStateM.Result.ok.injEq, and_assoc, exists_and_left,
      exists_eq_left', stops_evalAll_singleton_iff]
    exact or_comm

/-- An expression that is no call stops if it does by itself, or if one of its parts does. -/
theorem stops_iff_parts (hcall : ∀ note callee args, e ≠ .call note callee args) :
    Eval.Stops (e.eval host m) ↔
      Task.Overflows host (.expr e) m ∨ Eval.Stops (evalAll host e.parts (e.opened m)) := by
  -- Only a binary operator stops by itself.
  have hparts : (∀ note op lhs rhs, e ≠ .binary note op lhs rhs) →
      (Eval.Stops (e.eval host m) ↔ Eval.Stops (evalAll host e.parts (e.opened m))) →
      (Eval.Stops (e.eval host m) ↔
        Task.Overflows host (.expr e) m ∨ Eval.Stops (evalAll host e.parts (e.opened m))) := by
    intro hbinary h
    refine h.trans (or_iff_right ?_).symm
    generalize htask : Task.expr e = task
    rintro (⟨_, _, _⟩ | _)
    · cases htask
      exact hbinary _ _ _ _ rfl
    · exact nomatch htask
  cases e with
  | call note callee args => exact absurd rfl (hcall note callee args)
  | literal note v => exact hparts nofun (iff_of_false (not_stops_ok v m) (not_stops_ok [] m))
  | name note name =>
    refine hparts nofun (iff_of_false ?_ (not_stops_ok [] m))
    cases hv : m.scopes.find? name with
    | none =>
      rw [eval_name_of_unbound hv]
      exact stops_error_iff.not.mpr nofun
    | some v =>
      rw [eval_name hv]
      exact not_stops_lookedUp _ _ _
  | lambda note params body =>
    refine hparts nofun (iff_of_false ?_ (not_stops_ok [] m))
    rw [eval_lambda]
    exact not_stops_closed _ _ _ _ _
  | unary note op operand =>
    refine hparts nofun ?_
    rw [eval_unary, stops_andThen_iff_of_not (not_stops_unary note op)]
    exact stops_evalAll_singleton_iff.symm
  | define note name value =>
    refine hparts nofun ?_
    rw [eval_define, stops_andThen_ok_iff]
    exact stops_evalAll_singleton_iff.symm
  | access note container name =>
    refine hparts nofun ?_
    rw [eval_access, stops_andThen_iff_of_not (not_stops_memberOf note container.span name)]
    exact stops_evalAll_singleton_iff.symm
  | product note items =>
    refine hparts nofun ?_
    rw [eval_product, stops_andThen_ok_iff]
    rfl
  | block note items =>
    refine hparts nofun ?_
    rw [eval_block, stops_mapState_iff, stops_andThen_ok_iff]
    rfl
  | binary note op lhs rhs =>
    exact stops_eval_binary_iff

/-- A call stops if the callee does, or, with a function of so many arguments, if one of these does or the function
that is applied to them. -/
theorem stops_eval_call_iff {note : Annotation} {callee : Expr} {args : List Expr} :
    Eval.Stops ((call note callee args).eval host m) ↔ Eval.Stops (callee.eval host m) ∨
      ∃ f m₁, callee.eval host m = .ok (.function f) m₁ ∧ f.arity = args.length ∧
        (Eval.Stops (evalAll host args m₁) ∨ ∃ vs m₂, evalAll host args m₁ = .ok vs m₂ ∧
          Eval.Stops (applyIn host m₂ note.span f (passed m₂ f vs) m₂)) := by
  cases hc : callee.eval host m with
  | error err m₁ => simp [eval_call_of_error hc]
  | ok v m₁ =>
    rw [or_iff_right (not_stops_ok v m₁)]
    by_cases hv : ∃ f, v = .function f
    · obtain ⟨f, rfl⟩ := hv
      have hsame : ∀ {g m'}, (EStateM.Result.ok (Value.function f) m₁ : Outcome Value) = .ok (.function g) m' →
          f = g ∧ m₁ = m' := by
        intro g m' h
        cases h
        exact ⟨rfl, rfl⟩
      by_cases harity : f.arity = args.length
      · rw [eval_call_of_arity_eq hc harity]
        refine stops_andThen_iff.trans ?_
        constructor
        · rintro (h | ⟨vs, m₂, hvs, h⟩)
          · exact ⟨f, m₁, rfl, harity, .inl h⟩
          · exact ⟨f, m₁, rfl, harity, .inr ⟨vs, m₂, hvs, applyIn_eq (framed_evalAll hvs) ▸ h⟩⟩
        · rintro ⟨g, m', hg, -, h⟩
          obtain ⟨rfl, rfl⟩ := hsame hg
          refine h.imp_right fun ⟨vs, m₂, hvs, h⟩ => ⟨vs, m₂, hvs, ?_⟩
          rwa [applyIn_eq (framed_evalAll hvs)]
      · -- No argument is evaluated then.
        rw [eval_call_of_arity_ne hc harity, stops_error_iff]
        refine iff_of_false nofun ?_
        rintro ⟨g, m', hg, harity', -⟩
        obtain ⟨rfl, -⟩ := hsame hg
        exact harity harity'
    · rw [eval_call_of_no_function hc (not_exists.mp hv)]
      refine iff_of_false (not_stops_notCallable v callee.span m₁) ?_
      rintro ⟨g, m', hg, -⟩
      cases hg
      exact hv ⟨g, rfl⟩

end Expr

/-! ### What starts below -/

/-- What starts below an expression that stops does not go on. -/
theorem Starts.stops (h : Starts host e m j task m') (hstops : task.Stops host m') : Eval.Stops (e.eval host m) := by
  cases h with
  | @part e x before after m m' vs hparts hbefore hon =>
    have hall : Eval.Stops (Expr.evalAll host e.parts (e.opened m)) :=
      Expr.stops_evalAll_iff.mpr ⟨before, x, after, vs, m', hparts, hbefore, hstops⟩
    cases e with
    | call note callee args =>
      rw [Expr.stops_eval_call_iff]
      -- The part that stops is the callee or one of the arguments.
      rcases Expr.stops_evalAll_cons_iff.mp hall with h | ⟨v, m₁, hv, hargs⟩
      · exact .inl h
      · cases before with
        | nil =>
          obtain ⟨rfl, -⟩ := List.cons.inj hparts
          obtain ⟨-, rfl⟩ := EStateM.Result.ok.inj hbefore
          exact .inl hstops
        | cons e' before =>
          obtain ⟨rfl, -⟩ := List.cons.inj hparts
          obtain ⟨v', m₂, ws, hv', -, rfl⟩ := Expr.exists_of_evalAll_cons_eq_ok hbefore
          obtain ⟨f, rfl, harity⟩ := hon
          obtain ⟨rfl, rfl⟩ := EStateM.Result.ok.inj (hv.symm.trans hv')
          exact .inr ⟨f, m₁, hv, harity, .inl hargs⟩
    | _ =>
      refine (Expr.stops_iff_parts ?_).mpr (.inr hall)
      nofun
  | body hcallee harity hargs hlimit =>
    exact Expr.stops_eval_call_iff.mpr
      (.inr ⟨_, _, hcallee, harity, .inr ⟨_, _, hargs, stops_applyIn_iff.mpr ⟨hlimit, hstops⟩⟩⟩)
  | native hcallee harity hargs hlimit =>
    exact Expr.stops_eval_call_iff.mpr
      (.inr ⟨_, _, hcallee, harity, .inr ⟨_, _, hargs, stops_applyIn_iff.mpr ⟨hlimit, hstops⟩⟩⟩)

theorem Expr.exists_starts_of_stops_parts (h : Eval.Stops (evalAll host e.parts (e.opened m)))
    (hon : ∀ vs, e.GoesOn vs) : ∃ j task m', Starts host e m j task m' ∧ task.Stops host m' := by
  obtain ⟨before, x, after, vs, m₁, hparts, hbefore, hx⟩ := stops_evalAll_iff.mp h
  exact ⟨0, .expr x, m₁, .part hparts hbefore (hon vs), hx⟩

/-- An expression stops exactly if it does by itself or something that starts below it stops. -/
theorem Expr.stops_iff : Eval.Stops (e.eval host m) ↔
    Task.Overflows host (.expr e) m ∨ ∃ j task m', Starts host e m j task m' ∧ task.Stops host m' := by
  constructor
  · intro h
    cases e with
    | call note callee args =>
      right
      rcases stops_eval_call_iff.mp h with h | ⟨f, m₁, hf, harity, h | ⟨vs, m₂, hvs, h⟩⟩
      · exact ⟨0, .expr callee, m, .part (show _ = [] ++ callee :: args from rfl) rfl trivial, h⟩
      · obtain ⟨before, x, after, vs, m₂, hsplit, hbefore, hx⟩ := stops_evalAll_iff.mp h
        have hparts : (call note callee args).parts = (callee :: before) ++ x :: after :=
          congrArg (callee :: ·) hsplit
        have hvalues : evalAll host (callee :: before) m = .ok (.function f :: vs) m₂ := by
          rw [evalAll_cons hf, hbefore]
          rfl
        exact ⟨0, .expr x, m₂, .part hparts hvalues ⟨f, rfl, harity⟩, hx⟩
      · obtain ⟨hlimit, h⟩ := stops_applyIn_iff.mp h
        cases f with
        | lambda identity type params body captured => exact ⟨1, _, _, .body hf harity hvs hlimit, h⟩
        | native identity type arity name => exact ⟨1, _, _, .native hf harity hvs hlimit, h⟩
    | _ =>
      refine ((stops_iff_parts ?_).mp h).imp_right fun h => exists_starts_of_stops_parts h fun _ => trivial
      nofun
  · rintro (h | ⟨j, task, m', hstart, hstops⟩)
    · generalize htask : Task.expr e = task at h
      cases h with
      | binary hl hr h =>
        cases htask
        exact stops_eval_binary_iff.mpr (.inl (.binary hl hr h))
      | native => exact nomatch htask
    · exact hstart.stops hstops

/-! ### What begins inside -/

theorem Expr.sizeOf_lt_of_mem_parts (h : x ∈ e.parts) : sizeOf x < sizeOf e := by
  cases e with
  | literal | name | lambda => exact nomatch h
  | unary | define | access =>
    obtain rfl := List.mem_singleton.mp h
    simp only [unary.sizeOf_spec, define.sizeOf_spec, access.sizeOf_spec]
    omega
  | binary note op lhs rhs =>
    rw [binary.sizeOf_spec]
    rcases List.mem_pair.mp h with rfl | rfl <;> omega
  | product note items =>
    have : sizeOf x < sizeOf items := List.sizeOf_lt_of_mem h
    rw [product.sizeOf_spec]
    omega
  | block note items =>
    have : sizeOf x < sizeOf items := List.sizeOf_lt_of_mem h
    rw [block.sizeOf_spec]
    omega
  | call note callee args =>
    rw [call.sizeOf_spec]
    rcases List.mem_cons.mp h with rfl | h
    · omega
    · have := List.sizeOf_lt_of_mem h
      omega

/-- What starts below an evaluation has one call less left if it is a body, and is smaller if it is a part. -/
theorem Starts.lt (h : Starts host e m j (.expr x) m₁) :
    m₁.callsLeft < m.callsLeft ∨ m₁.callsLeft = m.callsLeft ∧ sizeOf x < sizeOf e := by
  obtain ⟨hdepth, hoptions, hlimit⟩ := h.callDepth_eq
  rw [Machine.callsLeft, Machine.callsLeft, hoptions, hdepth]
  cases h with
  | part hparts hbefore hon =>
    exact .inr ⟨rfl, Expr.sizeOf_lt_of_mem_parts (hparts ▸ List.mem_append_right _ List.mem_cons_self)⟩
  | body hcallee harity hargs =>
    have := hlimit Nat.one_ne_zero
    rw [hdepth] at this
    omega

/-- What begins inside an evaluation and stops lets the whole evaluation stop. -/
theorem Begins.stops (h : Begins host e m k task m') (hstops : task.Stops host m') :
    Eval.Stops (e.eval host m) := by
  induction h with
  | here => exact hstops
  | next _ hstart ih => exact ih (hstart.stops hstops)

theorem Task.Overflows.stops (h : task.Overflows host m) : task.Stops host m := by
  cases h with
  | binary hl hr h => exact Expr.stops_iff.mpr (.inl (.binary hl hr h))
  | native h => exact h

/-- An evaluation that stops does so because of something that begins inside it and stops by itself. -/
theorem Expr.exists_begins_of_stops (host : Host) (e : Expr) (m : Machine) (h : Eval.Stops (e.eval host m)) :
    ∃ k task m', Begins host e m k task m' ∧ task.Overflows host m' := by
  -- By induction on the calls that are left and then on the expression.
  rcases stops_iff.mp h with h | ⟨j, task, m₁, hstart, hstops⟩
  · exact ⟨0, _, m, .here, h⟩
  · cases task with
    | native name args span => exact ⟨0 + j, _, m₁, .next .here hstart, .native hstops⟩
    | expr x =>
      have hlt := hstart.lt
      obtain ⟨k, task, m', hbegins, hoverflows⟩ := exists_begins_of_stops host x m₁ hstops
      exact ⟨j + k, task, m', hstart.begins hbegins, hoverflows⟩
termination_by (m.callsLeft, e)
decreasing_by
  rcases hlt with hlt | ⟨hsame, hlt⟩
  · exact .left _ _ hlt
  · rw [hsame]
    exact .right _ hlt

/-- An evaluation stops exactly if something that begins inside it stops by itself. -/
theorem Expr.stops_iff_begins : Eval.Stops (e.eval host m) ↔
    ∃ k task m', Begins host e m k task m' ∧ task.Overflows host m' :=
  ⟨exists_begins_of_stops host e m, fun ⟨_, _, _, hbegins, hoverflows⟩ => hbegins.stops hoverflows.stops⟩

end NumericTower
