import Mathlib
import NumericTower.Proofs.Eval.Rules

/-!
# What begins inside an evaluation

An evaluation runs the parts of its expression one after the other and, if it is a call, the body of the callee or a
function of the host. These begin with as many active calls as enclose them, and where they begin everything holds
that evaluation guarantees.

## Key results
- `Starts`, `Begins`: which evaluations begin inside an evaluation, and inside how many calls
- `Begins.callDepth_eq`: the number of active calls where an evaluation begins
- `Guarantee.Sound.begins`: a guarantee holds wherever an evaluation begins
-/

namespace NumericTower

open Eval

/-- What runs: the evaluation of an expression, or a function of the host. -/
inductive Task where
  | expr (e : Expr)
  | native (name : String) (args : List Value) (span : Span)

namespace Expr

/-- The parts of an expression, in the order in which they are evaluated. -/
def parts : Expr → List Expr
  | .unary _ _ operand => [operand]
  | .binary _ _ lhs rhs => [lhs, rhs]
  | .define _ _ value => [value]
  | .product _ items => items
  | .call _ callee args => callee :: args
  | .access _ container _ => [container]
  | .block _ items => items
  | _ => []

/-- The state in which the first part is evaluated. -/
def opened : Expr → Machine → Machine
  | .block .., m => m.enter
  | _, m => m

/-- Whether another part is evaluated after those that have the given values. A call goes on from its callee
to the arguments only if that is a function of so many. -/
def GoesOn : Expr → List Value → Prop
  | .call _ _ args, v :: _ => ∃ f, v = .function f ∧ f.arity = args.length
  | _, _ => True

end Expr

/-- What an evaluation runs next below itself, the state in which it begins, and whether it is in one more
call: a part after the parts before it, or what a function runs after the arguments if the limit is not
reached. -/
inductive Starts (host : Host) : Expr → Machine → Nat → Task → Machine → Prop where
  | part {e x : Expr} {before after : List Expr} {m m₁ : Machine} {vs : List Value}
      (hparts : e.parts = before ++ x :: after)
      (hbefore : Expr.evalAll host before (e.opened m) = .ok vs m₁) (hon : e.GoesOn vs) :
      Starts host e m 0 (.expr x) m₁
  | body {note : Annotation} {callee : Expr} {args : List Expr} {m m₁ m₂ : Machine} {vs : List Value}
      {identity : Nat} {type : TypeId} {params : List String} {body : Expr}
      {captured : List (String × Value)}
      (hcallee : callee.eval host m =
        .ok (.function (.lambda identity type params body captured)) m₁)
      (harity : (Function.lambda identity type params body captured).arity = args.length)
      (hargs : Expr.evalAll host args m₁ = .ok vs m₂)
      (hlimit : m₂.callDepth < m₂.options.maxCallDepth) :
      Starts host (.call note callee args) m 1 (.expr body)
        (m₂.call params captured (passed m₂ (.lambda identity type params body captured) vs))
  | native {note : Annotation} {callee : Expr} {args : List Expr} {m m₁ m₂ : Machine} {vs : List Value}
      {identity : Nat} {type : TypeId} {arity : Nat} {name : String}
      (hcallee : callee.eval host m = .ok (.function (.native identity type arity name)) m₁)
      (harity : arity = args.length) (hargs : Expr.evalAll host args m₁ = .ok vs m₂)
      (hlimit : m₂.callDepth < m₂.options.maxCallDepth) :
      Starts host (.call note callee args) m 1
        (.native name (passed m₂ (.native identity type arity name) vs) note.span)
        { m₂ with callDepth := m₂.callDepth + 1 }

/-- What begins in the course of an evaluation, inside so many more calls. -/
inductive Begins (host : Host) (e : Expr) (m : Machine) : Nat → Task → Machine → Prop where
  | here : Begins host e m 0 (.expr e) m
  | next {k j : Nat} {e₁ : Expr} {task : Task} {m₁ m' : Machine} (h : Begins host e m k (.expr e₁) m₁)
      (hstart : Starts host e₁ m₁ j task m') : Begins host e m (k + j) task m'

variable {host : Host} {e x : Expr} {m m₁ m' : Machine} {k j : Nat} {task : Task}

/-- What begins in an evaluation that starts below another one begins in that one too. -/
theorem Starts.begins (h : Starts host e m j (.expr x) m₁) (h' : Begins host x m₁ k task m') :
    Begins host e m (j + k) task m' := by
  -- The start is put below all that comes after it, so the induction is on the inner evaluation.
  induction h' with
  | here =>
    have hnext := Begins.next .here h
    rwa [Nat.zero_add] at hnext
  | next _ hstart ih => exact Nat.add_assoc .. ▸ ih.next hstart

/-! ### Active calls -/

theorem Expr.opened_framed (e : Expr) (m : Machine) :
    (e.opened m).callDepth = m.callDepth ∧ (e.opened m).options = m.options := by
  cases e <;> exact ⟨rfl, rfl⟩

theorem Starts.callDepth_eq (h : Starts host e m j task m') :
    m'.callDepth = m.callDepth + j ∧ m'.options = m.options ∧
      (j ≠ 0 → m'.callDepth ≤ m.options.maxCallDepth) := by
  cases h with
  | part hparts hbefore hon =>
    have hframed := Expr.framed_evalAll hbefore
    obtain ⟨hdepth, hoptions⟩ := e.opened_framed m
    exact ⟨hframed.callDepth.trans hdepth, hframed.options.trans hoptions, fun h => absurd rfl h⟩
  | body hcallee harity hargs hlimit =>
    have hframed := (Expr.framed_eval hcallee).trans (Expr.framed_evalAll hargs)
    obtain ⟨hdepth, hoptions⟩ := Machine.callDepth_call _ _ _ _
    refine ⟨by rw [hdepth, hframed.callDepth], hoptions.trans hframed.options, fun _ => ?_⟩
    rw [hdepth, ← hframed.options]
    exact hlimit
  | native hcallee harity hargs hlimit =>
    have hframed := (Expr.framed_eval hcallee).trans (Expr.framed_evalAll hargs)
    refine ⟨congrArg Nat.succ hframed.callDepth, hframed.options, fun _ => ?_⟩
    rw [← hframed.options]
    exact hlimit

/-- Where something begins, the number of active calls has grown by the calls around it, and is not above the
limit. -/
theorem Begins.callDepth_eq (h : Begins host e m k task m') :
    m'.callDepth = m.callDepth + k ∧ m'.options = m.options ∧
      (k ≠ 0 → m'.callDepth ≤ m.options.maxCallDepth) := by
  induction h with
  | here => exact ⟨rfl, rfl, fun h => absurd rfl h⟩
  | @next k j e₁ task m₁ m' _ hstart ih =>
    obtain ⟨hdepth, hoptions, hlimit⟩ := ih
    obtain ⟨hdepth', hoptions', hlimit'⟩ := hstart.callDepth_eq
    refine ⟨by omega, hoptions'.trans hoptions, fun hk => ?_⟩
    rw [hoptions] at hlimit'
    by_cases hj : j = 0
    · -- A part runs inside the same calls as its expression.
      subst hj
      have := hlimit hk
      omega
    · exact hlimit' hj

/-! ### Guarantees -/

theorem Expr.allObey_parts {d : Discipline} (h : e.Obeys d) : AllObey d e.parts := by
  cases e with
  | literal | name | lambda => trivial
  | unary | define | access => exact ⟨h, trivial⟩
  | binary => exact ⟨h.1, h.2, trivial⟩
  | product | block | call => exact h

/-- A guarantee holds where an evaluation starts below another one. -/
theorem Guarantee.Sound.starts {g : Guarantee} {d : Discipline} (hg : g.Sound d host) (hm : g.Good m)
    (he : e.Obeys d) (h : Starts host e m j (.expr x) m₁) : g.Good m₁ ∧ x.Obeys d := by
  cases h with
  | part hparts hbefore hon =>
    have hopened : g.Good (e.opened m) := by
      cases e with
      | block => exact hg.enter hm
      | _ => exact hm
    obtain ⟨hbeforeObey, hrest⟩ := Expr.allObey_append.mp (hparts ▸ Expr.allObey_parts he)
    have hvalues : g.Holds _ (e.opened m) (Expr.evalAll host _ (e.opened m)) :=
      hg.evalAll _ hbeforeObey _ hopened
    rw [hbefore] at hvalues
    exact ⟨hvalues.1, hrest.1⟩
  | body hcallee harity hargs hlimit =>
    have hfunction := hg.eval he.1 m hm
    rw [hcallee] at hfunction
    have hvalues : g.Holds _ _ (Expr.evalAll host _ _) := hg.evalAll _ he.2 _ hfunction.1
    rw [hargs] at hvalues
    have hobeys : Function.Obeys d _ := hfunction.2.2
    exact ⟨hg.call hvalues.1 hobeys (Value.obeys_convertArguments hvalues.2.2), hobeys.2.1⟩

/-- A guarantee holds wherever an evaluation begins. -/
theorem Guarantee.Sound.begins {g : Guarantee} {d : Discipline} (hg : g.Sound d host) (hm : g.Good m)
    (he : e.Obeys d) {e' : Expr} (h : Begins host e m k (.expr e') m') : g.Good m' ∧ e'.Obeys d := by
  generalize htask : Task.expr e' = task at h
  induction h generalizing e' with
  | here =>
    cases htask
    exact ⟨hm, he⟩
  | next _ hstart ih =>
    obtain ⟨hgood, hobeys⟩ := ih rfl
    exact hg.starts hgood hobeys (htask ▸ hstart)

end NumericTower
