import Mathlib
import NumericTower.Eval.Basic

/-!
# Disciplines of values and expressions

A discipline restricts the handles, the parameter lists and the captured bindings that may occur in
values and expressions. Values obey it with everything inside them, the bodies of functions included.

## Key results
- `Value.obeys_unaryOp`, `Value.obeys_binaryOp`: results of operators obey every discipline
- `Value.obeys_convertArguments`: so do arguments in the representations of their parameters, if they did
- `Store.obeys_follow`, `Store.obeys_resolve?`: what a chain of handles ends in obeys if the stored values do
-/

namespace NumericTower

/-- The handle, if the value is one. -/
def Value.toRef? : Value → Option ValueRef
  | .ref r => some r
  | _ => none

/-- What may occur in a value or an expression. -/
structure Discipline where
  handles : ValueRef → Prop
  /-- The parameters of one function. -/
  params : List String → Prop
  /-- What a function may have captured. -/
  captured : Value → Prop

/-- No restriction. -/
def Discipline.any : Discipline :=
  ⟨fun _ => True, fun _ => True, fun _ => True⟩

/-- No handles at all. -/
def Discipline.handleFree : Discipline :=
  ⟨fun _ => False, fun _ => True, fun v => v.toRef? = none⟩

/-- Known handles only, distinct parameters, and copies instead of handles in what functions captured. -/
def Discipline.owning (known : ValueRef → Prop) : Discipline :=
  ⟨known, List.Nodup, fun v => v.toRef? = none⟩

mutual

/-- A value in which only what the discipline allows occurs. -/
def Value.Obeys (d : Discipline) : Value → Prop
  | .ref r => d.handles r
  | .product items => Value.AllObey d items
  | .function f => f.Obeys d
  | .module m => m.Obeys d
  | _ => True

def Value.AllObey (d : Discipline) : List Value → Prop
  | [] => True
  | v :: vs => v.Obeys d ∧ Value.AllObey d vs

def Value.BindingsObey (d : Discipline) : List (String × Value) → Prop
  | [] => True
  | (_, v) :: bindings => v.Obeys d ∧ Value.BindingsObey d bindings

def Function.Obeys (d : Discipline) : Function → Prop
  | .lambda _ _ params body captured =>
    d.params params ∧ body.Obeys d ∧ Value.BindingsObey d captured ∧ ∀ b ∈ captured, d.captured b.2
  | .native .. => True

def Module.Obeys (d : Discipline) : Module → Prop
  | .mk _ _ members => Value.BindingsObey d members

/-- An expression in which only what the discipline allows occurs. -/
def Expr.Obeys (d : Discipline) : Expr → Prop
  | .literal _ v => v.Obeys d
  | .name _ _ => True
  | .unary _ _ operand => operand.Obeys d
  | .binary _ _ lhs rhs => lhs.Obeys d ∧ rhs.Obeys d
  | .define _ _ value => value.Obeys d
  | .product _ items => Expr.AllObey d items
  | .lambda _ params body => d.params params ∧ body.Obeys d
  | .call _ callee args => callee.Obeys d ∧ Expr.AllObey d args
  | .access _ container _ => container.Obeys d
  | .block _ items => Expr.AllObey d items

def Expr.AllObey (d : Discipline) : List Expr → Prop
  | [] => True
  | e :: es => e.Obeys d ∧ Expr.AllObey d es

end

mutual

theorem Value.obeys_any : ∀ v : Value, v.Obeys .any
  | .unit | .bool _ | .number _ | .str .. | .type _ | .ref _ => trivial
  | .product items => Value.allObey_any items
  | .function f => f.obeys_any
  | .module m => m.obeys_any

theorem Value.allObey_any : ∀ vs : List Value, Value.AllObey .any vs
  | [] => trivial
  | v :: vs => ⟨v.obeys_any, Value.allObey_any vs⟩

theorem Value.bindingsObey_any : ∀ bindings : List (String × Value), Value.BindingsObey .any bindings
  | [] => trivial
  | (_, v) :: bindings => ⟨v.obeys_any, Value.bindingsObey_any bindings⟩

theorem Function.obeys_any : ∀ f : Function, f.Obeys .any
  | .lambda _ _ _ body captured =>
    ⟨trivial, body.obeys_any, Value.bindingsObey_any captured, fun _ _ => trivial⟩
  | .native .. => trivial

theorem Module.obeys_any : ∀ m : Module, m.Obeys .any
  | .mk _ _ members => Value.bindingsObey_any members

theorem Expr.obeys_any : ∀ e : Expr, e.Obeys .any
  | .literal _ v => v.obeys_any
  | .name .. => trivial
  | .unary _ _ operand => operand.obeys_any
  | .binary _ _ lhs rhs => ⟨lhs.obeys_any, rhs.obeys_any⟩
  | .define _ _ value => value.obeys_any
  | .product _ items => Expr.allObey_any items
  | .lambda _ _ body => ⟨trivial, body.obeys_any⟩
  | .call _ callee args => ⟨callee.obeys_any, Expr.allObey_any args⟩
  | .access _ container _ => container.obeys_any
  | .block _ items => Expr.allObey_any items

theorem Expr.allObey_any : ∀ es : List Expr, Expr.AllObey .any es
  | [] => trivial
  | e :: es => ⟨e.obeys_any, Expr.allObey_any es⟩

end

theorem Expr.allObey_append {d : Discipline} {es es' : List Expr} :
    Expr.AllObey d (es ++ es') ↔ Expr.AllObey d es ∧ Expr.AllObey d es' := by
  induction es with
  | nil => exact (and_iff_right trivial).symm
  | cons e es ih => exact (and_congr_right fun _ => ih).trans and_assoc.symm

mutual

/-- An expression that binds no name except in blocks and functions inside it. -/
def Expr.BindsNothing : Expr → Prop
  | .literal .. | .name .. | .lambda .. | .block .. => True
  | .unary _ _ operand => operand.BindsNothing
  | .binary _ _ lhs rhs => lhs.BindsNothing ∧ rhs.BindsNothing
  | .define .. => False
  | .product _ items => Expr.AllBindNothing items
  | .call _ callee args => callee.BindsNothing ∧ Expr.AllBindNothing args
  | .access _ container _ => container.BindsNothing

def Expr.AllBindNothing : List Expr → Prop
  | [] => True
  | e :: es => e.BindsNothing ∧ Expr.AllBindNothing es

end

variable {d : Discipline}

namespace Value

theorem bindingsObey_iff {bindings : List (String × Value)} :
    BindingsObey d bindings ↔ ∀ b ∈ bindings, b.2.Obeys d := by
  induction bindings with
  | nil => simp [BindingsObey]
  | cons b bindings ih =>
    obtain ⟨name, v⟩ := b
    simp [BindingsObey, ih]

theorem obeys_tuple {vs : List Value} (h : AllObey d vs) : (tuple vs).Obeys d := by
  rw [tuple]
  split
  -- no items: the unit value
  · trivial
  · exact h

/-! ### Operators -/

theorem obeys_unaryOp {op : UnaryOp} {v w : Value} (h : v.unaryOp op = .ok w) : w.Obeys d := by
  rw [unaryOp.eq_def] at h
  split at h
  · obtain rfl := Except.ok.inj h
    trivial
  · obtain rfl := Except.ok.inj h
    trivial
  · exact nomatch h

theorem obeys_binaryOther {op : BinaryOp} {l r v : Value} {p : Nat}
    (h : binaryOther op l r p = .ok v) : v.Obeys d := by
  rw [binaryOther.eq_def] at h
  split at h
  -- truth values
  · split at h
    · obtain rfl := Except.ok.inj h
      trivial
    · obtain rfl := Except.ok.inj h
      trivial
    · exact nomatch h
  -- texts
  · split at h
    · obtain rfl := Except.ok.inj h
      trivial
    · exact nomatch h
  -- numbers
  · split at h
    · split at h
      · obtain rfl := Except.ok.inj h
        trivial
      · exact nomatch h
    · next a b _ =>
      cases hn : Number.arithmetic op a b p with
      | error e =>
        rw [hn] at h
        exact nomatch h
      | ok n =>
        rw [hn] at h
        obtain rfl := Except.ok.inj h
        trivial
  · exact nomatch h

theorem obeys_binaryOp {op : BinaryOp} {l r v : Value} {p : Nat} (h : l.binaryOp op r p = .ok v) :
    v.Obeys d := by
  have hbool : ∀ {r : Except OpError Bool}, r.map .bool = .ok v → v.Obeys d := by
    intro r hr
    cases r with
    | error => exact nomatch hr
    | ok b =>
      obtain rfl := Except.ok.inj hr
      trivial
  unfold binaryOp at h
  split at h
  · exact hbool h
  split at h
  · exact hbool h
  · exact obeys_binaryOther h

/-! ### Arguments -/

theorem obeys_convertArgument {a : TypeTable} {p : Nat} {v : Value} {param : TypeId}
    (h : v.Obeys d) : (Eval.convertArgument a p v param).Obeys d := by
  rw [Eval.convertArgument.eq_def]
  split
  · next n target _ =>
    -- A number stays a number, converted or not.
    cases n.convertTo? target p <;> trivial
  · exact h

theorem obeys_convertArguments {a : TypeTable} {p : Nat} {vs : List Value} {params : List TypeId}
    (h : AllObey d vs) : AllObey d (Eval.convertArguments a p vs params) := by
  induction vs generalizing params with
  | nil => exact h
  | cons v vs ih =>
    cases params with
    | nil => exact h
    | cons param params => exact ⟨obeys_convertArgument h.1, ih h.2⟩

end Value

theorem Module.obeys_access? {m : Module} {name : String} {v : Value} (h : m.Obeys d)
    (hv : m.access? name = some v) : v.Obeys d := by
  obtain ⟨identity, moduleName, members⟩ := m
  obtain ⟨before, after, hmembers, -⟩ := List.lookup_eq_some_iff.mp hv
  obtain rfl : members = before ++ (name, v) :: after := hmembers
  exact Value.bindingsObey_iff.mp h (name, v) (by simp)

/-! ### Chains of handles -/

namespace Store

variable {s : Store Value}

theorem follow_of_toRef? {v : Value} (h : v.toRef? = none) (steps : Nat) :
    s.follow steps v = some v := by
  cases v with
  | ref r => exact nomatch h
  | _ => cases steps <;> rfl

theorem obeys_follow (hs : ∀ r v, d.handles r → s.get? r = some v → v.Obeys d) {steps : Nat}
    {v w : Value} (hv : v.Obeys d) (h : s.follow steps v = some w) :
    w.Obeys d ∧ w.toRef? = none := by
  induction steps generalizing v with
  | zero =>
    cases v with
    | ref r => exact nomatch h
    | _ =>
      obtain rfl := Option.some.inj h
      exact ⟨hv, rfl⟩
  | succ steps ih =>
    cases v with
    | ref r =>
      obtain ⟨u, hu, h⟩ := Option.bind_eq_some_iff.mp h
      exact ih (hs r u hv hu) h
    | _ =>
      obtain rfl := Option.some.inj h
      exact ⟨hv, rfl⟩

/-- What a bound value leads to obeys, if the value that is bound or that its handle finds does. -/
theorem obeys_resolve? (hs : ∀ r v, d.handles r → s.get? r = some v → v.Obeys d) {v w : Value}
    (hv : v.toRef? = none → v.Obeys d) (hfound : ∀ r u, v = .ref r → s.get? r = some u → u.Obeys d)
    (h : s.resolve? v = some w) : w.Obeys d ∧ w.toRef? = none := by
  rw [resolve?] at h
  cases hr : v.toRef? with
  | none => exact obeys_follow hs (hv hr) h
  | some r =>
    cases v with
    | ref r =>
      -- The first step of the chain leads to what the handle finds.
      cases hsize : s.slots.size with
      | zero =>
        rw [hsize] at h
        exact nomatch h
      | succ steps =>
        rw [hsize] at h
        obtain ⟨u, hu, h⟩ := Option.bind_eq_some_iff.mp h
        exact obeys_follow hs (hfound r u rfl hu) h
    | _ => exact nomatch hr

end Store

end NumericTower
