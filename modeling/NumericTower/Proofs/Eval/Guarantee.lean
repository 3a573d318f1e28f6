import Mathlib
import NumericTower.Proofs.Eval.Step

/-!
# Guarantees of evaluation

A guarantee is a property of states together with a relation between the states before and after. If the
steps of evaluation keep it, then so does the evaluation of every expression and every function, whether it
ends with a value or an error.

## Key results
- `Guarantee.Closed.evalWith`: the induction over expressions
- `Guarantee.Sound.eval`: every expression keeps a guarantee that the steps keep
- `Guarantee.Sound.applyWithin`: so does every application of a function
-/

namespace NumericTower

/-- What is true of every state, and how every state is related to the one before it. -/
structure Guarantee where
  Good : Machine → Prop
  Moves : Machine → Machine → Prop

namespace Guarantee

variable {g : Guarantee} {α β : Type}

/-- What is guaranteed of a result that was computed from the state `m`; a value satisfies `Q` too. -/
def Holds (g : Guarantee) (Q : α → Prop) (m : Machine) : EStateM.Result EvalError Machine α → Prop
  | .ok v m' => g.Good m' ∧ g.Moves m m' ∧ Q v
  | .error _ m' => g.Good m' ∧ g.Moves m m'

/-- From every good state a computation keeps the guarantee. -/
def Ensures (g : Guarantee) (Q : α → Prop) (x : EvalM α) : Prop :=
  ∀ m, g.Good m → g.Holds Q m (x m)

/-- The steps that neither bind a name nor open a scope nor call a function keep the guarantee. -/
structure Calm (g : Guarantee) (d : Discipline) : Prop where
  refl : ∀ {m}, g.Good m → g.Moves m m
  trans : ∀ {m₁ m₂ m₃}, g.Moves m₁ m₂ → g.Moves m₂ m₃ → g.Moves m₁ m₃
  resolve : ∀ {m : Machine} {v w : Value}, g.Good m → v ∈ m.scopes.values →
    m.store.resolve? v = some w → w.Obeys d ∧ d.captured w
  types : ∀ {m : Machine} {v : Value}, g.Good m → v.Obeys d →
    let m' := { m with types := (v.internType m.types).2 }
    g.Good m' ∧ g.Moves m m'
  identity : ∀ {m : Machine}, g.Good m →
    let m' := { m with nextIdentity := m.nextIdentity + 1 }
    g.Good m' ∧ g.Moves m m'

/-- All steps of evaluation keep the guarantee, as long as the values and expressions obey a
discipline. -/
structure Sound (g : Guarantee) (d : Discipline) (host : Host) : Prop extends g.Calm d where
  bind : ∀ {m : Machine} {name : String} {v : Value}, g.Good m → v.Obeys d →
    g.Good (m.bind name v) ∧ g.Moves m (m.bind name v)
  enter : ∀ {m : Machine}, g.Good m → g.Good m.enter
  leave : ∀ {m m' : Machine}, g.Good m → g.Good m' → g.Moves m.enter m' →
    g.Good (Eval.leaveScope m') ∧ g.Moves m (Eval.leaveScope m')
  call : ∀ {m : Machine} {identity type params body captured args}, g.Good m →
    (Function.lambda identity type params body captured).Obeys d → Value.AllObey d args →
    g.Good (m.call params captured args)
  comeBack : ∀ {m m' : Machine} {identity type params body captured args}, g.Good m →
    (Function.lambda identity type params body captured).Obeys d → Value.AllObey d args →
    g.Good m' → g.Moves (m.call params captured args) m' →
    g.Good (m.comeBack m') ∧ g.Moves m (m.comeBack m')
  host : ∀ {m : Machine} {name args span}, g.Good m → Value.AllObey d args →
    g.Holds (·.Obeys d) m (Eval.mapState (fun memory => { m with toMemory := memory })
      (host name ⟨args, span, m.callDepth + 1⟩ m.toMemory))

/-- The state that a computation ended in. -/
def finalState {ε σ α : Type} : EStateM.Result ε σ α → σ
  | .ok _ s => s
  | .error _ s => s

theorem Holds.final {Q : α → Prop} {m : Machine} {r : EStateM.Result EvalError Machine α}
    (h : g.Holds Q m r) : g.Good (finalState r) ∧ g.Moves m (finalState r) := by
  cases r with
  | ok v m' => exact ⟨h.1, h.2.1⟩
  | error e m' => exact h

/-! ### Composing computations -/

/-- A change of the state at the end, which may turn one guarantee into another. -/
theorem Holds.mapState {g' : Guarantee} {Q : α → Prop} {m m₁ : Machine} {change : Machine → Machine}
    {r : EStateM.Result EvalError Machine α} (h : g.Holds Q m₁ r)
    (hchange : ∀ m', g.Good m' → g.Moves m₁ m' → g'.Good (change m') ∧ g'.Moves m (change m')) :
    g'.Holds Q m (Eval.mapState change r) := by
  cases r with
  | ok v m' =>
    obtain ⟨hgood, hmove⟩ := hchange m' h.1 h.2.1
    exact ⟨hgood, hmove, h.2.2⟩
  | error e m' => exact hchange m' h.1 h.2

variable {d : Discipline} {host : Host}

namespace Calm

theorem pure (hg : g.Calm d) {Q : α → Prop} {v : α} (hv : Q v) :
    g.Ensures Q (Pure.pure v) :=
  fun _ hm => ⟨hm, hg.refl hm, hv⟩

theorem fail (hg : g.Calm d) {Q : α → Prop} (cause : EvalCause) (span : Span) :
    g.Ensures Q (Eval.fail cause span) :=
  fun _ hm => ⟨hm, hg.refl hm⟩

theorem seq (hg : g.Calm d) {P : α → Prop} {Q : β → Prop} {x : EvalM α} {f : α → EvalM β}
    (hx : g.Ensures P x) (hf : ∀ v, P v → g.Ensures Q (f v)) : g.Ensures Q (x >>= f) := by
  intro m hm
  have hxm := hx m hm
  rw [Eval.bind_run]
  cases hr : x m with
  | error e m' =>
    rw [hr] at hxm
    exact hxm
  | ok v m' =>
    rw [hr] at hxm
    obtain ⟨hm', hmove, hv⟩ := hxm
    have hfm := hf v hv m' hm'
    simp only
    cases hs : f v m' with
    | ok w m'' =>
      rw [hs] at hfm
      exact ⟨hfm.1, hg.trans hmove hfm.2.1, hfm.2.2⟩
    | error e m'' =>
      rw [hs] at hfm
      exact ⟨hfm.1, hg.trans hmove hfm.2⟩

/-! ### The operations of the evaluator -/

theorem describe (hg : g.Calm d) {v : Value} (hv : v.Obeys d) :
    g.Ensures (fun _ => True) (Eval.describe v) := by
  intro m hm
  obtain ⟨hgood, hmove⟩ := hg.types hm hv
  exact ⟨hgood, hmove, trivial⟩

theorem lookup (hg : g.Calm d) (note : Annotation) (name : String) :
    g.Ensures (·.Obeys d) (Eval.lookup note name) := by
  intro m hm
  rw [Eval.lookup, Eval.get_run]
  cases hv : m.scopes.find? name with
  | none => exact hg.fail _ _ m hm
  | some v =>
    simp only [Eval.resolve_eq]
    cases hw : m.store.resolve? v with
    | none => exact ⟨hm, hg.refl hm⟩
    | some w =>
      exact ⟨hm, hg.refl hm, (hg.resolve hm (Scopes.mem_values_of_find? hv) hw).1⟩

theorem unary (hg : g.Calm d) (note : Annotation) (op : UnaryOp) {v : Value}
    (hv : v.Obeys d) : g.Ensures (·.Obeys d) (Eval.unary note op v) := by
  rw [Eval.unary.eq_def]
  split
  · next w hw => exact hg.pure (Value.obeys_unaryOp hw)
  · exact hg.fail _ _
  · exact hg.fail _ _
  · exact hg.fail _ _
  · exact hg.seq (hg.describe hv) fun _ _ => hg.fail _ _

theorem binary (hg : g.Calm d) (note : Annotation) (op : BinaryOp) {l r : Value}
    (hl : l.Obeys d) (hr : r.Obeys d) : g.Ensures (·.Obeys d) (Eval.binary note op l r) := by
  intro m hm
  rw [Eval.binary, Eval.get_run]
  cases hop : l.binaryOp op r m.options.realPrecision with
  | ok w => exact hg.pure (Value.obeys_binaryOp hop) m hm
  | error e =>
    cases e with
    | divisionByZero => exact hg.fail _ _ m hm
    | tooLarge => exact hg.fail _ _ m hm
    | exponentOverflow => exact hg.fail _ _ m hm
    | undefined =>
      have herror := hg.seq (hg.describe hl) fun left _ =>
        hg.seq (hg.describe hr) fun right _ =>
          hg.fail (Q := fun v : Value => v.Obeys d) (.undefinedBinary op left right) note.span
      exact herror m hm

theorem closeOver (hg : g.Calm d) (note : Annotation) {params : List String} {body : Expr}
    (hp : d.params params) (hb : body.Obeys d) :
    g.Ensures (·.Obeys d) (Eval.closeOver note params body) := by
  intro m hm
  show g.Holds _ m ((Eval.resolveFrame note.span m.scopes.visible >>= fun captured =>
    Eval.freshIdentity >>= fun identity =>
      Pure.pure (Value.function (.lambda identity note.type params body captured))) m)
  rw [Eval.bind_run, Eval.resolveFrame_eq]
  cases hc : Eval.resolved? m.store m.scopes.visible with
  | none => exact ⟨hm, hg.refl hm⟩
  | some captured =>
    -- All that is captured is what the chain of a visible value ends in.
    have hvalues : ∀ b ∈ captured, b.2.Obeys d ∧ d.captured b.2 := by
      intro b hmem
      obtain ⟨v, hv, hw⟩ := Eval.mem_resolved? hc hmem
      obtain ⟨c, hvisible, rfl⟩ := List.mem_map.mp hv
      exact hg.resolve hm (Scopes.mem_values_of_visible hvisible) hw
    obtain ⟨hgood, hmove⟩ := hg.identity hm
    exact ⟨hgood, hmove, hp, hb, Value.bindingsObey_iff.mpr fun b hmem => (hvalues b hmem).1,
      fun b hmem => (hvalues b hmem).2⟩

theorem member (hg : g.Calm d) (note : Annotation) {c : Module} (hc : c.Obeys d)
    (name : String) : g.Ensures (·.Obeys d) (Eval.member note c name) := by
  rw [Eval.member]
  split
  · next v hv => exact hg.pure (Module.obeys_access? hc hv)
  · exact hg.fail _ _

end Calm

namespace Sound

theorem define (hg : g.Sound d host) (name : String) {v : Value} (hv : v.Obeys d) :
    g.Ensures (fun _ => True) (Eval.bind name v) := by
  intro m hm
  rw [Eval.bind_eq]
  obtain ⟨hgood, hmove⟩ := hg.bind hm hv
  exact ⟨hgood, hmove, trivial⟩

theorem inScope (hg : g.Sound d host) {Q : α → Prop} {x : EvalM α} (hx : g.Ensures Q x) :
    g.Ensures Q (Eval.inScope x) := by
  intro m hm
  have hxm := hx m.enter (hg.enter hm)
  rw [Eval.inScope_eq]
  exact hxm.mapState fun _ hgood hmove => hg.leave hm hgood hmove

end Sound

/-- How functions are applied keeps the guarantee. -/
def EnsuresApply (g : Guarantee) (d : Discipline) (apply : Apply) : Prop :=
  ∀ span f args, f.Obeys d → Value.AllObey d args → g.Ensures (·.Obeys d) (apply span f args)

theorem EnsuresApply.callValue {apply : Apply} (ha : g.EnsuresApply d apply) (note : Annotation)
    {f : Function} {args : List Value} (hf : f.Obeys d) (hargs : Value.AllObey d args) :
    g.Ensures (·.Obeys d) (Eval.callValue apply note f args) :=
  fun m hm => ha note.span f _ hf (Value.obeys_convertArguments hargs) m hm

/-! ### Expressions -/

/-- What evaluating expressions needs to keep the guarantee. If names may not be bound, then a block has
to keep it for another reason than that its items do. -/
structure Closed (g : Guarantee) (d : Discipline) (mayBind : Prop) (apply : Apply) : Prop
    extends g.Calm d where
  calls : g.EnsuresApply d apply
  define : mayBind → ∀ {name : String} {v : Value}, v.Obeys d →
    g.Ensures (fun _ => True) (Eval.bind name v)
  inScope : ∀ {items : List Expr}, Expr.AllObey d items →
    (mayBind → g.Ensures (·.Obeys d) (Expr.evalLastWith apply .unit items)) →
    g.Ensures (·.Obeys d) (Eval.inScope (Expr.evalLastWith apply .unit items))

namespace Closed

variable {mayBind : Prop} {apply : Apply}

mutual

theorem evalWith (hg : g.Closed d mayBind apply) :
    ∀ {e : Expr}, e.Obeys d → mayBind ∨ e.BindsNothing → g.Ensures (·.Obeys d) (e.evalWith apply)
  | .literal .., he, _ => hg.pure he
  | .name note n, _, _ => hg.lookup note n
  | .unary note op operand, he, hb => by
    rw [Expr.evalWith]
    exact hg.seq (evalWith hg he hb) fun v hv => hg.unary note op hv
  | .binary note op lhs rhs, he, hb => by
    rw [Expr.evalWith]
    exact hg.seq (evalWith hg he.1 (hb.imp_right And.left)) fun l hl =>
      hg.seq (evalWith hg he.2 (hb.imp_right And.right)) fun r hr => hg.binary note op hl hr
  | .define note name value, he, hb => by
    -- An expression that binds nothing is no definition.
    have hbind : mayBind := hb.resolve_right id
    rw [Expr.evalWith]
    exact hg.seq (evalWith hg he (Or.inl hbind)) fun v hv =>
      hg.seq (hg.define hbind hv) fun _ _ => hg.pure hv
  | .product note items, he, hb => by
    rw [Expr.evalWith]
    exact hg.seq (evalAllWith hg he hb) fun vs hvs => hg.pure (Value.obeys_tuple hvs)
  | .lambda note params body, he, _ => hg.closeOver note he.1 he.2
  | .call note callee args, he, hb => by
    rw [Expr.evalWith]
    refine hg.seq (evalWith hg he.1 (hb.imp_right And.left)) fun target htarget => ?_
    split
    · next f =>
      have hargs := evalAllWith hg he.2 (hb.imp_right And.right)
      split
      -- another number of arguments: none of them is evaluated
      · exact hg.seq (hg.fail (Q := fun _ => False) _ _) fun _ h => h.elim
      · exact hg.seq hargs fun vs hvs => hg.calls.callValue note htarget hvs
    · exact hg.seq (hg.describe htarget) fun _ _ => hg.fail _ _
  | .access note container name, he, hb => by
    rw [Expr.evalWith]
    refine hg.seq (evalWith hg he hb) fun target htarget => ?_
    split
    · next c => exact hg.member note htarget name
    · exact hg.seq (hg.describe htarget) fun _ _ => hg.fail _ _
  | .block note items, he, _ => by
    rw [Expr.evalWith]
    exact hg.inScope he fun hbind => evalLastWith hg hbind he (show Value.unit.Obeys d from trivial)

theorem evalAllWith (hg : g.Closed d mayBind apply) :
    ∀ {es : List Expr}, Expr.AllObey d es → mayBind ∨ Expr.AllBindNothing es →
      g.Ensures (Value.AllObey d) (Expr.evalAllWith apply es)
  | [], _, _ => hg.pure trivial
  | e :: es, he, hb => by
    rw [Expr.evalAllWith]
    exact hg.seq (evalWith hg he.1 (hb.imp_right And.left)) fun v hv =>
      hg.seq (evalAllWith hg he.2 (hb.imp_right And.right)) fun vs hvs => hg.pure ⟨hv, hvs⟩

theorem evalLastWith (hg : g.Closed d mayBind apply) (hbind : mayBind) :
    ∀ {es : List Expr} {last : Value}, Expr.AllObey d es → last.Obeys d →
      g.Ensures (·.Obeys d) (Expr.evalLastWith apply last es)
  | [], _, _, hlast => hg.pure hlast
  | e :: es, _, he, _ => by
    rw [Expr.evalLastWith]
    exact hg.seq (evalWith hg he.1 (Or.inl hbind)) fun v hv => evalLastWith hg hbind he.2 hv

end

end Closed

/-! ### Functions -/

namespace Sound

theorem closed (hg : g.Sound d host) {apply : Apply} (ha : g.EnsuresApply d apply) :
    g.Closed d True apply :=
  { hg with
    calls := ha
    define := fun _ => hg.define _
    inScope := fun _ hitems => hg.inScope (hitems trivial) }

theorem applyWithin (hg : g.Sound d host) (callsLeft : Nat) :
    g.EnsuresApply d (Eval.applyWithin host callsLeft) := by
  induction callsLeft with
  | zero => exact fun span f args _ _ m hm => hg.fail _ span m hm
  | succ callsLeft ih =>
    intro span f args hf hargs m hm
    cases f with
    | native identity type arity name =>
      show g.Holds _ m (Eval.asCall (Eval.callHost host name args span) m)
      rw [Eval.callHost_eq]
      exact hg.host hm hargs
    | lambda identity type params body captured =>
      show g.Holds _ m (Eval.asCall (Eval.callLambda (Eval.applyWithin host callsLeft) params body
        captured args) m)
      rw [Eval.callLambda_eq]
      -- The body has one call less for the functions that it applies.
      have hbody := (hg.closed ih).evalWith hf.2.1 (Or.inl trivial) _ (hg.call hm hf hargs)
      exact hbody.mapState fun _ hgood hmove => hg.comeBack hm hf hargs hgood hmove

theorem eval (hg : g.Sound d host) {e : Expr} (he : e.Obeys d) :
    g.Ensures (·.Obeys d) (e.eval host) :=
  fun m hm => (hg.closed (hg.applyWithin _)).evalWith he (Or.inl trivial) m hm

theorem evalAll (hg : g.Sound d host) (callsLeft : Nat) {es : List Expr} (hes : Expr.AllObey d es) :
    g.Ensures (Value.AllObey d) (Expr.evalAllWith (Eval.applyWithin host callsLeft) es) :=
  (hg.closed (hg.applyWithin callsLeft)).evalAllWith hes (Or.inl trivial)

theorem evalLast (hg : g.Sound d host) (callsLeft : Nat) {es : List Expr} {last : Value}
    (hes : Expr.AllObey d es) (hlast : last.Obeys d) :
    g.Ensures (·.Obeys d) (Expr.evalLastWith (Eval.applyWithin host callsLeft) last es) :=
  (hg.closed (hg.applyWithin callsLeft)).evalLastWith trivial hes hlast

end Sound

end Guarantee

end NumericTower
