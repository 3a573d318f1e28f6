import Mathlib
import NumericTower.Expr.Build
import NumericTower.Proofs.Eval.Balance
import NumericTower.Proofs.Eval.Rules
import NumericTower.Proofs.Number.Defined
import NumericTower.Proofs.TypeTable.Castable

/-!
# Arguments of calls

A call is built if the static types of its arguments can be cast to those of the parameters. When it is
evaluated, a number is converted to the type of its parameter if its own type fits there. The type of a value
may be wider than the static type of its expression, and then it can be too wide for the parameter.

## Key results
- `Number.exists_convertTo?`: what a number can be converted to
- `Eval.exists_convertArgument`: when an argument gets the type of its parameter
- `Build.call_eq_ok_iff`: which calls are built
- `argument_has_type_of_parameter_iff_fits`
-/

namespace NumericTower

/-! ### Conversions -/

namespace Number

variable {n : Number} {t : NumericType} {q : Rat}

theorem proper_or_type_eq (n : Number) : n.Proper ∨ n.type = .unbounded .nat := by
  cases n <;> first | exact .inl trivial | exact .inr rfl

/-- An unbounded natural, even one that is negative, becomes an unbounded integer. -/
theorem exists_unbounded_integral (hn : n.type = .unbounded .nat) (hk : t.kind.isIntegral = true)
    (hfits : n.type.fits t = true) (hne : n.type ≠ t) (p : Nat) :
    ∃ w, n.convertTo? t p = some w ∧ w.type = t := by
  have hwidth : t.width = 0 := by
    rcases NumericType.fits_iff.mp hfits with h | ⟨-, h | ⟨h, -⟩⟩
    · exact absurd h hne
    · exact NumericType.isUnbounded_iff.mp h
    · rw [hn] at h
      cases h
  obtain ⟨z, hz⟩ := exists_toInt? (a := n) (by rw [hn]; rfl)
  cases htk : t.kind with
  | nat => exact absurd (hn.trans (NumericType.ext htk.symm hwidth.symm)) hne
  | int =>
    refine ⟨integer z t.width, ?_, type_integer htk (.inl hwidth) ?_⟩
    · simp only [convertTo?, if_neg (not_refused hfits hne), htk, hz, Option.map_some]
    · rw [NumericType.Holds, htk]
      exact fun h0 => absurd hwidth h0
  | ratio | real =>
    rw [htk] at hk
    cases hk

/-- A finite number is converted to every type that its own type fits into, and becomes one of that type. -/
theorem exists_convertTo? (hq : n.toRat? = some q) (ht : t.width = 0 ∨ t ∈ NumericType.fixed t.kind)
    (hfits : n.type.fits t = true) (hne : n.type ≠ t) (p : Nat) :
    ∃ w, n.convertTo? t p = some w ∧ w.type = t := by
  cases hk : t.kind with
  | nat | int =>
    have hintegral : t.kind.isIntegral = true := by rw [hk]; rfl
    rcases n.proper_or_type_eq with hn | hn
    · obtain ⟨w, hw, htype, -⟩ := exists_integral hfits hne p hn hq hintegral ht
      exact ⟨w, hw, htype⟩
    · exact exists_unbounded_integral hn hintegral hfits hne p
  | ratio =>
    obtain ⟨w, hw, htype, -⟩ := exists_ratio hfits hne p hq hk ht
    exact ⟨w, hw, htype⟩
  | real =>
    rcases ht with ht | ht
    · obtain ⟨x, -, hx, -⟩ := exists_toBigReal? hq p
      refine ⟨.bigReal x, ?_, (NumericType.ext hk ht).symm⟩
      simp [convertTo?, if_neg (not_refused hfits hne), hk, ht, hx]
    · obtain ⟨w, -, hw, htype, -⟩ := exists_converted hq (hk ▸ ht) hfits hne p
      exact ⟨w, hw, htype⟩

end Number

namespace Eval

variable {a : TypeTable} {param : TypeId} {params : List TypeId} {vs : List Value} {v : Value}

/-- A number gets the numeric type of its parameter exactly if its own type fits there. -/
theorem exists_convertArgument {n : Number} {t : NumericType} {q : Rat}
    (hparam : a.numericType? param = some t) (ht : t.width = 0 ∨ t ∈ NumericType.fixed t.kind)
    (hq : n.toRat? = some q) (p : Nat) :
    ∃ w, convertArgument a p (.number n) param = .number w ∧ (w.type = t ↔ n.type.fits t = true) := by
  have hrun : convertArgument a p (.number n) param =
      ((n.convertTo? t p).map Value.number).getD (.number n) := by
    simp only [convertArgument, hparam]
  -- A conversion that is refused leaves the number as it is.
  by_cases h : n.type = t ∨ n.type.fits t = false
  · refine ⟨n, by rw [hrun, Number.convertTo?, if_pos h]; rfl, ?_⟩
    constructor
    · rintro rfl
      exact NumericType.fits_refl _
    · exact fun hfits => h.resolve_right (by rw [hfits]; decide)
  · obtain ⟨hne, hfits⟩ := not_or.mp h
    have hfits : n.type.fits t = true := Bool.eq_true_of_not_eq_false hfits
    obtain ⟨w, hw, htype⟩ := Number.exists_convertTo? hq ht hfits hne p
    exact ⟨w, by rw [hrun, hw]; rfl, fun _ => hfits, fun _ => htype⟩

/-- Every argument that has a parameter is converted for it. -/
theorem getElem?_convertArguments (a : TypeTable) (p : Nat) {i : Nat} (hv : vs[i]? = some v)
    (hparam : params[i]? = some param) :
    (convertArguments a p vs params)[i]? = some (convertArgument a p v param) := by
  induction vs generalizing params i with
  | nil => exact nomatch hv
  | cons v' vs ih =>
    cases params with
    | nil => exact nomatch hparam
    | cons param' params =>
      cases i with
      | zero =>
        cases hv
        cases hparam
        rfl
      | succ i => exact ih hv hparam

end Eval

/-! ### Calls that are built -/

namespace Build

variable {a b : TypeTable} {callee e : Expr} {args : List Expr} {params : List TypeId} {span : Span}

/-- Arguments pass the check if each can be cast to the type of its parameter. -/
theorem checkArguments_eq_ok_iff :
    checkArguments args params a = .ok () b ↔
      b = a ∧ ∀ p ∈ args.zip params, a.isCastable p.1.type p.2 = true := by
  induction args generalizing params with
  | nil => exact ⟨fun h => by cases h; exact ⟨rfl, nofun⟩, fun h => h.1 ▸ rfl⟩
  | cons arg args ih =>
    cases params with
    | nil => exact ⟨fun h => by cases h; exact ⟨rfl, nofun⟩, fun h => h.1 ▸ rfl⟩
    | cons param params =>
      rw [checkArguments, Eval.get_run, List.zip_cons_cons, List.forall_mem_cons]
      split
      · next hcast => exact ih.trans (and_congr_right fun _ => (and_iff_right hcast).symm)
      · next hcast => exact ⟨nofun, fun h => absurd h.2.1 hcast⟩

/-- A call is built if the callee has a function type with as many parameters as there are arguments, and each
argument can be cast to the type of its parameter. The table stays as it is. -/
theorem call_eq_ok_iff :
    call callee args span a = .ok e b ↔
      b = a ∧ ∃ params result, a.functionParts? callee.type = some (params, result) ∧
        e = .call ⟨result, span⟩ callee args ∧ params.length = args.length ∧
        ∀ p ∈ args.zip params, a.isCastable p.1.type p.2 = true := by
  rw [call, Eval.get_run]
  cases hparts : a.functionParts? callee.type with
  | none => exact ⟨nofun, nofun⟩
  | some parts =>
    obtain ⟨params, result⟩ := parts
    simp only
    split
    · next hlength =>
      refine ⟨nofun, ?_⟩
      rintro ⟨-, _, _, hsame, -, heq, -⟩
      cases hsame
      exact absurd heq hlength
    · next hlength =>
      rw [Eval.bind_run]
      constructor
      · intro h
        cases hcheck : checkArguments args params a with
        | error err c =>
          rw [hcheck] at h
          exact nomatch h
        | ok u c =>
          obtain ⟨rfl, hcast⟩ := checkArguments_eq_ok_iff.mp hcheck
          rw [hcheck] at h
          cases h
          exact ⟨rfl, params, result, rfl, rfl, not_not.mp hlength, hcast⟩
      · rintro ⟨rfl, _, _, hsame, rfl, -, hcast⟩
        cases hsame
        rw [checkArguments_eq_ok_iff.mpr ⟨rfl, hcast⟩]
        rfl

end Build

/-! ### Canonical tables during evaluation -/

namespace Machine

variable {host : Host}

/-- The table of types stays canonical and is only extended. -/
def canonicity : Guarantee :=
  ⟨fun m => m.types.Canonical, growth.Moves⟩

theorem sound_canonicity (hhost : host.OnlyBuildsTypes) : canonicity.Sound .any host :=
  have hgrowth := sound_growth hhost.onlyAddsTypes
  { refl := fun _ => .refl _
    trans := hgrowth.trans
    resolve := fun _ => hgrowth.resolve trivial
    types := fun {m v} hm _ => ⟨v.canonical_internType hm, v.extends_internType m.types⟩
    identity := fun hm => ⟨hm, .refl _⟩
    bind := fun hm _ => ⟨hm, .refl _⟩
    enter := id
    leave := fun {m m'} _ hm' h => by
      refine ⟨?_, (hgrowth.leave (m := m) trivial trivial h).2⟩
      show (Eval.leaveScope m').types.Canonical
      rw [types_leaveScope]
      exact hm'
    call := fun {m _ _ params _ captured args} hm _ _ => by
      show (m.call params captured args).types.Canonical
      rw [call, types_bindAll]
      exact hm
    comeBack := fun {m _ identity type params body captured args} _ hf hargs hm' h =>
      ⟨hm', (hgrowth.comeBack (m := m) trivial hf hargs trivial h).2⟩
    host := fun {m name args span} hm _ => by
      have h := hhost name ⟨args, span, m.callDepth + 1⟩ m.toMemory
      cases hr : host name ⟨args, span, m.callDepth + 1⟩ m.toMemory with
      | ok v memory =>
        rw [hr] at h
        exact ⟨h.canonical hm, h.extends, v.obeys_any⟩
      | error e memory =>
        rw [hr] at h
        exact ⟨h.canonical hm, h.extends⟩ }

end Machine

/-! ### Arguments -/

/-- Whether a value is one of a type: its own type can be cast to it. -/
def Value.IsOfType (v : Value) (a : TypeTable) (t : TypeId) : Prop :=
  (v.internType a).2.isCastable (v.internType a).1 t = true

theorem TypeTable.node_of_numericType? {a : TypeTable} {s : TypeId} {t : NumericType}
    (h : a.numericType? s = some t) : a.node s = .numeric t := by
  rw [numericType?] at h
  split at h
  · next x hx => rw [hx, Option.some.inj h]
  · exact nomatch h

/-- A number of a type that can be cast to a numeric type has a type that fits there. -/
theorem Value.IsOfType.fits {a b : TypeTable} {n : Number} {s param : TypeId} {t : NumericType}
    (h : (Value.number n).IsOfType b s) (hb : b.Canonical) (hab : a.Extends b) (hs : a.Holds s)
    (hparam : a.node param = .numeric t) (hcast : a.isCastable s param = true) :
    n.type.fits t = true := by
  have hext := hab.trans (b.extends_numeric n.type)
  have hheld : a.Holds param := TypeTable.holds_of_node_ne_top (by rw [hparam]; exact nofun)
  have hc := (hb.issues_numeric n.type).1
  have htrans := hc.isCastable_trans h ((hext.isCastable_eq hs hheld).trans hcast)
  exact hc.fits_of_isCastable (hb.node_numeric n.type) ((hext.node_eq hheld).trans hparam) htrans

/-- Take a call that was built from a callee and arguments of held types, and an evaluation of it, at any later
time, in which the callee has a function of its type for its value and the arguments have values. The function
is applied to as many values. Where the parameter has a numeric type that is unbounded or of a fixed width and
the argument is a finite number, a number is passed, and it has exactly the type of the parameter if and only
if the type of the argument fits into that one. So it does whenever the argument is of its static type. -/
theorem argument_has_type_of_parameter_iff_fits {a b : TypeTable} {callee e : Expr} {args : List Expr}
    {span : Span} {host : Host} {m m₁ m₂ : Machine} {f : Function} {vs : List Value}
    (ha : a.Reachable) (hheld : ∀ x ∈ callee :: args, a.Holds x.type)
    (hbuild : Build.call callee args span a = .ok e b) (hhost : host.OnlyBuildsTypes)
    (hm : b.GrowsTo m.types) (hcallee : callee.eval host m = .ok (.function f) m₁)
    (hfunction : (m₁.types.functionParts? f.type).isSome)
    (hf : (Value.function f).IsOfType m₁.types callee.type) (harity : f.arity = args.length)
    (hargs : Expr.evalAll host args m₁ = .ok vs m₂) :
    ∃ params ws, b.functionParts? callee.type = some (params, e.type) ∧
      params.length = args.length ∧ e.eval host m = Eval.applyIn host m₂ span f ws m₂ ∧
      ∀ (i : Nat) (arg : Expr) (param : TypeId) (t : NumericType) (n : Number) (q : Rat),
        args[i]? = some arg → params[i]? = some param → b.numericType? param = some t →
        (t.width = 0 ∨ t ∈ NumericType.fixed t.kind) → vs[i]? = some (.number n) → n.toRat? = some q →
        ∃ w, ws[i]? = some (.number w) ∧ (w.type = t ↔ n.type.fits t = true) ∧
          ((Value.number n).IsOfType m₂.types arg.type → w.type = t) := by
  obtain ⟨rfl, params, result, hparts, rfl, hlength, hcast⟩ := Build.call_eq_ok_iff.mp hbuild
  -- The tables of the evaluation extend the one that the call was built over.
  have hm₁ : b.Extends m₁.types ∧ m₁.types.Canonical := by
    have h := (Machine.sound_canonicity hhost).eval callee.obeys_any m (hm.canonical ha.canonical)
    rw [hcallee] at h
    exact ⟨hm.extends.trans h.2.1, h.1⟩
  have hm₂ : m₁.types.Extends m₂.types ∧ m₂.types.Canonical := by
    have h : Machine.canonicity.Holds _ m₁ (Expr.evalAll host args m₁) :=
      (Machine.sound_canonicity hhost).evalAll _ (Expr.allObey_any args) m₁ hm₁.2
    rw [hargs] at h
    exact ⟨h.2.1, h.1⟩
  -- The function has the parameters that the type of the callee says.
  have hsame : m₂.types.functionParts? f.type = some (params, result) := by
    obtain ⟨found, hfound⟩ := Option.isSome_iff_exists.mp hfunction
    have hstatic := (hm₁.1.functionParts?_eq (hheld callee List.mem_cons_self)).trans hparts
    rw [hm₂.1.functionParts?_eq (TypeTable.holds_of_functionParts? hfound), hfound,
      hm₁.2.functionParts?_of_isCastable hfound hstatic hf]
  refine ⟨params, Eval.convertArguments m₂.types m₂.options.realPrecision vs params, hparts, hlength,
    ?_, fun i arg param t n q harg hparam htype ht hn hq => ?_⟩
  · rw [Expr.eval_call hcallee harity hargs, Eval.passed, hsame]
    rfl
  · have hnode : b.node param = .numeric t := TypeTable.node_of_numericType? htype
    have hext := hm₁.1.trans hm₂.1
    have htype₂ : m₂.types.numericType? param = some t := by
      rw [TypeTable.numericType?, hext.node_eq (TypeTable.holds_of_node_ne_top (by rw [hnode]; exact nofun)),
        hnode]
    obtain ⟨w, hw, hiff⟩ := Eval.exists_convertArgument htype₂ ht hq m₂.options.realPrecision
    refine ⟨w, ?_, hiff, fun hstatic => hiff.mpr ?_⟩
    · rw [Eval.getElem?_convertArguments _ _ hn hparam, hw]
    · have hmem : (arg, param) ∈ args.zip params :=
        List.mem_of_getElem? (List.getElem?_zip_eq_some.mpr ⟨harg, hparam⟩)
      exact hstatic.fits hm₂.2 hext (hheld arg (.tail _ (List.mem_of_getElem? harg))) hnode
        (hcast _ hmem)

/-- An integer of 16 bits that is passed for a float of 64 bits. -/
theorem argument_has_type_of_parameter_iff_fits_short_integer :
    let span : Span := ⟨1, 1⟩
    let a : TypeTable := [TypeTable.BuilderCall.numeric .real64, .function [⟨14⟩] ⟨14⟩,
      .numeric ⟨.int, 16, by decide⟩].foldl (fun a c => (c.run a).2) .initial
    let m : Machine := { EvalState.initial {} with types := a, scopes := .empty }
    let f : Function := .lambda 0 ⟨15⟩ ["x"] (.name ⟨⟨14⟩, span⟩ "x") []
    let n : Number := .int .bits16 ⟨-3, by decide⟩
    let e : Expr := .call ⟨⟨14⟩, span⟩ (.literal ⟨⟨15⟩, span⟩ (.function f))
      [.literal ⟨⟨16⟩, span⟩ (.number n)]
    a.Reachable ∧ Build.call (.literal ⟨⟨15⟩, span⟩ (.function f)) [.literal ⟨⟨16⟩, span⟩ (.number n)]
        span a = .ok e a ∧
      ∃ ws w, e.eval Host.standard m = Eval.applyIn Host.standard m span f ws m ∧
        ws[0]? = some (.number w) ∧ w.type = .real64 := by
  intro span a m f n e
  have ha : a.Reachable :=
    ((TypeTable.GrowsTo.refl.call (.numeric .real64) ⟨by decide, fun _ _ h => nomatch h⟩).call
      (.function [⟨14⟩] ⟨14⟩) ⟨by decide, fun _ _ h => nomatch h⟩).call
      (.numeric ⟨.int, 16, by decide⟩) ⟨by decide, fun _ _ h => nomatch h⟩
  have hparts : a.functionParts? ⟨15⟩ = some ([⟨14⟩], ⟨14⟩) := by
    rw [TypeTable.functionParts?_eq]
    rfl
  have hcast : a.isCastable ⟨16⟩ ⟨14⟩ = true := TypeTable.isCastable_of_nodes (by decide)
  have hbuild : Build.call (.literal ⟨⟨15⟩, span⟩ (.function f)) [.literal ⟨⟨16⟩, span⟩ (.number n)]
      span a = .ok e a :=
    Build.call_eq_ok_iff.mpr ⟨rfl, [⟨14⟩], ⟨14⟩, hparts, rfl, rfl, List.forall_mem_singleton.mpr hcast⟩
  have hhost : Host.standard.OnlyBuildsTypes := Host.onlyBuildsTypes_pureFunction _
  obtain ⟨params, ws, hparams, -, hrun, hpassed⟩ := argument_has_type_of_parameter_iff_fits ha (by decide)
    hbuild hhost (show a.GrowsTo m.types from .refl)
    (show (Expr.literal ⟨⟨15⟩, span⟩ (.function f)).eval Host.standard m = .ok (.function f) m from rfl)
    (by rw [show m.types.functionParts? f.type = _ from hparts]; rfl) (m.types.isCastable_refl _) rfl
    (show Expr.evalAll Host.standard [.literal ⟨⟨16⟩, span⟩ (.number n)] m = .ok [.number n] m from rfl)
  obtain ⟨rfl, -⟩ := Prod.mk.inj (Option.some.inj (hparams.symm.trans hparts))
  have hn : (Value.number n).IsOfType m.types ⟨16⟩ := by
    have htype : (TypeTable.numeric n.type a).1 = ⟨16⟩ := by decide
    show TypeTable.isCastable _ (TypeTable.numeric n.type a).1 ⟨16⟩ = true
    rw [htype, TypeTable.isCastable_refl]
  obtain ⟨w, hw, -, htype⟩ := hpassed 0 _ ⟨14⟩ .real64 n (-3) rfl rfl (by decide) (.inr (by decide)) rfl rfl
  exact ⟨ha, hbuild, ws, w, hrun, hw, htype hn⟩

/-- The sum of two ratios of 32 bits may need 64. It is then no longer of its static type, and a function whose
body is its parameter, a float of 32 bits, gives back a ratio. -/
theorem outgrown_ratio_is_passed_as_it_is :
    let span : Span := ⟨1, 1⟩
    let program : BuildM (TypeId × Expr) := do
      let real ← Build.types (TypeTable.numeric .real32)
      let callee ← Build.lambda [("x", real)] (Build.name "x" real span) span
      let ratio ← Build.ratio "32767/1" 10 span
      let sum ← Build.binary .add ratio ratio span
      let e ← Build.call callee [sum] span
      return (real, e)
    (match program .initial with
      | .ok (param, e) a =>
        match e.eval Host.standard { EvalState.initial {} with types := a, scopes := .empty } with
        | .ok (.number n) _ => some (a.numericType? param, n.toRat?, n.type)
        | _ => none
      | _ => none) = some (some .real32, some 65534, ⟨.ratio, 64, by decide⟩) := by
  decide +kernel

end NumericTower
