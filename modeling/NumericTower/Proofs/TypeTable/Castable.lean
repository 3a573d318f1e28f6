import Mathlib
import NumericTower.Proofs.NumericType.Fits
import NumericTower.Proofs.TypeTable.Canonical
import NumericTower.TypeTable.Castable

/-!
# Castability is a preorder

The recursion of castability ends, and in every table that builders make castability is described by rules
whose order does not matter. From the rules it follows that every type can be cast to itself, and that two
casts can be joined to one.

## Key results
- `TypeTable.castWithin_eq`: how deep the recursion goes
- `TypeTable.Canonical.isCastable_iff`: castability by rules
- `TypeTable.Canonical.isCastable_trans`: two casts are one
- `TypeTable.Extends.isCastable_eq`: later tables give the same answers
- `TypeTable.Canonical.functionParts?_of_isCastable`: functions are cast to functions like them
- `TypeTable.castability_preorder`: all of it for reachable tables
-/

namespace NumericTower

/-! ### Lists -/

theorem all_congr_of_mem {α : Type} {xs : List α} {p q : α → Bool} (h : ∀ x ∈ xs, p x = q x) :
    xs.all p = xs.all q := by
  induction xs with
  | nil => rfl
  | cons x xs ih =>
    rw [List.all_cons, List.all_cons, h x List.mem_cons_self, ih fun y hy => h y (.tail x hy)]

theorem any_congr_of_mem {α : Type} {xs : List α} {p q : α → Bool} (h : ∀ x ∈ xs, p x = q x) :
    xs.any p = xs.any q := by
  induction xs with
  | nil => rfl
  | cons x xs ih =>
    rw [List.any_cons, List.any_cons, h x List.mem_cons_self, ih fun y hy => h y (.tail x hy)]

/-- Relations of lists one by one can be joined if those of their elements can. -/
theorem forall₂_trans_of_mem {α : Type} {r : α → α → Prop} {xs ys zs : List α}
    (h : List.Forall₂ r xs ys) (h' : List.Forall₂ r ys zs)
    (htrans : ∀ x ∈ xs, ∀ y ∈ ys, ∀ z ∈ zs, r x y → r y z → r x z) : List.Forall₂ r xs zs := by
  induction h generalizing zs with
  | nil => exact h'
  | @cons x y xs ys hxy _ ih =>
    cases h' with
    | @cons _ z _ zs hyz h' =>
      refine .cons ?_ (ih h' fun x' hx y' hy z' hz => ?_)
      · exact htrans x List.mem_cons_self y List.mem_cons_self z List.mem_cons_self hxy hyz
      · exact htrans x' (.tail x hx) y' (.tail y hy) z' (.tail z hz)

namespace TypeTable

variable {a b : TypeTable} {s t u c : TypeId} {cases : List TypeId}

/-! ### The recursion -/

/-- What the nodes of two types say about castability if `r` says it of their components. -/
def castNodes (r : TypeId → TypeId → Bool) (s t : TypeId) : TypeNode → TypeNode → Bool
  | _, .placeholder .. => true
  | .numeric _, .number => true
  | .numeric x, .numeric y => x.fits y
  | .text x, .text y => x.level ≤ y.level
  | .array e m, .array f n => e = f && lengthFits m n
  | .product xs, .product ys => xs.length == ys.length && (xs.zip ys).all fun p => r p.1 p.2
  | .sum cases, _ => cases.all fun c => r c t
  | _, .sum cases => cases.any fun c => r s c
  | .closure f _, .function .. => f = t
  | _, _ => false

/-- Castability of two types if `r` says it of their components. -/
def castStep (a : TypeTable) (r : TypeId → TypeId → Bool) (s t : TypeId) : Bool :=
  if s = t ∨ t = .top ∨ s = .bottom then true else castNodes r s t (a.node s) (a.node t)

/-- The recursion takes the same step at every depth. -/
theorem isCastable_eq (a : TypeTable) (s t : TypeId) :
    a.isCastable s t = a.castStep a.isCastable s t := by
  rw [isCastable.eq_def, castStep]
  split
  · rfl
  · split
    case h_6 xs ys hs ht =>
      rw [hs, ht, castNodes]
      congr 1
      conv_rhs => rw [← List.attach_map_subtype_val (xs.zip ys), List.all_map]
      rfl
    all_goals simp_all [castNodes]

/-- The answer for two types is made from answers for them and their components, for pairs whose handles are
smaller together. Tables that have the same nodes for the two types therefore take the same step. -/
theorem castStep_congr {r r' : TypeId → TypeId → Bool} (hns : b.node s = a.node s)
    (hnt : b.node t = a.node t)
    (h : ∀ s' ∈ s :: (a.node s).parts, ∀ t' ∈ t :: (a.node t).parts,
      s'.index + t'.index < s.index + t.index → r s' t' = r' s' t') :
    b.castStep r s t = a.castStep r' s t := by
  have hs : ∀ c ∈ (a.node s).parts, c.index < s.index := fun _ => index_lt_of_mem_parts
  have ht : ∀ c ∈ (a.node t).parts, c.index < t.index := fun _ => index_lt_of_mem_parts
  rw [castStep, castStep, hns, hnt]
  congr 1
  generalize a.node s = n at hs h
  generalize a.node t = m at ht h
  unfold castNodes
  split
  case h_6 xs ys =>
    congr 1
    refine all_congr_of_mem fun p hp => ?_
    have hp := List.of_mem_zip hp
    exact h _ (.tail s hp.1) _ (.tail t hp.2) (Nat.add_lt_add (hs _ hp.1) (ht _ hp.2))
  case h_7 cases _ _ =>
    exact all_congr_of_mem fun c hc =>
      h c (.tail s hc) t List.mem_cons_self (Nat.add_lt_add_right (hs c hc) _)
  case h_8 cases _ _ =>
    exact any_congr_of_mem fun c hc =>
      h s List.mem_cons_self c (.tail t hc) (Nat.add_lt_add_left (ht c hc) _)
  all_goals rfl

/-- The recursion of castability down to a depth, with the answers of `r` where it is cut off. -/
def castWithin (a : TypeTable) (r : TypeId → TypeId → Bool) : Nat → TypeId → TypeId → Bool
  | 0 => r
  | n + 1 => a.castStep (castWithin a r n)

/-- The recursion ends: it is never deeper than the sum of the two handles, so what is answered further
down does not matter. -/
theorem castWithin_eq (a : TypeTable) (r : TypeId → TypeId → Bool) {n : Nat}
    (h : s.index + t.index < n) : a.castWithin r n s t = a.isCastable s t := by
  induction n generalizing s t with
  | zero => omega
  | succ n ih =>
    rw [castWithin, isCastable_eq]
    exact castStep_congr rfl rfl fun s' _ t' _ hlt => ih (by omega)

/-- A table that extends another gives the same answers for its types. -/
theorem Extends.isCastable_eq (h : a.Extends b) (hs : a.Holds s) (ht : a.Holds t) :
    b.isCastable s t = a.isCastable s t := by
  induction hn : s.index + t.index using Nat.strong_induction_on generalizing s t with
  | _ n ih =>
    have held : ∀ {u : TypeId}, a.Holds u → ∀ u' ∈ u :: (a.node u).parts, a.Holds u' := by
      intro u hu u' hmem
      rcases List.mem_cons.mp hmem with rfl | hmem
      · exact hu
      · exact hu.of_mem_parts hmem
    rw [TypeTable.isCastable_eq, TypeTable.isCastable_eq a]
    exact castStep_congr (h.node_eq hs) (h.node_eq ht) fun s' hs' t' ht' hlt =>
      ih _ (hn ▸ hlt) (held hs s' hs') (held ht t' ht') rfl

/-! ### Rules -/

/-- The rules of castability, in any order: `s` can be cast to `t` if `r` says it of their components. -/
inductive CastRule (a : TypeTable) (r : TypeId → TypeId → Prop) (s t : TypeId) : Prop where
  | refl (h : s = t)
  | top (h : t = .top)
  | bottom (h : s = .bottom)
  | placeholder {k : Nat} {usage : OpSet} (ht : a.node t = .placeholder k usage)
  | number {x : NumericType} (hs : a.node s = .numeric x) (ht : a.node t = .number)
  | numeric {x y : NumericType} (hs : a.node s = .numeric x) (ht : a.node t = .numeric y)
      (h : x.fits y = true)
  | text {x y : TextKind} (hs : a.node s = .text x) (ht : a.node t = .text y) (h : x.level ≤ y.level)
  | array {e : TypeId} {m n : Nat} (hs : a.node s = .array e m) (ht : a.node t = .array e n)
      (h : lengthFits m n = true)
  | product {xs ys : List TypeId} (hs : a.node s = .product xs) (ht : a.node t = .product ys)
      (h : List.Forall₂ r xs ys)
  | fromSum {cases : List TypeId} (hs : a.node s = .sum cases) (h : ∀ c ∈ cases, r c t)
  | intoSum {cases : List TypeId} {c : TypeId} (ht : a.node t = .sum cases) (hc : c ∈ cases) (h : r s c)
  | closure {closed params : List TypeId} {result : TypeId} (hs : a.node s = .closure t closed)
      (ht : a.node t = .function result params)

/-- What can be cast is so by a rule. -/
theorem castRule_of_isCastable (h : a.isCastable s t = true) :
    a.CastRule (fun s t => a.isCastable s t = true) s t := by
  rw [isCastable_eq, castStep] at h
  split at h
  case isTrue hshort =>
    rcases hshort with hst | ht | hs
    · exact .refl hst
    · exact .top ht
    · exact .bottom hs
  case isFalse =>
    generalize hs : a.node s = n at h
    generalize ht : a.node t = m at h
    unfold castNodes at h
    split at h
    · exact .placeholder ht
    · exact .number hs ht
    · exact .numeric hs ht h
    · exact .text hs ht (of_decide_eq_true h)
    · rw [Bool.and_eq_true, decide_eq_true_iff] at h
      obtain ⟨rfl, h⟩ := h
      exact .array hs ht h
    · rw [Bool.and_eq_true, beq_iff_eq, List.all_eq_true] at h
      exact .product hs ht (List.forall₂_iff_zip.mpr ⟨h.1, fun hp => h.2 _ hp⟩)
    · exact .fromSum hs (List.all_eq_true.mp h)
    · obtain ⟨c, hc, h⟩ := List.any_eq_true.mp h
      exact .intoSum ht hc h
    · obtain rfl := of_decide_eq_true h
      exact .closure hs ht
    · exact nomatch h

@[simp] theorem isCastable_refl (a : TypeTable) (s : TypeId) : a.isCastable s s = true := by
  rw [isCastable_eq, castStep, if_pos (.inl rfl)]

/-- Unless one of the shortcuts decides, the nodes do. -/
theorem isCastable_of_nodes (h : castNodes a.isCastable s t (a.node s) (a.node t) = true) :
    a.isCastable s t = true := by
  rw [isCastable_eq, castStep]
  split
  · rfl
  · exact h

theorem isCastable_eq_castNodes (hne : s ≠ t) (hs : s ≠ .bottom) (ht : t ≠ .top) :
    a.isCastable s t = castNodes a.isCastable s t (a.node s) (a.node t) := by
  rw [isCastable_eq, castStep, if_neg (by simp [hne, hs, ht])]

/-- A cast of a type that is no sum into a case of a sum is one into the sum. -/
theorem isCastable_intoSum (hs : ∀ inner, a.node s ≠ .sum inner) (ht : a.node t = .sum cases)
    (hc : c ∈ cases) (h : a.isCastable s c = true) : a.isCastable s t = true := by
  have hany : (cases.any fun c => a.isCastable s c) = true := List.any_eq_true.mpr ⟨c, hc, h⟩
  refine isCastable_of_nodes ?_
  rw [ht]
  cases hn : a.node s with
  | sum inner => exact absurd hn (hs inner)
  | _ => exact hany

/-- A sum can be cast if all its cases can. -/
theorem isCastable_fromSum (hs : a.node s = .sum cases)
    (h : ∀ c ∈ cases, a.isCastable c t = true) : a.isCastable s t = true := by
  have hall : (cases.all fun c => a.isCastable c t) = true := List.all_eq_true.mpr h
  refine isCastable_of_nodes ?_
  rw [hs]
  cases a.node t with
  | placeholder k usage => rfl
  | _ => exact hall

theorem isCastable_placeholder {k : Nat} {usage : OpSet} (ht : a.node t = .placeholder k usage) :
    a.isCastable s t = true := by
  refine isCastable_of_nodes ?_
  rw [ht, castNodes]

/-! ### Rules in canonical tables -/

theorem lengthFits_trans {k m n : Nat} (h : lengthFits k m = true) (h' : lengthFits m n = true) :
    lengthFits k n = true := by
  simp only [lengthFits, Bool.or_eq_true, Bool.and_eq_true, beq_iff_eq, bne_iff_ne,
    decide_eq_true_eq] at h h' ⊢
  omega

theorem getElem?_of_node_sum (hs : a.node s = .sum cases) :
    a.nodes[s.index]? = some (.sum cases) := by
  cases h : a.nodes[s.index]? with
  | none => simp [node, h] at hs
  | some n => rw [← hs, node_of_getElem? h]

namespace Canonical

theorem node_top (ha : a.Canonical) : a.node .top = .top :=
  ha.node_of_isReserved rfl

theorem node_bottom (ha : a.Canonical) : a.node .bottom = .bottom :=
  ha.node_of_isReserved rfl

/-- No case of a sum is a sum. -/
theorem flat (ha : a.Canonical) (hs : a.node s = .sum cases) (hc : c ∈ cases) (inner : List TypeId) :
    a.node c ≠ .sum inner :=
  (ha.sums _ _ (getElem?_of_node_sum hs)).flat c hc inner

/-- The cases of a sum can be cast to all that the sum can be cast to. -/
theorem isCastable_of_mem_cases (ha : a.Canonical) (hs : a.node s = .sum cases) (hc : c ∈ cases)
    (h : a.isCastable s t = true) : a.isCastable c t = true := by
  rw [isCastable_eq, castStep] at h
  split at h
  case isTrue hshort =>
    rcases hshort with rfl | rfl | rfl
    · exact isCastable_intoSum (ha.flat hs hc) hs hc (isCastable_refl a c)
    · rw [isCastable_eq, castStep, if_pos (.inr (.inl rfl))]
    · exact nomatch ha.node_bottom.symm.trans hs
  case isFalse =>
    rw [hs] at h
    cases ht : a.node t with
    | placeholder k usage => exact isCastable_placeholder ht
    | _ =>
      rw [ht] at h
      exact List.all_eq_true.mp h c hc

/-- What a rule casts can be cast, although the recursion tries the rules in a fixed order. -/
theorem isCastable_of_castRule (ha : a.Canonical)
    (h : a.CastRule (fun s t => a.isCastable s t = true) s t) : a.isCastable s t = true := by
  cases h with
  | refl h => exact h ▸ isCastable_refl a s
  | top h => rw [isCastable_eq, castStep, if_pos (.inr (.inl h))]
  | bottom h => rw [isCastable_eq, castStep, if_pos (.inr (.inr h))]
  | placeholder ht => exact isCastable_placeholder ht
  | number hs ht =>
    refine isCastable_of_nodes ?_
    rw [hs, ht, castNodes]
  | numeric hs ht h =>
    refine isCastable_of_nodes ?_
    rw [hs, ht]
    exact h
  | text hs ht h =>
    refine isCastable_of_nodes ?_
    rw [hs, ht]
    exact decide_eq_true h
  | array hs ht h =>
    refine isCastable_of_nodes ?_
    rw [hs, ht, castNodes, h, decide_eq_true rfl]
    rfl
  | product hs ht h =>
    obtain ⟨hlen, hall⟩ := List.forall₂_iff_zip.mp h
    refine isCastable_of_nodes ?_
    rw [hs, ht, castNodes, beq_iff_eq.mpr hlen, Bool.true_and, List.all_eq_true]
    exact fun p hp => hall hp
  | fromSum hs h => exact isCastable_fromSum hs h
  | @intoSum cases c ht hc h =>
    -- A sum is taken apart before the cases of the other one are tried.
    by_cases hs : ∃ inner, a.node s = .sum inner
    · obtain ⟨inner, hs⟩ := hs
      refine isCastable_fromSum hs fun d hd => ?_
      exact isCastable_intoSum (ha.flat hs hd) ht hc (ha.isCastable_of_mem_cases hs hd h)
    · exact isCastable_intoSum (not_exists.mp hs) ht hc h
  | closure hs ht =>
    refine isCastable_of_nodes ?_
    rw [hs, ht, castNodes, decide_eq_true rfl]

/-- Castability is what the rules make of it. -/
theorem isCastable_iff (ha : a.Canonical) :
    a.isCastable s t = true ↔ a.CastRule (fun s t => a.isCastable s t = true) s t :=
  ⟨castRule_of_isCastable, ha.isCastable_of_castRule⟩

/-- Two casts can be joined to one. -/
theorem isCastable_trans (ha : a.Canonical) (h : a.isCastable s t = true)
    (h' : a.isCastable t u = true) : a.isCastable s u = true := by
  -- Every rule speaks of older types, so three casts of smaller handles can be joined already.
  induction hn : s.index + t.index + u.index using Nat.strong_induction_on generalizing s t u with
  | _ n ih =>
    have hs : ∀ c ∈ (a.node s).parts, c.index < s.index := fun _ => index_lt_of_mem_parts
    have ht : ∀ c ∈ (a.node t).parts, c.index < t.index := fun _ => index_lt_of_mem_parts
    have hu : ∀ c ∈ (a.node u).parts, c.index < u.index := fun _ => index_lt_of_mem_parts
    have htop := ha.node_top
    have hbottom := ha.node_bottom
    refine ha.isCastable_of_castRule ?_
    cases castRule_of_isCastable h
    case refl hst => exact hst ▸ castRule_of_isCastable h'
    case bottom hsb => exact .bottom hsb
    case fromSum cases hsum hall =>
      rw [hsum] at hs
      exact .fromSum hsum fun c hc => ih _ (by have := hs c hc; omega) (hall c hc) h' rfl
    -- The first rule says what the node of the middle type is, and that leaves few second rules.
    all_goals
      cases castRule_of_isCastable h'
      case refl htu => exact htu ▸ castRule_of_isCastable h
      case top hut => exact .top hut
      case placeholder hup => exact .placeholder hup
      case intoSum cases c husum hc h' =>
        rw [husum] at hu
        exact .intoSum husum hc (ih _ (by have := hu c hc; omega) h h' rfl)
    case numeric.number hsx _ _ _ _ hun => exact .number hsx hun
    case numeric.numeric x y hsx hty hxy y' z hty' huz hyz =>
      obtain rfl := TypeNode.numeric.inj (hty.symm.trans hty')
      exact .numeric hsx huz (NumericType.fits_trans hxy hyz)
    case text.text x y hsx hty hxy y' z hty' huz hyz =>
      obtain rfl := TypeNode.text.inj (hty.symm.trans hty')
      exact .text hsx huz (hxy.trans hyz)
    case array.array e k l hsk htl hkl e' l' m htl' hum hlm =>
      obtain ⟨rfl, rfl⟩ := TypeNode.array.inj (htl.symm.trans htl')
      exact .array hsk hum (lengthFits_trans hkl hlm)
    case product.product xs ys hsx hty hxy ys' zs hty' huz hyz =>
      obtain rfl := TypeNode.product.inj (hty.symm.trans hty')
      rw [hsx] at hs
      rw [hty] at ht
      rw [huz] at hu
      refine .product hsx huz (forall₂_trans_of_mem hxy hyz fun x hx y hy z hz h h' => ?_)
      exact ih _ (by have := hs x hx; have := ht y hy; have := hu z hz; omega) h h' rfl
    case intoSum.fromSum cases c htc hc h cases' htc' hall =>
      obtain rfl := TypeNode.sum.inj (htc.symm.trans htc')
      rw [htc] at ht
      exact castRule_of_isCastable (ih _ (by have := ht c hc; omega) h (hall c hc) rfl)
    -- All other pairs of rules disagree about that node.
    all_goals
      exfalso
      clear ih hs ht hu h h'
      simp_all only [reduceCtorEq]

/-- A number can be cast to a numeric type only if its own type fits there. -/
theorem fits_of_isCastable (ha : a.Canonical) {x y : NumericType} (hs : a.node s = .numeric x)
    (ht : a.node t = .numeric y) (h : a.isCastable s t = true) : x.fits y = true := by
  by_cases hst : s = t
  · obtain rfl := TypeNode.numeric.inj (hs.symm.trans (hst ▸ ht))
    exact NumericType.fits_refl x
  · have hbottom : s ≠ .bottom := ha.ne_of_node_ne rfl (by rw [hs]; nofun)
    have htop : t ≠ .top := ha.ne_of_node_ne rfl (by rw [ht]; nofun)
    rwa [isCastable_eq_castNodes hst hbottom htop, hs, ht, castNodes] at h

end Canonical

/-! ### Function types -/

theorem functionParts?_eq (a : TypeTable) (t : TypeId) :
    a.functionParts? t = match a.node t with
      | .function result params => some (params, result)
      | .closure fn _ => a.functionParts? fn
      | _ => none := by
  rw [functionParts?.eq_def]
  split <;> next h => simp [h]

theorem holds_of_functionParts? {x : List TypeId × TypeId} (h : a.functionParts? t = some x) :
    a.Holds t := by
  refine holds_of_node_ne_top fun htop => ?_
  rw [functionParts?_eq, htop] at h
  exact nomatch h

/-- A table that extends another says the same about its functions. -/
theorem Extends.functionParts?_eq (h : a.Extends b) (ht : a.Holds t) :
    b.functionParts? t = a.functionParts? t := by
  induction hn : t.index using Nat.strong_induction_on generalizing t with
  | _ n ih =>
    have hparts : ∀ c ∈ (a.node t).parts, b.functionParts? c = a.functionParts? c := fun c hc =>
      ih _ (hn ▸ index_lt_of_mem_parts hc) (ht.of_mem_parts hc) rfl
    rw [TypeTable.functionParts?_eq, TypeTable.functionParts?_eq a, h.node_eq ht]
    cases hnode : a.node t with
    | closure fn closed => exact hparts fn (by rw [hnode]; exact List.mem_cons_self)
    | _ => rfl

/-- Functions can be cast to functions with the same parameters and the same result only. -/
theorem Canonical.functionParts?_of_isCastable (ha : a.Canonical) {x y : List TypeId × TypeId}
    (hs : a.functionParts? s = some x) (ht : a.functionParts? t = some y)
    (h : a.isCastable s t = true) : x = y := by
  rw [functionParts?_eq] at hs ht
  cases castRule_of_isCastable h with
  | refl hst =>
    rw [hst] at hs
    exact Option.some.inj (hs.symm.trans ht)
  | closure hns hnt =>
    rw [hns] at hs
    rw [← functionParts?_eq] at ht
    exact Option.some.inj (hs.symm.trans ht)
  | top htop =>
    rw [htop, ha.node_top] at ht
    exact nomatch ht
  | bottom hbottom =>
    rw [hbottom, ha.node_bottom] at hs
    exact nomatch hs
  | placeholder hnt | number _ hnt | numeric _ hnt _ | text _ hnt _ | array _ hnt _ | product _ hnt _
  | intoSum hnt _ _ =>
    rw [hnt] at ht
    exact nomatch ht
  | fromSum hns _ =>
    rw [hns] at hs
    exact nomatch hs

/-- In every table that calls of builders make, the recursion of castability ends, no deeper than the sum of
the two handles; every type can be cast to itself; and what can be cast to a type can be cast to all that
this type can be cast to. -/
theorem castability_preorder (ha : a.Reachable) :
    (∀ (r : TypeId → TypeId → Bool) (s t : TypeId) (n : Nat), s.index + t.index < n →
      a.castWithin r n s t = a.isCastable s t) ∧
    (∀ s, a.isCastable s s = true) ∧
    (∀ s t u, a.isCastable s t = true → a.isCastable t u = true → a.isCastable s u = true) :=
  ⟨fun r _ _ _ h => castWithin_eq a r h, isCastable_refl a,
    fun _ _ _ h h' => ha.canonical.isCastable_trans h h'⟩

/-- Pairs of a natural, of an integer and of a sum: the first can be cast to the second and the second to the
third, and so the first to the third. -/
theorem castability_preorder_pairs :
    let a : TypeTable := [BuilderCall.numeric ⟨.nat, 16, by decide⟩, .product [⟨14⟩, .bool],
      .product [.int, .bool], .sum [.ratio, .bool], .product [⟨17⟩, .top]].foldl
        (fun a c => (c.run a).2) initial
    a.Reachable ∧ a.isCastable ⟨15⟩ ⟨16⟩ = true ∧ a.isCastable ⟨16⟩ ⟨18⟩ = true ∧
      a.isCastable ⟨15⟩ ⟨18⟩ = true ∧ a.isCastable ⟨18⟩ ⟨15⟩ = false := by
  intro a
  have ha : a.Reachable :=
    ((((GrowsTo.refl.call (.numeric ⟨.nat, 16, by decide⟩) ⟨by decide, fun _ _ h => nomatch h⟩).call
      (.product [⟨14⟩, .bool]) ⟨by decide, fun _ _ h => nomatch h⟩).call
      (.product [.int, .bool]) ⟨by decide, fun _ _ h => nomatch h⟩).call
      (.sum [.ratio, .bool]) ⟨by decide, fun _ _ h => nomatch h⟩).call
      (.product [⟨17⟩, .top]) ⟨by decide, fun _ _ h => nomatch h⟩
  obtain ⟨hends, -, htrans⟩ := castability_preorder ha
  have hint : a.isCastable ⟨15⟩ ⟨16⟩ = true := by
    rw [← hends (fun _ _ => false) _ _ 32 (by decide)]
    decide
  have hsum : a.isCastable ⟨16⟩ ⟨18⟩ = true := by
    rw [← hends (fun _ _ => false) _ _ 35 (by decide)]
    decide
  refine ⟨ha, hint, hsum, htrans _ _ _ hint hsum, ?_⟩
  rw [← hends (fun _ _ => true) _ _ 34 (by decide)]
  decide

end TypeTable

end NumericTower
