import Mathlib
import NumericTower.Proofs.NumericType.Promotion
import NumericTower.Proofs.TypeTable.Castable
import NumericTower.TypeTable.Promotion

/-!
# Promotion is a common type

Both operands of a promotion can be cast to its result. The order of the operands does not matter, and a
promotion that is made again finds its type in the table.

## Key results
- `TypeTable.Canonical.isCastable_sum`: a type can be cast to a sum that was made of it
- `TypeTable.promote_comm`, `TypeTable.promote_again`: swapped operands, and the same ones again
- `TypeTable.promotion_is_common_type`: all of it for reachable tables
-/

namespace NumericTower

namespace TextKind

theorem join_comm (k l : TextKind) : k.join l = l.join k := by
  cases k <;> cases l <;> rfl

theorem level_le_join_left (k l : TextKind) : k.level ≤ (k.join l).level := by
  cases k <;> cases l <;> decide

end TextKind

namespace TypeTable

variable {a b : TypeTable} {n : TypeNode} {s t u : TypeId} {types types' : List TypeId}

/-! ### Builders that are called again -/

theorem intern_again (n : TypeNode) (a : TypeTable) : intern n (intern n a).2 = intern n a := by
  rw [intern.eq_def n a]
  cases hfind : a.find? n with
  | some t => simp only [intern, hfind]
  | none =>
    by_cases hparts : ∀ p ∈ n.parts, p.index < a.nodes.size
    · simp only [dif_pos hparts, intern, Canonical.find?_push hparts, if_true]
    · simp only [dif_neg hparts, intern, hfind]

/-- The handle that is returned for a node whose components are held stands for the node. -/
theorem Canonical.node_intern (ha : a.Canonical) (h : ∀ p ∈ n.parts, a.Holds p) :
    (TypeTable.intern n a).2.node (TypeTable.intern n a).1 = n := by
  rw [TypeTable.intern]
  cases hfind : a.find? n with
  | some t => exact node_of_getElem? ((ha.find?_eq_some_iff n t).mp hfind)
  | none =>
    have hparts : ∀ p ∈ n.parts, p.index < a.nodes.size := h
    simp only [dif_pos hparts]
    exact node_of_getElem? ((getElem?_push_eq_some_iff h).mpr (.inl ⟨rfl, rfl⟩))

theorem Canonical.node_numeric (ha : a.Canonical) (t : NumericType) :
    (TypeTable.numeric t a).2.node (TypeTable.numeric t a).1 = .numeric t := by
  rw [TypeTable.numeric]
  split
  · next hunbounded =>
    rw [NumericType.eq_unbounded hunbounded]
    cases t.kind <;> exact ha.node_of_isReserved rfl
  · exact ha.node_intern fun _ hp => absurd hp List.not_mem_nil

theorem Canonical.node_text (ha : a.Canonical) (k : TextKind) : a.node k.typeId = .text k := by
  cases k <;> exact ha.node_of_isReserved rfl

theorem numeric_again (t : NumericType) (a : TypeTable) :
    numeric t (numeric t a).2 = numeric t a := by
  rw [numeric]
  split
  · rfl
  · exact intern_again _ a

/-- What a type adds to a sum is the same in a later table. -/
theorem Extends.casesOf_eq (h : a.Extends b) (ht : a.Holds t) : b.casesOf t = a.casesOf t := by
  rw [casesOf, casesOf, h.node_eq ht]

theorem sum_again (h : ∀ t ∈ types, a.Holds t) : sum types (sum types a).2 = sum types a := by
  have hcases : types.flatMap (sum types a).2.casesOf = types.flatMap a.casesOf :=
    List.flatMap_congr fun t ht => (extends_sum a types).casesOf_eq (h t ht)
  -- The cases are the same in both tables, so the branch that was taken first is taken again.
  generalize hr : sum types a = r at hcases ⊢
  rw [sum] at hr
  rw [sum, hcases]
  split at hr
  · next htop => simp only [htop, if_true, ← hr]
  · next htop =>
    simp only [htop, if_false, Bool.false_eq_true]
    split at hr <;> subst hr
    · rfl
    · rfl
    · exact intern_again _ a

/-! ### Sums -/

/-- Sorted lists with the same handles are the same. -/
theorem sortCases_congr (h : ∀ c, c ∈ types ↔ c ∈ types') : sortCases types = sortCases types' := by
  have hnodup : ∀ ts : List TypeId, (sortCases ts).Nodup := fun ts =>
    (pairwise_sortCases ts).imp fun hlt heq => Nat.ne_of_lt hlt (congrArg TypeId.index heq)
  have hperm : (sortCases types).Perm (sortCases types') :=
    (List.perm_ext_iff_of_nodup (hnodup types) (hnodup types')).mpr fun c => by
      rw [mem_sortCases, mem_sortCases, h]
  refine hperm.eq_of_pairwise (fun c d _ _ hlt hgt => ?_) (pairwise_sortCases _) (pairwise_sortCases _)
  exact absurd hgt (Nat.lt_asymm hlt)

/-- The order and the repetitions of the types of a sum do not matter. -/
theorem sum_congr (h : ∀ c, c ∈ types ↔ c ∈ types') : sum types a = sum types' a := by
  have hmem : ∀ c, c ∈ types.flatMap a.casesOf ↔ c ∈ types'.flatMap a.casesOf := by
    simp only [List.mem_flatMap, h, implies_true]
  have htop : (types.flatMap a.casesOf).contains .top = (types'.flatMap a.casesOf).contains .top :=
    Bool.eq_iff_iff.mpr (by rw [List.contains_iff_mem, List.contains_iff_mem, hmem])
  rw [sum, sum, htop, sortCases_congr hmem]

/-- A type can be cast to whatever all that it adds to a sum can be cast to. -/
theorem Canonical.isCastable_of_casesOf (ha : a.Canonical) (ht : a.Holds t)
    (h : ∀ c ∈ a.casesOf t, a.isCastable c u = true) : a.isCastable t u = true := by
  rw [casesOf] at h
  split at h
  · next cases hnode => exact isCastable_fromSum hnode h
  · next hnode =>
    refine ha.isCastable_of_castRule (.bottom ?_)
    exact ha.eq_of_node_eq ht (ha.holds_of_isReserved rfl) (hnode.trans ha.node_bottom.symm)
  · exact h t (List.mem_singleton_self t)

/-- A type can be cast to a sum that was made of it. -/
theorem Canonical.isCastable_sum (ha : a.Canonical) (h : ∀ t ∈ types, a.Holds t) (ht : t ∈ types) :
    (sum types a).2.isCastable t (sum types a).1 = true := by
  have hb := (ha.issues_sum h).1
  have hext := extends_sum a types
  refine hb.isCastable_of_casesOf (hext.holds (h t ht)) fun c hc => ?_
  have hc : c ∈ sortCases (types.flatMap a.casesOf) :=
    mem_sortCases.mpr (List.mem_flatMap.mpr ⟨t, ht, hext.casesOf_eq (h t ht) ▸ hc⟩)
  -- The sum is the top type, a single case, or a node of several; the empty one has no case to be cast.
  generalize hr : sum types a = r at hb hext ⊢
  rw [sum] at hr
  split at hr <;> try split at hr
  · exact hr ▸ ha.isCastable_of_castRule (.top rfl)
  · next hnil => exact absurd (hnil ▸ hc) List.not_mem_nil
  · next d hone =>
    obtain rfl := List.mem_singleton.mp (hone ▸ hc)
    exact hr ▸ isCastable_refl a c
  · have hcases : ∀ c ∈ sortCases (types.flatMap a.casesOf), a.Holds c := fun c hc => by
      obtain ⟨t, ht, hc⟩ := List.mem_flatMap.mp (mem_sortCases.mp hc)
      exact (ha.of_mem_casesOf (h t ht) hc).1
    have hnode : r.2.node r.1 = .sum (sortCases (types.flatMap a.casesOf)) :=
      hr ▸ ha.node_intern hcases
    exact hb.isCastable_of_castRule (.intoSum hnode hc (isCastable_refl r.2 c))

/-! ### Promotion -/

/-- Promotion by the nodes of the two types. -/
def promoteNodes (s t : TypeId) : TypeNode → TypeNode → TypeTableM TypeId
  | .numeric x, .numeric y => numeric (x.promote y)
  | .number, .numeric _ => pure .number
  | .numeric _, .number => pure .number
  | .text x, .text y => pure (x.join y).typeId
  | _, _ => sum [s, t]

/-- Unless the top or the bottom type is an operand, the nodes decide. -/
theorem promote_eq (a : TypeTable) (s t : TypeId) :
    promote s t a =
      if s = t ∨ t = .bottom then (s, a)
      else if s = .bottom then (t, a)
      else if s = .top ∨ t = .top then (.top, a)
      else promoteNodes s t (a.node s) (a.node t) a := by
  rw [promote]
  congr 3
  unfold promoteNodes
  split <;> simp_all <;> rfl

theorem holds_of_mem_pair (hs : a.Holds s) (ht : a.Holds t) : ∀ u ∈ [s, t], a.Holds u := by
  simp [hs, ht]

/-- A promotion adds no type or makes one call of a builder. -/
theorem growsTo_promote (hs : a.Holds s) (ht : a.Holds t) : a.GrowsTo (promote s t a).2 := by
  rw [promote_eq]
  split_ifs
  · exact .refl
  · exact .refl
  · exact .refl
  fun_cases promoteNodes s t (a.node s) (a.node t)
  · exact GrowsTo.refl.call (.numeric _) ⟨(fun _ h => nomatch h), fun _ _ h => nomatch h⟩
  · exact .refl
  · exact .refl
  · exact .refl
  · exact GrowsTo.refl.call (.sum [s, t]) ⟨holds_of_mem_pair hs ht, fun _ _ h => nomatch h⟩

/-- The table after a promotion holds the result. -/
theorem Canonical.issues_promote (ha : a.Canonical) (hs : a.Holds s) (ht : a.Holds t) :
    Issues (promote s t a) := by
  rw [promote_eq]
  split_ifs
  · exact ⟨ha, hs⟩
  · exact ⟨ha, ht⟩
  · exact ⟨ha, ha.holds_of_isReserved rfl⟩
  fun_cases promoteNodes s t (a.node s) (a.node t)
  case case1 x y => exact ha.issues_numeric _
  case case4 x y => exact ⟨ha, ha.holds_of_isReserved (by cases x.join y <;> rfl)⟩
  case case5 => exact ha.issues_sum (holds_of_mem_pair hs ht)
  all_goals exact ⟨ha, ha.holds_of_isReserved rfl⟩

theorem promoteNodes_comm (s t : TypeId) (n m : TypeNode) :
    promoteNodes t s m n = promoteNodes s t n m := by
  have hsum : TypeTable.sum [t, s] = TypeTable.sum [s, t] :=
    funext fun a => sum_congr fun c => by simp [or_comm]
  fun_cases promoteNodes s t n m
  · exact congrArg TypeTable.numeric (NumericType.promote_comm _ _)
  · rfl
  · rfl
  · exact congrArg (fun k : TextKind => (pure k.typeId : TypeTableM TypeId)) (TextKind.join_comm _ _)
  · rw [← hsum]
    unfold promoteNodes
    split <;> simp_all

/-- The order of the operands does not matter. -/
theorem promote_comm (a : TypeTable) (s t : TypeId) : promote t s a = promote s t a := by
  rw [promote_eq, promote_eq, promoteNodes_comm]
  by_cases hst : s = t
  · simp [hst]
  · by_cases hs : s = .bottom <;> by_cases ht : t = .bottom <;>
      simp_all [eq_comm, or_comm]

/-- A promotion that is made again finds its type in the table. -/
theorem promote_again (hs : a.Holds s) (ht : a.Holds t) :
    promote s t (promote s t a).2 = promote s t a := by
  have hext := (growsTo_promote hs ht).extends
  rw [promote_eq _ s t, hext.node_eq hs, hext.node_eq ht, promote_eq a s t]
  split_ifs
  · rfl
  · rfl
  · rfl
  fun_cases promoteNodes s t (a.node s) (a.node t)
  · exact numeric_again _ a
  · rfl
  · rfl
  · rfl
  · exact sum_again (holds_of_mem_pair hs ht)

/-- The first operand can be cast to the result. -/
theorem Canonical.isCastable_promote_left (ha : a.Canonical) (hs : a.Holds s) (ht : a.Holds t) :
    (promote s t a).2.isCastable s (promote s t a).1 = true := by
  rw [promote_eq]
  split_ifs with hleft hbottom htop
  · exact isCastable_refl a s
  · exact ha.isCastable_of_castRule (.bottom hbottom)
  · exact ha.isCastable_of_castRule (.top rfl)
  generalize hsn : a.node s = n
  generalize a.node t = m
  fun_cases promoteNodes s t n m
  case case1 x y =>
    have hnode := ha.node_numeric (x.promote y)
    refine (ha.issues_numeric _).1.isCastable_of_castRule (.numeric ?_ hnode (x.fits_promote y).1)
    rw [(extends_numeric a _).node_eq hs, hsn]
  case case2 y =>
    -- The node of all numbers is reserved, so the operand is that type itself.
    have hnumber : a.node .number = .number := ha.node_of_isReserved rfl
    refine ha.isCastable_of_castRule (.refl (ha.eq_of_node_eq hs (ha.holds_of_isReserved rfl) ?_))
    exact hsn.trans hnumber.symm
  case case3 x => exact ha.isCastable_of_castRule (.number hsn (ha.node_of_isReserved rfl))
  case case4 x y => exact ha.isCastable_of_castRule (.text hsn (ha.node_text _) (x.level_le_join_left y))
  case case5 => exact ha.isCastable_sum (holds_of_mem_pair hs ht) List.mem_cons_self

/-- In every table that calls of builders make, the promotion of two held types is held by the table after
it, which calls of builders make from the one before it; both types can be cast to it; and the promotion of
the swapped types in that table is the same handle and adds no type. -/
theorem promotion_is_common_type (ha : a.Reachable) (hs : a.Holds s) (ht : a.Holds t) :
    a.GrowsTo (promote s t a).2 ∧
    (promote s t a).2.Holds (promote s t a).1 ∧
    (promote s t a).2.isCastable s (promote s t a).1 = true ∧
    (promote s t a).2.isCastable t (promote s t a).1 = true ∧
    promote t s (promote s t a).2 = promote s t a := by
  have hright := ha.canonical.isCastable_promote_left ht hs
  rw [promote_comm a s t] at hright
  refine ⟨growsTo_promote hs ht, (ha.canonical.issues_promote hs ht).2,
    ha.canonical.isCastable_promote_left hs ht, hright, ?_⟩
  rw [promote_comm, promote_again hs ht]

/-- A sum and a ratio that is no case of it: the promotion is a new sum of all three cases. -/
theorem promotion_is_common_type_sum :
    let a : TypeTable := [BuilderCall.numeric ⟨.int, 64, by decide⟩, .sum [⟨14⟩, .bool]].foldl
      (fun a c => (c.run a).2) initial
    a.Reachable ∧ (promote ⟨15⟩ .ratio a).1 = ⟨16⟩ ∧
      (promote ⟨15⟩ .ratio a).2.node ⟨16⟩ = .sum [.bool, .ratio, ⟨14⟩] ∧
      (promote ⟨15⟩ .ratio a).2.isCastable ⟨15⟩ ⟨16⟩ = true ∧
      promote .ratio ⟨15⟩ (promote ⟨15⟩ .ratio a).2 = promote ⟨15⟩ .ratio a := by
  intro a
  have ha : a.Reachable :=
    (GrowsTo.refl.call (.numeric ⟨.int, 64, by decide⟩) ⟨by decide, fun _ _ h => nomatch h⟩).call
      (.sum [⟨14⟩, .bool]) ⟨by decide, fun _ _ h => nomatch h⟩
  have hp : (promote ⟨15⟩ .ratio a).1 = ⟨16⟩ := by decide
  obtain ⟨-, -, hleft, -, hswap⟩ :=
    promotion_is_common_type (s := ⟨15⟩) (t := .ratio) ha (by decide) (by decide)
  exact ⟨ha, hp, by decide, hp ▸ hleft, hswap⟩

end TypeTable

end NumericTower
