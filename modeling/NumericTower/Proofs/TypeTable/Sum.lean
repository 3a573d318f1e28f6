import Mathlib
import NumericTower.Proofs.TypeTable.Canonical

/-!
# Sums of types as unions

A type stands for a set of cases: a sum for its cases, the bottom type for none, and any other type for itself
alone. The cases determine the handle, and the sum of types has the cases of all of them, of which the top type
absorbs the others. So sums follow the laws of unions, whatever their order and their nesting, and whenever in
the making of a table they are asked for.

## Key results
- `TypeTable.Canonical.casesOf_sum`: the cases of the handle that a sum returns
- `TypeTable.Canonical.eq_of_isCase_iff`: handles with the same cases are the same
- `TypeTable.Canonical.normalSet_nested`: a sum among other types stands for its types
- `TypeTable.sum_is_union`: when sums are the same handle, and the laws of unions
-/

namespace NumericTower.TypeTable

variable {a b : TypeTable} {s t c : TypeId} {types xs ys us vs : List TypeId}

/-- A case of a type: one that it is a sum of, or the type itself if it is neither a sum nor the bottom
type. -/
def IsCase (a : TypeTable) (t c : TypeId) : Prop :=
  (∃ cases, a.node t = .sum cases ∧ c ∈ cases) ∨
    (∀ cases, a.node t ≠ .sum cases) ∧ t ≠ .bottom ∧ c = t

/-- The normal set of types: the top type alone if it is among them, else the cases of all of them. -/
def normalSet (a : TypeTable) (types : List TypeId) : Set TypeId :=
  if .top ∈ types then {.top} else {c | ∃ t ∈ types, a.IsCase t c}

theorem Extends.isCase_iff (h : a.Extends b) (ht : a.Holds t) : b.IsCase t c ↔ a.IsCase t c := by
  simp only [IsCase, h.node_eq ht]

theorem Extends.normalSet_eq (h : a.Extends b) (htypes : ∀ t ∈ types, a.Holds t) :
    b.normalSet types = a.normalSet types := by
  rw [normalSet, normalSet]
  split
  · rfl
  · ext c
    exact exists_congr fun t => and_congr_right fun ht => h.isCase_iff (htypes t ht)

namespace Canonical

/-! ### Cases of one type -/

theorem node_eq_bottom_iff (ha : a.Canonical) (ht : a.Holds t) : a.node t = .bottom ↔ t = .bottom := by
  have hbottom : a.node .bottom = .bottom := ha.node_of_isReserved rfl
  constructor
  · intro h
    exact ha.eq_of_node_eq ht (ha.holds_of_isReserved rfl) (h.trans hbottom.symm)
  · rintro rfl
    exact hbottom

theorem mem_casesOf_iff (ha : a.Canonical) (ht : a.Holds t) : c ∈ a.casesOf t ↔ a.IsCase t c := by
  have hbottom := ha.node_eq_bottom_iff ht
  rw [casesOf, IsCase]
  split <;> simp_all

theorem casesOf_top (ha : a.Canonical) : a.casesOf .top = [.top] := by
  have htop : a.node .top = .top := ha.node_of_isReserved rfl
  rw [casesOf, htop]

theorem casesOf_bottom (ha : a.Canonical) : a.casesOf .bottom = [] := by
  have hbottom : a.node .bottom = .bottom := ha.node_of_isReserved rfl
  rw [casesOf, hbottom]

/-- Of all types only the top type has itself as a case: no sum is of it. -/
theorem isCase_top_iff (ha : a.Canonical) (ht : a.Holds t) : a.IsCase t .top ↔ t = .top := by
  constructor
  · rintro (⟨cases, hnode, hmem⟩ | ⟨-, -, rfl⟩)
    · have hstored := ht.getElem?
      rw [hnode] at hstored
      exact absurd hmem (ha.sums _ _ hstored).top_notMem
    · rfl
  · rintro rfl
    rw [← ha.mem_casesOf_iff ht, ha.casesOf_top]
    exact List.mem_singleton_self _

theorem pairwise_casesOf (ha : a.Canonical) (ht : a.Holds t) :
    (a.casesOf t).Pairwise (·.index < ·.index) := by
  rw [casesOf]
  split
  · next cases hnode =>
    have hstored := ht.getElem?
    rw [hnode] at hstored
    exact (ha.sums _ _ hstored).ascending
  · exact .nil
  · exact List.pairwise_singleton _ t

/-- The list of the cases determines the handle: a sum has at least two, so it is told from the others by
their number. -/
theorem casesOf_injective (ha : a.Canonical) (hs : a.Holds s) (ht : a.Holds t)
    (h : a.casesOf s = a.casesOf t) : s = t := by
  have htwo : ∀ {t cases}, a.Holds t → a.node t = .sum cases → 2 ≤ cases.length := by
    intro t cases ht hnode
    have hstored := ht.getElem?
    rw [hnode] at hstored
    exact (ha.sums _ _ hstored).two_le
  rw [casesOf, casesOf] at h
  split at h
  -- a sum
  · next cases hnode =>
    have hle := htwo hs hnode
    split at h
    · next cases' hnode' => exact ha.eq_of_node_eq hs ht (by rw [hnode, hnode', h])
    · simp [h] at hle
    · simp [h] at hle
  -- the bottom type
  · next hnode =>
    split at h
    · next cases' hnode' =>
      have hle := htwo ht hnode'
      simp [← h] at hle
    · next hnode' => exact ha.eq_of_node_eq hs ht (hnode.trans hnode'.symm)
    · simp at h
  -- any other type
  · split at h
    · next cases' hnode' =>
      have hle := htwo ht hnode'
      simp [← h] at hle
    · simp at h
    · simpa using h

/-- Handles with the same cases are the same. -/
theorem eq_of_isCase_iff (ha : a.Canonical) (hs : a.Holds s) (ht : a.Holds t)
    (h : ∀ c, a.IsCase s c ↔ a.IsCase t c) : s = t := by
  have hirrefl : Std.Irrefl fun c d : TypeId => c.index < d.index := ⟨fun _ => Nat.lt_irrefl _⟩
  have hantisymm : Std.Antisymm fun c d : TypeId => c.index < d.index :=
    ⟨fun _ _ hcd hdc => absurd hcd hdc.asymm⟩
  refine ha.casesOf_injective hs ht ?_
  refine (ha.pairwise_casesOf hs).eq_of_mem_iff (ha.pairwise_casesOf ht) fun c => ?_
  rw [ha.mem_casesOf_iff hs, ha.mem_casesOf_iff ht, h c]

/-! ### Cases of a sum -/

theorem top_mem_flatMap_casesOf (ha : a.Canonical) (h : ∀ t ∈ types, a.Holds t) :
    .top ∈ types.flatMap a.casesOf ↔ .top ∈ types := by
  rw [List.mem_flatMap]
  constructor
  · rintro ⟨t, ht, hmem⟩
    rw [ha.mem_casesOf_iff (h t ht), ha.isCase_top_iff (h t ht)] at hmem
    exact hmem ▸ ht
  · exact fun hmem => ⟨.top, hmem, by rw [ha.casesOf_top]; exact List.mem_singleton_self _⟩

/-- The cases of the handle that a sum returns. -/
theorem casesOf_sum (ha : a.Canonical) (h : ∀ t ∈ types, a.Holds t) :
    (sum types a).2.casesOf (sum types a).1 =
      if .top ∈ types then [.top] else sortCases (types.flatMap a.casesOf) := by
  have hcontains : (types.flatMap a.casesOf).contains .top = true ↔ .top ∈ types := by
    rw [List.contains_iff_mem, ha.top_mem_flatMap_casesOf h]
  rw [sum]
  by_cases htop : .top ∈ types
  · rw [if_pos htop, if_pos (hcontains.mpr htop), ha.casesOf_top]
  · rw [if_neg htop, if_neg (mt hcontains.mp htop)]
    split
    -- no case: the bottom type
    · next hnil => rw [hnil, ha.casesOf_bottom]
    -- one case, which is neither a sum nor the bottom type
    · next c hone =>
      obtain ⟨hc, hsum, hbottom⟩ :=
        ha.of_mem_sortCases h (by rw [hone]; exact List.mem_singleton_self c)
      have hnode : a.node c ≠ .bottom := fun hn => hbottom ((ha.node_eq_bottom_iff hc).mp hn)
      rw [hone, casesOf]
      split <;> simp_all
    -- more cases: a node of their own
    · next hnil hone =>
      have hnormal := ha.normalCases_sortCases h (by simpa using mt hcontains.mp htop) hnil hone
      have hstored := (ha.intern (n := .sum (sortCases (types.flatMap a.casesOf)))
        (fun c hc => (ha.of_mem_sortCases h hc).1) hnormal).2
      rw [casesOf, node_of_getElem? hstored]

theorem mem_normalSet_iff (ha : a.Canonical) (h : ∀ t ∈ types, a.Holds t) :
    c ∈ a.normalSet types ↔ c ∈ if .top ∈ types then [.top] else sortCases (types.flatMap a.casesOf) := by
  rw [normalSet]
  split
  · simp
  · rw [mem_sortCases, List.mem_flatMap]
    exact exists_congr fun t => and_congr_right fun ht => (ha.mem_casesOf_iff (h t ht)).symm

/-- The handle that a sum returns has the normal set as its cases. -/
theorem isCase_sum (ha : a.Canonical) (h : ∀ t ∈ types, a.Holds t) :
    (sum types a).2.IsCase (sum types a).1 c ↔ c ∈ a.normalSet types := by
  obtain ⟨hb, hs⟩ := ha.issues_sum h
  rw [← hb.mem_casesOf_iff hs, ha.casesOf_sum h, ha.mem_normalSet_iff h]

/-! ### Normal sets -/

/-- A type whose cases are the normal set of some types stands for them among others. -/
theorem normalSet_nested (ha : a.Canonical) (hs : a.Holds s) (hxs : ∀ t ∈ xs, a.Holds t)
    (h : ∀ c, a.IsCase s c ↔ c ∈ a.normalSet xs) :
    a.normalSet (us ++ s :: vs) = a.normalSet (us ++ (xs ++ vs)) := by
  -- The type is the top type exactly if one of the types that it stands for is.
  have htop : s = .top ↔ .top ∈ xs := by
    rw [← ha.isCase_top_iff hs, h, ha.mem_normalSet_iff hxs]
    split
    · next hmem => simp [hmem]
    · next hmem => rw [mem_sortCases, ha.top_mem_flatMap_casesOf hxs]
  have hmem : .top ∈ us ++ s :: vs ↔ .top ∈ us ++ (xs ++ vs) := by
    simp only [List.mem_append, List.mem_cons, ← htop, eq_comm]
  rw [normalSet, normalSet]
  by_cases hin : .top ∈ us ++ s :: vs
  · rw [if_pos hin, if_pos (hmem.mp hin)]
  · rw [if_neg hin, if_neg (mt hmem.mpr hin)]
    have hnone : .top ∉ xs := fun hxs => hin (hmem.mpr (by simp [hxs]))
    have hcases : ∀ c, a.IsCase s c ↔ ∃ t ∈ xs, a.IsCase t c := fun c => by
      rw [h, normalSet, if_neg hnone, Set.mem_ofPred_eq]
    ext c
    simp only [Set.mem_ofPred_eq, List.mem_append, List.mem_cons, or_and_right, exists_or,
      exists_eq_left, hcases]

end Canonical

theorem normalSet_congr (h : ∀ t, t ∈ xs ↔ t ∈ ys) : a.normalSet xs = a.normalSet ys := by
  simp only [normalSet, h]

/-! ### Sums in the making of a table -/

/-- Some time in the making of the table the sum of the types was asked for, and the handle was returned. -/
def Returned (a : TypeTable) (types : List TypeId) (s : TypeId) : Prop :=
  ∃ b : TypeTable, b.Reachable ∧ (∀ t ∈ types, b.Holds t) ∧ (sum types b).1 = s ∧
    (sum types b).2.GrowsTo a

namespace Returned

theorem canonical (h : a.Returned types s) : a.Canonical := by
  obtain ⟨b, hb, htypes, -, hgrow⟩ := h
  exact hgrow.canonical (hb.canonical.issues_sum htypes).1

theorem holds (h : a.Returned types s) : a.Holds s := by
  obtain ⟨b, hb, htypes, rfl, hgrow⟩ := h
  exact hgrow.extends.holds (hb.canonical.issues_sum htypes).2

theorem holds_of_mem (h : a.Returned types s) : ∀ t ∈ types, a.Holds t := by
  obtain ⟨b, -, htypes, -, hgrow⟩ := h
  exact fun t ht => ((extends_sum b types).trans hgrow.extends).holds (htypes t ht)

/-- Later calls change neither the cases of the handle nor the normal set of the types. -/
theorem isCase_iff (h : a.Returned types s) : a.IsCase s c ↔ c ∈ a.normalSet types := by
  obtain ⟨b, hb, htypes, rfl, hgrow⟩ := h
  have hextends := (extends_sum b types).trans hgrow.extends
  rw [hgrow.extends.isCase_iff (hb.canonical.issues_sum htypes).2, hb.canonical.isCase_sum htypes,
    hextends.normalSet_eq htypes]

/-- Sums are the same handle exactly if the normal sets are the same. -/
theorem eq_iff (hs : a.Returned xs s) (ht : a.Returned ys t) :
    s = t ↔ a.normalSet xs = a.normalSet ys := by
  constructor
  · rintro rfl
    ext c
    rw [← hs.isCase_iff, ht.isCase_iff]
  · intro h
    refine hs.canonical.eq_of_isCase_iff hs.holds ht.holds fun c => ?_
    rw [hs.isCase_iff, ht.isCase_iff, h]

/-- A sum among other types stands for its own types. -/
theorem normalSet_nested (hs : a.Returned xs s) (us vs : List TypeId) :
    a.normalSet (us ++ s :: vs) = a.normalSet (us ++ (xs ++ vs)) :=
  hs.canonical.normalSet_nested hs.holds hs.holds_of_mem fun _ => hs.isCase_iff

/-- The sum of one type with itself, any number of times, is the type. -/
theorem eq_of_replicate {n : Nat} (ht : a.Returned (List.replicate (n + 1) s) t) : t = s := by
  have hs : a.Holds s := ht.holds_of_mem s (by simp)
  have hone : a.normalSet (List.replicate (n + 1) s) = a.normalSet [s] :=
    normalSet_congr fun c => by simp
  refine ht.canonical.eq_of_isCase_iff ht.holds hs fun c => ?_
  rw [ht.isCase_iff, hone, ht.canonical.mem_normalSet_iff (by simpa using hs),
    ← ht.canonical.mem_casesOf_iff hs]
  -- The top type is a case of itself only, and any other type adds its own cases in order.
  by_cases htop : s = .top
  · subst htop
    rw [if_pos (List.mem_singleton_self _), ht.canonical.casesOf_top]
  · rw [if_neg (by simpa [eq_comm] using htop), mem_sortCases, List.flatMap_singleton]

end Returned

/-- The sums of two lists, one asked for after the other. -/
theorem sum_eq_sum_iff (ha : a.Reachable) (hxs : ∀ t ∈ xs, a.Holds t) (hys : ∀ t ∈ ys, a.Holds t) :
    (sum xs a).1 = (sum ys (sum xs a).2).1 ↔ a.normalSet xs = a.normalSet ys := by
  have hfirst : (sum xs a).2.Reachable := ha.call (.sum xs) ⟨hxs, fun _ _ h => nomatch h⟩
  have hheld : ∀ t ∈ ys, (sum xs a).2.Holds t := fun t ht => (extends_sum a xs).holds (hys t ht)
  have hgrow : (sum xs a).2.GrowsTo (sum ys (sum xs a).2).2 :=
    GrowsTo.refl.call (.sum ys) ⟨hheld, fun _ _ h => nomatch h⟩
  have hs : (sum ys (sum xs a).2).2.Returned xs (sum xs a).1 := ⟨a, ha, hxs, rfl, hgrow⟩
  have ht : (sum ys (sum xs a).2).2.Returned ys (sum ys (sum xs a).2).1 :=
    ⟨(sum xs a).2, hfirst, hheld, rfl, .refl⟩
  -- What the types stand for is the same before the calls and after them.
  have hextends := (extends_sum a xs).trans hgrow.extends
  rw [hs.eq_iff ht, hextends.normalSet_eq hxs, hextends.normalSet_eq hys]

/-- In every table that calls of builders make, the sums of two lists are the same handle exactly if the lists
have the same normal set, whether they are asked for one after the other or at any times in the making of the
table, and the cases of the handle are that set. So neither the order nor repetitions count, the sum of a type
with itself is that type, a sum among the types of a sum stands for its own types, and so sums may be nested in
any way. -/
theorem sum_is_union (a : TypeTable) :
    (∀ types s, a.Returned types s → {c | a.IsCase s c} = a.normalSet types) ∧
    (a.Reachable → ∀ xs ys, (∀ t ∈ xs, a.Holds t) → (∀ t ∈ ys, a.Holds t) →
      ((sum xs a).1 = (sum ys (sum xs a).2).1 ↔ a.normalSet xs = a.normalSet ys)) ∧
    (∀ xs ys s t, a.Returned xs s → a.Returned ys t →
      (s = t ↔ a.normalSet xs = a.normalSet ys)) ∧
    (∀ xs ys s t, (∀ c, c ∈ xs ↔ c ∈ ys) → a.Returned xs s → a.Returned ys t → s = t) ∧
    (∀ n s t, a.Returned (List.replicate (n + 1) s) t → t = s) ∧
    (∀ us xs vs s u v, a.Returned xs s → a.Returned (us ++ s :: vs) u →
      a.Returned (us ++ (xs ++ vs)) v → u = v) ∧
    (∀ xs ys s t u v, a.Returned xs s → a.Returned ys t → a.Returned [s, t] u →
      a.Returned (xs ++ ys) v → u = v) ∧
    (∀ r s t rs st u v, a.Returned [r, s] rs → a.Returned [s, t] st → a.Returned [rs, t] u →
      a.Returned [r, st] v → u = v) := by
  refine ⟨fun types s h => Set.ext fun c => h.isCase_iff,
    fun ha xs ys hxs hys => sum_eq_sum_iff ha hxs hys, fun xs ys s t hs ht => hs.eq_iff ht,
    fun xs ys s t hmem hs ht => (hs.eq_iff ht).mpr (normalSet_congr hmem),
    fun n s t ht => ht.eq_of_replicate, ?_, ?_, ?_⟩
  · intro us xs vs s u v hs hu hv
    exact (hu.eq_iff hv).mpr (hs.normalSet_nested us vs)
  · -- The two sums are replaced by their types one after the other.
    intro xs ys s t u v hs ht hu hv
    refine (hu.eq_iff hv).mpr ?_
    calc a.normalSet [s, t] = a.normalSet (xs ++ [t]) := hs.normalSet_nested [] [t]
      _ = a.normalSet (xs ++ (ys ++ [])) := ht.normalSet_nested xs []
      _ = a.normalSet (xs ++ ys) := by rw [List.append_nil]
  · intro r s t rs st u v hrs hst hu hv
    refine (hu.eq_iff hv).mpr ?_
    calc a.normalSet [rs, t] = a.normalSet [r, s, t] := hrs.normalSet_nested [] [t]
      _ = a.normalSet [r, st] := (hst.normalSet_nested [r] []).symm

/-- Three types in two nestings, with the bottom type and a repetition among them. -/
theorem sum_is_union_two_nestings :
    let a₁ : TypeTable := (sum [.bool, .unit] initial).2
    let a₂ : TypeTable := (sum [.unit, .bottom, .nat] a₁).2
    let a₃ : TypeTable := (sum [⟨14⟩, .nat] a₂).2
    let a : TypeTable := (sum [.bool, ⟨15⟩, .bool] a₃).2
    a.Returned [⟨14⟩, .nat] ⟨16⟩ ∧ a.Returned [.bool, ⟨15⟩, .bool] ⟨16⟩ ∧
      a.normalSet [⟨14⟩, .nat] = a.normalSet [.bool, ⟨15⟩, .bool] ∧
      a.normalSet [.bool, .unit] ≠ a.normalSet [⟨14⟩, .nat] := by
  intro a₁ a₂ a₃ a
  have h₁ : a₁.Reachable := GrowsTo.refl.call (.sum [.bool, .unit]) ⟨by decide, fun _ _ h => nomatch h⟩
  have h₂ : a₁.GrowsTo a₂ :=
    GrowsTo.refl.call (.sum [.unit, .bottom, .nat]) ⟨by decide, fun _ _ h => nomatch h⟩
  have h₃ : a₃.GrowsTo a :=
    GrowsTo.refl.call (.sum [.bool, ⟨15⟩, .bool]) ⟨by decide, fun _ _ h => nomatch h⟩
  have h₁₂ : a₂.Reachable := h₁.call (.sum [.unit, .bottom, .nat]) ⟨by decide, fun _ _ h => nomatch h⟩
  have h₁₃ : a₃.Reachable := h₁₂.call (.sum [⟨14⟩, .nat]) ⟨by decide, fun _ _ h => nomatch h⟩
  have hfirst : a.Returned [.bool, .unit] ⟨14⟩ := by
    refine ⟨initial, .refl, by decide, by decide, ?_⟩
    exact (h₂.call (.sum [⟨14⟩, .nat]) ⟨by decide, fun _ _ h => nomatch h⟩).call
      (.sum [.bool, ⟨15⟩, .bool]) ⟨by decide, fun _ _ h => nomatch h⟩
  have hleft : a.Returned [⟨14⟩, .nat] ⟨16⟩ := ⟨a₂, h₁₂, by decide, by decide, h₃⟩
  have hright : a.Returned [.bool, ⟨15⟩, .bool] ⟨16⟩ := ⟨a₃, h₁₃, by decide, by decide, .refl⟩
  obtain ⟨-, -, heq, -⟩ := sum_is_union a
  exact ⟨hleft, hright, (heq _ _ _ _ hleft hright).mp rfl,
    fun h => absurd ((heq _ _ _ _ hfirst hleft).mpr h) (by decide)⟩

end NumericTower.TypeTable
