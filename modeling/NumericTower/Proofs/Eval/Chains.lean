import Mathlib
import NumericTower.Proofs.Eval.Step

/-!
# Chains of handles

A stored value can be a handle itself, and looking up a value follows such handles to the end. A chain that
does not run into a circle passes no handle twice, so it ends after no more handles than there are slots.

## Key results
- `Store.LeadsTo`: what following a chain ends in, if it does
- `Store.length_le_of_path`: a path without a circle is no longer than there are slots
- `Store.leadsTo_resolve?`, `Store.LeadsTo.resolve?_eq`: looking up a value follows its chain to the end
-/

namespace NumericTower.Store

open Relation

variable {s : Store Value} {r r' : ValueRef} {v : Value} {x y : Option Value}

/-- A handle to another handle. -/
def PointsTo (s : Store Value) (r r' : ValueRef) : Prop :=
  s.get? r = some (.ref r')

/-- Following the chain of a value ends, in a value that is no handle or at a handle that finds nothing. -/
inductive LeadsTo (s : Store Value) : Value → Option Value → Prop where
  | value {v : Value} (h : v.toRef? = none) : s.LeadsTo v (some v)
  | dangling {r : ValueRef} (h : s.get? r = none) : s.LeadsTo (.ref r) none
  | link {r : ValueRef} {v : Value} {x : Option Value} (h : s.get? r = some v) (hv : s.LeadsTo v x) :
      s.LeadsTo (.ref r) x

/-- Whether the chain of a handle comes to one that leads back to itself. -/
def RunsInCircle (s : Store Value) (r : ValueRef) : Prop :=
  ∃ c, ReflTransGen s.PointsTo r c ∧ TransGen s.PointsTo c c

theorem LeadsTo.unique (h : s.LeadsTo v x) (h' : s.LeadsTo v y) : x = y := by
  induction h generalizing y with
  | value h =>
    cases h' with
    | value _ => rfl
    | dangling _ | link _ _ => exact nomatch h
  | dangling h =>
    cases h' with
    | value h' => exact nomatch h'
    | dangling _ => rfl
    | link h' _ => exact nomatch h.symm.trans h'
  | link h _ ih =>
    cases h' with
    | value h' => exact nomatch h'
    | dangling h' => exact nomatch h.symm.trans h'
    | link h' hv =>
      obtain rfl := Option.some.inj (h.symm.trans h')
      exact ih hv

/-! ### Circles -/

theorem RunsInCircle.next (h : s.RunsInCircle r) : ∃ r', s.PointsTo r r' ∧ s.RunsInCircle r' := by
  obtain ⟨c, hrc, hcc⟩ := h
  rcases hrc.cases_head with rfl | ⟨r', hrr', hr'c⟩
  · obtain ⟨r', hrr', hr'r⟩ := TransGen.head'_iff.mp hcc
    exact ⟨r', hrr', r, hr'r, hcc⟩
  · exact ⟨r', hrr', c, hr'c, hcc⟩

/-- A chain that ends does not run into a circle. -/
theorem LeadsTo.not_runsInCircle (h : s.LeadsTo v x) : ∀ r, v = .ref r → ¬s.RunsInCircle r := by
  induction h with
  | value h =>
    rintro r rfl
    exact nomatch h
  | dangling h =>
    intro r heq hcircle
    cases heq
    obtain ⟨r', hnext, -⟩ := hcircle.next
    exact nomatch h.symm.trans hnext
  | link h _ ih =>
    intro r heq hcircle
    cases heq
    obtain ⟨r', hnext, hcircle'⟩ := hcircle.next
    exact ih r' (Option.some.inj (h.symm.trans hnext)) hcircle'

/-! ### Paths -/

/-- Handles that find something and share a slot are the same. -/
theorem eq_of_slot_eq {v w : Value} (h : s.get? r = some v) (h' : s.get? r' = some w)
    (hslot : r.slot = r'.slot) : r = r' := by
  rw [get?_eq_some_iff] at h h'
  rw [hslot, h', Option.some.injEq, Slot.mk.injEq] at h
  cases r
  cases r'
  cases hslot
  cases h.1
  rfl

/-- Each handle of a path leads to all after it. -/
theorem pairwise_of_path {path : List ValueRef} (hpath : path.IsChain s.PointsTo) :
    path.Pairwise (TransGen s.PointsTo) :=
  List.isChain_iff_pairwise.mp (hpath.imp fun _ _ => TransGen.single)

/-- A path of which no handle leads back to itself is no longer than there are slots. -/
theorem length_le_of_path {path : List ValueRef} (hpath : path.IsChain s.PointsTo)
    (hlive : ∀ r ∈ path, ∃ v, s.get? r = some v) (hcircle : ∀ r ∈ path, ¬TransGen s.PointsTo r r) :
    path.length ≤ s.slots.size := by
  -- Two handles of the path with one slot would be the same handle, which leads back to itself.
  have hdistinct : (path.map (·.slot)).Nodup := by
    refine List.pairwise_map.mpr ((pairwise_of_path hpath).imp_of_mem fun {r r'} hr hr' hrr' hslot => ?_)
    obtain ⟨v, hv⟩ := hlive r hr
    obtain ⟨w, hw⟩ := hlive r' hr'
    obtain rfl := eq_of_slot_eq hv hw hslot
    exact hcircle r hr hrr'
  have hslots : path.map (·.slot) ⊆ List.range s.slots.size := by
    intro i hi
    obtain ⟨r, hr, rfl⟩ := List.mem_map.mp hi
    obtain ⟨v, hv⟩ := hlive r hr
    exact List.mem_range.mpr (Array.getElem?_eq_some_iff.mp (get?_eq_some_iff.mp hv)).1
  calc path.length = (path.map (·.slot)).length := (List.length_map _).symm
    _ ≤ (List.range s.slots.size).length := (List.subperm_of_subset hdistinct hslots).length_le
    _ = s.slots.size := List.length_range

/-- Following a chain for so many links either comes to its end or passes one handle more. -/
theorem leadsTo_follow_or_path (s : Store Value) (n : Nat) (v : Value) :
    s.LeadsTo v (s.follow n v) ∨
      ∃ r path, v = .ref r ∧ (r :: path).IsChain s.PointsTo ∧ path.length = n ∧
        ∀ r' ∈ r :: path, ∃ v, s.get? r' = some v := by
  -- The path grows at its front, so the first link is followed before the induction hypothesis is used.
  induction n generalizing v with
  | zero =>
    cases v with
    | ref r =>
      cases hr : s.get? r with
      | none => exact .inl (.dangling hr)
      | some w =>
        exact .inr ⟨r, [], rfl, .singleton r, rfl, fun r' hr' => List.mem_singleton.mp hr' ▸ ⟨w, hr⟩⟩
    | _ => exact .inl (.value rfl)
  | succ n ih =>
    cases v with
    | ref r =>
      cases hr : s.get? r with
      | none =>
        have hfollow : s.follow (n + 1) (.ref r) = none := by rw [follow, hr]; rfl
        exact .inl (hfollow ▸ .dangling hr)
      | some w =>
        have hfollow : s.follow (n + 1) (.ref r) = s.follow n w := by rw [follow, hr]; rfl
        rcases ih w with hw | ⟨r', path, rfl, hpath, hlen, hlive⟩
        · exact .inl (hfollow ▸ .link hr hw)
        · refine .inr ⟨r, r' :: path, rfl, .cons_cons hr hpath, congrArg Nat.succ hlen, ?_⟩
          exact List.forall_mem_cons.mpr ⟨⟨_, hr⟩, hlive⟩
    | _ => exact .inl (.value rfl)

/-- A chain that does not run into a circle ends in what looking it up gives. -/
theorem leadsTo_resolve? (h : ∀ r, v = .ref r → ¬s.RunsInCircle r) : s.LeadsTo v (s.resolve? v) := by
  rcases s.leadsTo_follow_or_path s.slots.size v with hends | ⟨r, path, rfl, hpath, hlen, hlive⟩
  · exact hends
  · have hcircle : ∀ r' ∈ r :: path, ¬TransGen s.PointsTo r' r' := by
      intro r' hr' hback
      refine h r rfl ⟨r', ?_, hback⟩
      rcases List.mem_cons.mp hr' with rfl | hr'
      · exact .refl
      · exact (List.rel_of_pairwise_cons (pairwise_of_path hpath) hr').to_reflTransGen
    -- One handle more than there are links were followed, and so one more than there are slots.
    have hle := length_le_of_path hpath hlive hcircle
    rw [List.length_cons, hlen] at hle
    exact absurd hle (Nat.not_succ_le_self _)

/-- Looking up a value whose chain ends gives what it ends in. -/
theorem LeadsTo.resolve?_eq (h : s.LeadsTo v x) : s.resolve? v = x :=
  (leadsTo_resolve? h.not_runsInCircle).unique h

/-! ### Scopes -/

/-- What following the chains of the bindings of a scope, one after the other, ends in: the bindings with what
their chains end in, or nothing at the first chain that ends at a handle that finds nothing. -/
inductive AllLeadTo (s : Store Value) : Frame Value → Option (Frame Value) → Prop where
  | nil : s.AllLeadTo [] (some [])
  | dangling {name : String} {v : Value} {frame : Frame Value} (h : s.LeadsTo v none) :
      s.AllLeadTo ((name, v) :: frame) none
  | cons {name : String} {v w : Value} {frame : Frame Value} {x : Option (Frame Value)}
      (h : s.LeadsTo v (some w)) (hframe : s.AllLeadTo frame x) :
      s.AllLeadTo ((name, v) :: frame) (x.map ((name, w) :: ·))

theorem resolved?_cons (s : Store Value) (name : String) (v : Value) (frame : Frame Value) :
    Eval.resolved? s ((name, v) :: frame) =
      (s.resolve? v).bind fun w => (Eval.resolved? s frame).map ((name, w) :: ·) := by
  rw [Eval.resolved?]
  cases s.resolve? v with
  | none => rfl
  | some w => cases Eval.resolved? s frame <;> rfl

theorem AllLeadTo.resolved?_eq {frame : Frame Value} {x : Option (Frame Value)}
    (h : s.AllLeadTo frame x) : Eval.resolved? s frame = x := by
  induction h with
  | nil => rfl
  | dangling h => rw [resolved?_cons, h.resolve?_eq, Option.bind_none]
  | cons h _ ih => rw [resolved?_cons, h.resolve?_eq, Option.bind_some, ih]

theorem allLeadTo_resolved? {frame : Frame Value}
    (h : ∀ v ∈ frame.values, ∀ r, v = .ref r → ¬s.RunsInCircle r) :
    s.AllLeadTo frame (Eval.resolved? s frame) := by
  induction frame with
  | nil => exact .nil
  | cons b frame ih =>
    obtain ⟨name, v⟩ := b
    obtain ⟨hv, hframe⟩ := List.forall_mem_cons.mp h
    have hlead := leadsTo_resolve? hv
    rw [resolved?_cons]
    cases hw : s.resolve? v with
    | none => exact .dangling (hw ▸ hlead)
    | some w => exact .cons (hw ▸ hlead) (ih hframe)

end NumericTower.Store
