import Mathlib
import NumericTower.Eval.State

/-!
# Laws of the value store

What inserting and releasing do to every handle and to the number of stored values, as long as the free
slots are distinct and vacant and the counter is that of the occupied slots, which holds of every store that
operations can reach.

## Key results
- `Store.Reachable.wellFormed`: the free slots of a reachable store are distinct and vacant, and the counter is
  right
- `Store.get?_insert`, `Store.get?_release`: no operation touches the value of another handle
- `Store.liveCount_insert`, `Store.liveCount_release`: each counts for one
- `Store.get?_releaseAll`, `Store.liveCount_releaseAll`: releasing what a scope refers to
-/

namespace NumericTower.Store

variable {α : Type} {s : Store α} {v w : α} {r : ValueRef}

/-- The stores that inserting and releasing make from the empty one. -/
inductive Reachable : Store α → Prop where
  | empty : Reachable empty
  | insert {s : Store α} (v : α) : Reachable s → Reachable (s.insert v).2
  | release {s : Store α} (r : ValueRef) : Reachable s → Reachable (s.release r).2

/-- A slot that holds no value. -/
def Vacant (s : Store α) (i : Nat) : Prop :=
  ∃ generation, s.slots[i]? = some ⟨generation, none⟩

/-- How many slots hold a value. -/
def occupied (s : Store α) : Nat :=
  s.slots.toList.countP (·.value.isSome)

/-- The free slots are distinct and vacant, and the counter is that of the occupied slots. -/
structure WellFormed (s : Store α) : Prop where
  distinct : s.free.Nodup
  vacant : ∀ i ∈ s.free, s.Vacant i
  counted : s.liveCount = s.occupied

/-! ### The two operations -/

theorem insert_of_free {i : Nat} {free : List Nat} (h : s.free = i :: free) (v : α) :
    s.insert v = (⟨i, s.generationOf i⟩,
      ⟨s.slots.modify i fun e => { e with value := some v }, free, s.live + 1⟩) := by
  rw [insert, h]

theorem insert_of_full (h : s.free = []) (v : α) :
    s.insert v = (⟨s.slots.size, 0⟩, ⟨s.slots.push ⟨0, some v⟩, [], s.live + 1⟩) := by
  rw [insert, h]

theorem release_of_live (h : s.get? r = some v) :
    s.release r =
      (some v, ⟨s.slots.modify r.slot fun e => ⟨e.generation + 1, none⟩, r.slot :: s.free, s.live - 1⟩) := by
  rw [release, h]

theorem release_of_dead (h : s.get? r = none) : s.release r = (none, s) := by
  rw [release, h]

theorem release_fst (s : Store α) (r : ValueRef) : (s.release r).1 = s.get? r := by
  cases h : s.get? r with
  | none => rw [release_of_dead h]
  | some v => rw [release_of_live h]

theorem get?_eq_some_iff :
    s.get? r = some v ↔ s.slots[r.slot]? = some ⟨r.generation, some v⟩ := by
  simp only [get?, Option.bind_eq_some_iff]
  constructor
  · rintro ⟨e, he, hv⟩
    split at hv
    · next hg => rw [he, ← hg, ← hv]
    · exact nomatch hv
  · intro h
    exact ⟨_, h, by simp⟩

theorem slots_pos (h : s.get? r = some v) : 0 < s.slots.size := by
  obtain ⟨hlt, -⟩ := Array.getElem?_eq_some_iff.mp (get?_eq_some_iff.mp h)
  omega

/-! ### The counter -/

@[simp] theorem liveCount_insert (s : Store α) (v : α) : (s.insert v).2.liveCount = s.liveCount + 1 := by
  unfold insert
  split <;> rfl

theorem liveCount_release (h : s.get? r = some v) : (s.release r).2.liveCount = s.liveCount - 1 := by
  rw [release_of_live h]
  rfl

/-- Changing one element changes a count by what that element counts for. -/
theorem countP_modify {β : Type} (p : β → Bool) (f : β → β) {l : List β} {i : Nat} {x : β}
    (h : l[i]? = some x) :
    (l.modify i f).countP p + (p x).toNat = l.countP p + (p (f x)).toNat := by
  induction l generalizing i with
  | nil => exact nomatch h
  | cons y l ih =>
    cases i with
    | zero =>
      obtain rfl : y = x := by simpa using h
      simp only [List.modify_zero_cons, List.countP_cons]
      cases p y <;> cases p (f y) <;> simp
    | succ i =>
      have := ih (i := i) (by simpa using h)
      simp only [List.modify_succ_cons, List.countP_cons]
      omega

/-- What changes in one slot changes the number of occupied slots by what that slot counts for. -/
theorem countP_modify_slots {slots : Array (Slot α)} {i : Nat} {e : Slot α} (f : Slot α → Slot α)
    (h : slots[i]? = some e) :
    (slots.modify i f).toList.countP (·.value.isSome) + e.value.isSome.toNat =
      slots.toList.countP (·.value.isSome) + (f e).value.isSome.toNat := by
  rw [Array.toList_modify]
  exact countP_modify (·.value.isSome) f (by rw [Array.getElem?_toList, h])

theorem occupied_insert (hvacant : ∀ i ∈ s.free, s.Vacant i) (v : α) :
    (s.insert v).2.occupied = s.occupied + 1 := by
  cases hf : s.free with
  | nil =>
    rw [insert_of_full hf]
    simp [occupied]
  | cons i free =>
    obtain ⟨g, hg⟩ := hvacant i (by rw [hf]; exact List.mem_cons_self)
    rw [insert_of_free hf]
    exact countP_modify_slots (fun e => { e with value := some v }) hg

theorem occupied_release (h : s.get? r = some v) : (s.release r).2.occupied + 1 = s.occupied := by
  rw [release_of_live h]
  exact countP_modify_slots (fun e => ⟨e.generation + 1, none⟩) (get?_eq_some_iff.mp h)

/-! ### Reachable stores -/

theorem wellFormed_empty : (empty : Store α).WellFormed :=
  ⟨List.nodup_nil, fun _ h => absurd h List.not_mem_nil, rfl⟩

theorem WellFormed.insert (hs : s.WellFormed) (v : α) : (s.insert v).2.WellFormed := by
  have hcounted : (s.insert v).2.liveCount = (s.insert v).2.occupied := by
    rw [liveCount_insert, occupied_insert hs.vacant, hs.counted]
  cases hf : s.free with
  | nil =>
    rw [insert_of_full hf] at hcounted ⊢
    exact ⟨List.nodup_nil, fun _ h => absurd h List.not_mem_nil, hcounted⟩
  | cons i free =>
    have hd := hs.distinct
    rw [hf, List.nodup_cons] at hd
    rw [insert_of_free hf] at hcounted ⊢
    refine ⟨hd.2, fun j hj => ?_, hcounted⟩
    -- The slot that is taken is not among the ones that stay free.
    obtain ⟨g, hg⟩ := hs.vacant j (by rw [hf]; exact List.mem_cons_of_mem i hj)
    have hne : i ≠ j := fun h => hd.1 (h ▸ hj)
    refine ⟨g, ?_⟩
    show (s.slots.modify i _)[j]? = _
    rw [Array.getElem?_modify, if_neg hne, hg]

theorem WellFormed.release (hs : s.WellFormed) (r : ValueRef) : (s.release r).2.WellFormed := by
  cases h : s.get? r with
  | none => rwa [release_of_dead h]
  | some v =>
    have hv := get?_eq_some_iff.mp h
    have hcounted : (s.release r).2.liveCount = (s.release r).2.occupied := by
      have hone := occupied_release h
      rw [liveCount_release h, hs.counted]
      omega
    rw [release_of_live h] at hcounted ⊢
    refine ⟨?_, ?_, hcounted⟩
    · -- The slot of a stored value is not vacant, so it was not free.
      refine List.nodup_cons.mpr ⟨fun hmem => ?_, hs.distinct⟩
      obtain ⟨g, hg⟩ := hs.vacant _ hmem
      exact nomatch hv.symm.trans hg
    · -- The released slot is vacant now, and the slots that were free are as they were.
      intro j hj
      show ∃ g, (s.slots.modify r.slot _)[j]? = some ⟨g, none⟩
      rw [Array.getElem?_modify]
      by_cases hne : r.slot = j
      · rw [if_pos hne, ← hne, hv]
        exact ⟨r.generation + 1, rfl⟩
      · rw [if_neg hne]
        exact hs.vacant j ((List.mem_cons.mp hj).resolve_left (Ne.symm hne))

theorem Reachable.wellFormed (h : s.Reachable) : s.WellFormed := by
  induction h with
  | empty => exact wellFormed_empty
  | insert v _ ih => exact ih.insert v
  | release r _ ih => exact ih.release r

/-! ### What handles find -/

theorem get?_insert_self (hs : s.WellFormed) (v : α) :
    (s.insert v).2.get? (s.insert v).1 = some v := by
  rw [get?_eq_some_iff]
  cases hf : s.free with
  | nil =>
    rw [insert_of_full hf]
    exact Array.getElem?_push_size
  | cons i free =>
    obtain ⟨g, hg⟩ := hs.vacant i (by rw [hf]; exact List.mem_cons_self)
    rw [insert_of_free hf]
    simp [generationOf, Array.getElem?_modify, hg]

/-- A new handle found nothing before. -/
theorem get?_insert_fresh (hs : s.WellFormed) (v : α) : s.get? (s.insert v).1 = none := by
  rw [Option.eq_none_iff_forall_ne_some]
  intro w hw
  have hslot := get?_eq_some_iff.mp hw
  cases hf : s.free with
  | nil =>
    -- There was no such slot.
    simp [insert_of_full hf] at hslot
  | cons i free =>
    -- The slot was vacant.
    obtain ⟨g, hg⟩ := hs.vacant i (by rw [hf]; exact List.mem_cons_self)
    rw [insert_of_free hf] at hslot
    exact nomatch hslot.symm.trans hg

theorem get?_insert_of_ne (hs : s.WellFormed) (v : α) (hr : r ≠ (s.insert v).1) :
    (s.insert v).2.get? r = s.get? r := by
  cases hf : s.free with
  | nil =>
    rw [insert_of_full hf] at hr ⊢
    simp only [get?, Array.getElem?_push]
    split
    · next hslot =>
      -- A handle to the same slot has another generation, or it would be the new one.
      have hg : (0 : UInt32) ≠ r.generation := fun hg => hr (by cases r; simp_all)
      rw [hslot]
      simp [hg]
    · rfl
  | cons i free =>
    obtain ⟨g, hg⟩ := hs.vacant i (by rw [hf]; exact List.mem_cons_self)
    rw [insert_of_free hf] at hr ⊢
    by_cases hslot : i = r.slot
    · have hne : g ≠ r.generation := fun h => hr (by cases r; simp_all [generationOf])
      subst hslot
      simp [get?, Array.getElem?_modify, hg, hne]
    · simp only [get?, Array.getElem?_modify, if_neg hslot]

theorem get?_insert (hs : s.WellFormed) (v : α) (r : ValueRef) :
    (s.insert v).2.get? r = if r = (s.insert v).1 then some v else s.get? r := by
  split
  · next h => rw [h, get?_insert_self hs v]
  · next h => exact get?_insert_of_ne hs v h

variable {r' : ValueRef}

/-- Only one handle finds the value of a slot. -/
theorem get?_of_slot_eq (h : s.get? r = some v) (hslot : r.slot = r'.slot) (hne : r' ≠ r) :
    s.get? r' = none := by
  have hg : r.generation ≠ r'.generation := by
    intro hg
    exact hne (by cases r; cases r'; simp_all)
  simp [get?, ← hslot, get?_eq_some_iff.mp h, hg]

theorem get?_release_of_slot_eq (h : s.get? r = some v) (hslot : r.slot = r'.slot) :
    (s.release r).2.get? r' = none := by
  rw [release_of_live h]
  simp [get?, ← hslot, Array.getElem?_modify, get?_eq_some_iff.mp h]

theorem get?_release (s : Store α) (r r' : ValueRef) :
    (s.release r).2.get? r' = if r' = r then none else s.get? r' := by
  cases h : s.get? r with
  | none =>
    rw [release_of_dead h]
    split
    · next hr => rw [hr, h]
    · rfl
  | some v =>
    by_cases hslot : r.slot = r'.slot
    · -- Neither handle finds anything in the slot now, and the other one did not before either.
      rw [get?_release_of_slot_eq h hslot]
      split
      · rfl
      · next hne => rw [get?_of_slot_eq h hslot hne]
    · have hne : r' ≠ r := fun he => hslot (by rw [he])
      rw [release_of_live h, if_neg hne]
      simp only [get?, Array.getElem?_modify, if_neg hslot]

theorem get?_release_of_ne (h : r' ≠ r) : (s.release r).2.get? r' = s.get? r' := by
  rw [get?_release, if_neg h]

/-! ### How many values are stored -/

/-- Every counted element of a list stands in another list at the same place. Then no fewer are counted
there, and if no more are counted, then there are no others. -/
theorem countP_le_of_getElem? {β : Type} {p : β → Bool} {l l' : List β}
    (h : ∀ (i : Nat) (x : β), l[i]? = some x → p x → l'[i]? = some x) :
    l.countP p ≤ l'.countP p ∧
      (l'.countP p ≤ l.countP p → ∀ (i : Nat) (x : β), l'[i]? = some x → p x → l[i]? = some x) := by
  induction l' generalizing l with
  | nil =>
    have hnone : ∀ x ∈ l, ¬p x := by
      intro x hx hp
      obtain ⟨i, hi⟩ := List.mem_iff_getElem?.mp hx
      exact nomatch h i x hi hp
    rw [List.countP_eq_zero.mpr hnone]
    exact ⟨Nat.zero_le _, fun _ i x hx => nomatch hx⟩
  | cons y l' ih =>
    cases l with
    | nil =>
      refine ⟨Nat.zero_le _, fun hle i x hx hp => ?_⟩
      exact absurd hp (List.countP_eq_zero.mp (Nat.le_zero.mp hle) x (List.mem_of_getElem? hx))
    | cons x l =>
      obtain ⟨hle, hback⟩ := ih (l := l) fun i z hz => h (i + 1) z (by simpa using hz)
      -- A head that is counted in the first list is the head of the second list too.
      have hhead : p x → y = x := fun hp => by simpa using h 0 x rfl hp
      simp only [List.countP_cons]
      cases hx : p x with
      | true =>
        obtain rfl := hhead hx
        simp only [hx, if_true]
        refine ⟨by omega, fun hge i z hz hp => ?_⟩
        cases i with
        | zero => exact hz
        | succ i => simpa using hback (by omega) i z (by simpa using hz) hp
      | false =>
        refine ⟨by simp; omega, fun hge i z hz hp => ?_⟩
        cases i with
        | zero =>
          -- A counted head of the second list would be one more.
          obtain rfl : y = z := by simpa using hz
          simp [hp] at hge
          omega
        | succ i =>
          have htail : l'.countP p ≤ l.countP p := by simp at hge; omega
          simpa using hback htail i z (by simpa using hz) hp

/-- If every stored value stays stored and no more values are stored than before, then no handle finds
anything else than before. -/
theorem get?_eq_of_liveCount_le {s' : Store α} (hs : s.WellFormed) (hs' : s'.WellFormed)
    (hkept : ∀ r v, s.get? r = some v → s'.get? r = some v) (hcount : s'.liveCount ≤ s.liveCount)
    (r : ValueRef) : s'.get? r = s.get? r := by
  rw [hs.counted, hs'.counted] at hcount
  have hslots : ∀ (i : Nat) (e : Slot α), s.slots.toList[i]? = some e → e.value.isSome →
      s'.slots.toList[i]? = some e := by
    intro i e he hv
    obtain ⟨generation, value⟩ := e
    obtain ⟨v, rfl⟩ := Option.isSome_iff_exists.mp hv
    rw [Array.getElem?_toList] at he ⊢
    exact get?_eq_some_iff.mp (hkept ⟨i, generation⟩ v (get?_eq_some_iff.mpr he))
  obtain ⟨-, hback⟩ := countP_le_of_getElem? (p := fun e : Slot α => e.value.isSome) hslots
  cases hget' : s'.get? r with
  | some w =>
    have hslot := hback hcount r.slot ⟨r.generation, some w⟩
      (by rw [Array.getElem?_toList]; exact get?_eq_some_iff.mp hget') rfl
    rw [Array.getElem?_toList] at hslot
    exact (get?_eq_some_iff.mpr hslot).symm
  | none =>
    cases hget : s.get? r with
    | none => rfl
    | some v => exact nomatch hget'.symm.trans (hkept r v hget)

/-! ### Releasing many handles -/

/-- Releases handles one after another. -/
def releaseAll (s : Store α) (rs : List ValueRef) : Store α :=
  rs.foldl (fun s r => (s.release r).2) s

@[simp] theorem releaseAll_nil (s : Store α) : s.releaseAll [] = s := rfl

@[simp] theorem releaseAll_cons (s : Store α) (r : ValueRef) (rs : List ValueRef) :
    s.releaseAll (r :: rs) = (s.release r).2.releaseAll rs := rfl

theorem releaseAll_append (s : Store α) (rs rs' : List ValueRef) :
    s.releaseAll (rs ++ rs') = (s.releaseAll rs).releaseAll rs' :=
  List.foldl_append

theorem Reachable.releaseAll (hs : s.Reachable) (rs : List ValueRef) :
    (s.releaseAll rs).Reachable := by
  induction rs generalizing s with
  | nil => exact hs
  | cons r rs ih => exact ih (hs.release r)

theorem get?_releaseAll (s : Store α) (rs : List ValueRef) (r : ValueRef) :
    (s.releaseAll rs).get? r = if r ∈ rs then none else s.get? r := by
  induction rs generalizing s with
  | nil => simp
  | cons r' rs ih =>
    rw [releaseAll_cons, ih, get?_release]
    by_cases hr : r = r' <;> by_cases hmem : r ∈ rs <;> simp [hr, hmem]

/-- The other handles of a list without repetitions are different ones, so they still find their values. -/
theorem isSome_get?_release {rs : List ValueRef} (hr : r ∉ rs) (hl : ∀ r' ∈ rs, (s.get? r').isSome) :
    ∀ r' ∈ rs, ((s.release r).2.get? r').isSome := by
  intro r' hr'
  have hne : r' ≠ r := fun he => hr (he ▸ hr')
  rw [get?_release_of_ne hne]
  exact hl r' hr'

/-- Every handle that finds a value counts for one. -/
theorem length_le_liveCount (hs : s.WellFormed) {rs : List ValueRef} (hd : rs.Nodup)
    (hl : ∀ r ∈ rs, (s.get? r).isSome) : rs.length ≤ s.liveCount := by
  induction rs generalizing s with
  | nil => exact Nat.zero_le _
  | cons r rs ih =>
    obtain ⟨hr, hd⟩ := List.nodup_cons.mp hd
    obtain ⟨hhead, htail⟩ := List.forall_mem_cons.mp hl
    obtain ⟨v, hv⟩ := Option.isSome_iff_exists.mp hhead
    have hrest := ih (hs.release r) hd (isSome_get?_release hr htail)
    have hone := occupied_release hv
    rw [liveCount_release hv] at hrest
    rw [hs.counted] at hrest ⊢
    rw [List.length_cons]
    omega

/-- Releasing handles that find values counts down by as many, if the counter is not below that. -/
theorem liveCount_releaseAll {rs : List ValueRef} (hd : rs.Nodup) (hl : ∀ r ∈ rs, (s.get? r).isSome)
    (hle : rs.length ≤ s.liveCount) : (s.releaseAll rs).liveCount + rs.length = s.liveCount := by
  induction rs generalizing s with
  | nil => rfl
  | cons r rs ih =>
    obtain ⟨hr, hd⟩ := List.nodup_cons.mp hd
    obtain ⟨hhead, htail⟩ := List.forall_mem_cons.mp hl
    obtain ⟨v, hv⟩ := Option.isSome_iff_exists.mp hhead
    have hone := liveCount_release hv
    rw [List.length_cons] at hle
    have hrest := ih hd (isSome_get?_release hr htail) (by omega)
    rw [releaseAll_cons, List.length_cons]
    omega

theorem WellFormed.liveCount_releaseAll (hs : s.WellFormed) {rs : List ValueRef} (hd : rs.Nodup)
    (hl : ∀ r ∈ rs, (s.get? r).isSome) : (s.releaseAll rs).liveCount + rs.length = s.liveCount :=
  Store.liveCount_releaseAll hd hl (length_le_liveCount hs hd hl)

end NumericTower.Store
