import Mathlib
import NumericTower.Proofs.Store

/-!
# Histories of a value store

A history lists the insertions and releases that made a store. It says all that the store answers: a handle
finds its value from the insertion that gave it out until its first release, however often its slot is used
again in between.

## Key results
- `Store.Accounts`: how the generations of the slots, the handles and the history are related
- `Store.Run.accounts`: every run keeps this, as long as no generation comes round again
- `Store.handles_follow_history`: what handles find, what releasing returns and how many values are stored
-/

namespace NumericTower.Store

variable {α : Type}

/-- What was done to a store. -/
inductive Event (α : Type) where
  /-- A value was put in, under the handle that was given out for it. -/
  | inserted (r : ValueRef) (v : α)
  /-- A handle was released, and its value handed out if it found one. -/
  | released (r : ValueRef) (found : Option α)

/-- What was done to a store, the latest first. -/
abbrev History (α : Type) := List (Event α)

namespace Event

/-- The handle that was given out. -/
def issued? : Event α → Option ValueRef
  | .inserted r _ => some r
  | .released .. => none

/-- The handle that was released. -/
def released? : Event α → Option ValueRef
  | .inserted .. => none
  | .released r _ => some r

/-- Whether a value was taken out of the slot. -/
def vacates (i : Nat) : Event α → Bool
  | .inserted .. => false
  | .released r found => r.slot == i && found.isSome

end Event

namespace History

/-- The handles that were given out. -/
def issued (h : History α) : List ValueRef :=
  h.filterMap Event.issued?

/-- The handles that were released at least once. -/
def released (h : History α) : List ValueRef :=
  h.filterMap Event.released?

/-- The handles that were given out and have not been released. -/
def unreleased (h : History α) : List ValueRef :=
  h.issued.filter (· ∉ h.released)

/-- How often the slot was released. Releasing a handle that finds nothing does not release its slot. -/
def releases (h : History α) (i : Nat) : Nat :=
  h.countP (Event.vacates i)

@[simp] theorem released_inserted (h : History α) (r : ValueRef) (v : α) :
    released (.inserted r v :: h) = released h := rfl

@[simp] theorem released_released (h : History α) (r : ValueRef) (found : Option α) :
    released (.released r found :: h) = r :: released h := rfl

@[simp] theorem releases_inserted (h : History α) (r : ValueRef) (v : α) (i : Nat) :
    releases (.inserted r v :: h) i = releases h i := by
  simp [releases, Event.vacates]

@[simp] theorem releases_released_none (h : History α) (r : ValueRef) (i : Nat) :
    releases (.released r none :: h) i = releases h i := by
  simp [releases, Event.vacates]

@[simp] theorem releases_released_some (h : History α) (r : ValueRef) (v : α) (i : Nat) :
    releases (.released r (some v) :: h) i = releases h i + if r.slot = i then 1 else 0 := by
  simp [releases, Event.vacates, List.countP_cons]

theorem releases_le_cons (h : History α) (e : Event α) (i : Nat) :
    h.releases i ≤ releases (e :: h) i :=
  (List.sublist_cons_self e h).countP_le

theorem mem_issued {h : History α} {r : ValueRef} : r ∈ h.issued ↔ ∃ v, .inserted r v ∈ h := by
  simp only [issued, List.mem_filterMap]
  constructor
  · rintro ⟨e, he, hr⟩
    cases e with
    | inserted r' v =>
      obtain rfl := Option.some.inj hr
      exact ⟨v, he⟩
    | released r' found => exact nomatch hr
  · rintro ⟨v, hv⟩
    exact ⟨_, hv, rfl⟩

theorem unreleased_inserted {h : History α} {r : ValueRef} (hr : r ∉ h.released) (v : α) :
    unreleased (.inserted r v :: h) = r :: h.unreleased :=
  List.filter_cons_of_pos (decide_eq_true hr)

/-- The first release of a handle takes it out of those that have not been released. -/
theorem unreleased_released {h : History α} (hd : h.issued.Nodup) (r : ValueRef) (found : Option α) :
    unreleased (.released r found :: h) = h.unreleased.erase r := by
  rw [unreleased, unreleased, (hd.filter _).erase_eq_filter, List.filter_filter]
  refine List.filter_congr fun r' _ => ?_
  by_cases hr : r' = r <;> simp [hr]

end History

/-- The stores with their histories: from the empty store, any value is put in and any handle that was ever
given out is released, in any order and any number of times. -/
inductive Run : History α → Store α → Prop where
  | empty : Run [] .empty
  | insert {h : History α} {s : Store α} (v : α) :
      Run h s → Run (.inserted (s.insert v).1 v :: h) (s.insert v).2
  | release {h : History α} {s : Store α} {r : ValueRef} :
      Run h s → r ∈ h.issued → Run (.released r (s.release r).1 :: h) (s.release r).2

/-- A store and its history agree. -/
structure Accounts (h : History α) (s : Store α) : Prop where
  wellFormed : s.WellFormed
  generation : ∀ i, (s.generationOf i).toNat = h.releases i
  /-- Released handles are of earlier generations than the slot. -/
  stale : ∀ r ∈ h.released, r.generation.toNat < h.releases r.slot
  live : ∀ r v, s.get? r = some v ↔ .inserted r v ∈ h ∧ r ∉ h.released
  distinct : h.issued.Nodup
  slot_lt : ∀ r ∈ h.issued, r.slot < s.slots.size
  count : s.liveCount = h.unreleased.length

variable {h : History α} {s : Store α} {v : α} {r : ValueRef}

/-! ### Generations -/

theorem generationOf_of_get? (hv : s.get? r = some v) : s.generationOf r.slot = r.generation := by
  rw [generationOf, get?_eq_some_iff.mp hv]
  rfl

/-- A new handle is of the present generation of its slot. -/
theorem generation_insert_fst (s : Store α) (v : α) :
    s.generationOf (s.insert v).1.slot = (s.insert v).1.generation := by
  cases hf : s.free with
  | nil =>
    rw [insert_of_full hf]
    simp [generationOf]
  | cons i free => rw [insert_of_free hf]

theorem generationOf_insert (s : Store α) (v : α) (i : Nat) :
    (s.insert v).2.generationOf i = s.generationOf i := by
  cases hf : s.free with
  | nil =>
    rw [insert_of_full hf]
    simp only [generationOf, Array.getElem?_push]
    split
    · next hi => simp [hi]
    · rfl
  | cons j free =>
    rw [insert_of_free hf]
    simp only [generationOf, Array.getElem?_modify]
    split
    · next hij =>
      subst hij
      cases s.slots[j]? <;> rfl
    · rfl

theorem generationOf_release (hv : s.get? r = some v) (i : Nat) :
    (s.release r).2.generationOf i =
      if r.slot = i then s.generationOf i + 1 else s.generationOf i := by
  have hslot := get?_eq_some_iff.mp hv
  rw [release_of_live hv]
  simp only [generationOf, Array.getElem?_modify]
  split
  · next hi => simp [← hi, hslot]
  · rfl

/-! ### Slots -/

theorem size_le_insert (s : Store α) (v : α) : s.slots.size ≤ (s.insert v).2.slots.size := by
  unfold insert
  split <;> simp

theorem slot_insert_fst_lt (hs : s.WellFormed) (v : α) :
    (s.insert v).1.slot < (s.insert v).2.slots.size :=
  (Array.getElem?_eq_some_iff.mp (get?_eq_some_iff.mp (get?_insert_self hs v))).1

theorem size_release (s : Store α) (r : ValueRef) : (s.release r).2.slots.size = s.slots.size := by
  unfold release
  split <;> simp

/-! ### Every run -/

namespace Accounts

theorem empty : Accounts [] (.empty : Store α) where
  wellFormed := wellFormed_empty
  generation _ := rfl
  stale _ hr := nomatch hr
  live r v := by simp [get?, Store.empty]
  distinct := List.nodup_nil
  slot_lt _ hr := nomatch hr
  count := rfl

/-- A handle that was given out and finds nothing has been released. -/
theorem released_of_get?_eq_none (ha : Accounts h s) (hr : r ∈ h.issued) (hnone : s.get? r = none) :
    r ∈ h.released := by
  obtain ⟨v, hv⟩ := History.mem_issued.mp hr
  by_contra hlive
  exact nomatch hnone.symm.trans ((ha.live r v).mpr ⟨hv, hlive⟩)

theorem released_insert_fst (ha : Accounts h s) (v : α) : (s.insert v).1 ∉ h.released := by
  -- A released handle is of an earlier generation than its slot, the new one is not.
  intro hr
  have hlt := ha.stale _ hr
  rw [← ha.generation, generation_insert_fst] at hlt
  exact Nat.lt_irrefl _ hlt

/-- A new handle was never given out before. -/
theorem issued_insert_fst (ha : Accounts h s) (v : α) : (s.insert v).1 ∉ h.issued := fun hr =>
  ha.released_insert_fst v
    (ha.released_of_get?_eq_none hr (get?_insert_fresh ha.wellFormed v))

theorem insert (ha : Accounts h s) (v : α) :
    Accounts (.inserted (s.insert v).1 v :: h) (s.insert v).2 where
  wellFormed := ha.wellFormed.insert v
  generation i := by
    rw [generationOf_insert, ha.generation, History.releases_inserted]
  stale r hr := by
    rw [History.releases_inserted]
    exact ha.stale r hr
  live r w := by
    rw [get?_insert ha.wellFormed, History.released_inserted, List.mem_cons, Event.inserted.injEq]
    split
    · next hr =>
      -- The new handle was inserted once only, and it has not been released.
      subst hr
      have hissued : Event.inserted (s.insert v).1 w ∉ h := fun hmem =>
        ha.issued_insert_fst v (History.mem_issued.mpr ⟨w, hmem⟩)
      simp [hissued, ha.released_insert_fst v, eq_comm]
    · next hr => simp [hr, ha.live]
  distinct := List.nodup_cons.mpr ⟨ha.issued_insert_fst v, ha.distinct⟩
  slot_lt := List.forall_mem_cons.mpr ⟨slot_insert_fst_lt ha.wellFormed v, fun r hr =>
    (ha.slot_lt r hr).trans_le (size_le_insert s v)⟩
  count := by
    rw [liveCount_insert, ha.count, History.unreleased_inserted (ha.released_insert_fst v),
      List.length_cons]

theorem release_of_live (ha : Accounts h s) (hr : r ∈ h.issued) (hv : s.get? r = some v)
    (hcount : ∀ i, History.releases (.released r (some v) :: h) i < 2 ^ 32) :
    Accounts (.released r (some v) :: h) (s.release r).2 where
  wellFormed := ha.wellFormed.release r
  generation i := by
    have hg := ha.generation i
    have hi := hcount i
    rw [generationOf_release hv, History.releases_released_some] at *
    split
    · next hslot =>
      -- The generation is not the last one, so the next one is greater.
      rw [if_pos hslot] at hi
      rw [UInt32.toNat_add, hg]
      exact Nat.mod_eq_of_lt hi
    · exact hg
  stale r' hr' := by
    rw [History.releases_released_some]
    rcases List.mem_cons.mp hr' with rfl | hr'
    · rw [if_pos rfl, ← ha.generation, generationOf_of_get? hv]
      exact Nat.lt_succ_self _
    · exact Nat.lt_add_right _ (ha.stale r' hr')
  live r' w := by
    rw [get?_release]
    by_cases hne : r' = r <;> simp [hne, ha.live]
  distinct := ha.distinct
  slot_lt r' hr' := (size_release s r).symm ▸ ha.slot_lt r' hr'
  count := by
    have hmem : r ∈ h.unreleased := by simp [History.unreleased, hr, ((ha.live r v).mp hv).2]
    rw [liveCount_release hv, History.unreleased_released ha.distinct, List.length_erase_of_mem hmem,
      ha.count]

theorem release_of_dead (ha : Accounts h s) (hr : r ∈ h.issued) (hnone : s.get? r = none) :
    Accounts (.released r none :: h) (s.release r).2 := by
  -- The handle has been released before, so nothing changes.
  have hreleased := ha.released_of_get?_eq_none hr hnone
  have hmem : ∀ r', r' ∈ r :: h.released ↔ r' ∈ h.released := by
    intro r'
    rw [List.mem_cons, or_iff_right_of_imp]
    rintro rfl
    exact hreleased
  have hnot : r ∉ h.unreleased := by simp [History.unreleased, hreleased]
  rw [Store.release_of_dead hnone]
  constructor
  · exact ha.wellFormed
  · exact fun i => by rw [ha.generation, History.releases_released_none]
  · exact fun r' hr' => by
      rw [History.releases_released_none]
      exact ha.stale r' ((hmem r').mp hr')
  · exact fun r' w => by simp [ha.live, hmem]
  · exact ha.distinct
  · exact ha.slot_lt
  · rw [History.unreleased_released ha.distinct, List.erase_of_not_mem hnot, ha.count]

end Accounts

theorem Run.accounts (hrun : Run h s) (hcount : ∀ i, h.releases i < 2 ^ 32) : Accounts h s := by
  induction hrun with
  | empty => exact .empty
  | insert v _ ih => exact (ih fun i => (History.releases_le_cons _ _ i).trans_lt (hcount i)).insert v
  | @release h s r _ hr ih =>
    have ha := ih fun i => (History.releases_le_cons _ _ i).trans_lt (hcount i)
    rw [release_fst] at hcount ⊢
    cases hv : s.get? r with
    | none => exact ha.release_of_dead hr hv
    | some v =>
      rw [hv] at hcount
      exact ha.release_of_live hr hv hcount

/-- After any insertions and releases, no slot released so often that its generations come round: the
handles given out are distinct; a handle finds a value exactly if it was given out for that value and has
not been released; the first release of a handle returns its value, and any later one nothing, without a
change; and what the other handles find stays the same. The counter is the number of the handles that have not
been released, which is that of the occupied slots, so no release counts below zero. In a store of up to `2 ^ 32`
slots the slots of all handles are numbers of 32 bits. -/
theorem handles_follow_history (hrun : Run h s) (hcount : ∀ i, h.releases i < 2 ^ 32) :
    h.issued.Nodup ∧
    (∀ r v, s.get? r = some v ↔ .inserted r v ∈ h ∧ r ∉ h.released) ∧
    (∀ r v, .inserted r v ∈ h →
      (r ∉ h.released → (s.release r).1 = some v) ∧
      (r ∈ h.released → s.release r = (none, s))) ∧
    (∀ r r', r' ≠ r → (s.release r).2.get? r' = s.get? r') ∧
    (∀ v r, r ∈ h.issued → (s.insert v).1 ≠ r ∧ (s.insert v).2.get? r = s.get? r) ∧
    s.liveCount = h.unreleased.length ∧ s.liveCount = s.occupied ∧
    (∀ r v, s.get? r = some v → (s.release r).2.liveCount + 1 = s.liveCount) ∧
    (s.slots.size ≤ 2 ^ 32 → ∀ r ∈ h.issued, (UInt32.ofNat r.slot).toNat = r.slot) := by
  have ha := hrun.accounts hcount
  refine ⟨ha.distinct, ha.live, fun r v hv => ⟨fun hr => ?_, fun hr => ?_⟩,
    fun r r' hne => get?_release_of_ne hne, fun v r hr => ?_, ha.count, ha.wellFormed.counted,
    fun r v hv => ?_, fun hsize r hr => ?_⟩
  · rw [release_fst, (ha.live r v).mpr ⟨hv, hr⟩]
  · refine release_of_dead (Option.eq_none_iff_forall_ne_some.mpr fun w hw => ?_)
    exact ((ha.live r w).mp hw).2 hr
  · have hne : (s.insert v).1 ≠ r := fun he => ha.issued_insert_fst v (he ▸ hr)
    exact ⟨hne, get?_insert_of_ne ha.wellFormed v hne.symm⟩
  · rw [(ha.wellFormed.release r).counted, ha.wellFormed.counted, occupied_release hv]
  · exact Nat.mod_eq_of_lt ((ha.slot_lt r hr).trans_le hsize)

/-- A slot that is used again: the handle from before finds nothing, and releasing it once more leaves the
new value in place. -/
theorem handles_follow_history_reused_slot :
    let h : History Bool := [.released ⟨0, 0⟩ none, .inserted ⟨0, 1⟩ false,
      .released ⟨0, 0⟩ (some true), .inserted ⟨0, 0⟩ true]
    ∃ s : Store Bool, Run h s ∧ (∀ i, h.releases i < 2 ^ 32) ∧
      s.get? ⟨0, 0⟩ = none ∧ s.get? ⟨0, 1⟩ = some false ∧ s.liveCount = 1 := by
  intro h
  have hrun : Run h _ :=
    (((Run.empty.insert true).release (r := ⟨0, 0⟩) (by decide)).insert false).release
      (r := ⟨0, 0⟩) (by decide)
  have hcount : ∀ i, h.releases i < 2 ^ 32 := fun i =>
    (List.countP_le_length).trans_lt (by decide)
  obtain ⟨-, hget, -, -, -, hlive, -⟩ := handles_follow_history hrun hcount
  refine ⟨_, hrun, hcount, ?_, (hget _ _).mpr ⟨.tail _ (.head _), by decide⟩, hlive⟩
  exact Option.eq_none_iff_forall_ne_some.mpr fun w hw => ((hget _ _).mp hw).2 (by decide)

end NumericTower.Store
