import NumericTower.Proofs.Eval.Chains
import NumericTower.Proofs.Store.History

/-!
# Chains of handles end

A value can only hold handles that were given out before it was put in. A chain of handles so goes back in
the history of the store, from each insertion to an earlier one, also where slots are used again, and it ends
after no more handles than there were insertions.

## Key results
- `Store.Follows`: the handles that following a value looks up, and what it ends in
- `Store.History.PointsBack`: what was put in points to earlier insertions
- `Store.Accounts.exists_follows`: the handles looked up are those of ever earlier insertions
- `Store.chains_of_handles_end`
-/

namespace NumericTower

theorem Value.eq_ref_of_toRef? {v : Value} {r : ValueRef} (h : v.toRef? = some r) : v = .ref r := by
  cases v with
  | ref r' => exact congrArg Value.ref (Option.some.inj h)
  | _ => exact nomatch h

namespace Store

variable {s : Store Value} {h g : History Value} {r : ValueRef} {v : Value} {path : List ValueRef}
  {x : Option Value}

/-- Following a value looks up the handles of a path, one after the other, and ends in a value that is no
handle, or at a handle that finds nothing. -/
inductive Follows (s : Store Value) : Value → List ValueRef → Option Value → Prop where
  | value {v : Value} (h : v.toRef? = none) : s.Follows v [] (some v)
  | dangling {r : ValueRef} (h : s.get? r = none) : s.Follows (.ref r) [r] none
  | link {r : ValueRef} {v : Value} {path : List ValueRef} {x : Option Value} (h : s.get? r = some v)
      (hv : s.Follows v path x) : s.Follows (.ref r) (r :: path) x

namespace Follows

theorem leadsTo (h : s.Follows v path x) : s.LeadsTo v x := by
  induction h with
  | value h => exact .value h
  | dangling h => exact .dangling h
  | link h _ ih => exact .link h ih

/-- A value at the end is no handle. -/
theorem toRef?_eq_none (h : s.Follows v path x) : ∀ w, x = some w → w.toRef? = none := by
  induction h with
  | value h => exact fun w hw => Option.some.inj hw ▸ h
  | dangling _ => exact nofun
  | link _ _ ih => exact ih

end Follows

/-- Whether the value is no handle, or a handle that was given out. -/
def History.Knows (h : History Value) (v : Value) : Prop :=
  ∀ r, v.toRef? = some r → r ∈ h.issued

/-- Whether every value that was put in is no handle, or a handle that was given out before. -/
def History.PointsBack : History Value → Prop
  | [] => True
  | .inserted _ v :: h => Knows h v ∧ PointsBack h
  | .released .. :: h => PointsBack h

namespace Accounts

theorem get?_eq_none (ha : Accounts h s) (hr : r ∉ h.issued ∨ r ∈ h.released) : s.get? r = none := by
  refine Option.eq_none_iff_forall_ne_some.mpr fun v hv => ?_
  obtain ⟨hinserted, hlive⟩ := (ha.live r v).mp hv
  exact hr.elim (· (History.mem_issued.mpr ⟨v, hinserted⟩)) hlive

/-- Following a handle that was given out in a part of the history looks up handles of this part only, from
later to earlier ones. It ends at a handle that finds nothing exactly if one of them has been released, be it
later than this part. -/
theorem exists_follows (ha : Accounts h s) (hpart : g <:+ h) (hback : History.PointsBack g) :
    ∀ r ∈ g.issued, ∃ path x, s.Follows (.ref r) path x ∧ path.Sublist g.issued ∧
      (x = none ↔ ∃ r ∈ path, r ∈ h.released) := by
  induction g with
  | nil => exact nofun
  | cons e g ih =>
    have hpart' := (List.suffix_cons e g).trans hpart
    cases e with
    | released r found => exact ih hpart' hback
    | inserted r v =>
      obtain ⟨hknown, hback⟩ := hback
      intro r' hr'
      rcases List.mem_cons.mp hr' with rfl | hr'
      · by_cases hreleased : r' ∈ h.released
        · refine ⟨[r'], none, .dangling (ha.get?_eq_none (.inr hreleased)), ?_, by simp [hreleased]⟩
          exact (List.nil_sublist _).cons_cons r'
        have hv : s.get? r' = some v := (ha.live r' v).mpr ⟨hpart.mem List.mem_cons_self, hreleased⟩
        cases hr : v.toRef? with
        | none =>
          refine ⟨[r'], some v, .link hv (.value hr), ?_, by simp [hreleased]⟩
          exact (List.nil_sublist _).cons_cons r'
        | some r =>
          -- What was put in is a handle that was given out before.
          obtain ⟨path, x, hpath, hsub, hiff⟩ := ih hpart' hback r (hknown r hr)
          obtain rfl := Value.eq_ref_of_toRef? hr
          exact ⟨r' :: path, x, .link hv hpath, hsub.cons_cons r', by simp [hreleased, hiff]⟩
      · obtain ⟨path, x, hpath, hsub, hiff⟩ := ih hpart' hback r' hr'
        exact ⟨path, x, hpath, hsub.cons r, hiff⟩

theorem exists_follows_of_knows (ha : Accounts h s) (hback : History.PointsBack h)
    (hknown : History.Knows h v) : ∃ path x, s.Follows v path x ∧ path.length ≤ h.issued.length ∧
      (x = none ↔ ∃ r ∈ path, r ∈ h.released) := by
  cases hr : v.toRef? with
  | none => exact ⟨[], some v, .value hr, Nat.zero_le _, by simp⟩
  | some r =>
    obtain rfl := Value.eq_ref_of_toRef? hr
    obtain ⟨path, x, hpath, hsub, hiff⟩ := ha.exists_follows List.suffix_rfl hback r (hknown r hr)
    exact ⟨path, x, hpath, hsub.length_le, hiff⟩

end Accounts

/-- After any insertions and releases, where what is put in is no handle or one that was given out before,
and no slot is released so often that its generations come round, following any value ends. The handles that
are looked up are no more than there were insertions, the result is a value that is no handle, and there is
none exactly if one of the handles has been released. A handle that was never given out finds nothing itself. -/
theorem chains_of_handles_end (hrun : Run h s) (hcount : ∀ i, h.releases i < 2 ^ 32)
    (hback : History.PointsBack h) (v : Value) :
    ∃ path x, s.Follows v path x ∧
      (History.Knows h v → path.length ≤ h.issued.length ∧ (x = none ↔ ∃ r ∈ path, r ∈ h.released)) ∧
      (∀ r, v = .ref r → r ∉ h.issued → path = [r] ∧ x = none) ∧
      (∀ w, x = some w → w.toRef? = none) ∧
      ∀ m : Machine, m.store = s → ∀ span, Eval.resolve v span m = match x with
        | some w => .ok w m
        | none => .error ⟨.danglingReference, span⟩ m := by
  have ha := hrun.accounts hcount
  have hresolve : ∀ {path x} {m : Machine}, s.Follows v path x → m.store = s →
      m.store.resolve? v = x := fun hpath hm => hm ▸ hpath.leadsTo.resolve?_eq
  by_cases hknown : History.Knows h v
  · obtain ⟨path, x, hpath, hlen, hiff⟩ := ha.exists_follows_of_knows hback hknown
    refine ⟨path, x, hpath, fun _ => ⟨hlen, hiff⟩, fun r heq hnot => ?_, hpath.toRef?_eq_none, ?_⟩
    · exact absurd (hknown r (heq ▸ rfl)) hnot
    · intro m hm span
      rw [← hresolve hpath hm]
      exact Eval.resolve_eq v span m
  · obtain ⟨r, hr, hnot⟩ : ∃ r, v.toRef? = some r ∧ r ∉ h.issued := by simpa [History.Knows] using hknown
    obtain rfl := Value.eq_ref_of_toRef? hr
    have hpath : s.Follows (.ref r) [r] none := .dangling (ha.get?_eq_none (.inl hnot))
    refine ⟨[r], none, hpath, fun h => absurd h hknown, fun r' heq _ => ?_, nofun, ?_⟩
    · exact Value.ref.inj heq ▸ ⟨rfl, rfl⟩
    · intro m hm span
      rw [← hresolve hpath hm]
      exact Eval.resolve_eq (.ref r) span m

/-- Two handles lead to the slot 0, the second one to the value that is in it now, and the last one to the
value from before. -/
theorem chains_of_handles_end_reused_slot :
    let h : History Value := [.inserted ⟨2, 0⟩ (.ref ⟨0, 0⟩), .inserted ⟨1, 0⟩ (.ref ⟨0, 1⟩),
      .inserted ⟨0, 1⟩ (.bool false), .released ⟨0, 0⟩ (some (.bool true)), .inserted ⟨0, 0⟩ (.bool true)]
    ∃ s : Store Value, Run h s ∧ (∀ i, h.releases i < 2 ^ 32) ∧ History.PointsBack h ∧
      ∀ m : Machine, m.store = s → ∀ span,
        Eval.resolve (.ref ⟨1, 0⟩) span m = .ok (.bool false) m ∧
        Eval.resolve (.ref ⟨2, 0⟩) span m = .error ⟨.danglingReference, span⟩ m := by
  intro h
  have hrun : Run h _ := ((((Run.empty.insert (Value.bool true)).release (r := ⟨0, 0⟩) (.head _)).insert
    (Value.bool false)).insert (Value.ref ⟨0, 1⟩)).insert (Value.ref ⟨0, 0⟩)
  have hcount : ∀ i, h.releases i < 2 ^ 32 := fun i => List.countP_le_length.trans_lt (by simp [h])
  have hback : History.PointsBack h := by
    simp [h, History.PointsBack, History.Knows, Value.toRef?, History.issued, Event.issued?]
  refine ⟨_, hrun, hcount, hback, fun m hm span => ⟨?_, ?_⟩⟩
  · obtain ⟨path, x, hpath, -, -, -, hresolve⟩ := chains_of_handles_end hrun hcount hback (.ref ⟨1, 0⟩)
    obtain rfl := hpath.leadsTo.unique (.link rfl (.link rfl (.value rfl)))
    exact hresolve m hm span
  · obtain ⟨path, x, hpath, -, -, -, hresolve⟩ := chains_of_handles_end hrun hcount hback (.ref ⟨2, 0⟩)
    obtain rfl := hpath.leadsTo.unique (.link rfl (.dangling rfl))
    exact hresolve m hm span

end Store

end NumericTower
