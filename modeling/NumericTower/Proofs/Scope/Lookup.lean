import NumericTower.Proofs.Scope

/-!
# Looking up names in scopes

Scopes come about by entering and leaving them and by binding names. Looking up a name from the innermost
scope outward and listing all that is visible are two ways to the same bindings, however the scopes shadow
each other, and leaving a scope takes back all that was bound in it.

## Key results
- `Scopes.run`: the scopes after any sequence of operations
- `Scopes.find?_visible`, `Scopes.nodup_names_visible`: what is visible is what is found, each name once
- `Scopes.find?_leave`: what is found after a scope was left
- `Scopes.Inside`: scopes above a top level that inner operations do not touch
-/

namespace NumericTower

variable {α : Type}

/-! ### One scope -/

namespace Frame

variable {inner outer frame : Frame α} {n : String} {v : α}

theorem find?_cons (name : String) (v : α) (frame : Frame α) (n : String) :
    Frame.find? ((name, v) :: frame) n = if n = name then some v else frame.find? n := by
  rw [find?, find?, List.lookup_cons]
  split
  · next h => rw [if_pos (eq_of_beq h)]
  · next h => rw [if_neg (ne_of_beq_false h)]

/-- In a scope that binds each name once a name is found in any of its bindings. -/
theorem mem_iff_find? (h : frame.names.Nodup) : (n, v) ∈ frame ↔ frame.find? n = some v := by
  induction frame with
  | nil => simp [find?]
  | cons b frame ih =>
    obtain ⟨name, w⟩ := b
    obtain ⟨hname, htail⟩ := List.nodup_cons.mp h
    rw [List.mem_cons, find?_cons, ih htail]
    split
    · next heq =>
      subst heq
      have hnone : Frame.find? frame n = none := find?_eq_none_iff.mpr hname
      simp [hnone, eq_comm]
    · next hne => simp [hne]

/-! ### Shadowing -/

theorem find?_append (frame frame' : Frame α) (n : String) :
    Frame.find? (frame ++ frame') n = (frame.find? n).or (frame'.find? n) :=
  List.lookup_append

/-- Bindings of other names do not matter. -/
theorem find?_filter (p : String → Bool) (frame : Frame α) (n : String) :
    Frame.find? (frame.filter fun b => p b.1) n = if p n then frame.find? n else none := by
  induction frame with
  | nil => simp [find?]
  | cons b frame ih =>
    obtain ⟨name, w⟩ := b
    rw [List.filter_cons, find?_cons]
    by_cases hn : n = name
    · subst hn
      cases hp : p n <;> simp [hp, ih, find?_cons]
    · split <;> simp [ih, hn, find?_cons]

theorem find?_shadow (inner outer : Frame α) (n : String) :
    (inner.shadow outer).find? n = (inner.find? n).or (outer.find? n) := by
  rw [shadow, find?_append, find?_filter fun name => (inner.find? name).isNone]
  cases inner.find? n <;> simp

theorem nodup_names_shadow (hinner : inner.names.Nodup) (houter : outer.names.Nodup) :
    (inner.shadow outer).names.Nodup := by
  have hsub : (Frame.names (outer.filter fun b => (inner.find? b.1).isNone)).Sublist outer.names :=
    List.filter_sublist.map _
  rw [shadow, names, List.map_append]
  refine hinner.append (houter.sublist hsub) fun n hn hn' => ?_
  obtain ⟨b, hb, rfl⟩ := List.mem_map.mp hn'
  have hnone := (List.mem_filter.mp hb).2
  rw [Option.isNone_iff_eq_none, find?_eq_none_iff] at hnone
  exact hnone hn

theorem find?_foldl_shadow (frames : List (Frame α)) (inner : Frame α) (n : String) :
    (frames.foldl shadow inner).find? n = (inner.find? n).or (frames.findSome? (·.find? n)) := by
  induction frames generalizing inner with
  | nil => simp
  | cons frame frames ih =>
    rw [List.foldl_cons, ih, find?_shadow, Option.or_assoc, List.findSome?_cons]
    cases frame.find? n <;> rfl

theorem nodup_names_foldl_shadow {frames : List (Frame α)} (hinner : inner.names.Nodup)
    (hframes : ∀ frame ∈ frames, frame.names.Nodup) : (frames.foldl shadow inner).names.Nodup := by
  induction frames generalizing inner with
  | nil => exact hinner
  | cons frame frames ih =>
    exact ih (nodup_names_shadow hinner (hframes frame List.mem_cons_self))
      fun frame' h => hframes frame' (.tail frame h)

end Frame

namespace Scopes

variable {s : Scopes α} {n : String} {v : α}

/-! ### Operations -/

/-- What can be done to scopes. -/
inductive Op (α : Type) where
  | enter
  | leave
  | insert (name : String) (v : α)
  | insertTop (name : String) (v : α)

/-- The scopes after an operation. -/
def apply (s : Scopes α) : Op α → Scopes α
  | .enter => s.enter
  | .leave => s.leave.2
  | .insert name v => (s.insert name v).2
  | .insertTop name v => (s.insertTop name v).2

/-- The scopes after a sequence of operations. -/
def run (s : Scopes α) (ops : List (Op α)) : Scopes α :=
  ops.foldl apply s

theorem run_append (s : Scopes α) (ops ops' : List (Op α)) : s.run (ops ++ ops') = (s.run ops).run ops' :=
  List.foldl_append

theorem insertAll_eq_run (s : Scopes α) (bindings : List (String × α)) :
    s.insertAll bindings = s.run (bindings.map fun b => .insert b.1 b.2) := by
  rw [insertAll, run, List.foldl_map]
  rfl

/-! ### All that is visible -/

/-- What is visible is what is found. -/
theorem find?_visible (s : Scopes α) (n : String) : s.visible.find? n = s.find? n :=
  Frame.find?_foldl_shadow s.frames [] n

theorem nodup_names_visible (h : ∀ frame ∈ s.frames, frame.names.Nodup) : s.visible.names.Nodup :=
  Frame.nodup_names_foldl_shadow List.nodup_nil h

theorem mem_names_visible : n ∈ s.visible.names ↔ ∃ frame ∈ s.frames, n ∈ frame.names := by
  rw [← not_iff_not, ← Frame.find?_eq_none_iff, find?_visible, find?, List.findSome?_eq_none_iff]
  simp only [Frame.find?_eq_none_iff, not_exists, not_and]

/-- Every operation leaves each name bound at most once in each scope. -/
theorem nodup_names_apply (h : ∀ frame ∈ s.frames, frame.names.Nodup) (op : Op α) :
    ∀ frame ∈ (s.apply op).frames, frame.names.Nodup := by
  obtain ⟨nested, top⟩ := s
  obtain ⟨hnested, hsingle⟩ := List.forall_mem_append.mp h
  have htop : top.names.Nodup := hsingle top List.mem_cons_self
  cases op with
  | enter => exact List.forall_mem_cons.mpr ⟨List.nodup_nil, h⟩
  | leave =>
    cases nested with
    | nil => exact h
    | cons frame nested => exact (List.forall_mem_cons.mp h).2
  | insert name v =>
    cases nested with
    | nil => exact List.forall_mem_singleton.mpr (Frame.nodup_names_insert htop name v)
    | cons frame nested =>
      obtain ⟨hframe, hrest⟩ := List.forall_mem_cons.mp h
      exact List.forall_mem_cons.mpr ⟨Frame.nodup_names_insert hframe name v, hrest⟩
  | insertTop name v =>
    exact List.forall_mem_append.mpr
      ⟨hnested, List.forall_mem_singleton.mpr (Frame.nodup_names_insert htop name v)⟩

theorem nodup_names_run (h : ∀ frame ∈ s.frames, frame.names.Nodup) (ops : List (Op α)) :
    ∀ frame ∈ (s.run ops).frames, frame.names.Nodup := by
  induction ops generalizing s with
  | nil => exact h
  | cons op ops ih => exact ih (nodup_names_apply h op)

/-- All that is visible in scopes that came about by operations: each name that is bound in any of them,
once, with what it is found to be bound to. -/
theorem visible_run (ops : List (Op α)) :
    let s := empty.run ops
    s.visible.names.Nodup ∧ (∀ n v, (n, v) ∈ s.visible ↔ s.find? n = some v) ∧
      ∀ n, n ∈ s.visible.names ↔ ∃ frame ∈ s.frames, n ∈ frame.names := by
  intro s
  have hempty : ∀ frame ∈ (empty : Scopes α).frames, frame.names.Nodup := fun frame hframe => by
    obtain rfl := List.mem_singleton.mp hframe
    exact List.nodup_nil
  have hnodup : s.visible.names.Nodup := nodup_names_visible (nodup_names_run hempty ops)
  refine ⟨hnodup, fun n v => ?_, fun n => mem_names_visible⟩
  rw [Frame.mem_iff_find? hnodup, find?_visible]

/-! ### Leaving a scope -/

/-- Operations that close every scope that they open, and no other. -/
inductive Balanced : List (Op α) → Prop where
  | nil : Balanced []
  | insert {ops : List (Op α)} (name : String) (v : α) (h : Balanced ops) :
      Balanced (.insert name v :: ops)
  | insertTop {ops : List (Op α)} (name : String) (v : α) (h : Balanced ops) :
      Balanced (.insertTop name v :: ops)
  | scope {inner ops : List (Op α)} (hinner : Balanced inner) (h : Balanced ops) :
      Balanced (.enter :: (inner ++ .leave :: ops))

/-- Balanced operations change no scope between the innermost one and the top level, and at the top level only
what they bind there. -/
theorem Balanced.run_eq {ops : List (Op α)} (h : Balanced ops) (frame : Frame α) (nested : List (Frame α))
    (top : Frame α) : ∃ frame' top', (⟨frame :: nested, top⟩ : Scopes α).run ops = ⟨frame' :: nested, top'⟩ ∧
      ∀ n, (∀ v, .insertTop n v ∉ ops) → top'.find? n = top.find? n := by
  induction h generalizing frame nested top with
  | nil => exact ⟨frame, top, rfl, fun _ _ => rfl⟩
  | insert name v _ ih =>
    obtain ⟨frame', top', hrun, htop⟩ := ih (frame.insert name v) nested top
    exact ⟨frame', top', hrun, fun n hn => htop n fun w hw => hn w (.tail _ hw)⟩
  | insertTop name v _ ih =>
    obtain ⟨frame', top', hrun, htop⟩ := ih frame nested (top.insert name v)
    refine ⟨frame', top', hrun, fun n hn => ?_⟩
    have hne : n ≠ name := fun heq => hn v (heq ▸ .head _)
    rw [htop n fun w hw => hn w (.tail _ hw), Frame.find?_insert_of_ne hne]
  | @scope inner ops _ _ ihinner ih =>
    obtain ⟨inside, mid, hinner, hmid⟩ := ihinner [] (frame :: nested) top
    obtain ⟨frame', top', hrun, htop⟩ := ih frame nested mid
    refine ⟨frame', top', ?_, fun n hn => ?_⟩
    · show Scopes.run ⟨[] :: frame :: nested, top⟩ (inner ++ .leave :: ops) = _
      rw [run_append, hinner]
      exact hrun
    · rw [htop n fun w hw => hn w (.tail _ (List.mem_append_right _ (.tail _ hw))),
        hmid n fun w hw => hn w (.tail _ (List.mem_append_left _ hw))]

/-- Leaving a scope takes back all that was done since it was entered, except for what was bound at the top
level. -/
theorem find?_leave {ops : List (Op α)} (h : Balanced ops) (s : Scopes α)
    (hn : ∀ v, .insertTop n v ∉ ops) : (s.enter.run ops).leave.2.find? n = s.find? n := by
  obtain ⟨frame, top, hrun, htop⟩ := h.run_eq [] s.nested s.top
  have hleave : (s.enter.run ops).leave.2 = ⟨s.nested, top⟩ := by
    rw [show s.enter.run ops = _ from hrun]
    rfl
  rw [hleave, find?, find?, frames, frames, List.findSome?_append, List.findSome?_append,
    List.findSome?_singleton, List.findSome?_singleton, htop n hn]

/-! ### Above the top level -/

/-- Whether a scope above the top level binds the name. -/
def BoundInside (s : Scopes α) (n : String) : Prop :=
  ∃ frame ∈ s.nested, n ∈ frame.names

/-- Whether the operation enters a scope, or binds one of the names in the innermost scope. -/
def Op.Deepens (names : String → Prop) : Op α → Prop
  | .enter => True
  | .insert name _ => names name
  | .leave | .insertTop .. => False

theorem Op.Deepens.mono {names names' : String → Prop} {op : Op α} (h : op.Deepens names)
    (hnames : ∀ n, names n → names' n) : op.Deepens names' := by
  cases op with
  | enter => trivial
  | insert name v => exact hnames name h
  | leave | insertTop => exact h.elim

/-- Scopes above a top level in which some names are bound, besides others that may be. -/
structure Inside (top : Frame α) (bound names : String → Prop) (s : Scopes α) : Prop where
  top_eq : s.top = top
  nested_ne : s.nested ≠ []
  boundInside : ∀ n, bound n → s.BoundInside n
  bound_or : ∀ n, s.BoundInside n → bound n ∨ names n

variable {top : Frame α} {bound names : String → Prop} {op : Op α}

theorem Inside.apply (h : Inside top bound names s) (hop : op.Deepens names) :
    Inside top bound names (s.apply op) := by
  obtain ⟨htop, hne, hin, hor⟩ := h
  obtain ⟨nested, top⟩ := s
  cases op with
  | leave | insertTop => exact hop.elim
  | enter =>
    have hiff : ∀ n, (Scopes.mk nested top).enter.BoundInside n ↔ (Scopes.mk nested top).BoundInside n :=
      fun n => by simp [BoundInside, enter, Frame.names]
    exact ⟨htop, List.cons_ne_nil _ _, fun n hn => (hiff n).mpr (hin n hn), fun n hn => hor n ((hiff n).mp hn)⟩
  | insert name v =>
    cases nested with
    | nil => exact absurd rfl hne
    | cons frame nested =>
      have hiff : ∀ n, (Scopes.mk (frame.insert name v :: nested) top).BoundInside n ↔
          (Scopes.mk (frame :: nested) top).BoundInside n ∨ n = name := fun n => by
        simp [BoundInside, Frame.mem_names_insert, or_right_comm]
      refine ⟨htop, List.cons_ne_nil _ _, fun n hn => (hiff n).mpr (.inl (hin n hn)), fun n hn => ?_⟩
      exact ((hiff n).mp hn).elim (hor n) fun heq => .inr (heq ▸ hop)

theorem Inside.run {ops : List (Op α)} (h : Inside top bound names s) (hops : ∀ op ∈ ops, op.Deepens names) :
    Inside top bound names (s.run ops) := by
  induction ops generalizing s with
  | nil => exact h
  | cons op ops ih =>
    obtain ⟨hop, hops⟩ := List.forall_mem_cons.mp hops
    exact ih (h.apply hop) hops

/-- A name that no scope above the top level binds is looked up at the top level. -/
theorem Inside.find?_eq (h : Inside top bound names s) (hn : ¬s.BoundInside n) :
    s.find? n = top.find? n := by
  have hnone : s.nested.findSome? (·.find? n) = none := by
    refine List.findSome?_eq_none_iff.mpr fun frame hframe => Frame.find?_eq_none_iff.mpr fun hmem => ?_
    exact hn ⟨frame, hframe, hmem⟩
  rw [find?, frames, List.findSome?_append, hnone, List.findSome?_singleton, h.top_eq]
  rfl

theorem find?_apply_of_deepens (hop : op.Deepens names) (hn : ¬names n) :
    (s.apply op).find? n = s.find? n := by
  cases op with
  | leave | insertTop => exact hop.elim
  | enter => rfl
  | insert name v =>
    have hne : n ≠ name := fun heq => hn (heq ▸ hop)
    show (s.insert name v).2.find? n = s.find? n
    rw [find?, find?, frames_eq, frames_eq s, innermost_insert, outer_insert, List.findSome?_cons,
      List.findSome?_cons, Frame.find?_insert_of_ne hne]

/-- Entering scopes and binding other names does not change what a name is bound to. -/
theorem find?_run_of_deepens {ops : List (Op α)} (hops : ∀ op ∈ ops, op.Deepens names) (hn : ¬names n) :
    (s.run ops).find? n = s.find? n := by
  induction ops generalizing s with
  | nil => rfl
  | cons op ops ih =>
    obtain ⟨hop, hops⟩ := List.forall_mem_cons.mp hops
    exact (ih hops).trans (find?_apply_of_deepens hop hn)

theorem find?_insertAll_of_not_mem {bindings : List (String × α)} (hn : n ∉ bindings.map (·.1)) :
    (s.insertAll bindings).find? n = s.find? n := by
  have hops : ∀ op ∈ bindings.map fun b => Op.insert b.1 b.2, op.Deepens (· ∈ bindings.map (·.1)) := by
    intro op hop
    obtain ⟨b, hb, rfl⟩ := List.mem_map.mp hop
    exact List.mem_map_of_mem hb
  rw [insertAll_eq_run, find?_run_of_deepens hops hn]

theorem find?_insert_self (s : Scopes α) (n : String) (v : α) : (s.insert n v).2.find? n = some v := by
  rw [find?, frames_eq, innermost_insert, List.findSome?_cons, Frame.find?_insert_self]

end Scopes

end NumericTower
