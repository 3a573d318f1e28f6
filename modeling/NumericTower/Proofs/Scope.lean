import Mathlib
import NumericTower.Scope

/-!
# Laws of scopes

What binding, entering and leaving do to the bound values, and that scopes commute with changing every
bound value by one function.

## Key results
- `Scopes.values_insert`: binding a name adds the new value and drops the one that it replaces
- `Frame.names_insert`: a name is bound once, where it was bound first
- `Frame.find?_insertAll`: of several bindings of a name the last one counts
- `Scopes.find?_map`, `Scopes.insert_map`, `Scopes.visible_map`: the operations look at names only
-/

namespace NumericTower

variable {α β : Type}

namespace Frame

/-- The bound values. -/
def values (frame : Frame α) : List α :=
  List.map (·.2) frame

/-- Changes every bound value. -/
def mapValues (f : α → β) (frame : Frame α) : Frame β :=
  List.map (fun b => (b.1, f b.2)) frame

/-! ### Bound values -/

theorem mem_values_of_find? {frame : Frame α} {name : String} {v : α}
    (h : frame.find? name = some v) : v ∈ frame.values := by
  obtain ⟨before, after, rfl, -⟩ := List.lookup_eq_some_iff.mp h
  simp [values]

theorem values_insert (frame : Frame α) (name : String) (v : α) :
    ((frame.insert name v).values ++ (frame.find? name).toList).Perm (v :: frame.values) := by
  induction frame with
  | nil => exact List.Perm.refl [v]
  | cons b rest ih =>
    obtain ⟨n, w⟩ := b
    by_cases h : n = name
    · -- The new value stands where the old one was.
      have hfind : Frame.find? ((n, w) :: rest) name = some w := by simp [find?, h]
      rw [insert, if_pos h, hfind]
      exact List.Perm.cons v List.perm_append_comm
    · have hfind : Frame.find? ((n, w) :: rest) name = Frame.find? rest name := by
        have hb : (name == n) = false := beq_false_of_ne (Ne.symm h)
        simp only [find?, List.lookup_cons, hb]
      rw [insert, if_neg h, hfind]
      exact (List.Perm.cons w ih).trans (List.Perm.swap v w _)

theorem mem_values_insert {frame : Frame α} {name : String} {v w : α}
    (h : w ∈ (frame.insert name v).values) : w = v ∨ w ∈ frame.values :=
  List.mem_cons.mp ((values_insert frame name v).subset (List.mem_append_left _ h))

theorem find?_insert_of_ne {frame : Frame α} {name name' : String} (h : name' ≠ name) (v : α) :
    (frame.insert name v).find? name' = frame.find? name' := by
  induction frame with
  | nil => simp [insert, find?, h]
  | cons b rest ih =>
    obtain ⟨n, w⟩ := b
    simp only [insert, find?] at ih ⊢
    split
    · next hn =>
      have hb : (name' == n) = false := beq_false_of_ne fun he => h (he.trans hn)
      simp only [List.lookup_cons, hb]
    · simp only [List.lookup_cons, ih]

theorem find?_insert_self (frame : Frame α) (name : String) (v : α) :
    (frame.insert name v).find? name = some v := by
  induction frame with
  | nil => simp [insert, find?]
  | cons b rest ih =>
    obtain ⟨n, w⟩ := b
    simp only [insert, find?] at ih ⊢
    split
    · next hn => simp [hn]
    · next hn =>
      have hb : (name == n) = false := beq_false_of_ne (Ne.symm hn)
      simp only [List.lookup_cons, hb, ih]

/-! ### Bound names -/

/-- The names that are bound. -/
def names (frame : Frame α) : List String :=
  List.map (·.1) frame

theorem find?_eq_none_iff {frame : Frame α} {name : String} :
    frame.find? name = none ↔ name ∉ frame.names := by
  simp only [find?, List.lookup_eq_none_iff, names, List.mem_map, not_exists, not_and, bne_iff_ne]
  exact forall₂_congr fun _ _ => ne_comm

/-- A name that is new stands after the others. -/
theorem names_insert (frame : Frame α) (name : String) (v : α) :
    (frame.insert name v).names =
      if name ∈ frame.names then frame.names else frame.names ++ [name] := by
  induction frame with
  | nil => rfl
  | cons b rest ih =>
    obtain ⟨n, w⟩ := b
    simp only [insert, names, List.map_cons, List.mem_cons] at ih ⊢
    by_cases hn : n = name
    · simp [hn]
    · simp only [hn, Ne.symm hn, if_false, false_or, List.map_cons, ih]
      split
      · next hmem => simp [hmem]
      · next hmem => simp [hmem]

theorem mem_names_insert {frame : Frame α} {name n : String} {v : α} :
    n ∈ (frame.insert name v).names ↔ n ∈ frame.names ∨ n = name := by
  rw [names_insert]
  split
  · next h => exact ⟨Or.inl, fun hn => hn.elim id fun he => he ▸ h⟩
  · simp

theorem nodup_names_insert {frame : Frame α} (h : frame.names.Nodup) (name : String) (v : α) :
    (frame.insert name v).names.Nodup := by
  rw [names_insert]
  split
  · exact h
  · next hname =>
    rw [← List.concat_eq_append]
    exact h.concat hname

/-! ### Binding names one after another -/

/-- Binds names one after another. -/
def insertAll (frame : Frame α) (bindings : List (String × α)) : Frame α :=
  bindings.foldl (fun frame b => frame.insert b.1 b.2) frame

theorem insertAll_concat (frame : Frame α) (bindings : List (String × α)) (b : String × α) :
    frame.insertAll (bindings ++ [b]) = (frame.insertAll bindings).insert b.1 b.2 := by
  simp [insertAll]

/-- The last binding of a name counts. -/
theorem find?_insertAll (frame : Frame α) (bindings : List (String × α)) (name : String) :
    (frame.insertAll bindings).find? name =
      (Frame.find? bindings.reverse name).or (frame.find? name) := by
  induction bindings using List.reverseRecOn with
  | nil => rfl
  | append_singleton bindings b ih =>
    obtain ⟨n, v⟩ := b
    rw [insertAll_concat, List.reverse_concat]
    by_cases hn : name = n
    · subst hn
      rw [find?_insert_self]
      simp [find?]
    · have hb : (name == n) = false := beq_false_of_ne hn
      rw [find?_insert_of_ne hn, ih]
      simp only [find?, List.lookup_cons, hb]

theorem mem_values_insertAll {frame : Frame α} {bindings : List (String × α)} {v : α}
    (h : v ∈ (frame.insertAll bindings).values) : v ∈ frame.values ∨ ∃ b ∈ bindings, b.2 = v := by
  induction bindings generalizing frame with
  | nil => exact Or.inl h
  | cons b bindings ih =>
    rcases ih h with h | ⟨b', hb', rfl⟩
    · rcases mem_values_insert h with rfl | h
      · exact Or.inr ⟨b, List.mem_cons_self, rfl⟩
      · exact Or.inl h
    · exact Or.inr ⟨b', List.mem_cons_of_mem b hb', rfl⟩

theorem mem_names_insertAll {frame : Frame α} {bindings : List (String × α)} {n : String} :
    n ∈ (frame.insertAll bindings).names ↔ n ∈ frame.names ∨ n ∈ bindings.map (·.1) := by
  induction bindings using List.reverseRecOn with
  | nil => simp [insertAll]
  | append_singleton bindings b ih =>
    rw [insertAll_concat, mem_names_insert, ih, List.map_append, List.mem_append, or_assoc]
    simp

theorem nodup_names_insertAll {frame : Frame α} (h : frame.names.Nodup)
    (bindings : List (String × α)) : (frame.insertAll bindings).names.Nodup := by
  induction bindings using List.reverseRecOn with
  | nil => exact h
  | append_singleton bindings b ih =>
    rw [insertAll_concat]
    exact nodup_names_insert ih b.1 b.2

/-! ### Changing every value -/

theorem find?_mapValues (f : α → β) (frame : Frame α) (name : String) :
    (frame.mapValues f).find? name = (frame.find? name).map f := by
  induction frame with
  | nil => rfl
  | cons b rest ih =>
    obtain ⟨n, w⟩ := b
    simp only [find?, mapValues, List.map_cons, List.lookup_cons] at ih ⊢
    cases name == n with
    | true => rfl
    | false => exact ih

theorem insert_mapValues (f : α → β) (frame : Frame α) (name : String) (v : α) :
    (frame.mapValues f).insert name (f v) = (frame.insert name v).mapValues f := by
  induction frame with
  | nil => rfl
  | cons b rest ih =>
    simp only [mapValues, List.map_cons, insert] at ih ⊢
    split
    · rfl
    · rw [ih, List.map_cons]

theorem shadow_mapValues (f : α → β) (inner outer : Frame α) :
    (inner.mapValues f).shadow (outer.mapValues f) = (inner.shadow outer).mapValues f := by
  simp only [shadow, find?_mapValues, Option.isNone_map]
  simp [mapValues, List.filter_map, Function.comp_def]

theorem mapValues_congr {f g : α → β} {frame : Frame α} (h : ∀ v ∈ frame.values, f v = g v) :
    frame.mapValues f = frame.mapValues g := by
  refine List.map_congr_left fun b hb => ?_
  rw [h b.2 (List.mem_map_of_mem hb)]

end Frame

namespace Scopes

/-- The scopes around the innermost one. -/
def outer (s : Scopes α) : List (Frame α) :=
  s.frames.tail

/-- The values that are bound in any scope. -/
def values (s : Scopes α) : List α :=
  s.frames.flatMap Frame.values

/-- Changes every bound value. -/
def map (f : α → β) (s : Scopes α) : Scopes β :=
  ⟨s.nested.map (Frame.mapValues f), s.top.mapValues f⟩

/-! ### Innermost and outer scopes -/

theorem frames_eq (s : Scopes α) : s.frames = s.innermost :: s.outer := by
  obtain ⟨nested, top⟩ := s
  cases nested <;> rfl

theorem eq_of_frames {s t : Scopes α} (h : s.frames = t.frames) : s = t := by
  obtain ⟨hn, ht⟩ := List.append_inj' h rfl
  cases s
  cases t
  simp_all

theorem values_eq (s : Scopes α) :
    s.values = s.innermost.values ++ s.outer.flatMap Frame.values := by
  rw [values, frames_eq, List.flatMap_cons]

theorem innermost_insert (s : Scopes α) (name : String) (v : α) :
    (s.insert name v).2.innermost = s.innermost.insert name v := by
  obtain ⟨nested, top⟩ := s
  cases nested <;> rfl

theorem outer_insert (s : Scopes α) (name : String) (v : α) :
    (s.insert name v).2.outer = s.outer := by
  obtain ⟨nested, top⟩ := s
  cases nested <;> rfl

/-- With no scope around it the innermost scope is the top level. -/
theorem eq_of_outer_eq_nil {s : Scopes α} (h : s.outer = []) : s = ⟨[], s.innermost⟩ := by
  obtain ⟨nested, top⟩ := s
  cases nested with
  | nil => rfl
  | cons frame rest =>
    have hlength := congrArg List.length h
    simp [outer, frames] at hlength

/-- A scope over others is left for the others. -/
theorem leave_of_outer {s t : Scopes α} (h : t.outer = s.frames) :
    t.leave = (some t.innermost, s) := by
  obtain ⟨nested, top⟩ := t
  cases nested with
  | nil =>
    -- There is nothing around the outermost scope, but `s` has a scope.
    have hlength := congrArg List.length h
    simp [outer, frames] at hlength
  | cons frame rest =>
    have hs : (⟨rest, top⟩ : Scopes α) = s := eq_of_frames h
    simp [leave, innermost, hs]

theorem values_insert (s : Scopes α) (name : String) (v : α) :
    ((s.insert name v).2.values ++ (s.insert name v).1.toList).Perm (v :: s.values) := by
  rw [values_eq, values_eq s, innermost_insert, outer_insert, List.append_assoc]
  refine (List.Perm.append_left _ List.perm_append_comm).trans ?_
  rw [← List.append_assoc]
  exact List.Perm.append_right _ (Frame.values_insert _ name v)

/-! ### Binding names one after another -/

/-- Binds names in the innermost scope, one after another. -/
def insertAll (s : Scopes α) (bindings : List (String × α)) : Scopes α :=
  bindings.foldl (fun s b => (s.insert b.1 b.2).2) s

theorem insertAll_append (s : Scopes α) (bindings bindings' : List (String × α)) :
    s.insertAll (bindings ++ bindings') = (s.insertAll bindings).insertAll bindings' :=
  List.foldl_append

theorem insertAll_nested (nested : List (Frame α)) (frame top : Frame α)
    (bindings : List (String × α)) :
    (⟨frame :: nested, top⟩ : Scopes α).insertAll bindings =
      ⟨frame.insertAll bindings :: nested, top⟩ := by
  induction bindings generalizing frame with
  | nil => rfl
  | cons b bindings ih => exact ih (frame.insert b.1 b.2)

theorem innermost_insertAll (s : Scopes α) (bindings : List (String × α)) :
    (s.insertAll bindings).innermost = s.innermost.insertAll bindings := by
  induction bindings generalizing s with
  | nil => rfl
  | cons b bindings ih =>
    have hrest := ih (s.insert b.1 b.2).2
    rwa [innermost_insert] at hrest

theorem outer_insertAll (s : Scopes α) (bindings : List (String × α)) :
    (s.insertAll bindings).outer = s.outer := by
  induction bindings generalizing s with
  | nil => rfl
  | cons b bindings ih => exact (ih (s.insert b.1 b.2).2).trans (outer_insert s b.1 b.2)

/-! ### What is found -/

theorem mem_values {s : Scopes α} {frame : Frame α} {v : α} (hf : frame ∈ s.frames)
    (hv : v ∈ frame.values) : v ∈ s.values :=
  List.mem_flatMap.mpr ⟨frame, hf, hv⟩

theorem mem_values_of_find? {s : Scopes α} {name : String} {v : α} (h : s.find? name = some v) :
    v ∈ s.values := by
  obtain ⟨frame, hf, hv⟩ := List.exists_of_findSome?_eq_some h
  exact mem_values hf (Frame.mem_values_of_find? hv)

theorem mem_foldl_shadow {frames : List (Frame α)} {inner : Frame α} {b : String × α}
    (h : b ∈ frames.foldl Frame.shadow inner) : b ∈ inner ∨ ∃ frame ∈ frames, b ∈ frame := by
  induction frames generalizing inner with
  | nil => exact Or.inl h
  | cons frame frames ih =>
    rcases ih h with hb | ⟨frame', hf, hb⟩
    · rcases List.mem_append.mp hb with hb | hb
      · exact Or.inl hb
      · exact Or.inr ⟨frame, List.mem_cons_self, List.mem_of_mem_filter hb⟩
    · exact Or.inr ⟨frame', List.mem_cons_of_mem frame hf, hb⟩

theorem mem_values_of_visible {s : Scopes α} {b : String × α} (h : b ∈ s.visible) :
    b.2 ∈ s.values := by
  rcases mem_foldl_shadow h with hb | ⟨frame, hf, hb⟩
  · exact nomatch hb
  · exact mem_values hf (List.mem_map_of_mem hb)

/-! ### Changing every value -/

theorem frames_map (f : α → β) (s : Scopes α) :
    (s.map f).frames = s.frames.map (Frame.mapValues f) := by
  simp [frames, map]

theorem find?_map (f : α → β) (s : Scopes α) (name : String) :
    (s.map f).find? name = (s.find? name).map f := by
  simp only [find?, frames_map]
  induction s.frames with
  | nil => rfl
  | cons frame frames ih =>
    simp only [List.map_cons, List.findSome?_cons, Frame.find?_mapValues, ih]
    cases frame.find? name <;> rfl

theorem insert_map (f : α → β) (s : Scopes α) (name : String) (v : α) :
    ((s.map f).insert name (f v)).2 = (s.insert name v).2.map f := by
  obtain ⟨nested, top⟩ := s
  cases nested <;> simp [insert, map, Frame.insert_mapValues]

theorem leave_map (f : α → β) (s : Scopes α) : (s.map f).leave.2 = s.leave.2.map f := by
  obtain ⟨nested, top⟩ := s
  cases nested <;> rfl

theorem visible_map (f : α → β) (s : Scopes α) : (s.map f).visible = s.visible.mapValues f := by
  -- The induction is on the scopes that are left, over all that the inner ones made visible.
  have hfold : ∀ (frames : List (Frame α)) (inner : Frame α),
      (frames.map (Frame.mapValues f)).foldl Frame.shadow (inner.mapValues f) =
        (frames.foldl Frame.shadow inner).mapValues f := by
    intro frames
    induction frames with
    | nil => exact fun _ => rfl
    | cons frame frames ih =>
      intro inner
      rw [List.map_cons, List.foldl_cons, List.foldl_cons, Frame.shadow_mapValues, ih]
  rw [visible, frames_map]
  exact hfold s.frames []

theorem map_congr {f g : α → β} {s : Scopes α} (h : ∀ v ∈ s.values, f v = g v) :
    s.map f = s.map g := by
  refine eq_of_frames ?_
  rw [frames_map, frames_map]
  exact List.map_congr_left fun frame hf =>
    Frame.mapValues_congr fun v hv => h v (mem_values hf hv)

end Scopes

end NumericTower
