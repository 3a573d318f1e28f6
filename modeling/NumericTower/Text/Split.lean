/-!
# Splitting a text

The two sides of the first character of a kind.
-/

namespace NumericTower.Text

/-- What stands before and after the first character that `p` accepts, if there is one. -/
def splitFirst (p : Char → Bool) : List Char → Option (List Char × List Char)
  | [] => none
  | c :: cs =>
    if p c then some ([], cs)
    else (splitFirst p cs).map fun (before, after) => (c :: before, after)

/-- Without such a character there is nothing to split at. -/
theorem splitFirst_eq_none_iff {p : Char → Bool} {cs : List Char} :
    splitFirst p cs = none ↔ ∀ c ∈ cs, p c = false := by
  induction cs with
  | nil => simp [splitFirst]
  | cons c cs ih => by_cases hc : p c = true <;> simp [splitFirst, hc, ih]

/-- The split is at the first such character. -/
theorem splitFirst_append {p : Char → Bool} {before after : List Char} {c : Char}
    (hbefore : ∀ b ∈ before, p b = false) (hc : p c = true) :
    splitFirst p (before ++ c :: after) = some (before, after) := by
  induction before with
  | nil => simp [splitFirst, hc]
  | cons b before ih =>
    have hb := hbefore b List.mem_cons_self
    simp [splitFirst, hb, ih fun b' hb' => hbefore b' (List.mem_cons_of_mem b hb')]

/-- The text is its two sides with the separator between them. -/
theorem eq_append_of_splitFirst {p : Char → Bool} {cs before after : List Char}
    (h : splitFirst p cs = some (before, after)) :
    ∃ c, p c = true ∧ (∀ b ∈ before, p b = false) ∧ cs = before ++ c :: after := by
  induction cs generalizing before with
  | nil => simp [splitFirst] at h
  | cons c cs ih =>
    by_cases hc : p c = true
    · simp only [splitFirst, hc, if_true, Option.some.injEq, Prod.mk.injEq] at h
      obtain ⟨rfl, rfl⟩ := h
      exact ⟨c, hc, by simp, rfl⟩
    · simp only [splitFirst, hc, if_false, Option.map_eq_some_iff, Bool.false_eq_true] at h
      obtain ⟨⟨b, a⟩, hs, heq⟩ := h
      simp only [Prod.mk.injEq] at heq
      obtain ⟨rfl, rfl⟩ := heq
      obtain ⟨d, hd, hb, rfl⟩ := ih hs
      refine ⟨d, hd, ?_, rfl⟩
      intro x hx
      rcases List.mem_cons.1 hx with rfl | hx
      · simpa using hc
      · exact hb x hx

end NumericTower.Text
