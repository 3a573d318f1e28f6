import Mathlib
import NumericTower.Text.Blank

/-!
# Trimming

What is left of a text after trimming: the blanks at both ends are gone, and what is between them stays.

## Key results
- `eq_append_trim`: a text is its trimmed form between blanks
- `trim_append`: which determines that form
-/

namespace NumericTower.Text

variable {c : Char} {cs front back ts : List Char}

/-- The text neither begins nor ends with a blank. -/
def NoBlankEnds (cs : List Char) : Prop :=
  ∀ c, cs.head? = some c ∨ cs.getLast? = some c → isBlank c = false

theorem noBlankEnds_of_forall (h : ∀ c ∈ cs, isBlank c = false) : NoBlankEnds cs :=
  fun c hc => h c (hc.elim List.mem_of_head? List.mem_of_getLast?)

theorem head?_trimFront (h : (trimFront cs).head? = some c) : isBlank c = false := by
  have hnot := List.head?_dropWhile_not isBlank cs
  rw [trimFront] at h
  rw [h] at hnot
  exact Bool.eq_false_iff.mpr (by simpa using hnot)

/-- Blanks in front make no difference. -/
theorem trimFront_append (h : ∀ b ∈ front, isBlank b = true) (cs : List Char) :
    trimFront (front ++ cs) = trimFront cs := by
  rw [trimFront, List.dropWhile_append, List.dropWhile_eq_nil_iff.mpr h]
  rfl

theorem trimFront_eq_self (h : ∀ c, cs.head? = some c → isBlank c = false) : trimFront cs = cs := by
  cases cs with
  | nil => rfl
  | cons c cs => simp [trimFront, h c rfl]

theorem trim_append (hfront : ∀ b ∈ front, isBlank b = true) (hback : ∀ b ∈ back, isBlank b = true)
    (hts : NoBlankEnds ts) : trim (front ++ (ts ++ back)) = ts := by
  rw [trim, trimFront_append hfront]
  cases ts with
  | nil =>
    rw [← List.append_nil ([] ++ back), List.nil_append, trimFront_append hback]
    rfl
  | cons t ts =>
    have hfirst : trimFront (t :: ts ++ back) = t :: ts ++ back :=
      trimFront_eq_self fun c hc => hts c (.inl hc)
    have hlast : trimFront (t :: ts).reverse = (t :: ts).reverse :=
      trimFront_eq_self fun c hc => hts c (.inr (by rwa [List.head?_reverse] at hc))
    rw [hfirst, List.reverse_append, trimFront_append fun b hb => hback b (List.mem_reverse.mp hb), hlast,
      List.reverse_reverse]

theorem noBlankEnds_trim (cs : List Char) : NoBlankEnds (trim cs) := by
  rintro c (hc | hc)
  · -- The first character of what is left is also the first one after the blanks in front.
    have hprefix : trim cs <+: trimFront cs := by
      rw [← List.reverse_suffix, trim, List.reverse_reverse]
      exact List.dropWhile_suffix _
    obtain ⟨rest, hrest⟩ := hprefix
    have hfirst : (trimFront cs).head? = some c := by rw [← hrest, List.head?_append, hc, Option.some_or]
    exact head?_trimFront hfirst
  · rw [trim, List.getLast?_reverse] at hc
    exact head?_trimFront hc

theorem eq_append_trim (cs : List Char) : ∃ front back, cs = front ++ (trim cs ++ back) ∧
    (∀ b ∈ front, isBlank b = true) ∧ ∀ b ∈ back, isBlank b = true := by
  refine ⟨cs.takeWhile isBlank, ((trimFront cs).reverse.takeWhile isBlank).reverse, ?_,
    fun b hb => List.mem_takeWhile_imp hb, fun b hb => List.mem_takeWhile_imp (List.mem_reverse.mp hb)⟩
  have hsplit : ∀ ds : List Char, ds.takeWhile isBlank ++ trimFront ds = ds := fun ds =>
    List.takeWhile_append_dropWhile
  rw [trim, ← List.reverse_append, hsplit, List.reverse_reverse, hsplit]

theorem length_trim_le (cs : List Char) : (trim cs).length ≤ cs.length := by
  obtain ⟨front, back, hcs, -⟩ := eq_append_trim cs
  have hlength := congrArg List.length hcs
  rw [List.length_append, List.length_append] at hlength
  omega

/-- Only blanks are removed. -/
theorem mem_trim (hc : c ∈ cs) (hblank : isBlank c = false) : c ∈ trim cs := by
  obtain ⟨front, back, hcs, hfront, hback⟩ := eq_append_trim cs
  rw [hcs, List.mem_append, List.mem_append] at hc
  rcases hc with hc | hc | hc
  · exact absurd (hfront c hc) (by simp [hblank])
  · exact hc
  · exact absurd (hback c hc) (by simp [hblank])

/-- Behind the last part of a trimmed text there is nothing to remove. -/
theorem exists_append_trim (h : NoBlankEnds (ts ++ cs)) :
    ∃ front, cs = front ++ trim cs ∧ ∀ b ∈ front, isBlank b = true := by
  obtain ⟨front, back, hcs, hfront, hback⟩ := eq_append_trim cs
  suffices hnil : back = [] by
    rw [hnil, List.append_nil] at hcs
    exact ⟨front, hcs, hfront⟩
  by_contra hne
  obtain ⟨init, b, rfl⟩ := (List.eq_nil_or_concat' back).resolve_left hne
  have hlast : (ts ++ cs).getLast? = some b := by
    rw [hcs, ← List.append_assoc, ← List.append_assoc, ← List.append_assoc, List.getLast?_concat]
  exact absurd (hback b (List.mem_append_right init List.mem_cons_self)) (by simp [h b (.inr hlast)])

end NumericTower.Text
