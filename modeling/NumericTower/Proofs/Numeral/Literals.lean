import NumericTower.Proofs.Numeral.Reading
import NumericTower.Proofs.Rational.LowestTerms
import NumericTower.Proofs.Text.Trim

/-!
# Integer and ratio literals

An integer literal is one sign at most and digits, and whatever is not is refused with its first offending
character, or as empty if there is none. A ratio literal is one or two of them. What is written is read again.

## Key results
- `Integer.parse_eq`: reading an integer is reading the digits behind the sign
- `Integer.parse_render`: integers are read as they are written
- `Rational.parse_eq_ok_iff`: what a ratio literal denotes
- `Rational.parse_render`: rationals are read as they are written
- `integer_and_ratio_literals`
-/

namespace NumericTower

open Numeral

variable {radix : Nat} {cs : List Char} {e : NumeralError}

/-! ### Integers -/

namespace Integer

theorem parse_of_unsupported (hr : ¬(2 ≤ radix ∧ radix ≤ 36)) (cs : List Char) :
    parse radix cs = .error (.unsupportedRadix radix) := by
  rw [parse, splitSign_of_unsupported hr]
  rfl

/-- That there are no digits is found before they are read or by reading them, with the same result. -/
theorem parse_eq (hr : 2 ≤ radix ∧ radix ≤ 36) (cs : List Char) :
    parse radix cs = (readDigits radix (stripSign (Text.trim cs)).2).map fun ds =>
      signed (stripSign (Text.trim cs)).1 (ofDigits radix ds) := by
  rw [parse, splitSign_eq hr]
  split
  case isTrue hnil =>
    rw [hnil]
    rfl
  case isFalse =>
    dsimp only [bind, Except.bind]
    cases readDigits radix (stripSign (Text.trim cs)).2 <;> rfl

theorem parse_eq_ok_iff (hr : 2 ≤ radix ∧ radix ≤ 36) {z : Int} :
    parse radix cs = .ok z ↔ ∃ ds, ds ≠ [] ∧ Spells radix (stripSign (Text.trim cs)).2 ds ∧
      z = signed (stripSign (Text.trim cs)).1 (ofDigits radix ds) := by
  rw [parse_eq hr]
  constructor
  · intro h
    cases hds : readDigits radix (stripSign (Text.trim cs)).2 with
    | error e =>
      rw [hds] at h
      exact nomatch h
    | ok ds =>
      rw [hds] at h
      cases h
      obtain ⟨hspells, hne⟩ := (readDigits_eq_ok_iff hr.2).mp hds
      exact ⟨ds, hne, hspells, rfl⟩
  · rintro ⟨ds, hne, hspells, rfl⟩
    rw [(readDigits_eq_ok_iff hr.2).mpr ⟨hspells, hne⟩]
    rfl

theorem parse_eq_error_iff (hr : 2 ≤ radix ∧ radix ≤ 36) :
    parse radix cs = .error e ↔ readDigits radix (stripSign (Text.trim cs)).2 = .error e := by
  rw [parse_eq hr]
  cases readDigits radix (stripSign (Text.trim cs)).2 <;> simp [Except.map]

theorem toList_render (radix : Nat) (z : Int) : (render radix z).toList =
    (if z < 0 then ['-'] else []) ++ (toDigits radix z.natAbs).map digitChar := by
  rw [render, Numeral.render, String.toList_append, String.toList_ofList]
  split <;> rfl

/-- An integer is written with its digits and a sign. -/
theorem mem_render (hr : 2 ≤ radix) {z : Int} {c : Char} (hc : c ∈ (render radix z).toList) :
    c = '-' ∨ ∃ d, IsDigit radix c d := by
  rw [toList_render] at hc
  rcases List.mem_append.mp hc with hc | hc
  · split at hc
    · exact .inl (List.mem_singleton.mp hc)
    · exact nomatch hc
  · obtain ⟨d, hd, rfl⟩ := List.mem_map.mp hc
    exact .inr ⟨d, lt_of_mem_toDigits hr hd, .inl rfl⟩

theorem parse_render (hr : 2 ≤ radix ∧ radix ≤ 36) (z : Int) : parse radix (render radix z).toList = .ok z := by
  have hblank : ∀ c ∈ (render radix z).toList, Text.isBlank c = false := by
    intro c hc
    rcases mem_render hr.1 hc with rfl | ⟨d, hd⟩
    · rfl
    · exact (hd.not_mem hr.2).2
  have hstrip : stripSign (render radix z).toList =
      (decide (z < 0), (toDigits radix z.natAbs).map digitChar) := by
    rw [toList_render]
    by_cases hz : z < 0
    · rw [if_pos hz, decide_eq_true hz]
      rfl
    · rw [if_neg hz, decide_eq_false hz, List.nil_append]
      refine stripSign_eq_self fun c hc => ?_
      -- The first character is a digit.
      obtain ⟨d, hd, rfl⟩ := List.mem_map.mp (List.mem_of_head? hc)
      have hdigit : IsDigit radix (digitChar d) d := ⟨lt_of_mem_toDigits hr.1 hd, .inl rfl⟩
      have := (hdigit.not_mem hr.2).1
      simp_all
  rw [parse_eq_ok_iff hr, Text.trim_eq_self hblank, hstrip]
  refine ⟨toDigits radix z.natAbs, (noLeadingZero_toDigits hr.1 _).1,
    spells_map_digitChar fun d hd => lt_of_mem_toDigits hr.1 hd, ?_⟩
  rw [ofDigits_toDigits, signed_natAbs]

end Integer

/-! ### Rationals -/

namespace Rational

/-- The whole literal has more than a sign if a slash is in it, so it is only refused for its parts. -/
theorem exists_splitSign_of_slash (hr : 2 ≤ radix ∧ radix ≤ 36) (hslash : '/' ∈ cs) :
    ∃ r, splitSign radix cs = .ok r := by
  have hmem := mem_stripSign (Text.mem_trim hslash rfl) (by decide) (by decide)
  exact ⟨_, by rw [splitSign_eq hr, if_neg (List.ne_nil_of_mem hmem)]⟩

theorem parse_eq_ok_iff {q : Rat} : parse radix cs = .ok q ↔ Denotes radix cs q := by
  refine ⟨denotes_of_parse, fun h => ?_⟩
  have hsupported : ∀ {cs z}, Integer.parse radix cs = .ok z → 2 ≤ radix ∧ radix ≤ 36 := by
    intro cs z h
    by_contra hr
    rw [Integer.parse_of_unsupported hr] at h
    exact nomatch h
  cases h with
  | integer hslash hz =>
    obtain ⟨sign, hsign, -⟩ := exists_of_bind_eq_ok hz
    have hsplit : Text.splitFirst (· == '/') cs = none :=
      Text.splitFirst_eq_none_iff.mpr fun c hc => beq_eq_false_iff_ne.mpr fun heq => hslash (heq ▸ hc)
    simp only [parse, hsign, hsplit, hz]
    rfl
  | @fraction ns ds n d hslash hn hd hne =>
    obtain ⟨sign, hsign⟩ : ∃ r, splitSign radix (ns ++ '/' :: ds) = .ok r :=
      exists_splitSign_of_slash (hsupported hn) (List.mem_append_right ns List.mem_cons_self)
    have hsplit : Text.splitFirst (· == '/') (ns ++ '/' :: ds) = some (ns, ds) :=
      Text.splitFirst_append (fun c hc => beq_eq_false_iff_ne.mpr fun heq => hslash (heq ▸ hc)) rfl
    simp only [parse, hsign, hsplit, hn, hd, ofFraction?, hne, bind, Except.bind, if_false, Rat.divInt_eq_div]
    rfl

theorem parse_render (q : Rat) : parse 10 (render q).toList = .ok q := by
  have hden : Numeral.render 10 q.den = Integer.decimal q.den := by
    rw [Integer.decimal, Integer.render, if_neg (by omega), Int.natAbs_natCast]
    rfl
  have hslash : '/' ∉ (Integer.decimal q.num).toList := by
    intro hmem
    rcases Integer.mem_render (by decide) hmem with h | ⟨d, hd⟩
    · exact absurd h (by decide)
    · exact absurd (hd.not_mem (by decide)).1 (by decide)
  have hchars : (render q).toList = (Integer.decimal q.num).toList ++ '/' :: (Integer.decimal q.den).toList := by
    rw [render, hden, String.toList_append, String.toList_append, List.append_assoc]
    rfl
  have hfraction : Denotes 10 ((Integer.decimal q.num).toList ++ '/' :: (Integer.decimal q.den).toList)
      (q.num / (q.den : Int)) :=
    .fraction hslash (Integer.parse_render (by decide) q.num) (Integer.parse_render (by decide) q.den)
      (by exact_mod_cast q.den_nz)
  rw [parse_eq_ok_iff, hchars]
  rwa [Int.cast_natCast, Rat.num_div_den] at hfraction

end Rational

/-- An integer literal is refused for its radix; else, of what follows one sign at most after the text is trimmed,
it has the value of the digits if it is spelled by them and separators, and there are any; it is refused with
the first offending character if there is one, and as empty otherwise. A ratio literal is an integer literal, or
two at the first slash of which the second one is not zero. All integers and rationals are read as they are
written. -/
theorem integer_and_ratio_literals (radix : Nat) (cs : List Char) :
    (¬(2 ≤ radix ∧ radix ≤ 36) → Integer.parse radix cs = .error (.unsupportedRadix radix)) ∧
      (2 ≤ radix ∧ radix ≤ 36 →
        (∀ z, Integer.parse radix cs = .ok z ↔
          ∃ ds, ds ≠ [] ∧ Spells radix (stripSign (Text.trim cs)).2 ds ∧
            z = signed (stripSign (Text.trim cs)).1 (ofDigits radix ds)) ∧
        (∀ c, Integer.parse radix cs = .error (.invalidDigit c radix) ↔
          FirstOffender radix (stripSign (Text.trim cs)).2 c) ∧
        (Integer.parse radix cs = .error .empty ↔
          (¬∃ ds, ds ≠ [] ∧ Spells radix (stripSign (Text.trim cs)).2 ds) ∧
            ¬∃ c, FirstOffender radix (stripSign (Text.trim cs)).2 c) ∧
        ∀ z, Integer.parse radix (Integer.render radix z).toList = .ok z) ∧
      (∀ q, Rational.parse radix cs = .ok q ↔ Rational.Denotes radix cs q) ∧
      ∀ q, Rational.parse 10 (Rational.render q).toList = .ok q := by
  refine ⟨fun hr => Integer.parse_of_unsupported hr cs, fun hr => ⟨fun z => Integer.parse_eq_ok_iff hr,
    fun c => ?_, ?_, Integer.parse_render hr⟩, fun q => Rational.parse_eq_ok_iff, Rational.parse_render⟩
  · rw [Integer.parse_eq_error_iff hr, readDigits_eq_invalidDigit_iff hr.2]
  · rw [Integer.parse_eq_error_iff hr, readDigits_eq_empty_iff hr.2]

end NumericTower
