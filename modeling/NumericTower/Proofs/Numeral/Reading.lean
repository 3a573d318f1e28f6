import NumericTower.Proofs.Numeral.Digits

/-!
# What digits are read

A text is read as digits if it is spelled by them: every character is a digit of the radix, in either case, or a
separator. If it is not, it has a first character that is neither, and that one is reported.

## Key results
- `digitValue?_eq_some_iff`: the letters of a digit
- `spells_or_firstOffender`: every text is spelled by digits or has an offending character
- `readDigits_eq_ok_iff`, `readDigits_eq_invalidDigit_iff`, `readDigits_eq_empty_iff`
- `splitSign_eq`: a sign is taken off once
-/

namespace NumericTower.Numeral

/-- The letter of a digit of the radix, in either case. -/
def IsDigit (radix : Nat) (c : Char) (d : Nat) : Prop :=
  d < radix ∧ (c = digitChar d ∨ c = (digitChar d).toUpper)

/-- The characters are the letters of the digits, with separators anywhere among them. -/
inductive Spells (radix : Nat) : List Char → List Nat → Prop
  | nil : Spells radix [] []
  | digit {c d cs ds} : IsDigit radix c d → Spells radix cs ds → Spells radix (c :: cs) (d :: ds)
  | separator {cs ds} : Spells radix cs ds → Spells radix ('_' :: cs) ds

/-- The first character that is neither a digit nor a separator. -/
def FirstOffender (radix : Nat) (cs : List Char) (c : Char) : Prop :=
  ∃ before after ds, cs = before ++ c :: after ∧ Spells radix before ds ∧ c ≠ '_' ∧ ∀ d, ¬IsDigit radix c d

variable {radix d : Nat} {c : Char} {cs : List Char} {ds : List Nat}

/-! ### Letters -/

theorem charValue?_eq_some_iff :
    charValue? c = some d ↔ d < 36 ∧ (c = digitChar d ∨ c = (digitChar d).toUpper) := by
  constructor
  · intro h
    -- All letters and digits are among the first characters, which can be gone through.
    have hascii : c.toNat < 128 := by
      simp only [charValue?, Char.le_def, UInt32.le_iff_toNat_le] at h
      split at h
      case isTrue hc => exact Nat.lt_of_le_of_lt hc.2 (by decide)
      case isFalse =>
        split at h
        case isTrue hc => exact Nat.lt_of_le_of_lt hc.2 (by decide)
        case isFalse =>
          split at h
          case isTrue hc => exact Nat.lt_of_le_of_lt hc.2 (by decide)
          case isFalse => exact nomatch h
    have hall : ∀ n < 128, (charValue? (Char.ofNat n)).all (fun d => decide (d < 36 ∧
        (Char.ofNat n = digitChar d ∨ Char.ofNat n = (digitChar d).toUpper))) = true := by decide +kernel
    have hc := hall c.toNat hascii
    rw [Char.ofNat_toNat, h] at hc
    exact of_decide_eq_true hc
  · have hall : ∀ d < 36, charValue? (digitChar d) = some d ∧ charValue? (digitChar d).toUpper = some d := by
      decide +kernel
    rintro ⟨hd, rfl | rfl⟩
    · exact (hall d hd).1
    · exact (hall d hd).2

theorem digitValue?_eq_some_iff (hr : radix ≤ 36) : digitValue? radix c = some d ↔ IsDigit radix c d := by
  rw [digitValue?, Option.filter_eq_some_iff, charValue?_eq_some_iff, decide_eq_true_iff, IsDigit]
  constructor
  · rintro ⟨⟨-, hc⟩, hd⟩
    exact ⟨hd, hc⟩
  · rintro ⟨hd, hc⟩
    exact ⟨⟨by omega, hc⟩, hd⟩

/-- The letter of a digit is no other character of a numeral. -/
theorem IsDigit.not_mem (hr : radix ≤ 36) (h : IsDigit radix c d) :
    c ∉ ['-', '+', '.', '/', '_'] ∧ Text.isBlank c = false := by
  have hall : ∀ d < 36, (digitChar d ∉ ['-', '+', '.', '/', '_'] ∧ Text.isBlank (digitChar d) = false) ∧
      (digitChar d).toUpper ∉ ['-', '+', '.', '/', '_'] ∧ Text.isBlank (digitChar d).toUpper = false := by
    decide +kernel
  obtain ⟨hd, rfl | rfl⟩ := h
  · exact (hall d (by omega)).1
  · exact (hall d (by omega)).2

theorem IsDigit.ne_separator (hr : radix ≤ 36) (h : IsDigit radix c d) : c ≠ '_' := by
  rintro rfl
  exact absurd (h.not_mem hr).1 (by decide)

theorem readDigit_of_isDigit (hr : radix ≤ 36) (h : IsDigit radix c d) : readDigit radix c = .ok d := by
  rw [readDigit, (digitValue?_eq_some_iff hr).mpr h]

theorem readDigit_of_not_isDigit (hr : radix ≤ 36) (h : ∀ d, ¬IsDigit radix c d) :
    readDigit radix c = .error (.invalidDigit c radix) := by
  have hnone : digitValue? radix c = none :=
    Option.eq_none_iff_forall_ne_some.mpr fun d hd => h d ((digitValue?_eq_some_iff hr).mp hd)
  rw [readDigit, hnone]

/-! ### Digits and separators -/

theorem Spells.mem (h : Spells radix cs ds) (hc : c ∈ cs) : c = '_' ∨ ∃ d, IsDigit radix c d := by
  induction h with
  | nil => exact nomatch hc
  | digit hdigit _ ih =>
    rcases List.mem_cons.mp hc with rfl | hc
    · exact .inr ⟨_, hdigit⟩
    · exact ih hc
  | separator _ ih =>
    rcases List.mem_cons.mp hc with rfl | hc
    · exact .inl rfl
    · exact ih hc

theorem Spells.length_le (h : Spells radix cs ds) : ds.length ≤ cs.length := by
  induction h with
  | nil => exact le_rfl
  | digit _ _ ih => exact Nat.succ_le_succ ih
  | separator _ ih => exact ih.trans (Nat.le_succ _)

theorem Spells.lt_radix (h : Spells radix cs ds) (hd : d ∈ ds) : d < radix := by
  induction h with
  | nil => exact absurd hd List.not_mem_nil
  | digit hdigit _ ih =>
    rcases List.mem_cons.mp hd with rfl | hd
    · exact hdigit.1
    · exact ih hd
  | separator _ ih => exact ih hd

theorem Spells.not_mem (hr : radix ≤ 36) (h : Spells radix cs ds) (hc : c ∈ cs) :
    c ∉ ['-', '+', '.', '/'] ∧ Text.isBlank c = false := by
  rcases h.mem hc with rfl | ⟨d, hd⟩
  · decide
  · have := hd.not_mem hr
    simp_all

theorem spells_map_digitChar (h : ∀ d ∈ ds, d < radix) : Spells radix (ds.map digitChar) ds := by
  induction ds with
  | nil => exact .nil
  | cons d ds ih =>
    exact .digit ⟨h d List.mem_cons_self, .inl rfl⟩ (ih fun e he => h e (List.mem_cons_of_mem d he))

theorem spells_or_firstOffender (radix : Nat) (cs : List Char) :
    (∃ ds, Spells radix cs ds) ∨ ∃ c, FirstOffender radix cs c := by
  induction cs with
  | nil => exact .inl ⟨[], .nil⟩
  | cons b cs ih =>
    by_cases hb : b = '_'
    · subst hb
      refine ih.imp (fun ⟨ds, h⟩ => ⟨ds, .separator h⟩) ?_
      rintro ⟨c, before, after, ds, rfl, h, hc⟩
      exact ⟨c, '_' :: before, after, ds, rfl, .separator h, hc⟩
    · by_cases hdigit : ∃ d, IsDigit radix b d
      · obtain ⟨d, hd⟩ := hdigit
        refine ih.imp (fun ⟨ds, h⟩ => ⟨d :: ds, .digit hd h⟩) ?_
        rintro ⟨c, before, after, ds, rfl, h, hc⟩
        exact ⟨c, b :: before, after, d :: ds, rfl, .digit hd h, hc⟩
      · -- Whatever follows, this character is the first one.
        exact .inr ⟨b, [], cs, [], rfl, .nil, hb, not_exists.mp hdigit⟩

theorem mapM_readDigit_append (hr : radix ≤ 36) {before : List Char} (h : Spells radix before ds)
    (after : List Char) : ((before ++ after).filter (· ≠ '_')).mapM (readDigit radix) =
      ((after.filter (· ≠ '_')).mapM (readDigit radix)).map (ds ++ ·) := by
  induction h with
  | nil =>
    rw [List.nil_append]
    cases (after.filter (· ≠ '_')).mapM (readDigit radix) <;> rfl
  | digit hdigit _ ih =>
    rw [List.cons_append, List.filter_cons_of_pos (by simpa using hdigit.ne_separator hr), List.mapM_cons,
      readDigit_of_isDigit hr hdigit, ih]
    cases (after.filter (· ≠ '_')).mapM (readDigit radix) <;> rfl
  | separator _ ih => rw [List.cons_append, List.filter_cons_of_neg (by simp), ih]

theorem readDigits_of_spells (hr : radix ≤ 36) (h : Spells radix cs ds) :
    readDigits radix cs = if ds = [] then .error .empty else .ok ds := by
  have hread := mapM_readDigit_append hr h []
  rw [List.append_nil] at hread
  rw [readDigits, hread]
  cases ds with
  | nil => rfl
  | cons d ds => simp [Except.map, bind, Except.bind, pure, Except.pure]

theorem readDigits_of_firstOffender (hr : radix ≤ 36) (h : FirstOffender radix cs c) :
    readDigits radix cs = .error (.invalidDigit c radix) := by
  obtain ⟨before, after, ds, rfl, hbefore, hseparator, hdigit⟩ := h
  rw [readDigits, mapM_readDigit_append hr hbefore, List.filter_cons_of_pos (by simpa using hseparator),
    List.mapM_cons, readDigit_of_not_isDigit hr hdigit]
  rfl

theorem readDigits_eq_ok_iff (hr : radix ≤ 36) : readDigits radix cs = .ok ds ↔ Spells radix cs ds ∧ ds ≠ [] := by
  constructor
  · intro h
    rcases spells_or_firstOffender radix cs with ⟨es, hspells⟩ | ⟨c, hoffender⟩
    · rw [readDigits_of_spells hr hspells] at h
      split at h
      case isTrue => exact nomatch h
      case isFalse hne =>
        cases h
        exact ⟨hspells, hne⟩
    · rw [readDigits_of_firstOffender hr hoffender] at h
      exact nomatch h
  · rintro ⟨h, hne⟩
    rw [readDigits_of_spells hr h, if_neg hne]

theorem readDigits_eq_invalidDigit_iff (hr : radix ≤ 36) :
    readDigits radix cs = .error (.invalidDigit c radix) ↔ FirstOffender radix cs c := by
  constructor
  · intro h
    rcases spells_or_firstOffender radix cs with ⟨es, hspells⟩ | ⟨b, hoffender⟩
    · rw [readDigits_of_spells hr hspells] at h
      split at h <;> exact nomatch h
    · rw [readDigits_of_firstOffender hr hoffender] at h
      cases h
      exact hoffender
  · exact readDigits_of_firstOffender hr

/-- There is neither a digit nor an offending character. -/
theorem readDigits_eq_empty_iff (hr : radix ≤ 36) :
    readDigits radix cs = .error .empty ↔
      (¬∃ ds, ds ≠ [] ∧ Spells radix cs ds) ∧ ¬∃ c, FirstOffender radix cs c := by
  constructor
  · intro h
    refine ⟨fun ⟨ds, hne, hds⟩ => ?_, fun ⟨c, hc⟩ => ?_⟩
    · rw [(readDigits_eq_ok_iff hr).mpr ⟨hds, hne⟩] at h
      exact nomatch h
    · rw [readDigits_of_firstOffender hr hc] at h
      exact nomatch h
  · rintro ⟨hdigits, hoffender⟩
    obtain ⟨ds, hds⟩ := (spells_or_firstOffender radix cs).resolve_right hoffender
    have hnil : ds = [] := by
      by_contra hne
      exact hdigits ⟨ds, hne, hds⟩
    rw [readDigits_of_spells hr hds, if_pos hnil]

/-! ### Signs -/

/-- Whether a text begins with a minus sign, and what follows one sign, if there is one. -/
def stripSign : List Char → Bool × List Char
  | '-' :: rest => (true, rest)
  | '+' :: rest => (false, rest)
  | rest => (false, rest)

theorem stripSign_eq_self (h : ∀ c, cs.head? = some c → c ≠ '-' ∧ c ≠ '+') : stripSign cs = (false, cs) := by
  unfold stripSign
  split
  · exact absurd rfl (h _ rfl).1
  · exact absurd rfl (h _ rfl).2
  · rfl

theorem mem_stripSign (hc : c ∈ cs) (hminus : c ≠ '-') (hplus : c ≠ '+') : c ∈ (stripSign cs).2 := by
  unfold stripSign
  split
  · exact (List.mem_cons.mp hc).resolve_left hminus
  · exact (List.mem_cons.mp hc).resolve_left hplus
  · exact hc

theorem signed_natAbs (z : Int) : signed (decide (z < 0)) z.natAbs = z := by
  unfold signed
  simp only [decide_eq_true_eq]
  split <;> omega

theorem splitSign_of_unsupported (hr : ¬(2 ≤ radix ∧ radix ≤ 36)) (cs : List Char) :
    splitSign radix cs = .error (.unsupportedRadix radix) := by
  have hsupports : supportsRadix radix = false := by
    rw [Bool.eq_false_iff]
    simpa [supportsRadix] using hr
  rw [splitSign, hsupports]
  rfl

theorem splitSign_eq (hr : 2 ≤ radix ∧ radix ≤ 36) (cs : List Char) :
    splitSign radix cs =
      if (stripSign (Text.trim cs)).2 = [] then .error .empty else .ok (stripSign (Text.trim cs)) := by
  have hsupports : supportsRadix radix = true := by simp [supportsRadix, hr.1, hr.2]
  rw [splitSign, hsupports, if_neg (by decide)]
  simp only [List.isEmpty_iff]
  rfl

end NumericTower.Numeral
