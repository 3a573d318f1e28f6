import NumericTower.BigReal.Literal
import NumericTower.Proofs.Numeral.Reading
import NumericTower.Proofs.Rounding.BigReal
import NumericTower.Proofs.Text.Trim

/-!
# What real literals are read

A literal is read in three steps: its sign, the exponent at its end, and the digits on both sides of the
point. Each step succeeds exactly if its part of the text is spelled as the grammar has it, and gives what is
spelled, so the whole literal is read exactly if it is spelled so, and its value is rounded once.

## Key results
- `readLiteral_eq`: the three steps
- `ofBody_eq_ok_iff`: the digits and the point
- `splitExponent_append`, `exists_spellsExponent`: the exponent
- `readLiteral_eq_ok_iff`: all of it
- `Literal.value_eq`: the value
- `real_literals_are_rounded_once`
-/

namespace NumericTower.BigReal

open Numeral

/-! ### The grammar -/

/-- A sign in front of digits, if there is one: whether it is a minus sign. -/
def signChars : Option Bool → List Char
  | none => []
  | some negative => [if negative then '-' else '+']

/-- One side of the point: no characters, or digits and separators with at least one digit. -/
def SpellsSide (radix : Nat) (cs : List Char) (ds : List Nat) : Prop :=
  Spells radix cs ds ∧ (ds = [] → cs = [])

/-- The digits of a literal, with or without a point. One side of the point may be empty, but not both. -/
inductive SpellsBody (radix : Nat) : List Char → List Nat → List Nat → Prop
  | whole {is whole} : SpellsSide radix is whole → is ≠ [] → SpellsBody radix is whole []
  | point {is fs whole fraction} : SpellsSide radix is whole → SpellsSide radix fs fraction →
      is ≠ [] ∨ fs ≠ [] → SpellsBody radix (is ++ '.' :: fs) whole fraction

/-- The exponent of a literal, which only radix ten has. -/
inductive SpellsExponent (radix : Nat) : List Char → Int → Prop
  | none : SpellsExponent radix [] 0
  | some {letter blanks sign cs ds} : radix = 10 → letter = 'e' ∨ letter = 'E' →
      (∀ b ∈ blanks, Text.isBlank b = true) → Spells 10 cs ds → ds ≠ [] → ofDigits 10 ds ≤ 2 ^ 32 - 1 →
      SpellsExponent radix (letter :: (blanks ++ (signChars sign ++ cs)))
        (signed (sign == some true) (ofDigits 10 ds))

/-- A literal: a sign or none, digits with or without a point, and perhaps an exponent. -/
inductive SpellsLiteral (radix : Nat) : List Char → Literal → Prop
  | mk {sign body es whole fraction exponent} : SpellsBody radix body whole fraction →
      SpellsExponent radix es exponent →
      SpellsLiteral radix (signChars sign ++ (body ++ es))
        { radix, negative := sign == some true, whole, fraction, exponent }

/-! ### The steps of reading -/

/-- Splits the exponent off what follows the sign; only radix ten has one. -/
def splitExponent (radix : Nat) (rest : List Char) : Except NumeralError (List Char × Int) :=
  match Text.splitFirst (fun c => c == 'e' || c == 'E') rest with
  | some (body, exponent) =>
    if radix = 10 then (readExponent exponent).map fun e => (body, e) else .ok (rest, 0)
  | none => .ok (rest, 0)

/-- Reads the digits on both sides of the point, and then looks at the size of the exponent. -/
def ofBody (radix : Nat) (negative : Bool) (body : List Char) (exponent : Int) :
    Except NumeralError Literal := do
  let (whole, fraction) := (Text.splitFirst (· == '.') body).getD (body, [])
  if whole.isEmpty && fraction.isEmpty then throw .empty
  let whole ← readSide radix whole
  let fraction ← readSide radix fraction
  if 32 < bitLength exponent.natAbs then throw .exponentOutOfRange
  return { radix, negative, whole, fraction, exponent }

theorem readLiteral_eq (radix : Nat) (cs : List Char) :
    readLiteral radix cs = (do
      let (negative, rest) ← Numeral.splitSign radix cs
      let (body, exponent) ← splitExponent radix rest
      ofBody radix negative body exponent) := by
  unfold readLiteral
  cases Numeral.splitSign radix cs with
  | error e => rfl
  | ok sign =>
    obtain ⟨negative, rest⟩ := sign
    dsimp only [bind, Except.bind]
    unfold splitExponent
    cases Text.splitFirst (fun c => c == 'e' || c == 'E') rest with
    | none => rfl
    | some sides =>
      obtain ⟨body, exponent⟩ := sides
      dsimp only
      split
      · cases readExponent exponent <;> rfl
      · rfl

/-! ### The value -/

/-- The value of a literal is the number of its digits, scaled by the places behind the point and by the
exponent. -/
theorem Literal.value_eq (l : Literal) : l.value =
    (Numeral.signed l.negative (Numeral.ofDigits l.radix (l.whole ++ l.fraction)) : Int) /
      (l.radix : Rat) ^ l.places * 10 ^ l.exponent := by
  unfold Literal.value
  dsimp only
  split
  case isTrue he =>
    rw [Rat.divInt_eq_div]
    push_cast
    rw [← zpow_natCast, Int.toNat_of_nonneg he, mul_div_right_comm]
  case isFalse he =>
    have hscale : (10 : Rat) ^ l.exponent = (10 ^ l.exponent.natAbs)⁻¹ := by
      rw [← zpow_natCast, ← zpow_neg]
      congr 1
      omega
    rw [Rat.divInt_eq_div, hscale, ← div_eq_mul_inv, div_div]
    push_cast
    rfl

variable {radix : Nat} {negative : Bool} {c : Char} {cs body es before : List Char} {ds whole fraction : List Nat}
  {exponent : Int} {l : Literal}

/-! ### The sign -/

theorem isBlank_signChars (sign : Option Bool) : ∀ c ∈ signChars sign, Text.isBlank c = false := by
  rcases sign with _ | _ | _ <;> simp [signChars, Text.isBlank]

theorem stripSign_append (sign : Option Bool) (h : ∀ c, cs.head? = some c → c ≠ '-' ∧ c ≠ '+') :
    stripSign (signChars sign ++ cs) = (sign == some true, cs) := by
  rcases sign with _ | _ | _
  · exact stripSign_eq_self h
  · rfl
  · rfl

theorem exists_signChars (cs : List Char) :
    ∃ sign, cs = signChars sign ++ (stripSign cs).2 ∧ (stripSign cs).1 = (sign == some true) := by
  unfold stripSign
  split
  · exact ⟨some true, rfl, rfl⟩
  · exact ⟨some false, rfl, rfl⟩
  · exact ⟨none, rfl, rfl⟩

/-! ### The digits and the point -/

theorem readSide_eq_ok_iff (hr : radix ≤ 36) : readSide radix cs = .ok ds ↔ SpellsSide radix cs ds := by
  rw [readSide, SpellsSide]
  split
  case isTrue hnil =>
    rw [List.isEmpty_iff] at hnil
    subst hnil
    constructor
    · intro h
      cases h
      exact ⟨.nil, fun _ => rfl⟩
    · rintro ⟨⟨⟩, -⟩
      rfl
  case isFalse hne =>
    rw [List.isEmpty_iff] at hne
    rw [readDigits_eq_ok_iff hr]
    exact and_congr_right fun _ => ⟨fun hds hnil => absurd hnil hds, fun h hnil => hne (h hnil)⟩

theorem SpellsSide.mem (h : SpellsSide radix cs ds) (hc : c ∈ cs) : c = '_' ∨ ∃ d, IsDigit radix c d :=
  h.1.mem hc

theorem SpellsBody.mem (h : SpellsBody radix body whole fraction) (hc : c ∈ body) :
    c = '.' ∨ c = '_' ∨ ∃ d, IsDigit radix c d := by
  cases h with
  | whole hside _ => exact .inr (hside.mem hc)
  | point hwhole hfraction _ =>
    rcases List.mem_append.mp hc with hc | hc
    · exact .inr (hwhole.mem hc)
    · exact (List.mem_cons.mp hc).imp id hfraction.mem

theorem SpellsBody.not_mem (hr : radix ≤ 36) (h : SpellsBody radix body whole fraction) (hc : c ∈ body) :
    c ∉ ['-', '+'] ∧ Text.isBlank c = false := by
  rcases h.mem hc with rfl | rfl | ⟨d, hd⟩
  · decide
  · decide
  · have := hd.not_mem hr
    simp_all

theorem SpellsBody.ne_nil (h : SpellsBody radix body whole fraction) : body ≠ [] := by
  cases h with
  | whole _ hne => exact hne
  | point => simp

/-- There are no more digits than characters, and they are digits of the radix. -/
theorem SpellsBody.digits (h : SpellsBody radix body whole fraction) :
    whole.length + fraction.length ≤ body.length ∧ ∀ d ∈ whole ++ fraction, d < radix := by
  cases h with
  | whole hside _ =>
    rw [List.append_nil]
    exact ⟨hside.1.length_le, fun d hd => hside.1.lt_radix hd⟩
  | point hwhole hfraction _ =>
    refine ⟨?_, fun d hd => (List.mem_append.mp hd).elim hwhole.1.lt_radix hfraction.1.lt_radix⟩
    have hw := hwhole.1.length_le
    have hf := hfraction.1.length_le
    rw [List.length_append, List.length_cons]
    omega

/-- A side is not split at a point. -/
theorem SpellsSide.ne_point (hr : radix ≤ 36) (h : SpellsSide radix cs ds) (hc : c ∈ cs) : (c == '.') = false := by
  rw [beq_eq_false_iff_ne]
  rintro rfl
  exact absurd (h.1.not_mem hr hc).1 (by decide)

/-- The sides of the first point are those that are read. -/
theorem SpellsBody.splitFirst (hr : radix ≤ 36) (h : SpellsBody radix body whole fraction) :
    ∃ is fs, (Text.splitFirst (· == '.') body).getD (body, []) = (is, fs) ∧ SpellsSide radix is whole ∧
      SpellsSide radix fs fraction ∧ (is ≠ [] ∨ fs ≠ []) := by
  cases h with
  | whole hside hne =>
    have hsplit : Text.splitFirst (· == '.') body = none :=
      Text.splitFirst_eq_none_iff.mpr fun c hc => hside.ne_point hr hc
    exact ⟨body, [], by rw [hsplit]; rfl, hside, ⟨.nil, fun _ => rfl⟩, .inl hne⟩
  | @point is fs _ _ hwhole hfraction hne =>
    have hsplit : Text.splitFirst (· == '.') (is ++ '.' :: fs) = some (is, fs) :=
      Text.splitFirst_append (fun c hc => hwhole.ne_point hr hc) rfl
    exact ⟨is, fs, by rw [hsplit]; rfl, hwhole, hfraction, hne⟩

theorem spellsBody_of_splitFirst {is fs : List Char}
    (hsplit : (Text.splitFirst (· == '.') body).getD (body, []) = (is, fs)) (hwhole : SpellsSide radix is whole)
    (hfraction : SpellsSide radix fs fraction) (hne : is ≠ [] ∨ fs ≠ []) : SpellsBody radix body whole fraction := by
  cases h : Text.splitFirst (· == '.') body with
  | none =>
    rw [h] at hsplit
    cases hsplit
    obtain ⟨⟨⟩, -⟩ := hfraction
    exact .whole hwhole (hne.resolve_right fun h => h rfl)
  | some sides =>
    rw [h] at hsplit
    cases hsplit
    obtain ⟨c, hc, -, rfl⟩ := Text.eq_append_of_splitFirst h
    obtain rfl := beq_iff_eq.mp hc
    exact .point hwhole hfraction hne

theorem ofBody_eq_ok_iff (hr : radix ≤ 36) : ofBody radix negative body exponent = .ok l ↔
    ∃ whole fraction, SpellsBody radix body whole fraction ∧ exponent.natAbs < 2 ^ 32 ∧
      l = { radix, negative, whole, fraction, exponent } := by
  have hbits : 32 < bitLength exponent.natAbs ↔ ¬exponent.natAbs < 2 ^ 32 := by
    rw [← not_le, bitLength_le_iff]
  constructor
  · intro h
    rw [ofBody] at h
    generalize hsides : (Text.splitFirst (· == '.') body).getD (body, []) = sides at h
    obtain ⟨is, fs⟩ := sides
    dsimp only at h
    split at h
    case isTrue => exact nomatch h
    case isFalse hne =>
      obtain ⟨whole, hwhole, h⟩ := exists_of_bind_eq_ok h
      obtain ⟨fraction, hfraction, h⟩ := exists_of_bind_eq_ok h
      rw [readSide_eq_ok_iff hr] at hwhole hfraction
      rw [Bool.and_eq_true, List.isEmpty_iff, List.isEmpty_iff, not_and_or] at hne
      split at h
      case isTrue => exact nomatch h
      case isFalse hsize =>
        cases h
        exact ⟨whole, fraction, spellsBody_of_splitFirst hsides hwhole hfraction hne, not_not.mp (hbits.not.mp hsize),
          rfl⟩
  · rintro ⟨whole, fraction, hbody, hsize, rfl⟩
    obtain ⟨is, fs, hsplit, hwhole, hfraction, hne⟩ := hbody.splitFirst hr
    rw [← readSide_eq_ok_iff hr] at hwhole hfraction
    have hempty : ¬(is.isEmpty && fs.isEmpty) = true := by
      rwa [Bool.and_eq_true, List.isEmpty_iff, List.isEmpty_iff, not_and_or]
    have hfits : ¬32 < bitLength exponent.natAbs := hbits.not.mpr (not_not.mpr hsize)
    simp only [ofBody, hsplit, hempty, if_false, hwhole, hfraction, hfits]
    rfl

/-! ### The exponent -/

theorem readExponent_append {blanks : List Char} (sign : Option Bool)
    (hblanks : ∀ b ∈ blanks, Text.isBlank b = true) (h : Spells 10 cs ds) (hne : ds ≠ [])
    (hsize : ofDigits 10 ds ≤ 2 ^ 32 - 1) :
    readExponent (blanks ++ (signChars sign ++ cs)) = .ok (signed (sign == some true) (ofDigits 10 ds)) := by
  have htext : ∀ c ∈ signChars sign ++ cs, Text.isBlank c = false := fun c hc =>
    (List.mem_append.mp hc).elim (isBlank_signChars sign c) fun hc => (h.not_mem (by decide) hc).2
  have htrim : Text.trim (blanks ++ (signChars sign ++ cs)) = signChars sign ++ cs := by
    have htrim : Text.trim (blanks ++ (signChars sign ++ cs ++ [])) = signChars sign ++ cs :=
      Text.trim_append hblanks nofun (Text.noBlankEnds_of_forall htext)
    rwa [List.append_nil] at htrim
  have hstrip : stripSign (signChars sign ++ cs) = (sign == some true, cs) := by
    refine stripSign_append sign fun c hc => ?_
    have := (h.not_mem (by decide) (List.mem_of_head? hc)).1
    simp_all
  have hcs : cs ≠ [] := by
    rintro rfl
    cases h
    exact hne rfl
  have hbits : ¬63 < bitLength (ofDigits 10 ds) := by
    rw [not_lt, bitLength_le_iff]
    omega
  have hdigits : readDigits 10 cs = .ok ds := (readDigits_eq_ok_iff (by decide)).mpr ⟨h, hne⟩
  rw [readExponent, splitSign_eq (by decide), htrim, hstrip, if_neg hcs]
  simp only [bind, Except.bind, hdigits, hbits, if_false]
  rfl

theorem exists_spells_of_readExponent (hends : Text.NoBlankEnds (before ++ cs))
    (h : readExponent cs = .ok exponent) (hsize : exponent.natAbs < 2 ^ 32) :
    ∃ blanks sign digits ds, cs = blanks ++ (signChars sign ++ digits) ∧
      (∀ b ∈ blanks, Text.isBlank b = true) ∧ Spells 10 digits ds ∧ ds ≠ [] ∧
      ofDigits 10 ds ≤ 2 ^ 32 - 1 ∧ exponent = signed (sign == some true) (ofDigits 10 ds) := by
  obtain ⟨blanks, hcs, hblanks⟩ := Text.exists_append_trim hends
  obtain ⟨sign, htrim, hnegative⟩ := exists_signChars (Text.trim cs)
  obtain ⟨⟨negative, rest⟩, hsign, h⟩ := exists_of_bind_eq_ok h
  obtain ⟨ds, hds, h⟩ := exists_of_bind_eq_ok h
  obtain ⟨hspells, hne⟩ := (readDigits_eq_ok_iff (by decide)).mp hds
  rw [splitSign_eq (by decide)] at hsign
  split at hsign
  case isTrue => exact nomatch hsign
  case isFalse =>
    rw [Except.ok.inj hsign] at htrim hnegative
    dsimp only at h
    split at h
    case isTrue => exact nomatch h
    case isFalse =>
      cases h
      rw [natAbs_signed] at hsize
      exact ⟨blanks, sign, rest, ds, by rw [← htrim, ← hcs], hblanks, hspells, hne, by omega, by rw [← hnegative]⟩

theorem SpellsExponent.natAbs_lt (h : SpellsExponent radix es exponent) : exponent.natAbs < 2 ^ 32 := by
  cases h with
  | none => decide
  | some _ _ _ _ _ hsize =>
    rw [natAbs_signed]
    omega

/-- In radix ten the letter of the exponent is no digit. -/
theorem SpellsBody.ne_letter (h : SpellsBody 10 body whole fraction) (hc : c ∈ body) :
    (c == 'e' || c == 'E') = false := by
  have hall : ∀ d < 10, digitChar d ∉ ['e', 'E'] ∧ (digitChar d).toUpper ∉ ['e', 'E'] := by decide
  rcases h.mem hc with rfl | rfl | ⟨d, hd, rfl | rfl⟩
  · rfl
  · rfl
  · simpa using (hall d hd).1
  · simpa using (hall d hd).2

theorem splitExponent_append (hbody : SpellsBody radix body whole fraction)
    (hexponent : SpellsExponent radix es exponent) : splitExponent radix (body ++ es) = .ok (body, exponent) := by
  cases hexponent with
  | none =>
    rw [List.append_nil, splitExponent]
    -- In a higher radix the letter may be found among the digits, and then it is left there.
    by_cases hr : radix = 10
    · subst hr
      rw [Text.splitFirst_eq_none_iff.mpr fun c hc => hbody.ne_letter hc]
    · split
      · rw [if_neg hr]
      · rfl
  | @some letter blanks sign cs ds hr hletter hblanks hspells hne hsize =>
    subst hr
    have hsplit : Text.splitFirst (fun c => c == 'e' || c == 'E')
        (body ++ letter :: (blanks ++ (signChars sign ++ cs))) =
        Option.some (body, blanks ++ (signChars sign ++ cs)) :=
      Text.splitFirst_append (fun c hc => hbody.ne_letter hc) (by simpa using hletter)
    simp only [splitExponent, hsplit, readExponent_append sign hblanks hspells hne hsize, if_true]
    rfl

theorem exists_spellsExponent (hends : Text.NoBlankEnds (before ++ cs))
    (h : splitExponent radix cs = .ok (body, exponent)) (hsize : exponent.natAbs < 2 ^ 32) :
    ∃ es, cs = body ++ es ∧ SpellsExponent radix es exponent := by
  rw [splitExponent] at h
  split at h
  case h_1 left right hsplit =>
    split at h
    case isTrue hr =>
      obtain ⟨letter, hletter, -, rfl⟩ := Text.eq_append_of_splitFirst hsplit
      cases he : readExponent right with
      | error e =>
        rw [he] at h
        exact nomatch h
      | ok e =>
        rw [he] at h
        cases h
        -- The whole text was trimmed, so there are only blanks in front of the exponent.
        have hends' : Text.NoBlankEnds ((before ++ (body ++ [letter])) ++ right) := by
          simpa only [List.append_assoc, List.singleton_append] using hends
        obtain ⟨blanks, sign, digits, ds, rfl, hblanks, hspells, hne, hle, rfl⟩ :=
          exists_spells_of_readExponent hends' he hsize
        exact ⟨_, rfl, .some hr (by simpa using hletter) hblanks hspells hne hle⟩
    case isFalse =>
      cases h
      exact ⟨[], (List.append_nil _).symm, .none⟩
  case h_2 =>
    cases h
    exact ⟨[], (List.append_nil _).symm, .none⟩

/-! ### All of it -/

/-- A literal is read exactly if the trimmed text is spelled as one, and its parts are those that are spelled. -/
theorem readLiteral_eq_ok_iff :
    readLiteral radix cs = .ok l ↔ (2 ≤ radix ∧ radix ≤ 36) ∧ SpellsLiteral radix (Text.trim cs) l := by
  rw [readLiteral_eq]
  constructor
  · intro h
    obtain ⟨⟨negative, rest⟩, hsign, h⟩ := exists_of_bind_eq_ok h
    obtain ⟨⟨body, exponent⟩, hexponent, h⟩ := exists_of_bind_eq_ok h
    have hr : 2 ≤ radix ∧ radix ≤ 36 := by
      by_contra hr
      rw [splitSign_of_unsupported hr] at hsign
      exact nomatch hsign
    obtain ⟨whole, fraction, hbody, hsize, rfl⟩ := (ofBody_eq_ok_iff hr.2).mp h
    obtain ⟨sign, htrim, hnegative⟩ := exists_signChars (Text.trim cs)
    rw [splitSign_eq hr] at hsign
    split at hsign
    case isTrue => exact nomatch hsign
    case isFalse =>
      rw [Except.ok.inj hsign] at htrim hnegative
      obtain ⟨es, rfl, hspells⟩ := exists_spellsExponent (htrim ▸ Text.noBlankEnds_trim cs) hexponent hsize
      rw [htrim, show negative = (sign == some true) from hnegative]
      exact ⟨hr, .mk hbody hspells⟩
  · rintro ⟨hr, hl⟩
    generalize htrim : Text.trim cs = ts at hl
    obtain @⟨sign, body, es, whole, fraction, exponent, hbody, hexponent⟩ := hl
    have hfirst : ∀ c, (body ++ es).head? = some c → c ≠ '-' ∧ c ≠ '+' := by
      intro c hc
      rw [List.head?_append_of_ne_nil _ hbody.ne_nil] at hc
      simpa using (hbody.not_mem hr.2 (List.mem_of_head? hc)).1
    have hne : body ++ es ≠ [] := fun h => hbody.ne_nil (List.append_eq_nil_iff.mp h).1
    rw [splitSign_eq hr, htrim, stripSign_append sign hfirst, if_neg hne]
    dsimp only [bind, Except.bind]
    rw [splitExponent_append hbody hexponent]
    exact (ofBody_eq_ok_iff hr.2).mpr ⟨whole, fraction, hbody, hexponent.natAbs_lt, rfl⟩

theorem SpellsLiteral.radix_eq (h : SpellsLiteral radix cs l) : l.radix = radix := by
  cases h
  rfl

/-- A literal that is read has the radix asked for, which is one of the supported ones. -/
theorem radix_of_readLiteral (h : readLiteral radix cs = .ok l) : l.radix = radix ∧ 2 ≤ radix := by
  obtain ⟨hr, hl⟩ := readLiteral_eq_ok_iff.mp h
  exact ⟨hl.radix_eq, hr.1⟩

theorem parse_eq_ok_iff {p : Nat} {x : BigReal} :
    parse radix cs p = .ok x ↔ ∃ l, readLiteral radix cs = .ok l ∧ x = ofRat l.value p := by
  rw [parse]
  constructor
  · intro h
    obtain ⟨l, hl, h⟩ := exists_of_bind_eq_ok h
    cases h
    exact ⟨l, hl, rfl⟩
  · rintro ⟨l, hl, rfl⟩
    rw [hl]
    rfl

end NumericTower.BigReal
