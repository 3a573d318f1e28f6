import Mathlib
import NumericTower.Proofs.TypeTable.PrefixCode

/-!
# Symbols of functions

The parts of a symbol stand one after the other with no mark between the type and the name, and module and
name are any texts. Still each part can be told from what follows it: the letter after the first mark says
whether there is a module, module and name come after their lengths in bytes, and the codes of types are a
prefix code. So a symbol determines all of its parts.

## Key results
- `scopeCode_append_inj`: the module can be told from what follows it
- `TypeTable.Canonical.symbol_append_inj`: so can the whole symbol
- `TypeTable.symbol_determines_function`: functions have one symbol exactly if they are of one module, one name
  and one type
-/

namespace NumericTower

/-- The letters of a symbol between its first mark and the code of the type. -/
def scopeCode : Option String → List Char
  | some m => 'm' :: ((nameCode m).toList ++ ['f'])
  | none => ['f']

theorem scopeCode_append_inj {m m' : Option String} {u v : List Char}
    (h : scopeCode m ++ u = scopeCode m' ++ v) : m = m' ∧ u = v := by
  cases m with
  | none =>
    cases m' with
    | none => exact ⟨rfl, (List.cons.inj h).2⟩
    | some x' => simp [scopeCode] at h
  | some x =>
    cases m' with
    | none => simp [scopeCode] at h
    | some x' =>
      simp only [scopeCode, List.cons_append, List.append_assoc, List.cons.injEq, true_and] at h
      obtain ⟨rfl, hrest⟩ := nameCode_append_inj h
      exact ⟨rfl, by simpa using hrest⟩

namespace TypeTable

variable {a : TypeTable} {m m' : Option String} {n n' : String} {t t' : TypeId}

theorem toList_mangleFunction (a : TypeTable) (m : Option String) (n : String) (t : TypeId) :
    (a.mangleFunction m n t).toList = '_' :: (scopeCode m ++ (a.code t ++ (nameCode n).toList)) := by
  cases m <;> simp [mangleFunction, scopeCode, code]

/-- A symbol can be told from what follows it. -/
theorem Canonical.symbol_append_inj (ha : a.Canonical) (ht : a.Holds t) (ht' : a.Holds t')
    {u v : List Char}
    (h : (a.mangleFunction m n t).toList ++ u = (a.mangleFunction m' n' t').toList ++ v) :
    m = m' ∧ n = n' ∧ t = t' ∧ u = v := by
  simp only [toList_mangleFunction, List.cons_append, List.append_assoc, List.cons.injEq,
    true_and] at h
  obtain ⟨hmodule, h⟩ := scopeCode_append_inj h
  obtain ⟨htype, h⟩ := ha.code_append_inj ht ht' h
  obtain ⟨hname, huv⟩ := nameCode_append_inj h
  exact ⟨hmodule, hname, htype, huv⟩

/-- In every table that calls of builders make, functions have the same symbol exactly if module, name and
type are the same. No symbol begins another one either. -/
theorem symbol_determines_function (ha : a.Reachable) (ht : a.Holds t) (ht' : a.Holds t') :
    (a.mangleFunction m n t = a.mangleFunction m' n' t' ↔ m = m' ∧ n = n' ∧ t = t') ∧
    ((a.mangleFunction m n t).toList <+: (a.mangleFunction m' n' t').toList →
      m = m' ∧ n = n' ∧ t = t') := by
  -- Both are about the text that is left after a symbol: none, or the rest of a longer one.
  have hinj : ∀ rest, (a.mangleFunction m n t).toList ++ rest = (a.mangleFunction m' n' t').toList →
      m = m' ∧ n = n' ∧ t = t' := by
    intro rest hrest
    rw [← List.append_nil (a.mangleFunction m' n' t').toList] at hrest
    obtain ⟨hmodule, hname, htype, -⟩ := ha.canonical.symbol_append_inj ht ht' hrest
    exact ⟨hmodule, hname, htype⟩
  refine ⟨⟨fun h => hinj [] ?_, ?_⟩, ?_⟩
  · rw [List.append_nil, h]
  · rintro ⟨rfl, rfl, rfl⟩
    rfl
  · rintro ⟨rest, hrest⟩
    exact hinj rest hrest

/-- A function without a module whose name is written like a code and a name, and a record as the type of
the other function. -/
theorem symbol_determines_function_like_code :
    let a : TypeTable := (BuilderCall.run (.record [⟨"x", .unit⟩]) initial).2
    a.Reachable ∧ a.Holds .unit ∧ a.Holds ⟨14⟩ ∧
      a.mangleFunction none "Ku1_x" .unit ≠ a.mangleFunction none "x" ⟨14⟩ ∧
      a.mangleFunction (some "") "1_f" .unit ≠ a.mangleFunction (some "fKu3_1_f") "" .unit := by
  intro a
  have ha : a.Reachable := GrowsTo.refl.call (.record [⟨"x", .unit⟩])
    ⟨by decide, fun _ _ h => nomatch h⟩
  have hunit : a.Holds .unit := by decide
  have hrecord : a.Holds ⟨14⟩ := by decide
  refine ⟨ha, hunit, hrecord, fun h => ?_, fun h => ?_⟩
  · exact absurd ((symbol_determines_function ha hunit hrecord).1.mp h).2.2 (by decide)
  · exact absurd ((symbol_determines_function ha hunit hunit).1.mp h).1 (by decide)

example : initial.mangleFunction (some "math") "sqrt" .real = "_m4_mathfR0_4_sqrt" := by
  cbv

end TypeTable

end NumericTower
