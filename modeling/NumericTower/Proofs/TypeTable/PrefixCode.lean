import Mathlib
import NumericTower.Proofs.TypeTable.Canonical
import NumericTower.TypeTable.Mangle

/-!
# Codes of types as a prefix code

The code of a type can be told from whatever follows it: its first letters say what kind of type it is, every
number in it ends at its mark, and lists and names are preceded by their lengths. So no code in a table is the
beginning of another one.

## Key results
- `countCode_append_inj`, `nameCode_append_inj`: numbers and names can be told from what follows
- `TypeTable.code_eq`: the code of a type, one node at a time
- `TypeTable.Canonical.code_append_inj`: so can types
- `TypeTable.no_code_begins_another`: different handles of a table have codes of which neither begins the other
-/

namespace NumericTower

/-! ### Numbers and names -/

/-- A list is found again in front of the first mark. -/
theorem append_mark_inj {α : Type} {mark : α} {xs ys u v : List α} (hx : mark ∉ xs) (hy : mark ∉ ys)
    (h : xs ++ mark :: u = ys ++ mark :: v) : xs = ys ∧ u = v := by
  induction xs generalizing ys with
  | nil =>
    cases ys with
    | nil => exact ⟨rfl, (List.cons.inj h).2⟩
    | cons y ys => exact absurd (.head ys) ((List.cons.inj h).1 ▸ hy)
  | cons x xs ih =>
    cases ys with
    | nil => exact absurd (.head xs) ((List.cons.inj h).1 ▸ hx)
    | cons y ys =>
      obtain ⟨rfl, htail⟩ := List.cons.inj h
      obtain ⟨rfl, huv⟩ := ih (fun hmem => hx (.tail _ hmem)) (fun hmem => hy (.tail _ hmem)) htail
      exact ⟨rfl, huv⟩

namespace Numeral

theorem toList_render (radix n : Nat) :
    (render radix n).toList = (toDigits radix n).map digitChar :=
  String.toList_ofList

/-- A number written in decimal has no characters in it but digits. -/
theorem notMem_render {c : Char} (hc : ∀ d < 10, digitChar d ≠ c) (n : Nat) : c ∉ (render 10 n).toList := by
  rw [toList_render]
  intro hmem
  obtain ⟨d, hd, hchar⟩ := List.mem_map.mp hmem
  exact hc d (lt_of_mem_toDigits (by decide) hd) hchar

theorem mark_notMem_render (n : Nat) : '_' ∉ (render 10 n).toList :=
  notMem_render (by decide) n

/-- Different numbers are written differently in decimal. -/
theorem render_injective {m n : Nat} (h : (render 10 m).toList = (render 10 n).toList) : m = n := by
  have hdigit : ∀ d < 10, ∀ e < 10, digitChar d = digitChar e → d = e := by decide
  rw [toList_render, toList_render] at h
  have hdigits : toDigits 10 m = toDigits 10 n :=
    eq_of_map_eq (fun d hd e he => hdigit d (lt_of_mem_toDigits (by decide) hd)
      e (lt_of_mem_toDigits (by decide) he)) h
  rw [← ofDigits_toDigits 10 m, hdigits, ofDigits_toDigits]

end Numeral

theorem countCode_append_inj {m n : Nat} {u v : List Char}
    (h : (countCode m).toList ++ u = (countCode n).toList ++ v) : m = n ∧ u = v := by
  have hmark : ∀ k u, (countCode k).toList ++ u = (Numeral.render 10 k).toList ++ '_' :: u := by
    intro k u
    simp [countCode]
  rw [hmark, hmark] at h
  obtain ⟨hnumber, huv⟩ :=
    append_mark_inj (Numeral.mark_notMem_render m) (Numeral.mark_notMem_render n) h
  exact ⟨Numeral.render_injective hnumber, huv⟩

/-- Of two texts with equally many bytes in front of the same text, neither is longer. -/
theorem eq_of_utf8ByteSize_eq {x y : String} {u v : List Char} (hsize : x.utf8ByteSize = y.utf8ByteSize)
    (h : x.toList ++ u = y.toList ++ v) : x = y ∧ u = v := by
  -- What one of them has more than the other would have no bytes.
  have hempty : ∀ (x y : String) (w : List Char), x.utf8ByteSize = y.utf8ByteSize →
      y.toList = x.toList ++ w → w = [] := by
    intro x y w hsize hw
    have hy : y = x ++ String.ofList w := String.toList_inj.mp (by simp [hw])
    rw [hy, String.utf8ByteSize_append] at hsize
    have hzero : (String.ofList w).utf8ByteSize = 0 := by omega
    simpa using String.utf8ByteSize_eq_zero_iff.mp hzero
  rcases List.append_eq_append_iff.mp h with ⟨w, hy, hu⟩ | ⟨w, hx, hv⟩
  · obtain rfl := hempty x y w hsize hy
    exact ⟨String.toList_inj.mp (by simp [hy]), hu⟩
  · obtain rfl := hempty y x w hsize.symm hx
    exact ⟨String.toList_inj.mp (by simp [hx]), hv.symm⟩

theorem nameCode_append_inj {x y : String} {u v : List Char}
    (h : (nameCode x).toList ++ u = (nameCode y).toList ++ v) : x = y ∧ u = v := by
  simp only [nameCode, String.toList_append, List.append_assoc] at h
  obtain ⟨hsize, hname⟩ := countCode_append_inj h
  exact eq_of_utf8ByteSize_eq hsize hname

/-- Codes that can be told from what follows them, one after the other, as many on both sides. -/
theorem flatMap_append_inj {α : Type} {code : α → List Char} {xs ys : List α} {u v : List Char}
    (hinj : ∀ x ∈ xs, ∀ y ∈ ys, ∀ u v, code x ++ u = code y ++ v → x = y ∧ u = v)
    (hlength : xs.length = ys.length) (h : xs.flatMap code ++ u = ys.flatMap code ++ v) :
    xs = ys ∧ u = v := by
  induction xs generalizing ys with
  | nil =>
    obtain rfl := List.eq_nil_of_length_eq_zero hlength.symm
    exact ⟨rfl, h⟩
  | cons x xs ih =>
    cases ys with
    | nil => exact nomatch hlength
    | cons y ys =>
      rw [List.flatMap_cons, List.flatMap_cons, List.append_assoc, List.append_assoc] at h
      obtain ⟨rfl, hrest⟩ := hinj x (.head xs) y (.head ys) _ _ h
      obtain ⟨rfl, huv⟩ := ih (fun x' hx y' hy => hinj x' (.tail _ hx) y' (.tail _ hy))
        (Nat.succ.inj hlength) hrest
      exact ⟨rfl, huv⟩

/-- A letter, a number and what follows them. -/
def counted (letter : Char) (n : Nat) (body : List Char) : List Char :=
  letter :: ((countCode n).toList ++ body)

theorem counted_append_inj {c d : Char} {m n : Nat} {xs ys u v : List Char}
    (h : counted c m xs ++ u = counted d n ys ++ v) : c = d ∧ m = n ∧ xs ++ u = ys ++ v := by
  simp only [counted, List.cons_append, List.append_assoc, List.cons.injEq] at h
  exact ⟨h.1, countCode_append_inj h.2⟩

/-- Two lists of such codes after their numbers, which determine how many codes there are. -/
theorem counted_flatMap_append_inj {α : Type} {code : α → List Char} {c d : Char} {m n : Nat}
    {xs ys : List α} {u v : List Char}
    (hinj : ∀ x ∈ xs, ∀ y ∈ ys, ∀ u v, code x ++ u = code y ++ v → x = y ∧ u = v)
    (hlength : m = n → xs.length = ys.length)
    (h : counted c m (xs.flatMap code) ++ u = counted d n (ys.flatMap code) ++ v) :
    xs = ys ∧ u = v := by
  obtain ⟨-, hcount, hcodes⟩ := counted_append_inj h
  exact flatMap_append_inj hinj (hlength hcount) hcodes

/-! ### Nodes -/

/-- The letter of a category as a character. -/
def NumericKind.letter : NumericKind → Char
  | .nat => 'N'
  | .int => 'I'
  | .ratio => 'Q'
  | .real => 'R'

theorem NumericKind.toList_code (kind : NumericKind) : kind.code.toList = [kind.letter] := by
  cases kind <;> rfl

/-- The letter that tells a kind of text from the others. -/
def TextKind.letter : TextKind → Char
  | .string => 's'
  | .ascii => 'a'
  | .utf8 => 'u'

theorem TextKind.toList_code (kind : TextKind) : kind.code.toList = ['Z', kind.letter] := by
  cases kind <;> rfl

theorem TextKind.letter_injective {k l : TextKind} (h : k.letter = l.letter) : k = l := by
  cases k <;> cases l <;> first | rfl | exact absurd h (by decide)

theorem NumericKind.letter_injective {k l : NumericKind} (h : k.letter = l.letter) : k = l := by
  cases k <;> cases l <;> first | rfl | exact absurd h (by decide)

/-- The code of a field, given the codes of types. -/
def RecordField.codeWith (code : TypeId → List Char) (field : RecordField) : List Char :=
  (nameCode field.name).toList ++ code field.type

theorem RecordField.codeWith_append_inj {code : TypeId → List Char} {f g : RecordField}
    (hinj : ∀ u v, code f.type ++ u = code g.type ++ v → f.type = g.type ∧ u = v) {u v : List Char}
    (h : f.codeWith code ++ u = g.codeWith code ++ v) : f = g ∧ u = v := by
  simp only [codeWith, List.append_assoc] at h
  obtain ⟨hname, hrest⟩ := nameCode_append_inj h
  obtain ⟨htype, huv⟩ := hinj _ _ hrest
  cases f
  cases g
  exact ⟨congrArg₂ RecordField.mk hname htype, huv⟩

namespace TypeNode

/-- The code of a node, given the codes of its components. -/
def codeWith (code : TypeId → List Char) : TypeNode → List Char
  | .top => ['K', 't']
  | .bottom => ['K', 'b']
  | .type => ['K', 'm']
  | .module => ['K', 'd']
  | .unit => ['K', 'u']
  | .bool => ['K', 'l']
  | .number => ['K', 'x']
  | .numeric t => counted t.kind.letter t.width []
  | .text kind => ['Z', kind.letter]
  | .placeholder k _ => counted 'Y' k []
  | .array element length => counted 'A' length (code element)
  | .function result params => counted 'F' params.length ((result :: params).flatMap code)
  | .closure fn closed => counted 'C' closed.length ((fn :: closed).flatMap code)
  | .sum cases => counted 'S' cases.length (cases.flatMap code)
  | .product components => counted 'P' components.length (components.flatMap code)
  | .record fields => counted 'E' fields.length (fields.flatMap (·.codeWith code))

/-- The same node, except that placeholders of one number may be used differently. -/
inductive Alike : TypeNode → TypeNode → Prop where
  | refl (n : TypeNode) : Alike n n
  | placeholder (k : Nat) (usage usage' : OpSet) : Alike (.placeholder k usage) (.placeholder k usage')

/-- The constructor of a node without components and data, by the second letter of its code. -/
def leafOfLetter : Char → Nat
  | 't' => 0
  | 'b' => 1
  | 'm' => 2
  | 'd' => 3
  | 'u' => 4
  | 'l' => 5
  | _ => 6

/-- The constructor of a node, by the first letters of its code. -/
def formOfCode : List Char → Nat
  | 'K' :: cs => leafOfLetter (cs.headD 'x')
  | 'N' :: _ => 7
  | 'I' :: _ => 7
  | 'Q' :: _ => 7
  | 'R' :: _ => 7
  | 'Z' :: _ => 8
  | 'Y' :: _ => 9
  | 'A' :: _ => 10
  | 'F' :: _ => 11
  | 'C' :: _ => 12
  | 'S' :: _ => 13
  | 'P' :: _ => 14
  | 'E' :: _ => 15
  | _ => 16

theorem formOfCode_codeWith (code : TypeId → List Char) (n : TypeNode) (u : List Char) :
    formOfCode (n.codeWith code ++ u) = n.ctorIdx := by
  cases n with
  | numeric t =>
    obtain ⟨kind, width, hwidth⟩ := t
    cases kind <;> rfl
  | _ => rfl

theorem codeWith_append_inj {code : TypeId → List Char} {n m : TypeNode} {u v : List Char}
    (hinj : ∀ p ∈ n.parts, ∀ q ∈ m.parts, ∀ u v, code p ++ u = code q ++ v → p = q ∧ u = v)
    (h : n.codeWith code ++ u = m.codeWith code ++ v) : n.Alike m ∧ u = v := by
  have hform : n.ctorIdx = m.ctorIdx := by
    rw [← formOfCode_codeWith code n u, h, formOfCode_codeWith]
  -- The first letters leave two nodes of one form.
  cases n <;> cases m <;> try (cases hform; done)
  case numeric.numeric t t' =>
    obtain ⟨hletter, hwidth, huv⟩ := counted_append_inj h
    obtain ⟨kind, width, _⟩ := t
    obtain ⟨kind', width', _⟩ := t'
    obtain rfl : kind = kind' := NumericKind.letter_injective hletter
    obtain rfl : width = width' := hwidth
    exact ⟨.refl _, huv⟩
  case text.text kind kind' =>
    obtain ⟨hletter, huv⟩ := List.cons.inj (List.cons.inj h).2
    obtain rfl := TextKind.letter_injective hletter
    exact ⟨.refl _, huv⟩
  case placeholder.placeholder k usage k' usage' =>
    obtain ⟨-, rfl, huv⟩ := counted_append_inj h
    exact ⟨.placeholder k usage usage', huv⟩
  case array.array element length element' length' =>
    obtain ⟨-, rfl, hbody⟩ := counted_append_inj h
    obtain ⟨rfl, huv⟩ := hinj element (.head _) element' (.head _) _ _ hbody
    exact ⟨.refl _, huv⟩
  case function.function result params result' params' =>
    obtain ⟨hparts, huv⟩ := counted_flatMap_append_inj hinj (congrArg Nat.succ) h
    obtain ⟨rfl, rfl⟩ := List.cons.inj hparts
    exact ⟨.refl _, huv⟩
  case closure.closure fn closed fn' closed' =>
    obtain ⟨hparts, huv⟩ := counted_flatMap_append_inj hinj (congrArg Nat.succ) h
    obtain ⟨rfl, rfl⟩ := List.cons.inj hparts
    exact ⟨.refl _, huv⟩
  case sum.sum cases cases' =>
    obtain ⟨rfl, huv⟩ := counted_flatMap_append_inj hinj id h
    exact ⟨.refl _, huv⟩
  case product.product components components' =>
    obtain ⟨rfl, huv⟩ := counted_flatMap_append_inj hinj id h
    exact ⟨.refl _, huv⟩
  case record.record fields fields' =>
    obtain ⟨rfl, huv⟩ := counted_flatMap_append_inj (fun f hf g hg u v =>
      RecordField.codeWith_append_inj
        (hinj _ (List.mem_map_of_mem hf) _ (List.mem_map_of_mem hg))) id h
    exact ⟨.refl _, huv⟩
  -- The others are one node without components and data.
  all_goals exact ⟨.refl _, List.append_cancel_left h⟩

end TypeNode

/-! ### Tables -/

namespace TypeTable

variable {a : TypeTable} {s t : TypeId}

/-- The letters of the code of a type. -/
def code (a : TypeTable) (t : TypeId) : List Char :=
  (a.mangle t).toList

theorem toList_mangle_tree (a : TypeTable) (t : TypeId) : (a.tree t).mangle.toList = a.code t := rfl

theorem toList_mangleAll (a : TypeTable) (ts : List TypeId) :
    (TypeTree.mangleAll (ts.map a.tree)).toList = ts.flatMap a.code := by
  induction ts with
  | nil => simp [TypeTree.mangleAll]
  | cons t ts ih => simp [TypeTree.mangleAll, toList_mangle_tree, ih]

theorem toList_mangleFields (a : TypeTable) (fields : List RecordField) :
    (TypeTree.mangleFields (fields.map fun field => (field.name, a.tree field.type))).toList =
      fields.flatMap (·.codeWith a.code) := by
  induction fields with
  | nil => simp [TypeTree.mangleFields]
  | cons field fields ih =>
    simp [TypeTree.mangleFields, toList_mangle_tree, RecordField.codeWith, ih]

theorem code_eq (a : TypeTable) (t : TypeId) : a.code t = (a.node t).codeWith a.code := by
  rw [code, mangle, tree_eq]
  cases a.node t <;>
    simp [TypeNode.treeWith, TypeTree.mangle, TypeNode.codeWith, counted, NumericKind.toList_code,
      TextKind.toList_code, toList_mangle_tree, toList_mangleAll, toList_mangleFields]

/-- Stored nodes that differ in the usage of a placeholder at most are the same. -/
theorem Canonical.eq_of_alike (ha : a.Canonical) (hs : a.Holds s) (ht : a.Holds t)
    (h : (a.node s).Alike (a.node t)) : s = t := by
  generalize hn : a.node s = n at h
  generalize hm : a.node t = m at h
  cases h with
  | refl => exact ha.eq_of_node_eq hs ht (hn.trans hm.symm)
  | placeholder k usage usage' =>
    -- No other placeholder has the number.
    exact TypeId.eq_of_index_eq (ha.placeholder_unique s.index t.index k usage usage'
      (hn ▸ hs.getElem?) (hm ▸ ht.getElem?))

/-- The code of a type can be told from what follows it. -/
theorem Canonical.code_append_inj (ha : a.Canonical) (hs : a.Holds s) (ht : a.Holds t)
    {u v : List Char} (h : a.code s ++ u = a.code t ++ v) : s = t ∧ u = v := by
  -- The components are older, so their codes can be told from what follows them.
  induction hi : s.index using Nat.strong_induction_on generalizing s t u v with
  | _ i ih =>
    rw [code_eq, code_eq a t] at h
    obtain ⟨halike, huv⟩ := TypeNode.codeWith_append_inj (fun p hp q hq u v hpq =>
      ih p.index (hi ▸ index_lt_of_mem_parts hp) (hs.of_mem_parts hp) (ht.of_mem_parts hq) hpq rfl) h
    exact ⟨ha.eq_of_alike hs ht halike, huv⟩

/-- In every table that calls of builders make, the codes of different handles differ, and neither is the
beginning of the other. -/
theorem no_code_begins_another (ha : a.Reachable) (hs : a.Holds s) (ht : a.Holds t) (hne : s ≠ t) :
    ¬ (a.mangle s).toList <+: (a.mangle t).toList ∧ a.mangle s ≠ a.mangle t := by
  constructor
  · rintro ⟨rest, hrest⟩
    have happend : a.code s ++ rest = a.code t ++ [] := by rw [List.append_nil]; exact hrest
    exact hne (ha.canonical.code_append_inj hs ht happend).1
  · intro h
    have happend : a.code s ++ [] = a.code t ++ [] := by rw [code, h, code]
    exact hne (ha.canonical.code_append_inj hs ht happend).1

/-- Two records, the field of the second one named like a part of the code of the first one. -/
theorem no_code_begins_another_field_name :
    let a : TypeTable := (BuilderCall.run (.record [⟨"1_xKu", .unit⟩])
      (BuilderCall.run (.record [⟨"x", .unit⟩]) initial).2).2
    a.Reachable ∧ a.Holds ⟨14⟩ ∧ a.Holds ⟨15⟩ ∧
      ¬ (a.mangle ⟨14⟩).toList <+: (a.mangle ⟨15⟩).toList ∧ a.mangle ⟨14⟩ ≠ a.mangle ⟨15⟩ := by
  intro a
  have ha : a.Reachable := (GrowsTo.refl.call (.record [⟨"x", .unit⟩])
    ⟨by decide, fun _ _ h => nomatch h⟩).call (.record [⟨"1_xKu", .unit⟩])
      ⟨by decide, fun _ _ h => nomatch h⟩
  have hs : a.Holds ⟨14⟩ := by decide
  have ht : a.Holds ⟨15⟩ := by decide
  exact ⟨ha, hs, ht, no_code_begins_another ha hs ht (by decide)⟩

end TypeTable

end NumericTower
