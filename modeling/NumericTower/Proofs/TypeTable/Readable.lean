import Mathlib
import NumericTower.Proofs.Numeral.Digits
import NumericTower.Proofs.TypeTable.Castable
import NumericTower.Proofs.TypeTable.PrefixCode
import NumericTower.TypeTable.Display

/-!
# Names of types read unambiguously

The name of a compound type is its operands with one mark between them, and an operand that is compound itself
stands between parentheses. So an operand can be told from what follows it, as long as that begins with a blank
or a closing parenthesis or is nothing, and a name tells its mark and its operands. The name of a closure leaves
out what it captures, a product of one component reads like the component, and the fields of a record can be
named by any text; all other types can be told apart by their names, however they are nested.

## Key results
- `append_inj_of_stops`: a text without stops is found again in front of one
- `joined_append_inj`: marks and operands of a compound name
- `TypeTable.Canonical.tellsApart`: an operand can be told from every other, whatever follows
- `TypeTable.names_read_unambiguously`: different handles have different names
-/

namespace NumericTower

/-! ### Stops -/

/-- Whether a text is empty or begins with one of the characters. -/
def BeginsWith (stops : List Char) (u : List Char) : Prop :=
  ∀ c ∈ u.head?, c ∈ stops

/-- What can follow a whole name: nothing or the end of its parentheses. -/
abbrev Ends : List Char → Prop :=
  BeginsWith [')']

/-- What can follow an operand: also the mark before the next one. -/
abbrev Breaks : List Char → Prop :=
  BeginsWith [' ', ')']

theorem Ends.breaks {u : List Char} (h : Ends u) : Breaks u :=
  fun c hc => List.mem_cons_of_mem _ (h c hc)

theorem ends_nil : Ends [] := fun _ h => nomatch h

theorem ends_closing (u : List Char) : Ends (')' :: u) := by
  simp [BeginsWith]

/-- Texts without stops are found again in front of stops. -/
theorem append_inj_of_stops {stops xs ys u v : List Char} (hx : ∀ c ∈ xs, c ∉ stops)
    (hy : ∀ c ∈ ys, c ∉ stops) (hu : BeginsWith stops u) (hv : BeginsWith stops v)
    (h : xs ++ u = ys ++ v) : xs = ys ∧ u = v := by
  induction xs generalizing ys with
  | nil =>
    cases ys with
    | nil => exact ⟨rfl, h⟩
    | cons y ys =>
      -- The first text would go on with a stop where the second one has none.
      have hstop : y ∈ stops := hu y (by simp [show u = y :: (ys ++ v) from h])
      exact absurd hstop (hy y List.mem_cons_self)
  | cons x xs ih =>
    cases ys with
    | nil =>
      have hstop : x ∈ stops := hv x (by simp [show v = x :: (xs ++ u) from h.symm])
      exact absurd hstop (hx x List.mem_cons_self)
    | cons y ys =>
      obtain ⟨rfl, htail⟩ := List.cons.inj h
      obtain ⟨rfl, huv⟩ := ih (fun c hc => hx c (.tail _ hc)) (fun c hc => hy c (.tail _ hc)) htail
      exact ⟨rfl, huv⟩

/-! ### Marks -/

/-- What stands between the operands of a compound name. -/
inductive Mark where
  | arrow
  | bar
  | ampersand
  deriving DecidableEq

/-- How a mark is written. -/
def Mark.chars : Mark → List Char
  | .arrow => [' ', '-', '>', ' ']
  | .bar => [' ', '|', ' ']
  | .ampersand => [' ', '&', ' ']

namespace Mark

theorem breaks_chars (m : Mark) (u : List Char) : Breaks (m.chars ++ u) := by
  cases m <;> simp [BeginsWith, chars]

theorem not_ends_chars (m : Mark) (u : List Char) : ¬Ends (m.chars ++ u) := by
  cases m <;> simp [BeginsWith, chars]

theorem chars_append_inj {m m' : Mark} {u v : List Char} (h : m.chars ++ u = m'.chars ++ v) :
    m = m' ∧ u = v := by
  cases m <;> cases m' <;> simp_all [chars]

end Mark

/-- Operands that can be told from what follows them, with marks between them: a name ends behind its last
operand, so the operands are the same, and the marks if there are any. -/
theorem joined_append_inj {α : Type} {operand : α → List Char} {xs ys : List α} {m m' : Mark}
    {u v : List Char}
    (hinj : ∀ x ∈ xs, ∀ y ∈ ys, ∀ u v, Breaks u → Breaks v → operand x ++ u = operand y ++ v →
      x = y ∧ u = v)
    (hxs : xs ≠ []) (hys : ys ≠ []) (hu : Ends u) (hv : Ends v)
    (h : m.chars.intercalate (xs.map operand) ++ u = m'.chars.intercalate (ys.map operand) ++ v) :
    xs = ys ∧ u = v ∧ (2 ≤ xs.length → m = m') := by
  induction xs generalizing ys with
  | nil => exact absurd rfl hxs
  | cons x xs ih =>
    obtain ⟨y, ys, rfl⟩ := List.exists_cons_of_ne_nil hys
    have hhead := hinj x List.mem_cons_self y List.mem_cons_self
    cases xs with
    | nil =>
      cases ys with
      | nil =>
        obtain ⟨rfl, huv⟩ := hhead u v hu.breaks hv.breaks (by simpa using h)
        exact ⟨rfl, huv, by simp⟩
      | cons y' ys =>
        simp only [List.map_cons, List.map_nil, List.intercalate_singleton,
          List.intercalate_cons_cons, List.append_assoc] at h
        exact absurd ((hhead _ _ hu.breaks (m'.breaks_chars _) h).2 ▸ hu) (m'.not_ends_chars _)
    | cons x' xs =>
      cases ys with
      | nil =>
        simp only [List.map_cons, List.map_nil, List.intercalate_singleton,
          List.intercalate_cons_cons, List.append_assoc] at h
        exact absurd ((hhead _ _ (m.breaks_chars _) hv.breaks h).2 ▸ hv) (m.not_ends_chars _)
      | cons y' ys =>
        simp only [List.map_cons, List.intercalate_cons_cons, List.append_assoc] at h
        obtain ⟨rfl, hrest⟩ := hhead _ _ (m.breaks_chars _) (m'.breaks_chars _) h
        obtain ⟨rfl, hrest⟩ := Mark.chars_append_inj hrest
        obtain ⟨htail, huv, -⟩ := ih (fun x hx y hy => hinj x (.tail _ hx) y (.tail _ hy))
          (List.cons_ne_nil _ _) (List.cons_ne_nil _ _) hrest
        exact ⟨by rw [htail], huv, fun _ => rfl⟩

/-! ### Numbers in names -/

/-- A number in decimal, nothing for 0. -/
def optionalNumber (n : Nat) : List Char :=
  if n = 0 then [] else (Numeral.render 10 n).toList

theorem notMem_optionalNumber {c : Char} (hc : ∀ d < 10, Numeral.digitChar d ≠ c) (n : Nat) :
    c ∉ optionalNumber n := by
  unfold optionalNumber
  split
  · exact List.not_mem_nil
  · exact Numeral.notMem_render hc n

theorem optionalNumber_injective {m n : Nat} (h : optionalNumber m = optionalNumber n) : m = n := by
  have hne : ∀ k, (Numeral.render 10 k).toList ≠ [] := fun k => by
    rw [Numeral.toList_render]
    simpa using (Numeral.noLeadingZero_toDigits (by decide) k).1
  unfold optionalNumber at h
  split at h <;> split at h
  case isTrue.isTrue hm hn => rw [hm, hn]
  case isTrue.isFalse => exact absurd h.symm (hne n)
  case isFalse.isTrue => exact absurd h (hne m)
  case isFalse.isFalse => exact Numeral.render_injective h

/-! ### Nodes -/

/-- The name of a category as characters. -/
def NumericKind.letters : NumericKind → List Char
  | .nat => ['N', 'a', 't']
  | .int => ['I', 'n', 't']
  | .ratio => ['R', 'a', 't', 'i', 'o']
  | .real => ['R', 'e', 'a', 'l']

theorem NumericKind.toList_name (kind : NumericKind) : kind.name.toList = kind.letters := by
  cases kind <;> rfl

theorem NumericKind.letters_append_inj {k l : NumericKind} {u v : List Char}
    (h : k.letters ++ u = l.letters ++ v) : k = l ∧ u = v := by
  cases k <;> cases l <;> simp_all [letters]

/-- The name of a kind of text as characters. -/
def TextKind.letters : TextKind → List Char
  | .string => ['S', 't', 'r', 'i', 'n', 'g']
  | .ascii => ['S', 't', 'r', 'i', 'n', 'g', 'A', 'S', 'C', 'I', 'I']
  | .utf8 => ['S', 't', 'r', 'i', 'n', 'g', 'U', 'T', 'F', '8']

theorem TextKind.toList_name (kind : TextKind) : kind.name.toList = kind.letters := by
  cases kind <;> rfl

theorem TextKind.letters_injective {k l : TextKind} (h : k.letters = l.letters) : k = l := by
  cases k <;> cases l <;> first | rfl | exact absurd h (by decide)

namespace TypeNode

/-- Whether the name is put together of operands. -/
def isCompound : TypeNode → Bool
  | .function .. | .sum _ | .product _ => true
  | _ => false

/-- Whether the name of the type says all about it, given the names of its components. -/
def isReadable : TypeNode → Bool
  | .closure .. | .record _ => false
  | .product components => 2 ≤ components.length
  | _ => true

/-- The mark between the operands of a compound name. -/
def mark : TypeNode → Mark
  | .sum _ => .bar
  | .product _ => .ampersand
  | _ => .arrow

/-- The operands of a compound name. The parameters of a function without any are written as an operand that
is no type. -/
def operands : TypeNode → List (Option TypeId)
  | .function result [] => [none, some result]
  | .function result params => params.map some ++ [some result]
  | .sum cases => cases.map some
  | .product components => components.map some
  | _ => []

/-- The name of a type that is not compound, given the operand of its element. -/
def simpleName (operand : TypeId → List Char) : TypeNode → List Char
  | .top => ['T', 'o', 'p']
  | .bottom => ['B', 'o', 't', 't', 'o', 'm']
  | .type => ['T', 'y', 'p', 'e']
  | .module => ['M', 'o', 'd', 'u', 'l', 'e']
  | .unit => ['U', 'n', 'i', 't']
  | .bool => ['B', 'o', 'o', 'l']
  | .number => ['N', 'u', 'm', 'b', 'e', 'r']
  | .numeric t => t.kind.letters ++ optionalNumber t.width
  | .text kind => kind.letters
  | .placeholder k _ => '?' :: (Numeral.render 10 k).toList
  | .array element length => '[' :: (optionalNumber length ++ ']' :: operand element)
  | _ => []

/-- The constructor of a node, by the first letters of its name. -/
def formOfName : List Char → Nat
  | 'T' :: 'o' :: _ => 0
  | 'B' :: 'o' :: 't' :: _ => 1
  | 'T' :: 'y' :: _ => 2
  | 'M' :: _ => 3
  | 'U' :: _ => 4
  | 'B' :: 'o' :: 'o' :: _ => 5
  | 'N' :: 'u' :: _ => 6
  | 'S' :: _ => 8
  | '?' :: _ => 9
  | '[' :: _ => 10
  | _ => 7

variable {operand : TypeId → List Char} {n m : TypeNode} {u v : List Char}

theorem formOfName_simpleName (hn : n.isReadable = true) (hs : n.isCompound = false) (u : List Char) :
    formOfName (n.simpleName operand ++ u) = n.ctorIdx := by
  cases n with
  | numeric t =>
    obtain ⟨kind, width, hwidth⟩ := t
    cases kind <;> rfl
  | text kind => cases kind <;> rfl
  | function | sum | product => cases hs
  | closure | record => cases hn
  | _ => rfl

/-- No name that is not compound begins like an operand between parentheses. -/
theorem exists_cons_simpleName (operand : TypeId → List Char) (hn : n.isReadable = true) (hs : n.isCompound = false) :
    ∃ c cs, n.simpleName operand = c :: cs ∧ c ≠ '(' ∧ c ≠ ')' := by
  cases n with
  | numeric t =>
    obtain ⟨kind, width, hwidth⟩ := t
    cases kind <;> exact ⟨_, _, rfl, by decide, by decide⟩
  | text kind => cases kind <;> exact ⟨_, _, rfl, by decide, by decide⟩
  | function | sum | product => cases hs
  | closure | record => cases hn
  | _ => exact ⟨_, _, rfl, by decide, by decide⟩

theorem notMem_stops_of_mem_render {c : Char} {k : Nat} (hc : c ∈ (Numeral.render 10 k).toList) :
    c ∉ [' ', ')'] := by
  intro hstop
  simp only [List.mem_cons, List.not_mem_nil, or_false] at hstop
  rcases hstop with rfl | rfl <;> exact absurd hc (Numeral.notMem_render (by decide) k)

theorem notMem_stops_of_mem_optionalNumber {c : Char} {k : Nat} (hc : c ∈ optionalNumber k) :
    c ∉ [' ', ')'] := by
  unfold optionalNumber at hc
  split at hc
  · exact absurd hc List.not_mem_nil
  · exact notMem_stops_of_mem_render hc

/-- Names that are not compound can be told from what follows them if the operands of elements can. -/
theorem simpleName_append_inj (hn : n.isReadable = true) (hns : n.isCompound = false)
    (hm : m.isReadable = true) (hms : m.isCompound = false)
    (hinj : ∀ p ∈ n.parts, ∀ q ∈ m.parts, ∀ u v, Breaks u → Breaks v → operand p ++ u = operand q ++ v →
      p = q ∧ u = v)
    (hu : Breaks u) (hv : Breaks v) (h : n.simpleName operand ++ u = m.simpleName operand ++ v) :
    n.Alike m ∧ u = v := by
  have hform : n.ctorIdx = m.ctorIdx := by
    rw [← formOfName_simpleName hn hns u, h, formOfName_simpleName hm hms]
  -- The first letters leave two nodes of one form.
  cases n <;> cases m <;> try first | (cases hform; done) | (cases hns; done) | (cases hn; done)
  case numeric.numeric t t' =>
    obtain ⟨kind, width, _⟩ := t
    obtain ⟨kind', width', _⟩ := t'
    simp only [simpleName, List.append_assoc] at h
    obtain ⟨rfl, hwidth⟩ := NumericKind.letters_append_inj h
    obtain ⟨hnumber, huv⟩ := append_inj_of_stops (fun _ => notMem_stops_of_mem_optionalNumber)
      (fun _ => notMem_stops_of_mem_optionalNumber) hu hv hwidth
    obtain rfl := optionalNumber_injective hnumber
    exact ⟨.refl _, huv⟩
  case text.text kind kind' =>
    have hletters : ∀ k : TextKind, ∀ c ∈ k.letters, c ∉ [' ', ')'] := by
      intro k
      cases k <;> simp [TextKind.letters]
    obtain ⟨hname, huv⟩ := append_inj_of_stops (hletters kind) (hletters kind') hu hv h
    obtain rfl := TextKind.letters_injective hname
    exact ⟨.refl _, huv⟩
  case placeholder.placeholder k usage k' usage' =>
    obtain ⟨hnumber, huv⟩ := append_inj_of_stops (fun _ => notMem_stops_of_mem_render)
      (fun _ => notMem_stops_of_mem_render) hu hv (List.cons.inj h).2
    obtain rfl := Numeral.render_injective hnumber
    exact ⟨.placeholder k usage usage', huv⟩
  case array.array element length element' length' =>
    simp only [simpleName, List.cons_append, List.append_assoc, List.cons.injEq, true_and] at h
    obtain ⟨hlength, helement⟩ := append_mark_inj (notMem_optionalNumber (by decide) length)
      (notMem_optionalNumber (by decide) length') h
    obtain rfl := optionalNumber_injective hlength
    obtain ⟨rfl, huv⟩ := hinj element (.head _) element' (.head _) u v hu hv helement
    exact ⟨.refl _, huv⟩
  -- The others are one node without components and data.
  all_goals exact ⟨.refl _, List.append_cancel_left h⟩

/-! ### Compound names -/

theorem mem_parts_of_mem_operands {p : TypeId} (h : some p ∈ n.operands) : p ∈ n.parts := by
  cases n with
  | function result params => 
    cases params with
    | nil => simp_all [operands, parts]
    | cons q params => simp_all [operands, parts, or_comm, or_left_comm]
  | sum | product => simpa [operands, parts] using h
  | _ => cases h

/-- The name of a compound type has a mark in it. -/
theorem two_le_length_operands (hn : n.isReadable = true) (hc : n.isCompound = true)
    (hsum : ∀ cases, n = .sum cases → 2 ≤ cases.length) : 2 ≤ n.operands.length := by
  cases n with
  | function result params => cases params <;> simp [operands]
  | sum cases => simpa [operands] using hsum cases rfl
  | product components => simpa [operands, isReadable] using hn
  | _ => cases hc

/-- The operands of a function determine its parameters, as the last one is its result. -/
theorem function_of_operands {result result' : TypeId} {params params' : List TypeId}
    (h : (function result params).operands = (function result' params').operands) :
    function result params = function result' params' := by
  have hsome : ∀ {xs ys : List TypeId} {r s : TypeId},
      xs.map some ++ [some r] = ys.map some ++ [some s] → xs = ys ∧ r = s := by
    intro xs ys r s h
    obtain ⟨hmap, hlast⟩ := List.append_inj' h rfl
    exact ⟨List.map_injective_iff.mpr (Option.some_injective _) hmap, by simpa using hlast⟩
  cases params <;> cases params'
  case nil.nil => simp_all [operands]
  case nil.cons => simp [operands] at h
  case cons.nil => simp [operands] at h
  case cons.cons =>
    obtain ⟨hparams, rfl⟩ := hsome h
    rw [hparams]

/-- A compound type is determined by its mark and its operands. -/
theorem eq_of_operands (hn : n.isCompound = true) (hm : m.isCompound = true) (hmark : n.mark = m.mark)
    (h : n.operands = m.operands) : n = m := by
  have hmap : ∀ {xs ys : List TypeId}, xs.map some = ys.map some → xs = ys :=
    fun h => List.map_injective_iff.mpr (Option.some_injective _) h
  cases n <;> cases m <;> try first | (cases hn; done) | (cases hm; done) | (cases hmark; done)
  case function.function => exact function_of_operands h
  case sum.sum => rw [hmap h]
  case product.product => rw [hmap h]

end TypeNode

/-! ### Tables -/

namespace TypeTable

variable {a : TypeTable} {s t : TypeId} {u v : List Char}

/-- The types whose names say all about them: no closures, records or products of one component, neither they
themselves nor their components. -/
inductive Readable (a : TypeTable) : TypeId → Prop where
  | node {t : TypeId} (h : (a.node t).isReadable = true) (hparts : ∀ p ∈ (a.node t).parts, Readable a p) :
      Readable a t

theorem Readable.isReadable (h : a.Readable t) : (a.node t).isReadable = true := by
  cases h
  assumption

theorem Readable.of_mem_parts (h : a.Readable t) {p : TypeId} (hp : p ∈ (a.node t).parts) :
    a.Readable p := by
  cases h with
  | node _ hparts => exact hparts p hp

/-- In a table without closures, records and products of one component all names say all. -/
theorem readable_of_forall_node (h : ∀ n ∈ a.nodes, n.isReadable = true) (ht : a.Holds t) :
    a.Readable t := by
  induction hi : t.index using Nat.strong_induction_on generalizing t with
  | _ i ih =>
    exact .node (h _ (Array.mem_of_getElem? ht.getElem?))
      fun p hp => ih p.index (hi ▸ index_lt_of_mem_parts hp) (ht.of_mem_parts hp) rfl

/-- The letters of the name of a type. -/
def letters (a : TypeTable) (t : TypeId) : List Char :=
  (a.display t).toList

/-- The letters of an operand: of a type, or of the missing parameters of a function. -/
def operand (a : TypeTable) : Option TypeId → List Char
  | none => ['(', ')']
  | some t => if (a.node t).isCompound then '(' :: (a.letters t ++ [')']) else a.letters t

theorem isCompound_tree (a : TypeTable) (t : TypeId) : (a.tree t).isCompound = (a.node t).isCompound := by
  rw [tree_eq]
  cases a.node t <;> rfl

theorem toList_enclose (a : TypeTable) (t : TypeId) :
    ((a.tree t).enclose (a.tree t).display).toList = a.operand (some t) := by
  rw [TypeTree.enclose, isCompound_tree, operand]
  split <;> simp [letters, display]

theorem toList_displayOperands (a : TypeTable) (ts : List TypeId) :
    (TypeTree.displayOperands (ts.map a.tree)).map String.toList = (ts.map some).map a.operand := by
  induction ts with
  | nil => rfl
  | cons t ts ih => simp only [List.map_cons, TypeTree.displayOperands, toList_enclose, ih]

/-- The name of a type that is not compound. -/
theorem letters_of_simple (hn : (a.node t).isReadable = true) (hs : (a.node t).isCompound = false) :
    a.letters t = (a.node t).simpleName fun p => a.operand (some p) := by
  rw [letters, display, tree_eq]
  generalize a.node t = n at hn hs
  cases n with
  | numeric x =>
    simp only [TypeNode.treeWith, TypeTree.display, NumericType.name, NumericType.isUnbounded, beq_iff_eq,
      TypeNode.simpleName, optionalNumber]
    split <;> simp [NumericKind.toList_name]
  | text kind => exact TextKind.toList_name kind
  | array element length =>
    simp only [TypeNode.treeWith, TypeTree.display, String.toList_append, toList_enclose, TypeNode.simpleName,
      optionalNumber]
    split <;> simp
  | placeholder k usage => simp [TypeNode.treeWith, TypeTree.display, TypeNode.simpleName]
  | function | sum | product => cases hs
  | closure | record => cases hn
  | _ => simp [TypeNode.treeWith, TypeTree.display, TypeNode.simpleName]

/-- The name of a compound type. -/
theorem letters_of_compound (hc : (a.node t).isCompound = true) :
    a.letters t = (a.node t).mark.chars.intercalate ((a.node t).operands.map a.operand) := by
  rw [letters, display, tree_eq]
  generalize a.node t = n at hc
  cases n with
  | function result params =>
    cases params with
    | nil => simp [TypeNode.treeWith, TypeTree.display, TypeTree.displayOperands, toList_enclose,
        TypeNode.operands, TypeNode.mark, Mark.chars, operand]
    | cons p params =>
      have hnames := toList_displayOperands a (p :: params)
      simp_all [TypeNode.treeWith, TypeTree.display, TypeTree.displayOperands, toList_enclose,
        TypeNode.operands, TypeNode.mark, Mark.chars]
  | sum cases =>
    simp [TypeNode.treeWith, TypeTree.display, toList_displayOperands, TypeNode.operands, TypeNode.mark,
      Mark.chars]
  | product components =>
    simp [TypeNode.treeWith, TypeTree.display, toList_displayOperands, TypeNode.operands, TypeNode.mark,
      Mark.chars]
  | _ => cases hc

theorem operand_of_simple (hs : (a.node t).isCompound = false) : a.operand (some t) = a.letters t := by
  simp [operand, hs]

/-- What stands between the marks of a name: the operands of a compound type, and any other type itself. -/
def pieces (a : TypeTable) (t : TypeId) : List (Option TypeId) :=
  if (a.node t).isCompound then (a.node t).operands else [some t]

theorem letters_eq_joined (a : TypeTable) (t : TypeId) :
    a.letters t = (a.node t).mark.chars.intercalate ((a.pieces t).map a.operand) := by
  unfold pieces
  split
  case isTrue hc => exact letters_of_compound hc
  case isFalse hc => simp [operand_of_simple (Bool.eq_false_iff.mpr hc)]

/-- Parentheses stand around compound operands only. -/
theorem operand_append_ne (hcs : (a.node s).isCompound = true) (hrt : a.Readable t)
    (hct : (a.node t).isCompound = false) : a.operand (some s) ++ u ≠ a.operand (some t) ++ v := by
  intro h
  obtain ⟨c, cs, hname, hc, -⟩ := TypeNode.exists_cons_simpleName (fun p => a.operand (some p)) hrt.isReadable hct
  rw [operand_of_simple hct, letters_of_simple hrt.isReadable hct, hname, operand, if_pos hcs] at h
  exact hc (List.cons.inj h).1.symm

theorem mem_parts_of_mem_pieces (hc : (a.node t).isCompound = true) {p : TypeId}
    (h : some p ∈ a.pieces t) : p ∈ (a.node t).parts := by
  rw [pieces, if_pos hc] at h
  exact TypeNode.mem_parts_of_mem_operands h

theorem Holds.of_mem_pieces (ht : a.Holds t) {p : TypeId} (h : some p ∈ a.pieces t) : a.Holds p := by
  cases hc : (a.node t).isCompound with
  | true => exact ht.of_mem_parts (mem_parts_of_mem_pieces hc h)
  | false =>
    obtain rfl : p = t := by simpa [pieces, hc] using h
    exact ht

theorem Readable.of_mem_pieces (hr : a.Readable t) {p : TypeId} (h : some p ∈ a.pieces t) : a.Readable p := by
  cases hc : (a.node t).isCompound with
  | true => exact hr.of_mem_parts (mem_parts_of_mem_pieces hc h)
  | false =>
    obtain rfl : p = t := by simpa [pieces, hc] using h
    exact hr

/-- Whether one operand can be told from another, whatever follows them. -/
def TellsApart (a : TypeTable) (o o' : Option TypeId) : Prop :=
  ∀ u v, Breaks u → Breaks v → a.operand o ++ u = a.operand o' ++ v → o = o' ∧ u = v

namespace Canonical

theorem two_le_length_operands (ha : a.Canonical) (hr : a.Readable t)
    (hc : (a.node t).isCompound = true) : 2 ≤ (a.node t).operands.length :=
  TypeNode.two_le_length_operands hr.isReadable hc fun _ hn =>
    (ha.sums _ _ (getElem?_of_node_sum hn)).two_le

theorem pieces_ne_nil (ha : a.Canonical) (hr : a.Readable t) : a.pieces t ≠ [] := by
  unfold pieces
  split
  case isTrue hc =>
    have := ha.two_le_length_operands hr hc
    exact List.ne_nil_of_length_pos (by omega)
  case isFalse => exact List.cons_ne_nil _ _

/-- The pieces determine the type, and the mark between them if there is one. -/
theorem eq_of_pieces (ha : a.Canonical) (hs : a.Holds s) (ht : a.Holds t) (hrs : a.Readable s)
    (hrt : a.Readable t) (hmark : 2 ≤ (a.pieces s).length → (a.node s).mark = (a.node t).mark)
    (h : a.pieces s = a.pieces t) : s = t := by
  -- A compound type has two pieces or more, any other type one.
  unfold pieces at h hmark
  cases hcs : (a.node s).isCompound <;> cases hct : (a.node t).isCompound <;>
    simp only [hcs, hct, if_true, if_false, Bool.false_eq_true] at h hmark
  case false.false => simpa using h
  case false.true =>
    have := ha.two_le_length_operands hrt hct
    simp [← h] at this
  case true.false =>
    have := ha.two_le_length_operands hrs hcs
    simp [h] at this
  case true.true =>
    have hmark := hmark (ha.two_le_length_operands hrs hcs)
    exact ha.eq_of_node_eq hs ht (TypeNode.eq_of_operands hcs hct hmark h)

/-- A whole name can be told from what follows it if its pieces can. -/
theorem letters_append_inj_of_pieces (ha : a.Canonical) (hs : a.Holds s) (ht : a.Holds t)
    (hrs : a.Readable s) (hrt : a.Readable t)
    (hinj : ∀ o ∈ a.pieces s, ∀ o' ∈ a.pieces t, a.TellsApart o o') (hu : Ends u) (hv : Ends v)
    (h : a.letters s ++ u = a.letters t ++ v) : s = t ∧ u = v := by
  rw [letters_eq_joined, letters_eq_joined a t] at h
  obtain ⟨hpieces, huv, hmark⟩ :=
    joined_append_inj hinj (ha.pieces_ne_nil hrs) (ha.pieces_ne_nil hrt) hu hv h
  exact ⟨ha.eq_of_pieces hs ht hrs hrt hmark hpieces, huv⟩

/-- No name begins with the end of parentheses, so parentheses with a name in them are not empty. -/
theorem exists_cons_letters (ha : a.Canonical) (hr : a.Readable t) :
    ∃ c cs, a.letters t = c :: cs ∧ c ≠ ')' := by
  have hsimple : ∀ {t}, a.Readable t → (a.node t).isCompound = false →
      ∃ c cs, a.letters t = c :: cs ∧ c ≠ ')' := by
    intro t hr hs
    obtain ⟨c, cs, hname, -, hc⟩ := TypeNode.exists_cons_simpleName _ hr.isReadable hs
    exact ⟨c, cs, (letters_of_simple hr.isReadable hs).trans hname, hc⟩
  cases hc : (a.node t).isCompound with
  | false => exact hsimple hr hc
  | true =>
    obtain ⟨o, os, hos⟩ := List.exists_cons_of_length_pos
      (Nat.lt_of_lt_of_le (by decide) (ha.two_le_length_operands hr hc))
    -- The name begins with its first operand.
    obtain ⟨c, cs, hoperand, hne⟩ : ∃ c cs, a.operand o = c :: cs ∧ c ≠ ')' := by
      cases o with
      | none => exact ⟨_, _, rfl, by decide⟩
      | some p =>
        have hp : p ∈ (a.node t).parts :=
          TypeNode.mem_parts_of_mem_operands (hos ▸ List.mem_cons_self)
        cases hcp : (a.node p).isCompound with
        | true => exact ⟨_, _, by rw [operand, hcp, if_pos rfl], by decide⟩
        | false => exact operand_of_simple hcp ▸ hsimple (hr.of_mem_parts hp) hcp
    rw [letters_of_compound hc, hos, List.map_cons, hoperand]
    cases os with
    | nil => exact ⟨c, cs, by simp, hne⟩
    | cons o' os =>
      rw [List.map_cons, List.intercalate_cons_cons, List.cons_append]
      exact ⟨c, _, rfl, hne⟩

/-- The operand of a type cannot be taken for missing parameters. -/
theorem operand_none_append_ne (ha : a.Canonical) (hr : a.Readable t) :
    a.operand none ++ u ≠ a.operand (some t) ++ v := by
  intro h
  rw [operand, operand] at h
  split at h
  case isTrue =>
    obtain ⟨c, cs, hletters, hc⟩ := ha.exists_cons_letters hr
    simp only [hletters, List.cons_append, List.nil_append, List.cons.injEq, true_and] at h
    exact hc h.1.symm
  case isFalse hs =>
    have hs := Bool.eq_false_iff.mpr hs
    obtain ⟨c, cs, hname, hc, -⟩ := TypeNode.exists_cons_simpleName (fun p => a.operand (some p)) hr.isReadable hs
    simp only [letters_of_simple hr.isReadable hs, hname, List.cons_append, List.cons.injEq] at h
    exact hc h.1.symm

/-- Missing parameters can be told from every type, so of the pieces only the types matter. -/
theorem tellsApart_pieces (ha : a.Canonical) (hrs : a.Readable s) (hrt : a.Readable t)
    (h : ∀ p, some p ∈ a.pieces s → ∀ q, some q ∈ a.pieces t → a.TellsApart (some p) (some q)) :
    ∀ o ∈ a.pieces s, ∀ o' ∈ a.pieces t, a.TellsApart o o' := by
  intro o ho o' ho' u v hu hv heq
  cases o with
  | none =>
    cases o' with
    | none => exact ⟨rfl, List.append_cancel_left heq⟩
    | some q => exact absurd heq (ha.operand_none_append_ne (hrt.of_mem_pieces ho'))
  | some p =>
    cases o' with
    | none => exact absurd heq.symm (ha.operand_none_append_ne (hrs.of_mem_pieces ho))
    | some q => exact h p ho q ho' u v hu hv heq

/-- A type can be told from another if the components can. -/
theorem tellsApart_of_parts (ha : a.Canonical) (hs : a.Holds s) (ht : a.Holds t) (hrs : a.Readable s)
    (hrt : a.Readable t)
    (hparts : ∀ p ∈ (a.node s).parts, ∀ q ∈ (a.node t).parts, a.TellsApart (some p) (some q)) :
    a.TellsApart (some s) (some t) := by
  intro u v hu hv h
  cases hcs : (a.node s).isCompound <;> cases hct : (a.node t).isCompound
  case false.true => exact absurd h.symm (operand_append_ne hct hrs hcs)
  case true.false => exact absurd h (operand_append_ne hcs hrt hct)
  case false.false =>
    rw [operand_of_simple hcs, operand_of_simple hct, letters_of_simple hrs.isReadable hcs,
      letters_of_simple hrt.isReadable hct] at h
    obtain ⟨halike, huv⟩ := TypeNode.simpleName_append_inj hrs.isReadable hcs hrt.isReadable hct
      (fun p hp q hq u v hu hv h => by simpa using hparts p hp q hq u v hu hv h) hu hv h
    exact ⟨congrArg some (ha.eq_of_alike hs ht halike), huv⟩
  case true.true =>
    have hpieces := ha.tellsApart_pieces hrs hrt fun p hp q hq =>
      hparts p (mem_parts_of_mem_pieces hcs hp) q (mem_parts_of_mem_pieces hct hq)
    -- Both stand between parentheses.
    simp only [operand, hcs, hct, if_true, List.cons_append, List.append_assoc, List.cons.injEq,
      true_and] at h
    obtain ⟨rfl, huv⟩ := ha.letters_append_inj_of_pieces hs ht hrs hrt hpieces (ends_closing u)
      (ends_closing v) h
    exact ⟨rfl, (List.cons.inj huv).2⟩

/-- Every type can be told from every other. -/
theorem tellsApart (ha : a.Canonical) (hs : a.Holds s) (ht : a.Holds t) (hrs : a.Readable s)
    (hrt : a.Readable t) : a.TellsApart (some s) (some t) := by
  -- By induction on the handle, as components have smaller ones.
  induction hi : s.index using Nat.strong_induction_on generalizing s t with
  | _ i ih =>
    exact ha.tellsApart_of_parts hs ht hrs hrt fun p hp q hq =>
      ih p.index (hi ▸ index_lt_of_mem_parts hp) (hs.of_mem_parts hp) (ht.of_mem_parts hq)
        (hrs.of_mem_parts hp) (hrt.of_mem_parts hq) rfl

end Canonical

/-- In every table that calls of builders make, different types have different names, unless a closure, a
record or a product of one component is part of one. -/
theorem names_read_unambiguously (ha : a.Reachable) (hs : a.Holds s) (ht : a.Holds t)
    (hrs : a.Readable s) (hrt : a.Readable t) (hne : s ≠ t) : a.display s ≠ a.display t := by
  intro h
  have hnames : a.letters s ++ [] = a.letters t ++ [] := by rw [letters, h, letters]
  have hpieces := ha.canonical.tellsApart_pieces hrs hrt fun p hp q hq =>
    ha.canonical.tellsApart (hs.of_mem_pieces hp) (ht.of_mem_pieces hq) (hrs.of_mem_pieces hp)
      (hrt.of_mem_pieces hq)
  exact hne (ha.canonical.letters_append_inj_of_pieces hs ht hrs hrt hpieces ends_nil ends_nil hnames).1

/-- An array of functions and a function from arrays read alike but for the parentheses. -/
theorem names_read_unambiguously_parentheses :
    let a : TypeTable := [BuilderCall.numeric ⟨.nat, 16, by decide⟩, .array ⟨14⟩ 0, .function [⟨15⟩] .bool,
      .function [⟨14⟩] .bool, .array ⟨17⟩ 0].foldl (fun a c => (c.run a).2) initial
    a.Reachable ∧ a.Readable ⟨16⟩ ∧ a.Readable ⟨18⟩ ∧ a.display ⟨16⟩ ≠ a.display ⟨18⟩ := by
  intro a
  have ha : a.Reachable :=
    ((((GrowsTo.refl.call (.numeric ⟨.nat, 16, by decide⟩) ⟨by decide, fun _ _ h => nomatch h⟩).call
      (.array ⟨14⟩ 0) ⟨by decide, fun _ _ h => nomatch h⟩).call
      (.function [⟨15⟩] .bool) ⟨by decide, fun _ _ h => nomatch h⟩).call
      (.function [⟨14⟩] .bool) ⟨by decide, fun _ _ h => nomatch h⟩).call
      (.array ⟨17⟩ 0) ⟨by decide, fun _ _ h => nomatch h⟩
  have hall : ∀ n ∈ a.nodes, n.isReadable = true := by decide
  have hs : a.Readable ⟨16⟩ := readable_of_forall_node hall (by decide)
  have ht : a.Readable ⟨18⟩ := readable_of_forall_node hall (by decide)
  exact ⟨ha, hs, ht, names_read_unambiguously ha (by decide) (by decide) hs ht (by decide)⟩

end TypeTable

end NumericTower
