import Mathlib
import NumericTower.Proofs.TypeTable.Growth

/-!
# Canonical type tables

In every table that builders make, each node is stored once and found again under its own handle, and sums
and products are in normal form. Handles therefore stand for different types exactly if they differ.

## Key results
- `TypeTable.Canonical`: the invariant
- `TypeTable.Reachable.canonical`: every call of a builder keeps it
- `TypeTable.Canonical.tree_injective`: handles that stand for the same type are the same
- `TypeTable.handles_stand_for_types`: the invariant, handles as types, and what later calls keep
-/

namespace NumericTower

/-! ### Nodes by their trees -/

/-- A function that tells the elements of two lists apart tells the lists apart. -/
theorem eq_of_map_eq {α β : Type} {f : α → β} {xs ys : List α}
    (hinj : ∀ x ∈ xs, ∀ y ∈ ys, f x = f y → x = y) (h : xs.map f = ys.map f) : xs = ys := by
  induction xs generalizing ys with
  | nil => exact (List.map_eq_nil_iff.mp h.symm).symm
  | cons x xs ih =>
    cases ys with
    | nil => exact nomatch h
    | cons y ys =>
      obtain ⟨hhead, htail⟩ := List.cons.inj h
      rw [hinj x List.mem_cons_self y List.mem_cons_self hhead,
        ih (fun x' hx y' hy => hinj x' (.tail _ hx) y' (.tail _ hy)) htail]

/-- Nodes are the same if their types are and no two of their components stand for one type. -/
theorem TypeNode.eq_of_treeWith_eq {f : TypeId → TypeTree} {n m : TypeNode}
    (hinj : ∀ p ∈ n.parts, ∀ q ∈ m.parts, f p = f q → p = q) (h : n.treeWith f = m.treeWith f) :
    n = m := by
  -- Types of different shapes differ; what is left are two nodes of one shape.
  cases n <;> cases m <;> try first | rfl | exact TypeTree.noConfusion h
  case numeric.numeric => exact congrArg numeric (TypeTree.numeric.inj h)
  case text.text => exact congrArg text (TypeTree.text.inj h)
  case placeholder.placeholder =>
    obtain ⟨rfl, rfl⟩ := TypeTree.placeholder.inj h
    rfl
  case array.array element length element' length' =>
    obtain ⟨helement, rfl⟩ := TypeTree.array.inj h
    rw [hinj element List.mem_cons_self element' List.mem_cons_self helement]
  case function.function result params result' params' =>
    obtain ⟨hresult, hparams⟩ := TypeTree.function.inj h
    rw [hinj result List.mem_cons_self result' List.mem_cons_self hresult,
      eq_of_map_eq (fun p hp q hq => hinj p (.tail _ hp) q (.tail _ hq)) hparams]
  case closure.closure fn closed fn' closed' =>
    obtain ⟨hfn, hclosed⟩ := TypeTree.closure.inj h
    rw [hinj fn List.mem_cons_self fn' List.mem_cons_self hfn,
      eq_of_map_eq (fun p hp q hq => hinj p (.tail _ hp) q (.tail _ hq)) hclosed]
  case sum.sum => exact congrArg sum (eq_of_map_eq hinj (TypeTree.sum.inj h))
  case product.product => exact congrArg product (eq_of_map_eq hinj (TypeTree.product.inj h))
  case record.record fields fields' =>
    refine congrArg record (eq_of_map_eq (fun p hp q hq hpq => ?_) (TypeTree.record.inj h))
    obtain ⟨hname, htype⟩ := Prod.mk.inj hpq
    have := hinj p.type (List.mem_map_of_mem hp) q.type (List.mem_map_of_mem hq) htype
    cases p
    cases q
    simp_all

namespace TypeTable

variable {a b : TypeTable} {n : TypeNode} {s t : TypeId}

/-! ### The invariant -/

/-- The cases of a sum in normal form: at least two, in ascending order, none of them a sum, the top or the
bottom type. -/
structure NormalCases (a : TypeTable) (cases : List TypeId) : Prop where
  two_le : 2 ≤ cases.length
  ascending : cases.Pairwise (·.index < ·.index)
  flat : ∀ c ∈ cases, ∀ inner, a.node c ≠ .sum inner
  top_notMem : .top ∉ cases
  bottom_notMem : .bottom ∉ cases

/-- Whether a node that is new to the table may be stored in it. -/
def Admits (a : TypeTable) : TypeNode → Prop
  | .sum cases => a.NormalCases cases
  | .product components => components ≠ []
  | .placeholder k _ => k < a.nextPlaceholder ∧
      ∀ (i : Nat) (usage : OpSet), a.nodes[i]? ≠ some (.placeholder k usage)
  | _ => True

/-- Every node is stored once, and all nodes are in normal form. -/
structure Canonical (a : TypeTable) : Prop where
  find?_eq_some_iff : ∀ n t, a.find? n = some t ↔ a.nodes[t.index]? = some n
  reserved : initial.Extends a
  sums : ∀ (i : Nat) (cases : List TypeId), a.nodes[i]? = some (.sum cases) → a.NormalCases cases
  products : ∀ i : Nat, a.nodes[i]? ≠ some (.product [])
  placeholder_lt : ∀ (i k : Nat) (usage : OpSet),
    a.nodes[i]? = some (.placeholder k usage) → k < a.nextPlaceholder
  placeholder_unique : ∀ (i j k : Nat) (usage usage' : OpSet),
    a.nodes[i]? = some (.placeholder k usage) → a.nodes[j]? = some (.placeholder k usage') → i = j

theorem NormalCases.mono {cases : List TypeId} (h : a.NormalCases cases) (hab : a.Extends b)
    (hcases : ∀ c ∈ cases, a.Holds c) : b.NormalCases cases where
  two_le := h.two_le
  ascending := h.ascending
  flat c hc inner := by
    rw [hab.node_eq (hcases c hc)]
    exact h.flat c hc inner
  top_notMem := h.top_notMem
  bottom_notMem := h.bottom_notMem

/-- The reserved types have no components and are no placeholders. -/
theorem ne_of_getElem?_initial {i : Nat} (h : initial.nodes[i]? = some n) :
    (∀ cases, n ≠ .sum cases) ∧ n ≠ .product [] ∧ ∀ k usage, n ≠ .placeholder k usage := by
  have hmem : n ∈ reservedNodes := Array.mem_of_getElem? h
  revert hmem
  simp only [reservedNodes, List.mem_toArray, List.mem_cons, List.not_mem_nil, or_false]
  rintro (rfl | rfl | rfl | rfl | rfl | rfl | rfl | rfl | rfl | rfl | rfl | rfl | rfl | rfl) <;> simp

theorem canonical_initial : initial.Canonical where
  find?_eq_some_iff n t := by
    constructor
    · intro h
      have hids : ∀ e ∈ initial.ids, initial.nodes[e.2.index]? = some e.1 := by decide
      obtain ⟨before, after, hmem, -⟩ := List.lookup_eq_some_iff.mp h
      exact hids (n, t) (by simp [hmem])
    · intro h
      have hfind : ∀ i : Fin 14, initial.find? reservedNodes[i] = some ⟨i⟩ := by decide
      obtain ⟨hi, rfl⟩ := Array.getElem?_eq_some_iff.mp h
      exact hfind ⟨t.index, hi⟩
  reserved := .refl _
  sums i cases h := absurd rfl ((ne_of_getElem?_initial h).1 cases)
  products i h := absurd rfl (ne_of_getElem?_initial h).2.1
  placeholder_lt i k usage h := absurd rfl ((ne_of_getElem?_initial h).2.2 k usage)
  placeholder_unique i j k usage usage' h _ := absurd rfl ((ne_of_getElem?_initial h).2.2 k usage)

namespace Canonical

/-- A node is stored in one place only. -/
theorem index_eq (ha : a.Canonical) {i j : Nat} (hi : a.nodes[i]? = some n)
    (hj : a.nodes[j]? = some n) : i = j := by
  have hs := (ha.find?_eq_some_iff n ⟨i⟩).mpr hi
  have ht := (ha.find?_eq_some_iff n ⟨j⟩).mpr hj
  exact congrArg TypeId.index (Option.some.inj (hs.symm.trans ht))

/-- Handles that stand for the same node are the same. -/
theorem eq_of_node_eq (ha : a.Canonical) (hs : a.Holds s) (ht : a.Holds t)
    (h : a.node s = a.node t) : s = t :=
  TypeId.eq_of_index_eq (ha.index_eq hs.getElem? (h ▸ ht.getElem?))

/-- Handles that stand for the same type are the same. -/
theorem tree_injective (ha : a.Canonical) (hs : a.Holds s) (ht : a.Holds t)
    (h : a.tree s = a.tree t) : s = t := by
  -- The components are older, so those that stand for the same type are the same already.
  induction hi : s.index using Nat.strong_induction_on generalizing s t with
  | _ i ih =>
    rw [tree_eq, tree_eq a t] at h
    refine ha.eq_of_node_eq hs ht (TypeNode.eq_of_treeWith_eq (fun p hp q hq hpq => ?_) h)
    exact ih p.index (hi ▸ index_lt_of_mem_parts hp) (hs.of_mem_parts hp) (ht.of_mem_parts hq) hpq rfl

/-! ### Storing a node -/

theorem getElem?_push_eq_some_iff (h : ∀ p ∈ n.parts, p.index < a.nodes.size) {i : Nat}
    {m : TypeNode} :
    (a.push n h).nodes[i]? = some m ↔ i = a.nodes.size ∧ n = m ∨ a.nodes[i]? = some m := by
  rw [TypeTable.push, Array.getElem?_push]
  split
  · next hi => simp [hi]
  · next hi => simp [hi]

theorem find?_push (h : ∀ p ∈ n.parts, p.index < a.nodes.size) (m : TypeNode) :
    (a.push n h).find? m = if m = n then some ⟨a.nodes.size⟩ else a.find? m := by
  rw [find?, push, List.lookup_cons]
  by_cases hm : m = n
  · rw [if_pos hm, beq_iff_eq.mpr hm]
  · rw [if_neg hm, beq_false_of_ne hm]
    rfl

theorem push (ha : a.Canonical) (hnew : a.find? n = none)
    (h : ∀ p ∈ n.parts, p.index < a.nodes.size) (hn : a.Admits n) : (a.push n h).Canonical where
  find?_eq_some_iff m t := by
    rw [find?_push, getElem?_push_eq_some_iff, ← ha.find?_eq_some_iff]
    by_cases hm : m = n
    · -- The node was not stored before, so its only place is the new one.
      subst hm
      rw [if_pos rfl, hnew]
      cases t
      simp [eq_comm]
    · rw [if_neg hm]
      simp [Ne.symm hm]
  reserved := ha.reserved.trans (extends_push a n h)
  sums i cases hi := by
    rcases (getElem?_push_eq_some_iff h).mp hi with ⟨-, rfl⟩ | hi
    · exact NormalCases.mono hn (extends_push a _ h) h
    · exact (ha.sums i cases hi).mono (extends_push a n h) fun c hc => holds_of_mem_parts hi hc
  products i hi := by
    rcases (getElem?_push_eq_some_iff h).mp hi with ⟨-, rfl⟩ | hi
    · exact hn rfl
    · exact ha.products i hi
  placeholder_lt i k usage hi := by
    rcases (getElem?_push_eq_some_iff h).mp hi with ⟨-, rfl⟩ | hi
    · exact hn.1
    · exact ha.placeholder_lt i k usage hi
  placeholder_unique i j k usage usage' hi hj := by
    rcases (getElem?_push_eq_some_iff h).mp hi with ⟨hi', rfl⟩ | hi'
    · rcases (getElem?_push_eq_some_iff h).mp hj with ⟨hj', -⟩ | hj'
      · exact hi'.trans hj'.symm
      · exact absurd hj' (hn.2 j usage')
    · rcases (getElem?_push_eq_some_iff h).mp hj with ⟨-, rfl⟩ | hj'
      · exact absurd hi' (hn.2 i usage)
      · exact ha.placeholder_unique i j k usage usage' hi' hj'

/-- Storing a node keeps the invariant, and the handle that is returned is the one of the node. -/
theorem intern (ha : a.Canonical) (h : ∀ p ∈ n.parts, a.Holds p) (hn : a.Admits n) :
    (intern n a).2.Canonical ∧ (intern n a).2.nodes[(intern n a).1.index]? = some n := by
  rw [TypeTable.intern]
  cases hfind : a.find? n with
  | some t => exact ⟨ha, (ha.find?_eq_some_iff n t).mp hfind⟩
  | none =>
    have hparts : ∀ p ∈ n.parts, p.index < a.nodes.size := h
    simp only [dif_pos hparts]
    exact ⟨ha.push hfind h hn, (getElem?_push_eq_some_iff h).mpr (Or.inl ⟨rfl, rfl⟩)⟩

/-- A node with components that the table does not hold is not stored, so the invariant is kept in any
case. -/
theorem canonical_intern (ha : a.Canonical) (hn : a.Admits n) : (TypeTable.intern n a).2.Canonical := by
  rw [TypeTable.intern]
  split
  · exact ha
  · next hfind =>
    split
    · next hparts => exact ha.push hfind hparts hn
    · exact ha

/-- The handles that are the same in every table are held. -/
theorem holds_of_isReserved (ha : a.Canonical) (ht : t.isReserved) : a.Holds t :=
  ha.reserved.holds (show t.index < TypeId.reservedCount from of_decide_eq_true ht)

theorem node_of_isReserved (ha : a.Canonical) (ht : t.isReserved) : a.node t = initial.node t :=
  ha.reserved.node_eq (show t.index < TypeId.reservedCount from of_decide_eq_true ht)

/-- A type with another node is not the reserved one. -/
theorem ne_of_node_ne (ha : a.Canonical) (ht : t.isReserved) (h : a.node s ≠ initial.node t) : s ≠ t := by
  rintro rfl
  exact h (ha.node_of_isReserved ht)

end Canonical

/-! ### Cases of sums -/

theorem mem_insertCase {c d : TypeId} {cases : List TypeId} :
    d ∈ insertCase c cases ↔ d = c ∨ d ∈ cases := by
  induction cases with
  | nil => simp [insertCase]
  | cons e cases ih =>
    rw [insertCase]
    split
    · simp
    · split
      · next heq =>
        -- A handle that is there already is not put in again.
        have hce : c = e := TypeId.eq_of_index_eq heq
        simp [hce]
      · simp only [List.mem_cons, ih]
        tauto

theorem pairwise_insertCase {c : TypeId} {cases : List TypeId}
    (h : cases.Pairwise (·.index < ·.index)) : (insertCase c cases).Pairwise (·.index < ·.index) := by
  induction cases with
  | nil => exact List.pairwise_singleton _ c
  | cons e cases ih =>
    obtain ⟨he, hrest⟩ := List.pairwise_cons.mp h
    rw [insertCase]
    split
    · next hlt =>
      refine List.pairwise_cons.mpr ⟨fun d hd => ?_, h⟩
      rcases List.mem_cons.mp hd with rfl | hd
      · exact hlt
      · exact hlt.trans (he d hd)
    · split
      · exact h
      · next hnlt hne =>
        refine List.pairwise_cons.mpr ⟨fun d hd => ?_, ih hrest⟩
        rcases mem_insertCase.mp hd with rfl | hd
        · omega
        · exact he d hd

theorem mem_sortCases {c : TypeId} {cases : List TypeId} : c ∈ sortCases cases ↔ c ∈ cases := by
  induction cases with
  | nil => exact Iff.rfl
  | cons d cases ih =>
    show c ∈ insertCase d (sortCases cases) ↔ _
    rw [mem_insertCase, ih, List.mem_cons]

theorem pairwise_sortCases (cases : List TypeId) :
    (sortCases cases).Pairwise (·.index < ·.index) := by
  induction cases with
  | nil => exact .nil
  | cons d cases ih => exact pairwise_insertCase ih

namespace Canonical

/-- What a held type adds to a sum is held, no sum itself and not the bottom type. -/
theorem of_mem_casesOf (ha : a.Canonical) (ht : a.Holds t) {c : TypeId} (hc : c ∈ a.casesOf t) :
    a.Holds c ∧ (∀ inner, a.node c ≠ .sum inner) ∧ c ≠ .bottom := by
  rw [casesOf] at hc
  split at hc
  · next cases hnode =>
    have hstored := ht.getElem?
    rw [hnode] at hstored
    have hnormal := ha.sums _ _ hstored
    refine ⟨ht.of_mem_parts (by rwa [hnode]), hnormal.flat c hc, ?_⟩
    rintro rfl
    exact hnormal.bottom_notMem hc
  · exact nomatch hc
  · next hsum hbottom =>
    obtain rfl := List.mem_singleton.mp hc
    refine ⟨ht, hsum, ?_⟩
    rintro rfl
    exact hbottom (ha.node_of_isReserved rfl)

end Canonical

/-! ### Calls of builders -/

/-- A call of a builder on handles. -/
inductive BuilderCall where
  | numeric (t : NumericType)
  | text (kind : TextKind)
  | placeholder (usage : OpSet)
  | array (element : TypeId) (length : Nat)
  | function (params : List TypeId) (result : TypeId)
  | closure (fn : TypeId) (closed : List TypeId)
  | sum (types : List TypeId)
  | product (components : List TypeId)
  | record (fields : List RecordField)

namespace BuilderCall

/-- The handle that the call returns, and the table after it. -/
def run : BuilderCall → TypeTableM TypeId
  | .numeric t => TypeTable.numeric t
  | .text kind => pure kind.typeId
  | .placeholder usage => TypeTable.placeholder usage
  | .array element length => TypeTable.array element length
  | .function params result => TypeTable.function params result
  | .closure fn closed => TypeTable.closure fn closed
  | .sum types => TypeTable.sum types
  | .product components => TypeTable.product components
  | .record fields => TypeTable.record fields

/-- The handles that the call is given. -/
def args : BuilderCall → List TypeId
  | .array element _ => [element]
  | .function params result => result :: params
  | .closure fn closed => fn :: closed
  | .sum types => types
  | .product components => components
  | .record fields => fields.map (·.type)
  | _ => []

/-- The table has issued the handles of the call, and a closure is over a function. -/
structure Allowed (c : BuilderCall) (a : TypeTable) : Prop where
  issued : ∀ t ∈ c.args, a.Holds t
  overFunction : ∀ fn closed, c = .closure fn closed →
    ∃ result params, a.node fn = .function result params

end BuilderCall

/-- The tables that calls of builders make from a table. -/
inductive GrowsTo (a : TypeTable) : TypeTable → Prop where
  | refl : GrowsTo a a
  | call {b : TypeTable} (c : BuilderCall) : GrowsTo a b → c.Allowed b → GrowsTo a (c.run b).2

/-- The tables that calls of builders make from the one with the reserved types only. -/
def Reachable (a : TypeTable) : Prop :=
  initial.GrowsTo a

theorem extends_call (c : BuilderCall) (a : TypeTable) : a.Extends (c.run a).2 := by
  cases c with
  | numeric t => exact extends_numeric a t
  | text kind => exact .refl a
  | placeholder usage => exact extends_placeholder a usage
  | array element length => exact extends_intern a _
  | function params result => exact extends_intern a _
  | closure fn closed => exact extends_intern a _
  | sum types => exact extends_sum a types
  | product components => exact extends_product a components
  | record fields => exact extends_intern a _

theorem GrowsTo.extends (h : a.GrowsTo b) : a.Extends b := by
  induction h with
  | refl => exact .refl a
  | call c _ _ ih => exact ih.trans (extends_call c _)

namespace Canonical

/-- What a call returns is held by the table that it leaves, which is canonical. -/
def Issues (x : TypeId × TypeTable) : Prop :=
  x.2.Canonical ∧ x.2.Holds x.1

theorem issues_intern (ha : a.Canonical) (h : ∀ p ∈ n.parts, a.Holds p) (hn : a.Admits n) :
    Issues (TypeTable.intern n a) :=
  (ha.intern h hn).imp_right holds_of_getElem?

theorem issues_numeric (ha : a.Canonical) (t : NumericType) : Issues (numeric t a) := by
  rw [numeric]
  split
  · exact ⟨ha, ha.holds_of_isReserved (by cases t.kind <;> rfl)⟩
  · exact ha.issues_intern (fun _ hp => absurd hp List.not_mem_nil) trivial

theorem countUp (ha : a.Canonical) :
    Canonical { a with nextPlaceholder := a.nextPlaceholder + 1 } where
  find?_eq_some_iff := ha.find?_eq_some_iff
  reserved := ha.reserved
  sums i cases h := (ha.sums i cases h).mono (.refl a) fun _ hc => holds_of_mem_parts h hc
  products := ha.products
  placeholder_lt i k usage h := Nat.lt_succ_of_lt (ha.placeholder_lt i k usage h)
  placeholder_unique := ha.placeholder_unique

theorem issues_placeholder (ha : a.Canonical) (usage : OpSet) : Issues (placeholder usage a) :=
  -- The number is that of no other placeholder, stored or to come.
  ha.countUp.issues_intern (fun _ hp => absurd hp List.not_mem_nil)
    ⟨Nat.lt_succ_self _, fun i usage h => Nat.lt_irrefl _ (ha.placeholder_lt i _ usage h)⟩

/-- What held types add to a sum is held, no sum itself and not the bottom type. -/
theorem of_mem_sortCases (ha : a.Canonical) {types : List TypeId} (h : ∀ t ∈ types, a.Holds t) {c : TypeId}
    (hc : c ∈ sortCases (types.flatMap a.casesOf)) :
    a.Holds c ∧ (∀ inner, a.node c ≠ .sum inner) ∧ c ≠ .bottom := by
  obtain ⟨t, ht, hc⟩ := List.mem_flatMap.mp (mem_sortCases.mp hc)
  exact ha.of_mem_casesOf (h t ht) hc

/-- Two cases or more without the top type are in normal form when they are sorted. -/
theorem normalCases_sortCases (ha : a.Canonical) {types : List TypeId} (h : ∀ t ∈ types, a.Holds t)
    (htop : .top ∉ types.flatMap a.casesOf) (hnil : sortCases (types.flatMap a.casesOf) ≠ [])
    (hone : ∀ c, sortCases (types.flatMap a.casesOf) ≠ [c]) :
    a.NormalCases (sortCases (types.flatMap a.casesOf)) where
  two_le := by
    cases hsort : sortCases (types.flatMap a.casesOf) with
    | nil => exact absurd hsort hnil
    | cons c rest =>
      cases rest with
      | nil => exact absurd hsort (hone c)
      | cons d rest => simp
  ascending := pairwise_sortCases _
  flat c hc := (ha.of_mem_sortCases h hc).2.1
  top_notMem hmem := htop (mem_sortCases.mp hmem)
  bottom_notMem hmem := (ha.of_mem_sortCases h hmem).2.2 rfl

theorem issues_sum (ha : a.Canonical) {types : List TypeId} (h : ∀ t ∈ types, a.Holds t) :
    Issues (sum types a) := by
  rw [sum]
  split
  · exact ⟨ha, ha.holds_of_isReserved rfl⟩
  · next htop =>
    split
    · exact ⟨ha, ha.holds_of_isReserved rfl⟩
    · next c heq => exact ⟨ha, (ha.of_mem_sortCases h (by rw [heq]; exact List.mem_singleton_self c)).1⟩
    · next hnil hone =>
      have hnormal := ha.normalCases_sortCases h (by simpa using htop) hnil hone
      exact ha.issues_intern (fun c hc => (ha.of_mem_sortCases h hc).1) hnormal

theorem issues_product (ha : a.Canonical) {components : List TypeId}
    (h : ∀ t ∈ components, a.Holds t) : Issues (product components a) := by
  rw [product]
  split
  · exact ⟨ha, ha.holds_of_isReserved rfl⟩
  · next hne => exact ha.issues_intern h fun hnil => hne (List.isEmpty_iff.mpr hnil)

theorem issues_call (ha : a.Canonical) {c : BuilderCall} (hc : c.Allowed a) : Issues (c.run a) := by
  cases c with
  | numeric t => exact ha.issues_numeric t
  | text kind => exact ⟨ha, ha.holds_of_isReserved (by cases kind <;> rfl)⟩
  | placeholder usage => exact ha.issues_placeholder usage
  | array element length => exact ha.issues_intern hc.issued trivial
  | function params result => exact ha.issues_intern hc.issued trivial
  | closure fn closed => exact ha.issues_intern hc.issued trivial
  | sum types => exact ha.issues_sum hc.issued
  | product components => exact ha.issues_product hc.issued
  | record fields => exact ha.issues_intern hc.issued trivial

end Canonical

theorem GrowsTo.canonical (h : a.GrowsTo b) (ha : a.Canonical) : b.Canonical := by
  induction h with
  | refl => exact ha
  | call c _ hc ih => exact (ih.issues_call hc).1

theorem Reachable.canonical (ha : a.Reachable) : a.Canonical :=
  GrowsTo.canonical ha canonical_initial

/-- In every table that calls of builders make, no node is stored twice and each is found under its own
handle; the reserved handles stand for the reserved types; components are older than their types; sums are
flat, sorted and free of repetitions, the top and the bottom type, and have at least two cases; and no product
is empty. So two handles are the same exactly if the types that they stand for, written out in full, are. A
call returns a handle that the table holds after it, and no later calls change what a handle stands for. -/
theorem handles_stand_for_types (ha : a.Reachable) :
    (∀ (i j : Nat) (n : TypeNode), a.nodes[i]? = some n → a.nodes[j]? = some n → i = j) ∧
    (∀ n t, a.find? n = some t ↔ a.nodes[t.index]? = some n) ∧
    (∀ i < TypeId.reservedCount, a.nodes[i]? = reservedNodes[i]?) ∧
    (∀ (i : Nat) (n : TypeNode), a.nodes[i]? = some n → ∀ p ∈ n.parts, p.index < i) ∧
    (∀ (i : Nat) (cases : List TypeId), a.nodes[i]? = some (.sum cases) → a.NormalCases cases) ∧
    (∀ i : Nat, a.nodes[i]? ≠ some (.product [])) ∧
    (∀ s t, a.Holds s → a.Holds t → (s = t ↔ a.tree s = a.tree t)) ∧
    (∀ c : BuilderCall, c.Allowed a → (c.run a).2.Holds (c.run a).1) ∧
    (∀ b, a.GrowsTo b → ∀ t, a.Holds t →
      b.Holds t ∧ b.node t = a.node t ∧ b.tree t = a.tree t) := by
  have hcanonical := ha.canonical
  refine ⟨fun i j n => hcanonical.index_eq, hcanonical.find?_eq_some_iff, fun i hi => ?_,
    fun i n h p hp => older_of_getElem? h hp, hcanonical.sums, hcanonical.products,
    fun s t hs ht => ⟨fun h => h ▸ rfl, hcanonical.tree_injective hs ht⟩,
    fun c hc => (hcanonical.issues_call hc).2, fun b h t ht => ?_⟩
  · have hlt : i < reservedNodes.size := hi
    rw [Array.getElem?_eq_getElem hlt]
    exact hcanonical.reserved i _ (Array.getElem?_eq_getElem hlt)
  · exact ⟨h.extends.holds ht, h.extends.node_eq ht, h.extends.tree_eq ht⟩

/-- A sum with a repeated case, a function on it and a closure over the function. -/
theorem handles_stand_for_types_closure :
    let fn : TypeTable := (BuilderCall.run (.function [⟨14⟩] .bool)
      (BuilderCall.run (.sum [.bool, .unit, .bool]) initial).2).2
    let a : TypeTable := (BuilderCall.run (.closure ⟨15⟩ [.int]) fn).2
    a.Reachable ∧ a.find? (.sum [.unit, .bool]) = some ⟨14⟩ ∧ a.NormalCases [.unit, .bool] ∧
      a.tree ⟨15⟩ ≠ a.tree ⟨16⟩ := by
  intro fn a
  have hfn : fn.Reachable := (GrowsTo.refl.call (.sum [.bool, .unit, .bool])
    ⟨by decide, fun _ _ h => nomatch h⟩).call (.function [⟨14⟩] .bool)
      ⟨by decide, fun _ _ h => nomatch h⟩
  have ha : a.Reachable := hfn.call (.closure ⟨15⟩ [.int]) ⟨by decide, fun fn closed h => by
    obtain ⟨rfl, -⟩ := BuilderCall.closure.inj h
    exact ⟨.bool, [⟨14⟩], by decide⟩⟩
  obtain ⟨-, hfind, -, -, hsums, -, htree, -⟩ := handles_stand_for_types ha
  have hsum : a.nodes[14]? = some (.sum [.unit, .bool]) := by decide
  refine ⟨ha, (hfind _ ⟨14⟩).mpr hsum, hsums 14 _ hsum, fun h => ?_⟩
  exact absurd ((htree ⟨15⟩ ⟨16⟩ (by decide) (by decide)).mpr h) (by decide)

end TypeTable

end NumericTower
