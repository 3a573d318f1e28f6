import NumericTower.TypeTable.Node

/-!
# The type table

Every type is stored once, so two handles of one table are equal exactly when their types are. Nodes are
only appended, and the components of a node are always older than the node.

Each builder takes the table and returns a handle with the table that holds its type. The normal forms
are made here: the unbounded numeric types and the texts have fixed handles, a sum is flat, sorted and
free of repetitions, and an empty product is the unit type.
-/

namespace NumericTower

/-- The stored types. -/
structure TypeTable where
  nodes : Array TypeNode
  /-- The handle of each stored node, by which a node is found again. -/
  ids : List (TypeNode × TypeId)
  /-- The number of the next placeholder. -/
  nextPlaceholder : Nat
  older : ∀ (i : Nat) (h : i < nodes.size), ∀ p ∈ nodes[i].parts, p.index < i

/-- A computation that may add types to a table. -/
abbrev TypeTableM := StateM TypeTable

namespace TypeTable

/-- The nodes that every table starts with, in the order of their handles. -/
def reservedNodes : Array TypeNode :=
  #[.top, .bottom, .type, .module, .unit, .bool, .number,
    .numeric (.unbounded .nat), .numeric (.unbounded .int), .numeric (.unbounded .ratio),
    .numeric (.unbounded .real), .text .string, .text .ascii, .text .utf8]

/-- The table that holds the reserved types only. -/
def initial : TypeTable where
  nodes := reservedNodes
  ids := reservedNodes.toList.mapIdx fun i n => (n, ⟨i⟩)
  nextPlaceholder := 0
  older := by decide

instance : Inhabited TypeTable := ⟨initial⟩

/-- How many types are stored. -/
def size (a : TypeTable) : Nat :=
  a.nodes.size

/-- The node of a handle. A handle that this table has not issued stands for the top type. -/
def node (a : TypeTable) (id : TypeId) : TypeNode :=
  a.nodes[id.index]?.getD .top

/-- The components of a type are older than the type. -/
theorem index_lt_of_mem_parts {a : TypeTable} {t p : TypeId} (h : p ∈ (a.node t).parts) :
    p.index < t.index := by
  unfold node at h
  rcases Nat.lt_or_ge t.index a.nodes.size with hlt | hge
  · rw [Array.getElem?_eq_getElem hlt, Option.getD_some] at h
    exact a.older _ hlt p h
  · rw [Array.getElem?_eq_none hge] at h
    simp [TypeNode.parts] at h

/-- Appends a node whose components are stored. -/
def push (a : TypeTable) (n : TypeNode) (h : ∀ p ∈ n.parts, p.index < a.nodes.size) :
    TypeTable where
  nodes := a.nodes.push n
  ids := (n, ⟨a.nodes.size⟩) :: a.ids
  nextPlaceholder := a.nextPlaceholder
  older := by
    intro i hi p hp
    rw [Array.getElem_push] at hp
    split at hp
    · exact a.older i _ p hp
    · rw [Array.size_push] at hi
      have := h p hp
      omega

/-- The handle of a node, if it is stored. -/
def find? (a : TypeTable) (n : TypeNode) : Option TypeId :=
  a.ids.lookup n

/-- The handle of a node, which is stored if it is new. A node with a component that the table does not
hold is not stored and stands for the top type. -/
def intern (n : TypeNode) : TypeTableM TypeId := fun a =>
  match a.find? n with
  | some id => (id, a)
  | none =>
    if h : ∀ p ∈ n.parts, p.index < a.nodes.size then (⟨a.nodes.size⟩, a.push n h)
    else (.top, a)

/-- A numeric type. -/
def numeric (t : NumericType) : TypeTableM TypeId :=
  if t.isUnbounded then pure (.unbounded t.kind) else intern (.numeric t)

/-- A placeholder that differs from every other type. -/
def placeholder (usage : OpSet) : TypeTableM TypeId := fun a =>
  intern (.placeholder a.nextPlaceholder usage)
    { a with nextPlaceholder := a.nextPlaceholder + 1 }

/-- An array of `length` elements, of any length if it is 0. -/
def array (element : TypeId) (length : Nat) : TypeTableM TypeId :=
  intern (.array element length)

/-- A function; the order of the parameters counts. -/
def function (params : List TypeId) (result : TypeId) : TypeTableM TypeId :=
  intern (.function result params)

/-- A function over values of the `closed` types. -/
def closure (fn : TypeId) (closed : List TypeId) : TypeTableM TypeId :=
  intern (.closure fn closed)

/-- Puts a handle into a sorted list unless it is there already. -/
def insertCase (c : TypeId) : List TypeId → List TypeId
  | [] => [c]
  | d :: ds =>
    if c.index < d.index then c :: d :: ds
    else if c.index = d.index then d :: ds
    else d :: insertCase c ds

/-- The handles in ascending order, each once. -/
def sortCases (cases : List TypeId) : List TypeId :=
  cases.foldr insertCase []

/-- The cases that a type adds to a sum: those of a sum, none of the bottom type, else the type. -/
def casesOf (a : TypeTable) (id : TypeId) : List TypeId :=
  match a.node id with
  | .sum cases => cases
  | .bottom => []
  | _ => [id]

/-- The sum of types. The top type absorbs all others, one case is that case, and none is the bottom
type. -/
def sum (types : List TypeId) : TypeTableM TypeId := fun a =>
  let cases := types.flatMap a.casesOf
  if cases.contains .top then (.top, a)
  else
    match sortCases cases with
    | [] => (.bottom, a)
    | [c] => (c, a)
    | cs => intern (.sum cs) a

/-- The product of types; their order counts. Of no types it is the unit type. -/
def product (components : List TypeId) : TypeTableM TypeId :=
  if components.isEmpty then pure .unit else intern (.product components)

/-- A record; the order of its fields counts. -/
def record (fields : List RecordField) : TypeTableM TypeId :=
  intern (.record fields)

end TypeTable

end NumericTower
