import NumericTower.NumericType.Result
import NumericTower.TypeTable.Castable

/-!
# Types of operator results

The least type that holds the operands of an operator, the operators that a type supports, and the
static type of a result.
-/

namespace NumericTower.TypeTable

/-- The least general type that holds both. Numbers and texts widen; anything else becomes the sum of
the two. -/
def promote (s t : TypeId) : TypeTableM TypeId := fun a =>
  if s = t ∨ t = .bottom then (s, a)
  else if s = .bottom then (t, a)
  else if s = .top ∨ t = .top then (.top, a)
  else
    match a.node s, a.node t with
    | .numeric x, .numeric y => numeric (x.promote y) a
    | .number, .numeric _ => (.number, a)
    | .numeric _, .number => (.number, a)
    | .text x, .text y => ((x.join y).typeId, a)
    | _, _ => sum [s, t] a

/-- The narrowest integer type that holds a natural type; any other type is kept. -/
def makeSigned (t : TypeId) : TypeTableM TypeId := fun a =>
  match a.numericType? t with
  | some n => if n.kind = .nat then numeric n.makeSigned a else (t, a)
  | none => (t, a)

/-- The operators in all sets of a list; none for the empty list. -/
def commonOps : List OpSet → OpSet
  | [] => .empty
  | s :: rest => rest.foldl OpSet.inter s

/-- The operators that a type supports: a placeholder what it is used with, and a sum what all its
cases support. -/
def supportedOps (a : TypeTable) (t : TypeId) : OpSet :=
  match _h : a.node t with
  | .number | .numeric _ => .numeric
  | .bool => .bool
  | .text _ => .text
  | .unit | .product _ => .equality
  | .placeholder _ usage => usage
  | .sum cases => commonOps (cases.attach.map fun c => a.supportedOps c.1)
  | _ => .empty
termination_by t.index
decreasing_by exact index_lt_of_mem_parts (a := a) (by rw [_h]; exact c.2)

/-- Whether values of the two types can be compared or combined by a logical operator that both
support. -/
def logicRelated (a : TypeTable) (op : BinaryOp) (s t : TypeId) : Bool :=
  match op with
  | .and | .or => s = .bool && t = .bool
  | .eq | .ne => (a.isNumeric s && a.isNumeric t) || a.isCastable s t || a.isCastable t s
  | _ => a.isNumeric s && a.isNumeric t

/-- The static type of `s op t`; none if the operator is not defined for the types. With a placeholder
it is a new placeholder. -/
def binaryResult? (op : BinaryOp) (s t : TypeId) : TypeTableM (Option TypeId) := fun a =>
  if a.isPlaceholder s || a.isPlaceholder t then
    (some <$> placeholder (OpSet.empty.withBinary op)) a
  else if !(a.supportedOps s).supportsBinary op || !(a.supportedOps t).supportsBinary op then
    (none, a)
  else if op.isLogic then
    (if a.logicRelated op s t then some .bool else none, a)
  else if op = .concat then
    match a.textKind? s, a.textKind? t with
    | some x, some y => (some (x.join y).typeId, a)
    | _, _ => (none, a)
  else if s = .number ∨ t = .number then (some .number, a)
  else
    match a.numericType? s, a.numericType? t with
    | some x, some y =>
      match NumericType.arithmeticResult? op x y with
      | some r => (some <$> numeric r) a
      | none => (none, a)
    | _, _ => (none, a)

/-- The static type of `op t`; none if the operator is not defined for the type. -/
def unaryResult? (op : UnaryOp) (t : TypeId) : TypeTableM (Option TypeId) := fun a =>
  if a.isPlaceholder t then (some <$> placeholder (OpSet.empty.withUnary op)) a
  else if !(a.supportedOps t).supportsUnary op then (none, a)
  else
    match op with
    | .neg => (some <$> makeSigned t) a
    | .not => (some .bool, a)

end NumericTower.TypeTable
