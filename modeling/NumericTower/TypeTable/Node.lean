import NumericTower.NumericType.Basic
import NumericTower.Operator

/-!
# Type handles and type nodes

A type is stored as a node whose components are handles. A handle is the place of a node in the table
that issued it; the first fourteen are the same in every table.
-/

namespace NumericTower

/-- A handle to a stored type. -/
structure TypeId where
  index : Nat
  deriving DecidableEq, Repr

namespace TypeId

def top : TypeId := ⟨0⟩

def bottom : TypeId := ⟨1⟩

/-- The type of types. -/
def type : TypeId := ⟨2⟩

def module : TypeId := ⟨3⟩

def unit : TypeId := ⟨4⟩

def bool : TypeId := ⟨5⟩

/-- The type of all numbers. -/
def number : TypeId := ⟨6⟩

def nat : TypeId := ⟨7⟩

def int : TypeId := ⟨8⟩

def ratio : TypeId := ⟨9⟩

def real : TypeId := ⟨10⟩

def string : TypeId := ⟨11⟩

def stringAscii : TypeId := ⟨12⟩

def stringUtf8 : TypeId := ⟨13⟩

/-- How many handles are the same in every table. -/
def reservedCount : Nat := 14

/-- Whether the handle is the same in every table. -/
def isReserved (id : TypeId) : Bool :=
  id.index < reservedCount

/-- The handle of the unbounded type of a category. -/
def unbounded : NumericKind → TypeId
  | .nat => nat
  | .int => int
  | .ratio => ratio
  | .real => real

/-- Whether the handle is that of an unbounded numeric type. -/
def isUnboundedNumeric (id : TypeId) : Bool :=
  nat.index ≤ id.index && id.index ≤ real.index

/-- Whether the handle is that of a text type. -/
def isText (id : TypeId) : Bool :=
  string.index ≤ id.index && id.index ≤ stringUtf8.index

end TypeId

/-- The kinds of text: ASCII text is UTF-8 text, and that is text. -/
inductive TextKind where
  | ascii
  | utf8
  | string
  deriving DecidableEq, Repr

namespace TextKind

/-- How general the kind is. -/
def level : TextKind → Nat
  | .ascii => 0
  | .utf8 => 1
  | .string => 2

/-- The name of the kind. -/
def name : TextKind → String
  | .ascii => "StringASCII"
  | .utf8 => "StringUTF8"
  | .string => "String"

/-- The more general of two kinds. -/
def join (a b : TextKind) : TextKind :=
  if a.level ≤ b.level then b else a

/-- The handle of the text type of this kind. -/
def typeId : TextKind → TypeId
  | .ascii => .stringAscii
  | .utf8 => .stringUtf8
  | .string => .string

end TextKind

/-- A named component of a record. -/
structure RecordField where
  name : String
  type : TypeId
  deriving DecidableEq, Repr

/-- A stored type. -/
inductive TypeNode where
  | top
  | bottom
  /-- The type of types. -/
  | type
  | module
  | unit
  | bool
  /-- Any number. -/
  | number
  | numeric (t : NumericType)
  | text (kind : TextKind)
  /-- A type that is not known yet. Its number keeps it apart from every other placeholder; `usage` is
  what the type has to support. -/
  | placeholder (number : Nat) (usage : OpSet)
  /-- An array; length 0 is any length. -/
  | array (element : TypeId) (length : Nat)
  | function (result : TypeId) (params : List TypeId)
  /-- A function over values of the `closed` types. -/
  | closure (fn : TypeId) (closed : List TypeId)
  | sum (cases : List TypeId)
  | product (components : List TypeId)
  | record (fields : List RecordField)
  deriving DecidableEq

namespace TypeNode

/-- The components of a node. -/
def parts : TypeNode → List TypeId
  | .array element _ => [element]
  | .function result params => result :: params
  | .closure fn closed => fn :: closed
  | .sum cases => cases
  | .product components => components
  | .record fields => fields.map (·.type)
  | _ => []

/-- Whether values of the type have no inner structure: unit, truth values, numbers and texts. -/
def isScalar : TypeNode → Bool
  | .unit | .bool | .number | .numeric _ | .text _ => true
  | _ => false

end TypeNode

end NumericTower
