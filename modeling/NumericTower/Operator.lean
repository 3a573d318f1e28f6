/-!
# Operators

The binary and unary operators, how tightly they bind, and sets of operators.
-/

namespace NumericTower

/-- The binary operators. -/
inductive BinaryOp where
  | add
  | sub
  | mul
  | div
  | mod
  | pow
  | concat
  | and
  | or
  | eq
  | ne
  | lt
  | le
  | gt
  | ge
  deriving DecidableEq, Repr

/-- The unary operators. -/
inductive UnaryOp where
  | neg
  | not
  deriving DecidableEq, Repr

namespace BinaryOp

/-- All binary operators, in the order of their numbers. -/
def all : List BinaryOp :=
  [.add, .sub, .mul, .div, .mod, .pow, .concat, .and, .or, .eq, .ne, .lt, .le, .gt, .ge]

/-- The number of the operator. -/
def index : BinaryOp → Fin 15
  | .add => 0
  | .sub => 1
  | .mul => 2
  | .div => 3
  | .mod => 4
  | .pow => 5
  | .concat => 6
  | .and => 7
  | .or => 8
  | .eq => 9
  | .ne => 10
  | .lt => 11
  | .le => 12
  | .gt => 13
  | .ge => 14

/-- How the operator is written. -/
def symbol : BinaryOp → String
  | .add => "+"
  | .sub => "-"
  | .mul => "*"
  | .div => "/"
  | .mod => "%"
  | .pow => "^"
  | .concat => "++"
  | .and => "&"
  | .or => "|"
  | .eq => "=="
  | .ne => "!="
  | .lt => "<"
  | .le => "<="
  | .gt => ">"
  | .ge => ">="

/-- The operator that is written so. -/
def ofSymbol? (s : String) : Option BinaryOp :=
  all.find? (·.symbol == s)

/-- How tightly the operator binds; more binds tighter. -/
def precedence : BinaryOp → Nat
  | .or => 1
  | .and => 2
  | .eq | .ne => 3
  | .lt | .le | .gt | .ge => 4
  | .add | .sub | .concat => 5
  | .mul | .div | .mod => 6
  | .pow => 7

/-- Whether `a op b op c` groups as `a op (b op c)`. -/
def isRightAssociative (op : BinaryOp) : Bool :=
  op == .pow

/-- Whether the operator compares for equality. -/
def isEquality : BinaryOp → Bool
  | .eq | .ne => true
  | _ => false

/-- Whether the operator compares for order. -/
def isOrdering : BinaryOp → Bool
  | .lt | .le | .gt | .ge => true
  | _ => false

/-- Whether the operator compares. -/
def isComparison (op : BinaryOp) : Bool :=
  op.isEquality || op.isOrdering

/-- Whether the result is always a truth value. -/
def isLogic : BinaryOp → Bool
  | .and | .or => true
  | op => op.isComparison

/-- Whether the operator computes a number. -/
def isArithmetic : BinaryOp → Bool
  | .add | .sub | .mul | .div | .mod | .pow => true
  | _ => false

end BinaryOp

namespace UnaryOp

/-- All unary operators. -/
def all : List UnaryOp := [.neg, .not]

/-- The number of the operator. -/
def index : UnaryOp → Fin 2
  | .neg => 0
  | .not => 1

/-- How the operator is written. -/
def symbol : UnaryOp → String
  | .neg => "-"
  | .not => "!"

/-- The operator that is written so. -/
def ofSymbol? (s : String) : Option UnaryOp :=
  all.find? (·.symbol == s)

end UnaryOp

/-- A set of operators: those that a type supports, or that a placeholder is used with. -/
structure OpSet where
  binary : BitVec 15
  unary : BitVec 2
  deriving DecidableEq, Repr

namespace OpSet

/-- No operator. -/
def empty : OpSet := ⟨0, 0⟩

/-- Adds a binary operator. -/
def withBinary (s : OpSet) (op : BinaryOp) : OpSet :=
  { s with binary := s.binary ||| BitVec.twoPow 15 op.index }

/-- Adds a unary operator. -/
def withUnary (s : OpSet) (op : UnaryOp) : OpSet :=
  { s with unary := s.unary ||| BitVec.twoPow 2 op.index }

/-- The set of the listed operators. -/
def ofLists (binary : List BinaryOp) (unary : List UnaryOp) : OpSet :=
  unary.foldl withUnary (binary.foldl withBinary empty)

/-- What numbers support. -/
def numeric : OpSet :=
  ofLists [.add, .sub, .mul, .div, .mod, .pow, .eq, .ne, .lt, .le, .gt, .ge] [.neg]

/-- What truth values support. -/
def bool : OpSet := ofLists [.and, .or, .eq, .ne] [.not]

/-- What texts support. -/
def text : OpSet := ofLists [.concat, .eq, .ne] []

/-- What values that can only be equal or not support. -/
def equality : OpSet := ofLists [.eq, .ne] []

/-- Whether the set has the binary operator. -/
def supportsBinary (s : OpSet) (op : BinaryOp) : Bool :=
  s.binary.getLsbD op.index

/-- Whether the set has the unary operator. -/
def supportsUnary (s : OpSet) (op : UnaryOp) : Bool :=
  s.unary.getLsbD op.index

/-- The operators in either set. -/
def union (s t : OpSet) : OpSet := ⟨s.binary ||| t.binary, s.unary ||| t.unary⟩

/-- The operators in both sets. -/
def inter (s t : OpSet) : OpSet := ⟨s.binary &&& t.binary, s.unary &&& t.unary⟩

/-- Whether the set has no operator. -/
def isEmpty (s : OpSet) : Bool :=
  s == empty

/-- The binary operators of the set. -/
def binaryOps (s : OpSet) : List BinaryOp :=
  BinaryOp.all.filter s.supportsBinary

/-- The unary operators of the set. -/
def unaryOps (s : OpSet) : List UnaryOp :=
  UnaryOp.all.filter s.supportsUnary

@[simp] theorem supportsBinary_union (s t : OpSet) (op : BinaryOp) :
    (s.union t).supportsBinary op = (s.supportsBinary op || t.supportsBinary op) := by
  simp [supportsBinary, union]

@[simp] theorem supportsBinary_inter (s t : OpSet) (op : BinaryOp) :
    (s.inter t).supportsBinary op = (s.supportsBinary op && t.supportsBinary op) := by
  simp [supportsBinary, inter]

@[simp] theorem supportsUnary_union (s t : OpSet) (op : UnaryOp) :
    (s.union t).supportsUnary op = (s.supportsUnary op || t.supportsUnary op) := by
  simp [supportsUnary, union]

@[simp] theorem supportsUnary_inter (s t : OpSet) (op : UnaryOp) :
    (s.inter t).supportsUnary op = (s.supportsUnary op && t.supportsUnary op) := by
  simp [supportsUnary, inter]

end OpSet

end NumericTower
