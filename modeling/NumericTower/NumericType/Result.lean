import NumericTower.NumericType.Lattice
import NumericTower.Operator

/-!
# Types of numeric results

The type of an arithmetic result by the types of its operands. Integral results get as many bits as no
result can exceed, a difference of naturals is signed, a quotient of integral operands is a ratio, and
a remainder is defined for integral operands only.
-/

namespace NumericTower.NumericType

/-- The type of a power. Reals keep the type of the base. Any other base takes integral exponents only,
and a signed exponent on an integral base can invert it. -/
def powResult? (base exponent : NumericType) : Option NumericType :=
  match base.kind with
  | .real => some base
  | kind =>
    if !exponent.kind.isIntegral then none
    else if kind.isIntegral && exponent.kind == .int then some (unbounded .ratio)
    else some (unbounded kind)

/-- The bits of a sum or difference of two numbers of `width` bits. -/
def sumWidth? (kind : NumericKind) (width : Nat) : Option Nat :=
  if kind.isIntegral then checkedWidth? (width + 1) else some width

/-- The bits of a product of two numbers of `width` bits. -/
def productWidth? (kind : NumericKind) (width : Nat) : Option Nat :=
  if kind.isIntegral then checkedWidth? (width * 2) else some width

/-- The category of a difference: that of naturals is signed. -/
def differenceKind : NumericKind → NumericKind
  | .nat => .int
  | kind => kind

/-- The category of a quotient: at least a ratio. -/
def quotientKind (kind : NumericKind) : NumericKind :=
  kind.join .ratio

/-- The type of `a op b`; none if the operator computes no number from these types. -/
def arithmeticResult? (op : BinaryOp) (a b : NumericType) : Option NumericType :=
  let kind := a.kind.join b.kind
  match op with
  | .add => some (widen a b kind (sumWidth? kind))
  | .sub => some (widen a b (differenceKind kind) (sumWidth? (differenceKind kind)))
  | .mul => some (widen a b kind (productWidth? kind))
  | .div => some (widen a b (quotientKind kind) some)
  | .mod => if kind.isIntegral then some (promote a b) else none
  | .pow => powResult? a b
  | _ => none

/-- The narrowest fixed type of a category for a literal of so many bits, for a ratio bits of each part;
the unbounded type if there is none. -/
def ofLiteral (kind : NumericKind) (bits : Nat) : NumericType :=
  (fixedAtLeast? kind (if kind = .ratio then bits * 2 else bits)).getD (unbounded kind)

end NumericTower.NumericType
