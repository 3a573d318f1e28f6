import NumericTower.NumericType.Basic

/-!
# The order of the numeric types

How wide a type of a more general category has to be to hold all values of a type, which types fit into
which without loss, and the least type that holds two others.
-/

namespace NumericTower.NumericType

/-- A width that is one of 32 bits. -/
def checkedWidth? (width : Nat) : Option Nat :=
  if width < widthLimit then some width else none

/-- The width of the next more general category that holds all values of `width` bits: one more bit for
the sign of a natural, two parts of the width of an integer, and for a ratio the narrowest float whose
fraction has the bits of one part. -/
def nextWidth? (kind : NumericKind) (width : Nat) : Option Nat :=
  match kind with
  | .nat => checkedWidth? (width + 1)
  | .int => checkedWidth? (width * 2)
  | .ratio =>
    ((fixed .real).find? fun t =>
      (fractionBits? t.width).any ((width + 1) / 2 ≤ ·)).map (·.width)
  | .real => none

/-- The width after so many steps to the next more general category. -/
def widthAfter? (steps : Nat) (kind : NumericKind) (width : Nat) : Option Nat :=
  match steps, kind.general? with
  | 0, _ => some width
  | _ + 1, none => none
  | n + 1, some next => (nextWidth? kind width).bind (widthAfter? n next)

/-- The width that the category `kind` needs to hold every value of `t`. The unbounded type needs the
unbounded one; none if `kind` is more specific, or if no width is enough. -/
def lift? (t : NumericType) (kind : NumericKind) : Option Nat :=
  if kind.level < t.kind.level then none
  else if t.isUnbounded then some 0
  else widthAfter? (kind.level - t.kind.level) t.kind t.width

/-- Whether every value of `a` is a value of `b`. -/
def fits (a b : NumericType) : Bool :=
  if a = b then true
  else if b.kind.level < a.kind.level then false
  else if b.isUnbounded then true
  else if a.isUnbounded then false
  else (a.lift? b.kind).any (· ≤ b.width)

/-- The narrowest fixed type of `kind` for the two operands, their common width changed by `grow`; the
unbounded type if there is none. -/
def widen (a b : NumericType) (kind : NumericKind) (grow : Nat → Option Nat) : NumericType :=
  if a.isUnbounded || b.isUnbounded then unbounded kind
  else
    match a.lift? kind, b.lift? kind with
    | some wa, some wb =>
      ((grow (max wa wb)).bind (fixedAtLeast? kind)).getD (unbounded kind)
    | _, _ => unbounded kind

/-- The least type that holds both: of the more general category, at the narrowest fixed width. -/
def promote (a b : NumericType) : NumericType :=
  widen a b (a.kind.join b.kind) some

/-- The narrowest integer type that holds a natural type; any other type is kept. -/
def makeSigned (t : NumericType) : NumericType :=
  if t.kind ≠ .nat then t
  else if t.isUnbounded then unbounded .int
  else ((t.lift? .int).bind (fixedAtLeast? .int)).getD (unbounded .int)

end NumericTower.NumericType
