import NumericTower.Power

/-!
# Numeric types

The four categories of numbers, from naturals to reals, each with a width in bits. Width 0 is the
unbounded member of a category. Some widths have a representation of fixed size.
-/

namespace NumericTower

/-- The categories of numbers, the most specific first. -/
inductive NumericKind where
  | nat
  | int
  | ratio
  | real
  deriving DecidableEq, Repr

namespace NumericKind

/-- How general the category is. -/
def level : NumericKind → Nat
  | .nat => 0
  | .int => 1
  | .ratio => 2
  | .real => 3

/-- The name of the category. -/
def name : NumericKind → String
  | .nat => "Nat"
  | .int => "Int"
  | .ratio => "Ratio"
  | .real => "Real"

/-- The next more general category. -/
def general? : NumericKind → Option NumericKind
  | .nat => some .int
  | .int => some .ratio
  | .ratio => some .real
  | .real => none

/-- Whether the category holds whole numbers only. -/
def isIntegral : NumericKind → Bool
  | .nat | .int => true
  | .ratio | .real => false

/-- The more general of two categories. -/
def join (a b : NumericKind) : NumericKind :=
  if a.level ≤ b.level then b else a

theorem level_injective {a b : NumericKind} (h : a.level = b.level) : a = b := by
  cases a <;> cases b <;> simp [level] at h <;> rfl

end NumericKind

/-- Widths are numbers of 32 bits. -/
def widthLimit : Nat := 2 ^ (32 : Nat)

/-- A category with a width in bits, 0 for the unbounded member. -/
structure NumericType where
  kind : NumericKind
  width : Nat
  width_lt : width < widthLimit := by decide
  deriving DecidableEq

namespace NumericType

/-- The unbounded type of a category. -/
def unbounded (kind : NumericKind) : NumericType :=
  { kind, width := 0 }

/-- The type of a category and a width, if the width is one of 32 bits. -/
def ofWidth? (kind : NumericKind) (width : Nat) : Option NumericType :=
  if h : width < widthLimit then some ⟨kind, width, h⟩ else none

/-- Whether the type is the unbounded one of its category. -/
def isUnbounded (t : NumericType) : Bool :=
  t.width == 0

end NumericType

/-- The widths of naturals and integers that have a representation of fixed size. -/
inductive IntegralWidth where
  | bits16
  | bits32
  | bits64
  deriving DecidableEq, Repr

namespace IntegralWidth

/-- The width in bits. -/
def bits : IntegralWidth → Nat
  | .bits16 => 16
  | .bits32 => 32
  | .bits64 => 64

/-- The widths, narrowest first. -/
def all : List IntegralWidth := [.bits16, .bits32, .bits64]

theorem bits_lt (w : IntegralWidth) : w.bits < widthLimit := by
  cases w <;> decide

end IntegralWidth

/-- The widths of ratios that have a representation of fixed size. -/
inductive RatioWidth where
  | bits32
  | bits64
  | bits128
  deriving DecidableEq, Repr

namespace RatioWidth

/-- The width in bits of both parts together. -/
def bits : RatioWidth → Nat
  | .bits32 => 32
  | .bits64 => 64
  | .bits128 => 128

/-- The width in bits of one part. -/
def componentBits : RatioWidth → Nat
  | .bits32 => 16
  | .bits64 => 32
  | .bits128 => 64

/-- The widths, narrowest first. -/
def all : List RatioWidth := [.bits32, .bits64, .bits128]

theorem bits_lt (w : RatioWidth) : w.bits < widthLimit := by
  cases w <;> decide

end RatioWidth

namespace NumericType

/-- The type of the binary floats of 32 bits. -/
def real32 : NumericType :=
  { kind := .real, width := 32 }

/-- The type of the binary floats of 64 bits. -/
def real64 : NumericType :=
  { kind := .real, width := 64 }

/-- The types of a category that have a representation of fixed size, narrowest first. -/
def fixed : NumericKind → List NumericType
  | .nat => IntegralWidth.all.map fun w => ⟨.nat, w.bits, w.bits_lt⟩
  | .int => IntegralWidth.all.map fun w => ⟨.int, w.bits, w.bits_lt⟩
  | .ratio => RatioWidth.all.map fun w => ⟨.ratio, w.bits, w.bits_lt⟩
  | .real => [real32, real64]

/-- The narrowest type of a category that has a fixed representation of at least `width` bits. -/
def fixedAtLeast? (kind : NumericKind) (width : Nat) : Option NumericType :=
  (fixed kind).find? (width ≤ ·.width)

/-- The bits of the significand of a binary float after the leading one. -/
def fractionBits? (width : Nat) : Option Nat :=
  match width with
  | 16 => some 10
  | 32 => some 23
  | 64 => some 52
  | 128 => some 112
  | _ => none

end NumericType

end NumericTower
