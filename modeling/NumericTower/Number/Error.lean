/-!
# Errors of operations

Why an operator has no result for its operands.
-/

namespace NumericTower

/-- Why an operator has no result. -/
inductive OpError where
  /-- The operator is not defined for the operands. -/
  | undefined
  | divisionByZero
  /-- An exact result would take too many bits. -/
  | tooLarge
  /-- An exponent of an unbounded real does not fit into 64 bits. Nothing is reported: the program stops there. -/
  | exponentOverflow
  deriving DecidableEq, Repr

/-- The text shown for the error. -/
def OpError.message : OpError → String
  | .undefined => "operation not defined for these operands"
  | .divisionByZero => "division by zero"
  | .tooLarge => "result too large"
  | .exponentOverflow => "exponent overflow"

end NumericTower
