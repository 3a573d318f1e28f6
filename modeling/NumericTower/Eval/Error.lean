import NumericTower.Numeral.Error
import NumericTower.Value.Basic

/-!
# Errors of expressions

Why an expression cannot be built, or has no value, and the texts that report it.
-/

namespace NumericTower

/-- Why an expression has no value. Types are given by their names. -/
inductive EvalCause where
  | undefinedBinary (op : BinaryOp) (lhs rhs : String)
  | undefinedUnary (op : UnaryOp) (operand : String)
  | divisionByZero
  | unboundName (name : String)
  | arityMismatch (expected found : Nat)
  | notCallable (found : String)
  | noSuchMember (module member : String) (available : List String)
  | notAModule (found : String)
  /-- A handle to a value that is no longer stored. -/
  | danglingReference
  | callDepthExceeded (limit : Nat)
  | invalidLiteral (error : NumeralError)
  | argumentMismatch (expected found : String)
  /-- An exact result of the operator with this symbol would take too many bits. -/
  | resultTooLarge (symbol : String)
  /-- An exponent of an unbounded real does not fit into 64 bits. Nothing is reported: the program stops there. -/
  | exponentOverflow
  deriving DecidableEq, Repr

/-- A cause with the place that it is about. -/
structure EvalError where
  cause : EvalCause
  span : Span
  deriving DecidableEq, Repr

namespace EvalCause

/-- What is wrong. -/
def message : EvalCause → String
  | .undefinedBinary op lhs rhs =>
    "operator '" ++ op.symbol ++ "' is not defined for " ++ lhs ++ " and " ++ rhs
  | .undefinedUnary op operand => "operator '" ++ op.symbol ++ "' is not defined for " ++ operand
  | .divisionByZero => "division by zero"
  | .unboundName name => "unbound name '" ++ name ++ "'"
  | .arityMismatch expected found =>
    "expected " ++ Numeral.render 10 expected ++ " arguments, found " ++ Numeral.render 10 found
  | .notCallable found => "value of type " ++ found ++ " is not callable"
  | .noSuchMember module member _ => "module '" ++ module ++ "' has no member '" ++ member ++ "'"
  | .notAModule found => "value of type " ++ found ++ " is not a module"
  | .danglingReference => "reference to a released binding"
  | .callDepthExceeded limit => "call depth limit of " ++ Numeral.render 10 limit ++ " exceeded"
  | .invalidLiteral _ => "invalid numeric literal"
  | .argumentMismatch expected found =>
    "expected argument of type " ++ expected ++ ", found " ++ found
  | .resultTooLarge symbol => "result of '" ++ symbol ++ "' is too large"
  | .exponentOverflow => "exponent overflow"

/-- The number under which the error is documented; empty for what is not reported. -/
def code : EvalCause → String
  | .undefinedBinary .. => "E3001"
  | .undefinedUnary .. => "E3002"
  | .divisionByZero => "E3003"
  | .unboundName _ => "E3004"
  | .arityMismatch .. => "E3005"
  | .notCallable _ => "E3006"
  | .noSuchMember .. => "E3007"
  | .notAModule _ => "E3008"
  | .danglingReference => "E3009"
  | .callDepthExceeded _ => "E3010"
  | .invalidLiteral _ => "E3011"
  | .argumentMismatch .. => "E3012"
  | .resultTooLarge _ => "E3013"
  | .exponentOverflow => ""

/-- How to mend it, where there is advice. -/
def help? : EvalCause → Option String
  | .noSuchMember _ _ available => some ("available members: " ++ ", ".intercalate available)
  | .danglingReference => some "bindings are released when their scope ends"
  | .callDepthExceeded _ => some "raise EvalOptions::max_call_depth"
  | .resultTooLarge _ => some "exact results are limited in size; use a Real operand"
  | _ => none

/-- The text that stands at the place of the error. -/
def label : EvalCause → String
  | .undefinedBinary .. => "no result for these operands"
  | .undefinedUnary .. => "no result for this operand"
  | .divisionByZero => "divisor is zero"
  | .unboundName _ => "not found in scope"
  | .arityMismatch .. => "wrong number of arguments"
  | .notCallable _ => "not a function"
  | .noSuchMember .. => "unknown member"
  | .notAModule _ => "member access on a non-module"
  | .danglingReference => "binding no longer live"
  | .callDepthExceeded _ => "too deeply nested"
  | .invalidLiteral error => error.message
  | .argumentMismatch .. => "argument type mismatch"
  | .resultTooLarge _ => "result would not fit in memory"
  | .exponentOverflow => "exponent does not fit in 64 bits"

end EvalCause

end NumericTower
