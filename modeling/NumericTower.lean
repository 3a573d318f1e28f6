import NumericTower.Eval.Module
import NumericTower.Expr.Build
import NumericTower.Proofs.BigReal.FloatSteps
import NumericTower.Proofs.BigReal.Power
import NumericTower.Proofs.BigReal.PowerScale
import NumericTower.Proofs.BigReal.RoundTrip
import NumericTower.Proofs.Eval.Arguments
import NumericTower.Proofs.Eval.Balance
import NumericTower.Proofs.Eval.CallLimit
import NumericTower.Proofs.Eval.Capture
import NumericTower.Proofs.Eval.Chains
import NumericTower.Proofs.Eval.LiveCount
import NumericTower.Proofs.Eval.Members
import NumericTower.Proofs.Eval.Parameters
import NumericTower.Proofs.Eval.References
import NumericTower.Proofs.Eval.Rules
import NumericTower.Proofs.Eval.Unobservable
import NumericTower.Proofs.Expr.LiteralWidth
import NumericTower.Proofs.Expr.RealLiteral
import NumericTower.Proofs.Number.Conversion
import NumericTower.Proofs.Number.Defined
import NumericTower.Proofs.Number.Exchange
import NumericTower.Proofs.Number.ExponentRange
import NumericTower.Proofs.Number.FixedRatio
import NumericTower.Proofs.Number.Order
import NumericTower.Proofs.Number.PowerSize
import NumericTower.Proofs.Number.RealPrecision
import NumericTower.Proofs.Number.ResultType
import NumericTower.Proofs.Numeral.Literals
import NumericTower.Proofs.NumericType.Inclusion
import NumericTower.Proofs.NumericType.Promotion
import NumericTower.Proofs.NumericType.ResultRange
import NumericTower.Proofs.Rounding.TwiceRounded
import NumericTower.Proofs.Scope.Lookup
import NumericTower.Proofs.Store.History
import NumericTower.Proofs.TypeTable.Castable
import NumericTower.Proofs.TypeTable.Negation
import NumericTower.Proofs.TypeTable.PrefixCode
import NumericTower.Proofs.TypeTable.ProductEquality
import NumericTower.Proofs.TypeTable.Promotion
import NumericTower.Proofs.TypeTable.Readable
import NumericTower.Proofs.TypeTable.Sum
import NumericTower.Proofs.TypeTable.Symbol
import NumericTower.Proofs.Value.Equality
import NumericTower.Proofs.Value.OperatorTyping
import NumericTower.Value.Display
