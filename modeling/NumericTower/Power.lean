/-!
# Powers

The power of a natural number or an integer is the one of the core library, also where the power of a
monoid is in scope.
-/

namespace NumericTower

attribute [scoped instance (high)] instPowNat

end NumericTower
