import TermGraph.Expr.Leaf

/-!
# Powers

A power is an application of the built-in power function to the pair of base and exponent.  The
exponent zero and the base one give one, and the exponent one gives the base.
-/

namespace TermGraph

namespace Expr

/-- The power for the node of the power function and the pair of base and exponent. -/
def powerOf (target argument base exponent : Expr) : Build Expr :=
  if exponent.isZero || base.isOne then one
  else if exponent.isOne then pure base
  else rawApply target argument

/-- `base ^ exponent`. -/
def power (base exponent : Expr) : Build Expr := do
  let target ← ofFunction (.builtin .pow)
  let argument ← tuple [base, exponent]
  powerOf target argument base exponent

/-- `base ^ -1`. -/
def reciprocal (base : Expr) : Build Expr := do
  power base (← int (-1))

end Expr

end TermGraph
