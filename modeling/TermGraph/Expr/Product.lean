import TermGraph.Expr.Chain
import TermGraph.Expr.Sum

/-!
# Canonical products

A product is a chain of applications that leans to the left: the numeric coefficient unless it is
one, then the scalar factors, then at most one matrix.

* Products within a product are spliced and the literals are multiplied into the coefficient; a
  coefficient of zero is the whole product.
* Scalar factors with one base are gathered into a power with the sum of the exponents, and the
  powers are sorted by their bases.
* Several matrices are multiplied in order into one.

Products add up exponents and sums multiply by coefficients, so `productAux` carries a bound on
the depth of this recursion.
-/

namespace TermGraph

namespace Expr

/-- A factor that is a scalar but no literal. -/
def isScalarFactor (e : Expr) : Bool :=
  e.number?.isNone && e.domain.isScalar

/-- A factor that is neither a literal nor a scalar. -/
def isMatrixFactor (e : Expr) : Bool :=
  e.number?.isNone && !e.domain.isScalar

/-- The product of the literals among some factors. -/
def coefficient (factors : List Expr) : Number.Tracked :=
  (combine .mul (literals factors)).getD (.of .one)

/-- A scalar factor as base and exponent. -/
def splitPower (factor : Expr) : Build (Expr × Expr) :=
  match factor.power? with
  | some (base, exponent) => pure (base, exponent)
  | none => do return (factor, ← one)

/-- A base to an exponent other than zero: the bare base for one. -/
def raisedBase (base exponent : Expr) : Build Expr :=
  if exponent.isOne then pure base else power base exponent

/-- The powers of bases to the sums of their exponents: none for zero. -/
def raisedBases (sum : List Expr → Build Expr) : List (Expr × List Expr) → Build (List Expr)
  | [] => pure []
  | (base, exponents) :: groups => do
    let exponent ← sum exponents
    if exponent.isZero then
      raisedBases sum groups
    else do
      let factor ← raisedBase base exponent
      return factor :: (← raisedBases sum groups)

/-- Scalar factors with equal bases gathered, sorted by base. -/
def mergePowers (sum : List Expr → Build Expr) (scalars : List Expr) : Build (List Expr) := do
  let split ← scalars.mapM splitPower
  let groups := gather (fun e => [e]) (fun es e => es ++ [e]) split
  raisedBases sum groups

/-- The chain of applications that leans to the left. -/
def leftChain (coefficient : Number) : List Expr → Build Expr
  | [] => number coefficient
  | first :: rest => rest.foldlM rawApply first

/-- Multiplies a list with a function for two factors; the empty product is one. -/
def foldProduct (pair : Expr → Expr → Build Expr) : List Expr → Build Expr
  | [] => one
  | first :: rest => rest.foldlM pair first

/-- The coefficient as a factor, which is left out for one. -/
def coefficientFactor (c : Number) : Build (List Expr) :=
  if c.isOne then pure [] else do return [← number c]

/-- The factors with their matrices multiplied in order into one, where `product` multiplies
scalars and a last matrix. -/
def mergeMatrices (product : List Expr → Build Expr) (factors : List Expr) : Build (List Expr) :=
  let matrices := factors.filter isMatrixFactor
  if 1 < matrices.length then do
    let combined ← chainWith product matrices
    return factors.filter (fun e => !e.isMatrixFactor) ++ combined.factors
  else
    pure factors

/-- The canonical product of factors whose matrices are already one. -/
def assemble (sum : List Expr → Build Expr) (factors : List Expr) : Build Expr := do
  let c ← Build.settle (coefficient factors)
  if c.isZero then
    number c
  else
    let scalars ← mergePowers sum (factors.filter isScalarFactor)
    let front ← coefficientFactor c
    leftChain c (front ++ scalars ++ factors.filter isMatrixFactor)

/-- The canonical product, with a bound on the depth of recursion. -/
def productAux : Nat → List Expr → Build Expr
  | 0, _ => throw .depthExceeded
  | depth + 1, input => do
    let factors := input.flatMap Expr.factors
    let c ← Build.settle (coefficient factors)
    if c.isZero then
      number c
    else
      let pair := fun a b => do
        let _ ← applyDomain a b
        productAux depth [a, b]
      let factors ← mergeMatrices (foldProduct pair) factors
      assemble (sumWith (productAux depth)) factors

/-- The canonical product of scalars and matrices. -/
def canonicalProduct (factors : List Expr) : Build Expr := do
  productAux (← read) factors

/-- The canonical sum. -/
def sum (terms : List Expr) : Build Expr :=
  sumWith canonicalProduct terms

end Expr

end TermGraph
