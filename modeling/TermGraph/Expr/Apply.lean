import TermGraph.Expr.Product
import TermGraph.Expr.Substitution

/-!
# Application

Application is product, call, indexing and member access in one, and the domains decide which.

* A function is called: one with a body by substitution, the power function by the rules for
  powers, any other by an application node.
* Scalars and matrices are multiplied into a canonical product.
* Any other application is regrouped to the left and sorted as far as its domains allow.

Calls substitute, substitution rebuilds nodes, and rebuilding applies, so `applyAux` and
`rebuildAux` carry a bound on the depth of this recursion.
-/

namespace TermGraph

namespace Expr

/-- A function applied, with its body substituted by `substitute`. -/
def callWith (substitute : Substitute) (f : Function) (target argument : Expr) : Build Expr :=
  let args := f.arguments argument
  if args.length ≠ f.arity then
    throw (.arityMismatch f.name f.arity args.length)
  else
    match f, args with
    | .lambda _ _ params body, _ => substitute (params.zip args) body
    | .builtin .pow, [base, exponent] => powerOf target argument base exponent
    | _, _ => rawApply target argument

mutual

/-- Application, with a bound on the depth of recursion. -/
def applyAux : Nat → Expr → Expr → Build Expr
  | 0, _, _ => throw .depthExceeded
  | depth + 1, target, argument =>
    match target.function? with
    | some f => callWith (substituteWith (rebuildAux depth)) f target argument
    | none => do
      let domain ← applyDomain target argument
      if target.domain.isLinear && argument.domain.isLinear then
        canonicalProduct [target, argument]
      else
        let asItStands : Build Expr :=
          if target.commutes argument && argument.compare target == .lt then
            rawApply argument target
          else
            Build.intern domain (.apply target argument)
        match argument.kind with
        | .apply innerTarget innerArgument =>
          if associates target innerTarget innerArgument then do
            let left ← applyAux depth target innerTarget
            applyAux depth left innerArgument
          else
            asItStands
        | _ => asItStands

/-- The node over new children, with a bound on the depth of recursion. -/
def rebuildAux : Nat → Expr → List Expr → Build Expr
  | 0, _, _ => throw .depthExceeded
  | depth + 1, e, children =>
    if (children.zip e.children).all fun (new, old) => new == old then
      pure e
    else
      let substitute := substituteWith (rebuildAux depth)
      match e.kind, children with
      | .tuple _, items => tuple items
      | .sum _, items => sum items
      | .chain _, items => chainWith (foldProduct (applyAux depth)) items
      | .apply _ _, [target, argument] => applyAux depth target argument
      | .generator rows cols _, [element] => generator rows cols element
      | .inverse _, [inner] => inverse inner
      | .transpose _, [inner] => transpose inner
      | .indexedSum index _ _ _, [_, lower, upper, body] => do
        let i ← beginIndexedSum lower upper
        endIndexedSumWith substitute lower upper i (← substitute [(index, i)] body)
      | .collectionSum index _ _, [_, collection, body] => do
        let v ← beginCollectionSum collection
        endCollectionSumWith substitute collection v (← substitute [(index, v)] body)
      | _, _ => pure e

end

/-- `target` applied to `argument`. -/
def apply (target argument : Expr) : Build Expr := do
  applyAux (← read) target argument

/-- The node over new children, in the order of `children`. -/
def rebuild (e : Expr) (children : List Expr) : Build Expr := do
  rebuildAux (← read) e children

/-- The expression with the first of each pair replaced by the second, all at once. -/
def substitute (pairs : List (Expr × Expr)) (e : Expr) : Build Expr :=
  substituteWith rebuild pairs e

/-- The product in order; the empty product is one. -/
def product (factors : List Expr) : Build Expr :=
  foldProduct apply factors

/-- The product of matrices in order. -/
def chain (factors : List Expr) : Build Expr :=
  chainWith product factors

/-- A function called with arguments. -/
def call (f : Function) (args : List Expr) : Build Expr := do
  let target ← ofFunction f
  let argument ← tuple args
  apply target argument

/-- The sum of two expressions. -/
def add (a b : Expr) : Build Expr :=
  sum [a, b]

/-- The opposite. -/
def neg (a : Expr) : Build Expr := do
  apply (← int (-1)) a

/-- The difference of two expressions. -/
def sub (a b : Expr) : Build Expr := do
  sum [a, ← neg b]

/-- The quotient; division by a matrix multiplies by its inverse. -/
def div (a b : Expr) : Build Expr := do
  apply a (← inverse b)

/-- The member of a host value. -/
def member (e : Expr) (name : String) : Build Expr := do
  apply e (← fieldName name)

/-- The element of a host value at an index. -/
def element (e : Expr) (index : List Expr) : Build Expr := do
  apply e (← tuple index)

/-- Ends a summation over a range. -/
def endIndexedSum (lower upper temporary body : Expr) : Build Expr :=
  endIndexedSumWith substitute lower upper temporary body

/-- Ends a summation over a collection. -/
def endCollectionSum (collection temporary body : Expr) : Build Expr :=
  endCollectionSumWith substitute collection temporary body

end Expr

end TermGraph
