import TermGraph.Expr.Power

/-!
# Matrix expressions

Generators, products in order, inverses and transposes.

* A product of matrices is flat; scalars are pulled out in front, a matrix next to its inverse
  cancels, and neighbouring constant matrices are multiplied.
* The inverse of an inverse is the inner matrix, and that of a scalar a power.
* The transpose of a transpose is the inner matrix, and a scalar is its own transpose.
* Inverses and transposes of constant matrices are computed.
-/

namespace TermGraph

namespace Expr

/-- The matrix with `element` for each row and column index. -/
def generator (rows cols : Nat) (element : Expr) : Build Expr :=
  Build.intern .matrices (.generator rows cols element)

mutual

/-- The factors of products and matrix products in order, in front of `rest`; anything else is its
own only factor. -/
def chainFactorsOnto : Expr → List Expr → List Expr
  | .node _ _ (.chain items), rest => allChainFactorsOnto items rest
  | .node ordinal domain (.apply target argument), rest =>
    if multiplies target argument then target.chainFactorsOnto (argument.chainFactorsOnto rest)
    else .node ordinal domain (.apply target argument) :: rest
  | e, rest => e :: rest

/-- The factors of all expressions of a list, in front of `rest`. -/
def allChainFactorsOnto : List Expr → List Expr → List Expr
  | [], rest => rest
  | e :: es, rest => e.chainFactorsOnto (allChainFactorsOnto es rest)

end

/-- Whether one of two expressions is the inverse of the other. -/
def cancels (a b : Expr) : Bool :=
  (match b.kind with
    | .inverse inner => inner == a
    | _ => false) ||
  (match a.kind with
    | .inverse inner => inner == b
    | _ => false)

/-- Adds a factor at the end of a chain that is kept in reverse. -/
def pushFactor (reversed : List Expr) (factor : Expr) : Build (List Expr) :=
  match reversed with
  | [] => pure [factor]
  | last :: rest =>
    if cancels last factor then pure rest
    else
      match last.matrix?, factor.matrix? with
      | some a, some b => do
        let folded ← ofMatrix (← Build.ofExcept .matrix (a.mul b))
        return folded :: rest
      | _, _ => pure (factor :: last :: rest)

/-- The product of the factors of a reduced chain. -/
def ofChain : List Expr → Build Expr
  | [] => one
  | [factor] => pure factor
  | factors => Build.intern .matrices (.chain factors)

/-- The product of matrices in order; `product` multiplies scalars and a last matrix. -/
def chainWith (product : List Expr → Build Expr) (factors : List Expr) : Build Expr := do
  let all := allChainFactorsOnto factors []
  let scalars := all.filter (·.domain.isScalar)
  let reversed ← (all.filter fun e => !e.domain.isScalar).foldlM pushFactor []
  let matrix ← ofChain reversed.reverse
  if scalars.isEmpty then pure matrix else product (scalars ++ [matrix])

/-- The inverse. -/
def inverse (a : Expr) : Build Expr :=
  if a.domain.isScalar then reciprocal a
  else
    match a.kind, a.matrix? with
    | .inverse inner, _ => pure inner
    | _, some m => do ofMatrix (← Build.ofExcept .matrix m.inverse)
    | _, none => Build.intern .matrices (.inverse a)

/-- The transpose. -/
def transpose (a : Expr) : Build Expr :=
  if a.domain.isScalar then pure a
  else
    match a.kind, a.matrix? with
    | .transpose inner, _ => pure inner
    | _, some m => ofMatrix m.transpose
    | _, none => Build.intern .matrices (.transpose a)

end Expr

end TermGraph
