import TermGraph.Expr.Leaf
import TermGraph.Expr.Order

/-!
# Canonical sums

Sums within a sum are spliced, literals are added up into one constant, and terms that differ by
a numeric coefficient alone are gathered into one.  The terms are sorted, a constant other than
zero first, and terms with the coefficient zero are dropped.

Products with a coefficient are made by a function that is handed in, since products in turn add
up exponents.
-/

namespace TermGraph

namespace Expr

mutual

/-- The terms of a sum, sums within it spliced; anything else is its own only term. -/
def terms : Expr → List Expr
  | .node _ _ (.sum items) => allTerms items
  | e => [e]

/-- The terms of all expressions of a list. -/
def allTerms : List Expr → List Expr
  | [] => []
  | e :: es => e.terms ++ allTerms es

end

/-- The numbers of a list combined from left to right. -/
def combine (op : Number → Number → Number) : List Number → Option Number.Tracked
  | [] => none
  | n :: ns => some (ns.foldl (.combine op) (.of n))

/-- The literals of a list. -/
def literals (es : List Expr) : List Number :=
  es.filterMap number?

/-- The expressions of a list that are no literals. -/
def nonLiterals (es : List Expr) : List Expr :=
  es.filter (·.number?.isNone)

/-- The domain of a sum of terms.  `left` is the term before, and `domain` that of all before. -/
def sumDomainFrom (left : Expr) (domain : Domain) : List Expr → Except Error Domain
  | [] => .ok domain
  | right :: rest =>
    match domain.resolveSum? right.domain with
    | some d => sumDomainFrom right d rest
    | none => .error (.unsupportedSum left domain right)

/-- The domain of a sum of terms. -/
def sumDomain : List Expr → Except Error Domain
  | [] => .ok .integers
  | e :: es => sumDomainFrom e e.domain es

/-- A term as a numeric coefficient and the product of its other factors. -/
def splitCoefficient (product : List Expr → Build Expr) (term : Expr) : Build (Expr × Number) :=
  if term.isProduct then
    match term.factors with
    | first :: rest =>
      match first.number? with
      | some c => do return (← product rest, c)
      | none => pure (term, .one)
    | [] => pure (term, .one)
  else
    pure (term, .one)

/-- A term for a coefficient other than zero: the bare term for one. -/
def scaledTerm (product : List Expr → Build Expr) (rest : Expr) (c : Number) : Build Expr :=
  if c.isOne then pure rest else do product [← number c, rest]

/-- Terms for their coefficients: none for zero. -/
def scaledTerms (product : List Expr → Build Expr) :
    List (Expr × Number.Tracked) → Build (List Expr)
  | [] => pure []
  | (rest, total) :: groups => do
    let c ← Build.settle total
    if c.isZero then
      scaledTerms product groups
    else do
      let term ← scaledTerm product rest c
      return term :: (← scaledTerms product groups)

/-- The sum of canonical terms.  Without terms it is the constant that was dropped as zero, or
zero. -/
def ofTerms (constant : Option Expr) (terms : List Expr) : Build Expr :=
  match terms with
  | [] => constant.elim zero pure
  | [term] => pure term
  | _ => do
    let domain ← Build.ofExcept id (sumDomain terms)
    Build.intern domain (.sum terms)

/-- The canonical sum, with canonical products made by `product`. -/
def sumWith (product : List Expr → Build Expr) (input : List Expr) : Build Expr := do
  let all := allTerms input
  let constant ← (combine .add (literals all)).mapM fun total => do number (← Build.settle total)
  let others := nonLiterals all
  let _ ← Build.ofExcept id (sumDomain (constant.toList ++ others))
  let split ← others.mapM (splitCoefficient product)
  let groups := gather Number.Tracked.of (Number.Tracked.combine .add) split
  let scaled ← scaledTerms product groups
  ofTerms constant ((constant.filter fun c => !c.isZero).toList ++ scaled)

end Expr

end TermGraph
