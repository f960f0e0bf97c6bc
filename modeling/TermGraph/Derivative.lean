import TermGraph.Expr.Apply

/-!
# Derivatives

The partial derivative of an expression, one rule per kind of node.  The rule for an application
is chosen by the domain of its target: the product rule for numbers and matrices, the chain rule
for functions, and for members of host values that only the value itself can vary.

Derivatives are remembered by expression and variable in a `DerivativeTable`, so shared nodes are
differentiated once, and one table serves several variables.
-/

namespace TermGraph

/-- Derivatives by the ordinals of expression and variable. -/
abbrev DerivativeTable := Std.TreeMap (List Nat) Expr

/-- The rules for the derivative of an application. -/
inductive ApplicationRule where
  /-- Derive both factors. -/
  | product
  /-- Derive the arguments of a call. -/
  | chain (function : Function)
  /-- The value that a member is taken of must not vary. -/
  | access
  /-- A rule of a custom domain. -/
  | custom (hook : DerivativeHook)

namespace Expr

/-- The rule that the domain of a target has for its applications. -/
def applicationRule? (target : Expr) : Option ApplicationRule :=
  (target.domain.firstAnswer fun
    | .matrices | .reals | .integers => some (some .product)
    | .functions => some (target.function?.map .chain)
    | .host _ _ => some (some .access)
    | .custom _ _ _ hooks => hooks.derivative.map fun hook => some (.custom hook)
    | _ => none).join

/-- A summand of the product rule: zero if the derivative among its factors is. -/
def productUnlessZero (derivative : Expr) (factors : List Expr) : Build Expr :=
  if derivative.isZero then zero else product factors

end Expr

namespace PartialRule

/-- The argument at a position; zero if there is none. -/
def argumentAt (k : Nat) (args : List Expr) : Build Expr :=
  match args[k]? with
  | some a => pure a
  | none => Expr.zero

mutual

/-- The partial derivative by the argument at position `k`. -/
def expr (k : Nat) (args : List Expr) : PartialRule → Build Expr
  | .literal n => Expr.number n
  | .own => argumentAt k args
  | .argument i => argumentAt i args
  | .sum terms => do Expr.sum (← exprs k args terms)
  | .product factors => do Expr.product (← exprs k args factors)
  | .call b arguments => do Expr.call (.builtin b) (← exprs k args arguments)
  | .depending rule => (rule (args.map Expr.sight)).expr k args
  | .missing operation expression => throw (.unimplementedRule operation expression)

/-- The nodes of a list of formulas. -/
def exprs (k : Nat) (args : List Expr) : List PartialRule → Build (List Expr)
  | [] => pure []
  | rule :: rules => do return (← rule.expr k args) :: (← exprs k args rules)

end

end PartialRule

namespace Builtin

/-- The partial derivative by the argument at position `k`. -/
def partialDerivative (b : Builtin) (k : Nat) (args : List Expr) : Build (Option Expr) :=
  match b, args with
  | .log, [x] => some <$> Expr.reciprocal x
  | .exp, [x] => some <$> Expr.call (.builtin .exp) [x]
  | .sin, [x] => some <$> Expr.call (.builtin .cos) [x]
  | .cos, [x] => do return some (← Expr.neg (← Expr.call (.builtin .sin) [x]))
  | .pow, [base, exponent] =>
    if k = 0 then do
      let lowered ← Expr.sum [exponent, ← Expr.int (-1)]
      let lowerPower ← Expr.call (.builtin .pow) [base, lowered]
      some <$> Expr.product [exponent, lowerPower]
    else do
      let logarithm ← Expr.call (.builtin .log) [base]
      let samePower ← Expr.call (.builtin .pow) [base, exponent]
      some <$> Expr.product [logarithm, samePower]
  | _, _ => pure none

end Builtin

namespace Function

/-- The partial derivative by the argument at position `k`, if there is a rule for it. -/
def partialDerivative? (f : Function) (k : Nat) (args : List Expr) : Build (Option Expr) :=
  match f with
  | .builtin b => b.partialDerivative k args
  | .native _ _ definition =>
    match definition.partials.bind (·[k]?) with
    | some rule => some <$> rule.expr k args
    | none => pure none
  | .lambda _ _ _ _ => pure none

/-- The partial derivative by the argument at position `k`. -/
def partialDerivative (f : Function) (k : Nat) (args : List Expr) : Build Expr := do
  match ← f.partialDerivative? k args with
  | some d => pure d
  | none => throw (.unimplementedRule "partial derivative" f.name)

/-- The summand of the chain rule for the argument at position `k` with derivative `d`; arguments
that do not vary give none. -/
def chainTerm (f : Function) (args : List Expr) (k : Nat) (d : Expr) : Build (List Expr) :=
  if d.isZero then pure []
  else do
    let outer ← f.partialDerivative k args
    return [← Expr.product [outer, d]]

end Function

/-- Computes the derivative of an expression by a variable, unless it is known. -/
abbrev DerivativeLookup :=
  Expr → Expr → Memoized DerivativeTable Expr → Memoized DerivativeTable Expr

namespace Memoized

/-- The remembered derivative of `e` by `x`, or else the result of `derive`, which is remembered. -/
def rememberDerivative (e x : Expr) (derive : Memoized DerivativeTable Expr) :
    Memoized DerivativeTable Expr := do
  match (← memo)[[e.ordinal, x.ordinal]]? with
  | some known => pure known
  | none =>
    let d ← derive
    modifyMemo (·.insert [e.ordinal, x.ordinal] d)
    pure d

end Memoized

namespace Expr

mutual

/-- The derivative of `e` by `x`, the known derivatives looked up and kept by `lookup`. -/
def deriveWith (lookup : DerivativeLookup) (x e : Expr) : Memoized DerivativeTable Expr :=
  lookup e x <|
    if e == x then
      one
    else
      match e with
      | .node _ _ (.tuple items) => do tuple (← deriveAllWith lookup x items)
      | .node _ _ (.sum items) => do sum (← deriveAllWith lookup x items)
      | .node _ _ (.apply target argument) =>
        match applicationRule? target with
        | some .product => do
          let dt ← deriveWith lookup x target
          let da ← deriveWith lookup x argument
          let left ← productUnlessZero dt [dt, argument]
          let right ← productUnlessZero da [target, da]
          sum [left, right]
        | some (.chain f) =>
          let single : Memoized DerivativeTable Expr := do
            let d ← deriveWith lookup x argument
            sum (← f.chainTerm [argument] 0 d)
          match argument with
          | .node _ _ (.tuple items) =>
            if f.arity = 1 then single else do sum (← chainTermsWith lookup x f items 0 items)
          | _ => single
        | some .access => do
          let d ← deriveWith lookup x target
          if d.isZero then zero
          else throw (.unimplementedRule "derivative" (target.text ++ "[" ++ argument.text ++ "]"))
        | some (.custom .zero) => zero
        | some (.custom .argument) => deriveWith lookup x argument
        | some (.custom (.formula rule)) => do
          let dt ← deriveWith lookup x target
          let da ← deriveWith lookup x argument
          rule.expr 0 [target, argument, dt, da]
        | some (.custom .failure) => throw (.unimplementedRule "custom" target.text)
        | some (.custom .missing) => throw (.unimplementedRule "derivative" e.text)
        | none => throw (.unimplementedRule "derivative" e.text)
      | .node _ _ (.chain factors) => do sum (← chainDerivativesWith lookup x [] factors)
      | .node _ _ (.inverse inner) => do
        let d ← deriveWith lookup x inner
        if d.isZero then
          pure d
        else
          let sandwich ← chain [e, d, e]
          product [← int (-1), sandwich]
      | .node _ _ (.transpose inner) => do transpose (← deriveWith lookup x inner)
      | .node _ _ (.generator rows cols element) => do
        let d ← deriveWith lookup x element
        if d.isZero then pure d else generator rows cols d
      | .node _ _ (.indexedSum index lower upper body) => do
        let d ← deriveWith lookup x body
        if d.isZero then
          pure d
        else
          let i ← beginIndexedSum lower upper
          endIndexedSum lower upper i (← substitute [(index, i)] d)
      | .node _ _ (.collectionSum index collection body) => do
        if !(← deriveWith lookup x collection).isZero then
          throw (.unimplementedRule "derivative" e.text)
        else
          let d ← deriveWith lookup x body
          if d.isZero then
            pure d
          else
            let v ← beginCollectionSum collection
            endCollectionSum collection v (← substitute [(index, v)] d)
      | _ => zero

/-- The derivatives of a list of expressions. -/
def deriveAllWith (lookup : DerivativeLookup) (x : Expr) : List Expr → Memoized DerivativeTable (List Expr)
  | [] => pure []
  | e :: es => do
    let d ← deriveWith lookup x e
    return d :: (← deriveAllWith lookup x es)

/-- The summands of the chain rule for the arguments from position `k` on. -/
def chainTermsWith (lookup : DerivativeLookup) (x : Expr) (f : Function) (args : List Expr) (k : Nat) :
    List Expr → Memoized DerivativeTable (List Expr)
  | [] => pure []
  | e :: es => do
    let d ← deriveWith lookup x e
    let term ← f.chainTerm args k d
    return term ++ (← chainTermsWith lookup x f args (k + 1) es)

/-- The summands of the product rule for a matrix product, one for each factor that varies;
`before` holds the factors up to there in reverse. -/
def chainDerivativesWith (lookup : DerivativeLookup) (x : Expr) (before : List Expr) :
    List Expr → Memoized DerivativeTable (List Expr)
  | [] => pure []
  | e :: es => do
    let d ← deriveWith lookup x e
    if d.isZero then
      chainDerivativesWith lookup x (e :: before) es
    else
      let term ← chain (before.reverse ++ d :: es)
      return term :: (← chainDerivativesWith lookup x (e :: before) es)

end

/-- The derivative of `e` by `x`, with a table of known derivatives. -/
abbrev deriveFrom (x e : Expr) : Memoized DerivativeTable Expr :=
  deriveWith .rememberDerivative x e

/-- The derivatives of a list of expressions, with a table of known derivatives. -/
abbrev deriveAll (x : Expr) (es : List Expr) : Memoized DerivativeTable (List Expr) :=
  deriveAllWith .rememberDerivative x es

/-- The summands of the chain rule, with a table of known derivatives. -/
abbrev chainTerms (x : Expr) (f : Function) (args : List Expr) (k : Nat) (es : List Expr) :
    Memoized DerivativeTable (List Expr) :=
  chainTermsWith .rememberDerivative x f args k es

/-- The summands of the product rule for a matrix product, with a table of known derivatives. -/
abbrev chainDerivatives (x : Expr) (before es : List Expr) : Memoized DerivativeTable (List Expr) :=
  chainDerivativesWith .rememberDerivative x before es

/-- Variables are symbols. -/
def checkVariable (x : Expr) : Build Unit :=
  if x.isSymbol then pure () else throw (.notASymbol x)

/-- The partial derivative by a symbol. -/
def derive (e x : Expr) : Build Expr := do
  checkVariable x
  Build.forgetting ∅ (deriveFrom x e)

/-- The partial derivatives by several symbols, with one table for all. -/
def gradientFrom (e : Expr) : List Expr → Memoized DerivativeTable (List Expr)
  | [] => pure []
  | x :: xs => do
    checkVariable x
    let d ← deriveFrom x e
    return d :: (← gradientFrom e xs)

/-- The partial derivatives by several symbols. -/
def gradient (e : Expr) (xs : List Expr) : Build (List Expr) :=
  Build.forgetting ∅ (gradientFrom e xs)

end Expr

end TermGraph
