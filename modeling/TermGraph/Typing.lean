import TermGraph.Host.Members

/-!
# Typing of applications

The domain of an application is the first answer to four questions: what the target's domain says
of a member on the left, what the argument's domain says of a member on the right, and what the
target's and then the argument's domain say of a member on either side.  Without an answer the
application is a type error.
-/

namespace TermGraph

namespace Function

/-- The arguments in the argument of a call: the items of a tuple, unless the function takes one
argument and the tuple is that argument. -/
def arguments (f : Function) (argument : Expr) : List Expr :=
  match argument.kind with
  | .tuple items => if f.arity = 1 then [argument] else items
  | _ => [argument]

/-- The domain of a call: that of the body for a function with a body, otherwise the reals when
the arguments are scalars and as many as they should be. -/
def resultDomain? (f : Function) (argument : Expr) : Option Domain :=
  match f with
  | .lambda _ _ _ body => some body.domain
  | _ =>
    let args := f.arguments argument
    if args.length = f.arity ∧ args.all (·.domain.isScalar) then some .reals else none

end Function

namespace Domain

/-- The domain of an element or field of a host value. -/
def access? (type : HostType) (resolver : Resolver) (argument : Expr) : Option Domain :=
  match argument.kind with
  | .field name => (ofField type resolver name).toOption
  | .tuple items => (ofElement type resolver (items.map Expr.domain)).toOption
  | _ => (ofElement type resolver [argument.domain]).toOption

/-- The domain of `target` applied to `argument`, asked of the target's domain. -/
def leftApply? (target argument : Expr) : Option Domain :=
  (target.domain.firstAnswer fun
    | .functions =>
      match target.function? with
      | some f => some (f.resultDomain? argument)
      | none => some none
    | .host type resolver => some (access? type resolver argument)
    | .custom _ _ _ hooks => hooks.left target.sight argument.sight
    | own => (own.arithmetic? argument.domain).map some).join

/-- The domain of `target` applied to `argument`, asked of the argument's domain. -/
def rightApply? (target argument : Expr) : Option Domain :=
  (argument.domain.firstAnswer fun
    | .custom _ _ _ hooks => hooks.right target.sight argument.sight
    | _ => none).join

/-- The domain of an application of `member` and `other` on either side, asked of the domain of
`member`. -/
def eitherApply? (member other : Expr) : Option Domain :=
  (member.domain.firstAnswer fun
    | .custom _ _ _ hooks => hooks.either member.sight other.sight
    | _ => none).join

end Domain

namespace Expr

/-- The domain of `target` applied to `argument`. -/
def applyDomain? (target argument : Expr) : Option Domain :=
  Domain.leftApply? target argument
    <|> Domain.rightApply? target argument
    <|> Domain.eitherApply? target argument
    <|> Domain.eitherApply? argument target

/-- Whether two expressions commute. -/
def commutes (a b : Expr) : Bool :=
  a.domain.commutes b.domain || b.domain.commutes a.domain

/-- Whether three expressions associate. -/
def associates (a b c : Expr) : Bool :=
  a.domain.associates b.domain c.domain || b.domain.associates a.domain c.domain ||
    c.domain.associates a.domain b.domain

end Expr

end TermGraph
