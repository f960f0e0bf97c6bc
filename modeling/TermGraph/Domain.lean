import TermGraph.Host.Resolver

/-!
# Domains

Every expression lies in a domain.  Each domain but the universal one has a base, and the bases
form a chain that ends there:

* integers, reals, matrices, universal;
* functions, fields and every host domain directly below universal;
* a custom domain above whatever base it names.

A domain answers questions about sums and products of its members.  A domain without an answer of
its own passes the question to its base, so `Domain.firstAnswer` asks along the `lineage`.

The answers of a custom domain are given by code from outside.  Domains hold that code, and it
cannot be given domains in turn: it sees of a domain its `DomainView`, and of an expression its
`Sight`.
-/

namespace TermGraph

/-- The answers of a custom domain.  An absent answer is left to the base. -/
structure Hooks (δ : Type) where
  /-- The host type of the members, if any. -/
  native : Option (Option HostType) := none
  /-- The domain of a member applied to something. -/
  left : (target argument : Sight) → Option (Option δ) := fun _ _ => none
  /-- The domain of something applied to a member. -/
  right : (target argument : Sight) → Option (Option δ) := fun _ _ => none
  /-- The domain of an application of a member and something, on either side. -/
  either : (member other : Sight) → Option (Option δ) := fun _ _ => none
  /-- The domain of the sum of a member and something. -/
  sum : (other : DomainView) → Option (Option δ) := fun _ => none
  /-- Whether members commute with those of another domain. -/
  commutes : (other : DomainView) → Option Bool := fun _ => none
  /-- Whether members associate with those of two other domains. -/
  associates : (second third : DomainView) → Option Bool := fun _ _ => none
  /-- The derivative of a member applied to something. -/
  derivative : Option DerivativeHook := none

namespace Hooks

/-! The same answer may be given whatever is asked about. -/

instance {α : Type} : Coe (Option α) (DomainView → Option α) := ⟨fun answer _ => answer⟩

instance {α : Type} : Coe (Option α) (DomainView → DomainView → Option α) :=
  ⟨fun answer _ _ => answer⟩

instance {α : Type} : Coe (Option α) (Sight → Sight → Option α) := ⟨fun answer _ _ => answer⟩

end Hooks

/-- The algebraic kind of an expression. -/
inductive Domain where
  /-- Everything. -/
  | universal
  /-- Matrices, and scalars as multiples of the identity. -/
  | matrices
  /-- Real numbers. -/
  | reals
  /-- Integers. -/
  | integers
  /-- Functions. -/
  | functions
  /-- Member names, meaningful only as arguments. -/
  | fields
  /-- Values of a host type, with the resolver that types their members. -/
  | host (type : HostType) (resolver : Resolver)
  /-- A domain with rules of its own. -/
  | custom (identity : Nat) (name : String) (base : Domain) (hooks : Hooks Domain)

namespace Domain

instance : Inhabited Domain := ⟨.universal⟩

/-- Whether two domains are the same: host domains by their type alone, custom domains by their
identity. -/
def same : Domain → Domain → Bool
  | .universal, .universal => true
  | .matrices, .matrices => true
  | .reals, .reals => true
  | .integers, .integers => true
  | .functions, .functions => true
  | .fields, .fields => true
  | .host a _, .host b _ => decide (a = b)
  | .custom a _ _ _, .custom b _ _ _ => a == b
  | _, _ => false

instance : BEq Domain := ⟨same⟩

/-- The domain of values of a host type, their members typed by `resolver`. -/
def ofType (type : HostType) (resolver : Resolver) : Domain :=
  match type with
  | .any => .universal
  | .int => .integers
  | .real => .reals
  | .matrix => .matrices
  | .function => .functions
  | .array _ | .record _ _ _ => .host type resolver

/-- The next domain up the chain; only the universal domain has none. -/
def base? : Domain → Option Domain
  | .universal => none
  | .matrices | .functions | .fields | .host _ _ => some .universal
  | .reals => some .matrices
  | .integers => some .reals
  | .custom _ _ base _ => some base

/-- The domain and all domains above it, nearest first. -/
def lineage : Domain → List Domain
  | .universal => [.universal]
  | .matrices => [.matrices, .universal]
  | .reals => [.reals, .matrices, .universal]
  | .integers => [.integers, .reals, .matrices, .universal]
  | .functions => [.functions, .universal]
  | .fields => [.fields, .universal]
  | .host type resolver => [.host type resolver, .universal]
  | .custom identity name base hooks => .custom identity name base hooks :: base.lineage

/-- What code from outside sees of a domain. -/
def view : Domain → DomainView
  | .universal => .universal
  | .matrices => .matrices
  | .reals => .reals
  | .integers => .integers
  | .functions => .functions
  | .fields => .fields
  | .host type _ => .host type
  | .custom identity _ base _ => .custom identity base.view

/-- Containment: `other` is the domain itself or above it. -/
def within (d other : Domain) : Bool :=
  d.lineage.any (· == other)

/-- Contained in the integers. -/
def isIntegral (d : Domain) : Bool := d.within .integers

/-- Contained in the reals. -/
def isScalar (d : Domain) : Bool := d.within .reals

/-- Contained in the matrices. -/
def isLinear (d : Domain) : Bool := d.within .matrices

/-- The first answer along the lineage.  A domain answers `none` to pass the question on. -/
def firstAnswer {α : Type} (answer : Domain → Option α) (d : Domain) : Option α :=
  d.lineage.findSome? answer

/-- The host type that a domain stands for, if any. -/
def nativeType? (d : Domain) : Option HostType :=
  (d.firstAnswer fun
    | .universal | .fields => some none
    | .matrices => some (some .matrix)
    | .reals => some (some .real)
    | .integers => some (some .int)
    | .functions => some (some .function)
    | .host type _ => some (some type)
    | .custom _ _ _ hooks => hooks.native).join

/-- The domain of a sum or product of a number-like domain with another: the smallest of integers,
reals and matrices that holds both. -/
def arithmetic? (d other : Domain) : Option Domain :=
  match d with
  | .integers =>
    if other.isIntegral then some .integers
    else if other.isScalar then some .reals
    else if other.isLinear then some .matrices
    else none
  | .reals =>
    if other.isScalar then some .reals
    else if other.isLinear then some .matrices
    else none
  | .matrices => if other.isLinear then some .matrices else none
  | _ => none

/-- The domain of a sum, asked of the left domain. -/
def sum? (d other : Domain) : Option Domain :=
  (d.firstAnswer fun
    | .custom _ _ _ hooks => hooks.sum other.view
    | own => (own.arithmetic? other).map some).join

/-- The domain of a sum, asked of both sides. -/
def resolveSum? (left right : Domain) : Option Domain :=
  left.sum? right <|> right.sum? left

/-- Whether members of the domain commute with those of another. -/
def commutes (d other : Domain) : Bool :=
  (d.firstAnswer fun
    | .reals | .integers => if other.isLinear then some true else none
    | .matrices => if other.isScalar then some true else none
    | .custom _ _ _ hooks => hooks.commutes other.view
    | _ => none).getD false

/-- Whether members of the domain associate with those of two others. -/
def associates (d second third : Domain) : Bool :=
  (d.firstAnswer fun
    | .matrices | .reals | .integers => some (second.isLinear && third.isLinear)
    | .custom _ _ _ hooks => hooks.associates second.view third.view
    | _ => none).getD false

/-- Text of a domain. -/
def text : Domain → String
  | .universal => "universal"
  | .matrices => "matrices"
  | .reals => "reals"
  | .integers => "integers"
  | .functions => "functions"
  | .fields => "fields"
  | .host type _ => "host<" ++ type.text ++ ">"
  | .custom _ name _ _ => name

end Domain

end TermGraph
