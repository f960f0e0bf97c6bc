import TermGraph.Host.Foreign

/-!
# Member resolvers

A resolver answers questions about the members of host types and host values.  All resolvers
read the declared fields and indexers of a type; a resolver may also derive further fields from
declared ones, by code from outside.  Resolvers are told apart by their identity, and the lookups
that a resolver has answered on values are tallied under it.

What a resolver answers about types is in `TermGraph.Host.Members`, and what it answers about
values in `TermGraph.Evaluation.Members`.
-/

namespace TermGraph

/-- A field that is not declared but read off a declared one, and has its type. -/
structure DerivedField where
  /-- The declared field that it is read off. -/
  source : String
  /-- The number that stands in its place; without one it is handed on as it is. -/
  change : Datum → Option Number

/-- A member resolver. -/
structure Resolver where
  /-- What tells this resolver from others. -/
  identity : Nat
  /-- The fields that this resolver adds to a type, by name. -/
  derived : HostType → String → Option DerivedField

/-- A field that is read off a declared one, with integers doubled. -/
structure DoubledField where
  /-- The name of the derived field. -/
  name : String
  /-- The declared field that it is read off. -/
  source : String
deriving DecidableEq, Repr, Inhabited

namespace DoubledField

/-- The number that stands in the place of an integer. -/
def change : Datum → Option Number
  | .number (.int n) => some (.int (n * 2))
  | _ => none

/-- The field, where it goes by its name. -/
def derived (d : DoubledField) (name : String) : Option DerivedField :=
  if d.name = name then some ⟨d.source, change⟩ else none

end DoubledField

namespace Resolver

/-- The resolver of declared members alone, which is used where no other is named. -/
def declared : Resolver := ⟨0, fun _ _ => none⟩

instance : Inhabited Resolver := ⟨declared⟩

/-- A resolver that adds a doubled field, if any, to all types. -/
def doubling (identity : Nat) (doubled : Option DoubledField) : Resolver :=
  ⟨identity, fun _ name => doubled.bind (·.derived name)⟩

end Resolver

end TermGraph
