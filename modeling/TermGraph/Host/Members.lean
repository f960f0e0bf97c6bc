import TermGraph.Error

/-!
# Members of host types

What a resolver answers about types: the type of a field, and the type of an element for given
domains of the index.

An array has one element type and takes one real index.  A record takes as many arguments as
exactly one of its indexers.
-/

namespace TermGraph

namespace HostType

/-- The type of a declared field. -/
def fieldType (type : HostType) (name : String) : Except MemberError HostType :=
  match type with
  | .record _ fields _ =>
    match fields.get? name with
    | some found => .ok found
    | none => .error (.unknownMember type name)
  | _ => .error (.unknownMember type name)

/-- The type of an element for an index in the given domains. -/
def indexType (type : HostType) (arguments : List Domain) : Except MemberError HostType :=
  match type, arguments with
  | .array element, [d] =>
    if d.isScalar then .ok element else .error (.notIndexable type 1)
  | .record _ _ indexers, _ =>
    match indexers.results arguments.length with
    | [result] => .ok result
    | [] => .error (.notIndexable type arguments.length)
    | _ => .error (.ambiguous type arguments.length)
  | _, _ => .error (.notIndexable type arguments.length)

end HostType

namespace Resolver

/-- The type of a field: a declared one, or the type of its source for a derived one. -/
def fieldType (r : Resolver) (type : HostType) (name : String) : Except MemberError HostType :=
  match type.fieldType name, r.derived type name with
  | .ok found, _ => .ok found
  | .error _, some d => type.fieldType d.source
  | .error e, none => .error e

end Resolver

namespace Domain

/-- The domain of an element of a host type, typed by the same resolver. -/
def ofElement (type : HostType) (resolver : Resolver) (arguments : List Domain) :
    Except MemberError Domain :=
  (type.indexType arguments).map fun element => .ofType element resolver

/-- The domain of a field of a host type, typed by the same resolver. -/
def ofField (type : HostType) (resolver : Resolver) (name : String) : Except MemberError Domain :=
  (resolver.fieldType type name).map fun field => .ofType field resolver

end Domain

end TermGraph
