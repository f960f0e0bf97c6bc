import TermGraph.Store

/-!
# Things with an identity

Arrays, matrices, records, functions, custom domains and resolvers are told apart by an identity
that the store hands out once.
-/

namespace TermGraph

namespace Value

/-- A new array. -/
def ofItems (element : HostType) (items : List Value) : Build Value := do
  return .array (← Build.fresh) element items

/-- A new matrix. -/
def ofMatrix (m : Matrix) : Build Value := do
  return .matrix (← Build.fresh) m

/-- A new record. -/
def ofFields (type : HostType) (fields : List (String × Value))
    (table : Option (List (List Value × Value))) : Build Value := do
  return .object (← Build.fresh) type fields table

end Value

namespace Function

/-- A new native function. -/
def ofNative (name : String) (definition : Native) : Build Function := do
  return .native (← Build.fresh) name definition

/-- A new function with a body; its parameters must be symbols. -/
def ofBody (name : String) (params : List Expr) (body : Expr) : Build Function :=
  match params.find? fun p => !p.isSymbol with
  | some p => throw (.notASymbol p)
  | none => do return .lambda (← Build.fresh) name params body

end Function

namespace Domain

/-- A new domain with rules of its own. -/
def define (name : String) (base : Domain) (hooks : Hooks Domain) : Build Domain := do
  return .custom (← Build.fresh) name base hooks

end Domain

namespace Resolver

/-- A new resolver, which may add a doubled field. -/
def define (doubled : Option DoubledField) : Build Resolver := do
  return .doubling (← Build.fresh) doubled

end Resolver

end TermGraph
