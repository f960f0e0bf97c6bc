import TermGraph.Identity
import TermGraph.Typing

/-!
# Leaves and tuples

Symbols, literals, member names, functions, captured host values, and tuples of expressions.

Two requests for one literal, name or function give one node.  A captured array, matrix or record
is one node for each identity and resolver.  A tuple of one item is that item.
-/

namespace TermGraph

namespace Expr

/-- A new symbol. -/
def symbol (name : String) (domain : Domain) : Build Expr :=
  Build.intern domain (.symbol name)

/-- A literal. -/
def number (n : Number) : Build Expr :=
  Build.intern (if n.isInt then .integers else .reals) (.number n)

/-- An integer literal. -/
def int (n : Int64) : Build Expr :=
  number (.int n)

/-- The literal zero. -/
def zero : Build Expr := int 0

/-- The literal one. -/
def one : Build Expr := int 1

/-- A member name. -/
def fieldName (name : String) : Build Expr :=
  Build.intern .fields (.field name)

/-- A function as a value. -/
def ofFunction (f : Function) : Build Expr :=
  Build.intern .functions (.function f)

/-- A package of arguments. -/
def tuple (items : List Expr) : Build Expr :=
  match items with
  | [item] => pure item
  | _ => Build.intern .universal (.tuple items)

/-- A captured array, matrix or record. -/
def object (v : Value) (resolver : Resolver) : Build Expr :=
  Build.intern (.ofType v.hostType resolver) (.object v resolver.identity)

mutual

/-- A host value as an expression, the members of objects typed by `resolver`. -/
def constant (resolver : Resolver) (v : Value) : Build Expr :=
  match v with
  | .number n => number n
  | .function f => ofFunction f
  | .field name => fieldName name
  | .tuple items => do tuple (← constants resolver items)
  | .array _ _ _ | .matrix _ _ | .object _ _ _ _ => object v resolver

/-- Host values as expressions. -/
def constants (resolver : Resolver) : List Value → Build (List Expr)
  | [] => pure []
  | v :: vs => do
    let e ← constant resolver v
    return e :: (← constants resolver vs)

end

/-- A matrix as a constant expression. -/
def ofMatrix (m : Matrix) : Build Expr := do
  constant .declared (← Value.ofMatrix m)

/-- The domain of an application, or a type error. -/
def applyDomain (target argument : Expr) : Build Domain :=
  match applyDomain? target argument with
  | some d => pure d
  | none => throw (.unsupportedApplication target argument)

/-- The application as it stands. -/
def rawApply (target argument : Expr) : Build Expr := do
  let d ← applyDomain target argument
  Build.intern d (.apply target argument)

end Expr

end TermGraph
