/-!
# Built-in functions

The functions that every run knows by name: four of one argument, and the power.
-/

namespace TermGraph

/-- The built-in functions. -/
inductive Builtin where
  /-- Natural logarithm. -/
  | log
  /-- Exponential. -/
  | exp
  /-- Power of two arguments. -/
  | pow
  /-- Sine. -/
  | sin
  /-- Cosine. -/
  | cos
deriving DecidableEq, Repr, Inhabited

namespace Builtin

/-- The name under which a built-in function is called and written. -/
def name : Builtin → String
  | .log => "log"
  | .exp => "exp"
  | .pow => "pow"
  | .sin => "sin"
  | .cos => "cos"

/-- The number of arguments. -/
def arity : Builtin → Nat
  | .pow => 2
  | _ => 1

/-- The built-in function of a name. -/
def ofName? (name : String) : Option Builtin :=
  [.log, .exp, .pow, .sin, .cos].find? fun b => b.name == name

/-- A number that tells the built-in functions apart. -/
def index : Builtin → Nat
  | .log => 0
  | .exp => 1
  | .pow => 2
  | .sin => 3
  | .cos => 4

end Builtin

end TermGraph
