import TermGraph.Expr.Text

/-!
# Errors

What can go wrong while expressions are built, transformed, compiled or evaluated.  An error holds
its cause; `Error.category` sorts the causes and `Error.message` words them.
-/

namespace TermGraph

/-- Why a member or element of a host value could not be found. -/
inductive MemberError where
  /-- The type has no such field. -/
  | unknownMember (type : HostType) (member : String)
  /-- Several indexers take that number of arguments. -/
  | ambiguous (type : HostType) (arity : Nat)
  /-- The position is not in the collection. -/
  | indexOutOfRange (index : Int) (length : Nat)
  /-- The type cannot be indexed by that number of arguments. -/
  | notIndexable (type : HostType) (arity : Nat)

namespace MemberError

instance : Inhabited MemberError := ⟨.indexOutOfRange 0 0⟩

/-- Text of a member error. -/
def message : MemberError → String
  | .unknownMember type member => "type `" ++ type.text ++ "` has no member `" ++ member ++ "`"
  | .ambiguous type arity =>
    "member `[]` of `" ++ type.text ++ "` is ambiguous for " ++ Nat.repr arity ++ " argument(s)"
  | .indexOutOfRange index length =>
    "index " ++ Number.intText index ++ " out of range for length " ++ Nat.repr length
  | .notIndexable type arity =>
    "`" ++ type.text ++ "` cannot be indexed by " ++ Nat.repr arity ++ " argument(s)"

end MemberError

/-- What is wrong with a compiled function. -/
inductive Problem where
  /-- A symbol is neither a parameter nor bound by a loop. -/
  | unboundSymbol (name : String)
  /-- A local is used before it is bound. -/
  | unboundLocal (id : Nat)
  /-- A loop variable is used outside its loop. -/
  | unboundLoopVariable (id : Nat)
  /-- The function needs more registers than there are. -/
  | tooManyRegisters (needed limit : Nat)
  /-- The toolchain made no entry point for the function. -/
  | noEntryPoint
  /-- The toolchain has a complaint of its own. -/
  | complaint (text : String)
deriving DecidableEq, Repr, Inhabited

namespace Problem

/-- Text of a problem. -/
def message : Problem → String
  | .unboundSymbol name => "unbound symbol `" ++ name ++ "` is not a parameter"
  | .unboundLocal id => "local t" ++ Nat.repr id ++ " used before its binding"
  | .unboundLoopVariable id => "loop variable v" ++ Nat.repr id ++ " used outside its loop"
  | .tooManyRegisters needed limit =>
    "register limit exceeded: " ++ Nat.repr needed ++ " needed, " ++ Nat.repr limit ++ " available"
  | .noEntryPoint => "toolchain produced no entry point"
  | .complaint text => text

end Problem

/-- A problem that a toolchain reports. -/
structure Diagnostic where
  /-- Whether the problem is a warning only. -/
  isWarning : Bool
  /-- The function that has the problem, if it is one function's. -/
  function : Option String
  /-- The problem. -/
  problem : Problem
deriving DecidableEq, Repr, Inhabited

namespace Diagnostic

/-- Text of a diagnostic. -/
def message (d : Diagnostic) : String :=
  let level := if d.isWarning then "warning" else "error"
  match d.function with
  | some name => level ++ " in " ++ name ++ ": " ++ d.problem.message
  | none => level ++ ": " ++ d.problem.message

end Diagnostic

/-- Why concrete values could not be evaluated. -/
inductive EvaluationFault where
  /-- One value cannot be applied to another. -/
  | application (target argument : Value)
  /-- Two values cannot be added. -/
  | sum (left right : Value)
  /-- A value has no inverse. -/
  | inverse (value : Value)
  /-- A value has no transpose. -/
  | transpose (value : Value)
  /-- A built-in function was given something else than a number. -/
  | notANumber (function : String) (argument : Value)
  /-- The result of a call still has symbols in it. -/
  | notConstant (function : String) (result : Expr)
  /-- A native function was given something else than a number. -/
  | nativeArgument (argument : Value)
  /-- A native function failed. -/
  | nativeFailure (reason : String)
  /-- A bound of a summation is not an integer. -/
  | boundNotInteger (bound : Value)
  /-- A value is not an array to iterate over. -/
  | notIterable (collection : Value)
  /-- An entry of a matrix is not a number. -/
  | entryNotANumber (entry : Value)
  /-- A captured constant was never handed over. -/
  | missingConstant (slot : Nat)
  /-- A toolchain refused the captured constants. -/
  | constantsRefused (count : Nat)
  /-- A parameter stands twice in a list. -/
  | repeatedParameter (parameter : Expr)

namespace EvaluationFault

/-- Text of an evaluation fault. -/
def message : EvaluationFault → String
  | .application target argument => target.text ++ " applied to " ++ argument.text
  | .sum left right => left.text ++ " + " ++ right.text
  | .inverse value => "inverse of " ++ value.text
  | .transpose value => "transpose of " ++ value.text
  | .notANumber function argument => function ++ "(" ++ argument.text ++ "): not a number"
  | .notConstant function result => function ++ ": result `" ++ result.text ++ "` is not constant"
  | .nativeArgument argument => "native argument " ++ argument.text
  | .nativeFailure reason => reason
  | .boundNotInteger bound => "summation bound " ++ bound.text ++ " is not an integer"
  | .notIterable collection => "cannot iterate over " ++ collection.text
  | .entryNotANumber entry => "matrix element " ++ entry.text ++ " is not a number"
  | .missingConstant slot => "captured constant " ++ Nat.repr slot ++ " was never initialized"
  | .constantsRefused count => Nat.repr count ++ " constant(s) refused"
  | .repeatedParameter parameter => "parameter `" ++ parameter.text ++ "` is listed twice"

end EvaluationFault

/-- The cause of a failure. -/
inductive Error where
  /-- No domain types the application. -/
  | unsupportedApplication (target argument : Expr)
  /-- No domain types the sum; `domain` is the domain of the terms up to `left`. -/
  | unsupportedSum (left : Expr) (domain : Domain) (right : Expr)
  /-- A bound of a summation is not in the integers. -/
  | boundNotIntegral (bound : Expr)
  /-- The elements of a collection have no type. -/
  | notACollection (collection : Expr)
  /-- A call has the wrong number of arguments. -/
  | arityMismatch (function : String) (expected got : Nat)
  /-- Something else stands where a symbol must. -/
  | notASymbol (expression : Expr)
  /-- No rule covers the operation. -/
  | unimplementedRule (operation subject : String)
  /-- A member was not found. -/
  | member (error : MemberError)
  /-- A batch of functions was rejected. -/
  | compilation (diagnostics : List Diagnostic)
  /-- A compiled function was called with the wrong number of arguments. -/
  | argumentCount (expected got : Nat)
  /-- A compiled function was called with an argument of the wrong type. -/
  | argumentType (index : Nat) (expected got : HostType)
  /-- An operation on matrices failed. -/
  | matrix (fault : MatrixFault)
  /-- Concrete values could not be evaluated. -/
  | evaluation (fault : EvaluationFault)
  /-- The recursion went deeper than allowed. -/
  | depthExceeded

/-- The categories of errors. -/
inductive ErrorCategory where
  /-- Operands that do not fit. -/
  | type
  /-- An operation without a rule. -/
  | unimplementedRule
  /-- A member that was not found. -/
  | memberResolution
  /-- A rejected batch of functions. -/
  | compilation
  /-- A failed evaluation. -/
  | evaluation
  /-- Recursion that went too deep. -/
  | depth
deriving DecidableEq, Repr, Inhabited

namespace Error

instance : Inhabited Error := ⟨.depthExceeded⟩

/-- The category of an error. -/
def category : Error → ErrorCategory
  | .unsupportedApplication _ _ | .unsupportedSum _ _ _ | .boundNotIntegral _ | .notACollection _
  | .arityMismatch _ _ _ | .notASymbol _ => .type
  | .unimplementedRule _ _ => .unimplementedRule
  | .member _ => .memberResolution
  | .compilation _ => .compilation
  | .argumentCount _ _ | .argumentType _ _ _ | .matrix _ | .evaluation _ => .evaluation
  | .depthExceeded => .depth

/-- An expression and its domain, quoted. -/
def quoted (text domain : String) : String :=
  "`" ++ text ++ "` (" ++ domain ++ ")"

/-- Text of an error. -/
def message : Error → String
  | .unsupportedApplication target argument =>
    "cannot apply " ++ quoted target.text target.domain.text ++ " to " ++
      quoted argument.text argument.domain.text
  | .unsupportedSum left domain right =>
    "cannot add " ++ quoted left.text domain.text ++ " and " ++ quoted right.text right.domain.text
  | .boundNotIntegral bound =>
    "cannot apply " ++ quoted "sum bound" Domain.integers.text ++ " to " ++
      quoted bound.text bound.domain.text
  | .notACollection collection =>
    "cannot apply " ++ quoted "sum over" Domain.integers.text ++ " to " ++
      quoted collection.text collection.domain.text
  | .arityMismatch function expected got =>
    "`" ++ function ++ "` expects " ++ Nat.repr expected ++ " argument(s), got " ++ Nat.repr got
  | .notASymbol expression => "`" ++ expression.text ++ "` is not a symbol"
  | .unimplementedRule operation subject => "no " ++ operation ++ " rule for `" ++ subject ++ "`"
  | .member error => error.message
  | .compilation diagnostics =>
    "compilation failed with " ++ Nat.repr diagnostics.length ++ " diagnostic(s): " ++
      "; ".intercalate (diagnostics.map Diagnostic.message)
  | .argumentCount expected got =>
    "expected " ++ Nat.repr expected ++ " argument(s), got " ++ Nat.repr got
  | .argumentType index expected got =>
    "argument " ++ Nat.repr index ++ " should be " ++ expected.text ++ ", got " ++ got.text
  | .matrix fault => fault.message
  | .evaluation fault => "cannot evaluate " ++ fault.message
  | .depthExceeded => "recursion is nested too deeply"

end Error

end TermGraph
