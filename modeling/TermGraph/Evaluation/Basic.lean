import TermGraph.Evaluation.Members
import TermGraph.Expr.Apply

/-!
# Evaluation of concrete values

The value of an application, a sum, an inverse and a transpose of concrete values.  A scalar that
is added to a matrix stands for that multiple of the identity.

Members are read through a resolver, and matrices are computed by an arithmetic; an evaluator has
both.  A call of a function with a body normalizes the body with the arguments put in, so calls take
the normalization as a parameter; `TermGraph.Normalization` ties the knot.
-/

namespace TermGraph

/-- What concrete values are evaluated with. -/
structure Evaluator where
  /-- The resolver that members are read through. -/
  resolver : Resolver := .declared
  /-- The arithmetic of matrices. -/
  matrices : MatrixArithmetic := .dense

namespace Value

/-- A matrix or the fault that kept it from being computed. -/
def ofMatrixResult (result : Except MatrixFault Matrix) : Build Value := do
  ofMatrix (← Build.ofExcept .matrix result)

/-- The number that one operation on two numbers gives. -/
def ofOperation (op : Number → Number → Number) (a b : Number) : Build Value := do
  return .number (← Build.settle ((Number.Tracked.of a).combine op b))

/-- The arguments in the argument of a call of a function with `arity` arguments. -/
def arguments (arity : Nat) (argument : Value) : List Value :=
  match argument with
  | .tuple items => if arity = 1 then [argument] else items
  | _ => [argument]

end Value

namespace Evaluator

/-- The sum of two values. -/
def add (ev : Evaluator) (left right : Value) : Build Value :=
  match left, right with
  | .matrix _ a, .matrix _ b => Value.ofMatrixResult (ev.matrices.add a b)
  | .matrix _ m, .number s =>
    Value.ofMatrixResult
      (ev.matrices.add m (ev.matrices.scale (.identity m.rows m.cols) s.toFloat))
  | .number s, .matrix _ m =>
    Value.ofMatrixResult
      (ev.matrices.add m (ev.matrices.scale (.identity m.rows m.cols) s.toFloat))
  | .number a, .number b => Value.ofOperation .add a b
  | _, _ => throw (.evaluation (.sum left right))

/-- The sum of values in order, beginning with the integer zero. -/
def sum (ev : Evaluator) (values : List Value) : Build Value :=
  values.foldlM ev.add (.number .zero)

/-- The inverse of a value. -/
def inverse (ev : Evaluator) (v : Value) : Build Value :=
  match v with
  | .matrix _ m => Value.ofMatrixResult (ev.matrices.inverse m)
  | .number n => Value.ofOperation .pow n (.int (-1))
  | _ => throw (.evaluation (.inverse v))

/-- The transpose of a value. -/
def transpose (ev : Evaluator) (v : Value) : Build Value :=
  match v with
  | .matrix _ m => Value.ofMatrix (ev.matrices.transpose m)
  | .number _ => pure v
  | _ => throw (.evaluation (.transpose v))

/-- One value applied to another, with calls made by `call`. -/
def applyWith (ev : Evaluator) (call : Function → List Value → Build Value)
    (target argument : Value) : Build Value :=
  match target, argument with
  | .function f, _ => call f (argument.arguments f.arity)
  | .matrix _ a, .matrix _ b => Value.ofMatrixResult (ev.matrices.mul a b)
  | .matrix _ m, .number s => Value.ofMatrix (ev.matrices.scale m s.toFloat)
  | .number s, .matrix _ m => Value.ofMatrix (ev.matrices.scale m s.toFloat)
  | _, .field name => ev.resolver.field target name
  | .array _ _ _, .tuple items => ev.resolver.element target items
  | .object _ _ _ _, .tuple items => ev.resolver.element target items
  | .array _ _ _, _ => ev.resolver.element target [argument]
  | .object _ _ _ _, _ => ev.resolver.element target [argument]
  | .number a, .number b => Value.ofOperation .mul a b
  | _, _ => throw (.evaluation (.application target argument))

end Evaluator

namespace Builtin

/-- The value of a built-in function at numbers. -/
def evaluate (b : Builtin) (args : List Number) : Build Value :=
  match b, args with
  | .log, x :: _ => pure (.number (.float (x.toBinary64.map Float.log)))
  | .exp, x :: _ => pure (.number (.float (x.toBinary64.map Float.exp)))
  | .sin, x :: _ => pure (.number (.float (x.toBinary64.map Float.sin)))
  | .cos, x :: _ => pure (.number (.float (x.toBinary64.map Float.cos)))
  | .pow, x :: y :: _ => Value.ofOperation .pow x y
  | _, _ => pure (.number .zero)

end Builtin

namespace Reply

mutual

/-- The value that a reply to some arguments stands for. -/
def value (args : List Value) : Reply → Build Value
  | .number n => pure (.number n)
  | .matrix m => Value.ofMatrix m
  | .argument k => pure (args.getD k (.number .zero))
  | .tuple items => do return .tuple (← values args items)

/-- The values that the replies of a list stand for. -/
def values (args : List Value) : List Reply → Build (List Value)
  | [] => pure []
  | r :: rs => do return (← r.value args) :: (← values args rs)

end

end Reply

namespace NativeRule

/-- The value of a native function. -/
def evaluate (rule : NativeRule) (args : List Value) : Build Value :=
  match rule.answer (Value.data args) with
  | .ok reply => reply.value args
  | .error (.argument k) => throw (.evaluation (.nativeArgument (args.getD k (.number .zero))))
  | .error (.reason text) => throw (.evaluation (.nativeFailure text))

end NativeRule

namespace Function

/-- The numbers among the arguments of a built-in function, all of which must be numbers. -/
def numericArguments (name : String) : List Value → Build (List Number)
  | [] => pure []
  | .number n :: rest => do return n :: (← numericArguments name rest)
  | v :: _ => throw (.evaluation (.notANumber name v))

/-- The value of a call, with bodies normalized by `normalize`. -/
def evaluateWith (normalize : Expr → Build Expr) (f : Function) (args : List Value) :
    Build Value :=
  if args.length ≠ f.arity then
    throw (.arityMismatch f.name f.arity args.length)
  else
    match f with
    | .builtin b => do b.evaluate (← numericArguments f.name args)
    | .native _ _ definition => definition.rule.evaluate args
    | .lambda _ _ params body => do
      let constants ← Expr.constants .declared args
      let bound ← Expr.substitute (params.zip constants) body
      let result ← normalize bound
      match result.value? with
      | some v => pure v
      | none => throw (.evaluation (.notConstant f.name result))

end Function

end TermGraph
