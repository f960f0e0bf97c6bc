import TermGraph.Builtin
import TermGraph.Host.Type
import TermGraph.Matrix
import TermGraph.Number.Basic

/-!
# Code from outside

Native functions, their partial derivatives, resolvers and custom domains are given by code from
outside.  Values hold functions, and expressions hold domains, so what holds such code cannot be
handed to it in turn.  The code sees data of the first order:

* of a value a `Datum`: all that is in it, but a function only as the code that tells it from others;
* of a domain a `DomainView`, which leaves out rules and resolvers;
* of an expression its `Sight`: which node it is, and its domain.

It answers with data as well.  A `Reply` may hand an argument on as it is, functions included, and
a `PartialRule` is a formula in the arguments.
-/

namespace TermGraph

/-! ## Values -/

/-- What code from outside sees of a value. -/
inductive Datum where
  /-- A number. -/
  | number (value : Number)
  /-- An array with the declared type of its elements. -/
  | array (identity : Nat) (element : HostType) (items : List Datum)
  /-- The entries of a matrix. -/
  | matrix (value : Matrix)
  /-- A tuple. -/
  | tuple (items : List Datum)
  /-- A record with its fields and rows. -/
  | object (identity : Nat) (type : HostType) (fields : List (String × Datum))
      (table : Option (List (List Datum × Datum)))
  /-- A function, by its code. -/
  | function (code : List Nat)
  /-- A member name. -/
  | field (name : String)

/-- What code from outside answers. -/
inductive Reply where
  /-- A number. -/
  | number (value : Number)
  /-- A new matrix. -/
  | matrix (value : Matrix)
  /-- The argument at a position, as it is; zero if there is none. -/
  | argument (position : Nat)
  /-- A tuple. -/
  | tuple (items : List Reply)

/-- Why code from outside gives no answer. -/
inductive Refusal where
  /-- The argument at a position is not a number. -/
  | argument (position : Nat)
  /-- A reason of its own. -/
  | reason (text : String)

instance : Inhabited Datum := ⟨.number .zero⟩

instance : Inhabited Reply := ⟨.number .zero⟩

instance : Inhabited Refusal := ⟨.argument 0⟩

/-! ## Native functions -/

/-- How a native function computes its value: by code from outside. -/
structure NativeRule where
  /-- The answer of the code to some arguments. -/
  answer : List Datum → Except Refusal Reply

namespace NativeRule

instance : Inhabited NativeRule := ⟨⟨fun _ => .ok default⟩⟩

/-- An argument as a double. -/
def numeric (position : Nat) : Datum → Except Refusal Binary64
  | .number n => .ok n.toBinary64
  | _ => .error (.argument position)

/-- The arguments from a position on as doubles. -/
def numerics (position : Nat) : List Datum → Except Refusal (List Binary64)
  | [] => .ok []
  | d :: ds => do return (← numeric position d) :: (← numerics (position + 1) ds)

/-- The sum of arguments times coefficients, in order. -/
def linearSum : List (Binary64 × Binary64) → Binary64
  | [] => ⟨0⟩
  | (c, x) :: rest => rest.foldl (fun sum (c, x) => sum.add (c.mul x)) (c.mul x)

/-- The sum of the arguments, each times its coefficient. -/
def linear (coefficients : List Binary64) : NativeRule :=
  ⟨fun args => do return .number (.float (linearSum (coefficients.zip (← numerics 0 args))))⟩

/-- The square of the argument. -/
def square : NativeRule :=
  ⟨fun
    | [] => .ok (.number .zero)
    | d :: _ => do
      let x ← numeric 0 d
      return .number (.float (x.mul x))⟩

/-- The argument at a position, as it is. -/
def argument (position : Nat) : NativeRule :=
  ⟨fun _ => .ok (.argument position)⟩

/-- A literal, whatever the arguments. -/
def literal (value : Number) : NativeRule :=
  ⟨fun _ => .ok (.number value)⟩

/-- No value at all. -/
def failure (reason : String) : NativeRule :=
  ⟨fun _ => .error (.reason reason)⟩

end NativeRule

/-! ## Expressions and domains -/

/-- What code from outside sees of a domain: everything but the rules of custom domains and the
resolvers of host domains. -/
inductive DomainView where
  /-- Everything. -/
  | universal
  /-- Matrices. -/
  | matrices
  /-- Real numbers. -/
  | reals
  /-- Integers. -/
  | integers
  /-- Functions. -/
  | functions
  /-- Member names. -/
  | fields
  /-- Values of a host type. -/
  | host (type : HostType)
  /-- A custom domain above its base. -/
  | custom (identity : Nat) (base : DomainView)
deriving DecidableEq, Inhabited

/-- What code from outside sees of an expression: which node it is, and its domain. -/
structure Sight where
  /-- The ordinal of the node. -/
  ordinal : Nat
  /-- The domain. -/
  domain : DomainView
deriving DecidableEq, Inhabited

/-- A partial derivative of a native function, as a formula in the arguments. -/
inductive PartialRule where
  /-- A literal. -/
  | literal (value : Number)
  /-- The argument that the derivative is by. -/
  | own
  /-- The argument at a position; zero if there is none. -/
  | argument (position : Nat)
  /-- The sum of terms. -/
  | sum (terms : List PartialRule)
  /-- The product of factors. -/
  | product (factors : List PartialRule)
  /-- A call of a built-in function. -/
  | call (function : Builtin) (arguments : List PartialRule)
  /-- The formula that code from outside gives for the arguments. -/
  | depending (rule : List Sight → PartialRule)
  /-- There is no derivative, for a reason of its own. -/
  | missing (operation expression : String)

namespace PartialRule

instance : Inhabited PartialRule := ⟨.own⟩

/-- A multiple of the argument that the derivative is by. -/
def multiple (factor : Number) : PartialRule :=
  .product [.literal factor, .own]

end PartialRule

/-- What a custom domain says about the derivative of an application of its members. -/
inductive DerivativeHook where
  /-- There is no rule. -/
  | missing
  /-- The derivative is zero. -/
  | zero
  /-- The derivative is that of the argument. -/
  | argument
  /-- The derivative fails with an error of its own. -/
  | failure
  /-- The derivative is a formula in target and argument and, after these, in their derivatives. -/
  | formula (rule : PartialRule)
deriving Inhabited

end TermGraph
