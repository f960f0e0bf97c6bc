import TermGraph.Number.Shortest

/-!
# Numeric literals

A literal is a machine integer or a double.  Integer arithmetic is exact as long as the result is
a machine integer and falls back to doubles otherwise; one double among the operands makes the
result a double.

* `Number.add`, `Number.mul`, `Number.neg`, `Number.pow` are the arithmetic.
* `Number.Tracked` is a literal that also knows whether all operations that led to it kept to the
  integers.
* `Number.same` is equality of literals: an integer never equals a double, the two zeros are
  equal, and so are all not-a-numbers.
* `Number.compare` orders literals by value, an integer before the double of the same value.
* `Number.text` writes a literal.
-/

namespace TermGraph

/-- A numeric literal. -/
inductive Number where
  /-- A machine integer. -/
  | int (n : Int64)
  /-- A double. -/
  | float (x : Binary64)
deriving DecidableEq, Repr, Inhabited

namespace Number

/-- The integer zero. -/
def zero : Number := .int 0

/-- The integer one. -/
def one : Number := .int 1

/-- The machine integer with value `n`, when there is one. -/
def word? (n : Int) : Option Int64 :=
  if Int64.minValue.toInt ≤ n ∧ n ≤ Int64.maxValue.toInt then some (Int64.ofInt n) else none

/-- The value as a double, rounded for large integers. -/
def toBinary64 : Number → Binary64
  | .int n => .ofInt64 n
  | .float x => x

/-- The value as a machine float. -/
def toFloat (a : Number) : Float :=
  a.toBinary64.toFloat

/-- The value as a machine integer, for whole doubles in range too. -/
def toInt64? : Number → Option Int64
  | .int n => some n
  | .float x => x.toInt?.bind word?

/-- Whether the literal is an integer. -/
def isInt : Number → Bool
  | .int _ => true
  | .float _ => false

/-- Numerically below zero. -/
def isNegative : Number → Bool
  | .int n => decide (n < 0)
  | .float x => x.isNegative

/-- Numerically zero. -/
def isZero : Number → Bool
  | .int n => n == 0
  | .float x => x.isZero

/-- Numerically one. -/
def isOne : Number → Bool
  | .int n => n == 1
  | .float x => x.bits == 0x3ff0000000000000

/-! ## Arithmetic -/

/-- The sum, exact for integers while it is a machine integer. -/
def add (a b : Number) : Number :=
  match a, b with
  | .int m, .int n =>
    match word? (m.toInt + n.toInt) with
    | some s => .int s
    | none => .float (a.toBinary64.add b.toBinary64)
  | _, _ => .float (a.toBinary64.add b.toBinary64)

/-- The product, exact for integers while it is a machine integer. -/
def mul (a b : Number) : Number :=
  match a, b with
  | .int m, .int n =>
    match word? (m.toInt * n.toInt) with
    | some p => .int p
    | none => .float (a.toBinary64.mul b.toBinary64)
  | _, _ => .float (a.toBinary64.mul b.toBinary64)

/-- The opposite. -/
def neg : Number → Number
  | .int n =>
    match word? (-n.toInt) with
    | some m => .int m
    | none => .float (Binary64.ofInt64 n).neg
  | .float x => .float x.neg

/-- `base ^ exponent` when it is a machine integer.  A base beyond `± 1` leaves the range before
its sixty-fourth power, so no larger power is computed. -/
def wordPow? (base : Int64) (exponent : Nat) : Option Int64 :=
  if base.toInt.natAbs ≤ 1 then
    word? (if exponent = 0 then 1 else if exponent % 2 = 0 then base.toInt * base.toInt else base.toInt)
  else if exponent < 64 then
    word? (base.toInt.pow exponent)
  else
    none

/-- The power.  It is exact for an integer base and an integer exponent from `0` to `2 ^ 32 - 1`
while it is a machine integer, and a double otherwise. -/
def pow (base exponent : Number) : Number :=
  match base, exponent with
  | .int b, .int e =>
    let exact := if 0 ≤ e.toInt ∧ e.toInt < Int.pow 2 32 then wordPow? b e.toInt.toNat else none
    match exact with
    | some p => .int p
    | none => .float (base.toBinary64.pow exponent.toBinary64)
  | _, _ => .float (base.toBinary64.pow exponent.toBinary64)

/-- Whether an operation keeps to the integers: on two integers it gives an integer. -/
def keepsInt (op : Number → Number → Number) (a b : Number) : Bool :=
  !(a.isInt && b.isInt) || (op a b).isInt

/-- The outcome of operations on literals, and whether all of them kept to the integers. -/
structure Tracked where
  /-- The literal. -/
  value : Number
  /-- Whether all operations so far kept to the integers. -/
  kept : Bool
deriving DecidableEq, Repr, Inhabited

namespace Tracked

/-- A literal before any operation. -/
def of (n : Number) : Tracked := ⟨n, true⟩

/-- One more operation. -/
def combine (op : Number → Number → Number) (t : Tracked) (n : Number) : Tracked :=
  ⟨op t.value n, t.kept && keepsInt op t.value n⟩

end Tracked

/-! ## Equality and order -/

/-- The literal that stands for all literals equal to it. -/
def canonical : Number → Number
  | .int n => .int n
  | .float x => .float x.canonical

/-- Equality of literals. -/
def same (a b : Number) : Bool :=
  a.canonical == b.canonical

/-- Order by value, an integer before a double of the same value. -/
def compare (a b : Number) : Ordering :=
  match a, b with
  | .int m, .int n => Ord.compare m.toInt n.toInt
  | _, _ =>
    (Ord.compare a.toBinary64.rank b.toBinary64.rank).then (Ord.compare b.isInt a.isInt)

/-- A code that is equal exactly for equal literals. -/
def code : Number → List Nat
  | .int n => [0, n.toUInt64.toNat]
  | .float x => [1, x.canonical.bits.toNat]

/-! ## Text -/

/-- Decimal text of an integer. -/
def intText (n : Int) : String :=
  match n with
  | .ofNat k => Nat.repr k
  | .negSucc k => "-" ++ Nat.repr (k + 1)

/-- Text of a double: whole numbers below `10 ^ 15` keep one decimal place, all others are the
shortest decimal that reads back, never with an exponent. -/
def floatText (x : Binary64) : String :=
  let sign := if x.signed then "-" else ""
  match x.parts with
  | none => if x.isNaN then "NaN" else sign ++ "inf"
  | some p =>
    match p.toInt? with
    | some n =>
      if n.natAbs < Nat.pow 10 15 then sign ++ Nat.repr n.natAbs ++ ".0"
      else sign ++ (Shortest.ofParts p).positional
    | none => sign ++ (Shortest.ofParts p).positional

/-- Text of a literal. -/
def text : Number → String
  | .int n => intText n.toInt
  | .float x => floatText x

end Number

end TermGraph
