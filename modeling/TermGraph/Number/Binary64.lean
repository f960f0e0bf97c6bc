/-!
# Binary floating-point numbers by their bits

A `Binary64` is an IEEE 754 double kept as its 64-bit pattern.  Keeping the pattern and not the
number has two uses here: the order on literals tells `-0.0` from `0.0` and one not-a-number from
another, and whether a double is a whole number is decided by exact integer arithmetic on its
parts.

* `Binary64.parts` reads a finite double as `± mantissa · 2 ^ exponent`.
* `Binary64.toInt?` is the integer that a whole double denotes.
* `Binary64.rank` embeds the patterns in the integers in the order of the standard's total order.
-/

namespace TermGraph

/-- An IEEE 754 double, by its bit pattern. -/
structure Binary64 where
  /-- Sign, eleven exponent bits and fifty-two fraction bits. -/
  bits : UInt64
deriving DecidableEq, Repr, Inhabited

namespace Binary64

/-- A finite double as `± mantissa · 2 ^ exponent`. -/
structure Parts where
  /-- Whether the sign bit is set. -/
  negative : Bool
  /-- The significand as a whole number, below `2 ^ 53`. -/
  mantissa : Nat
  /-- The power of two that the significand is scaled by. -/
  exponent : Int
deriving DecidableEq, Repr, Inhabited

/-- The pattern without its sign bit. -/
def magnitude (x : Binary64) : Nat :=
  x.bits.toNat % Nat.pow 2 63

/-- Whether the sign bit is set. -/
def signed (x : Binary64) : Bool :=
  decide (Nat.pow 2 63 ≤ x.bits.toNat)

/-- Exponent bits all set and a fraction that is not zero. -/
def isNaN (x : Binary64) : Bool :=
  decide (0x7ff0000000000000 < x.magnitude)

/-- A not-a-number whose leading fraction bit is clear. -/
def isSignaling (x : Binary64) : Bool :=
  x.isNaN && decide (x.magnitude < 0x7ff8000000000000)

/-- Neither an infinity nor a not-a-number. -/
def isFinite (x : Binary64) : Bool :=
  decide (x.magnitude < 0x7ff0000000000000)

/-- Either of the two zeros. -/
def isZero (x : Binary64) : Bool :=
  x.magnitude == 0

/-- Numerically below zero; a negative zero and a not-a-number are not. -/
def isNegative (x : Binary64) : Bool :=
  x.signed && !x.isZero && !x.isNaN

/-- The number with sign, significand and exponent apart, when it is finite. -/
def parts (x : Binary64) : Option Parts :=
  if x.isFinite then
    let field : Nat := x.magnitude / Nat.pow 2 52
    let fraction : Nat := x.magnitude % Nat.pow 2 52
    if field = 0 then
      some ⟨x.signed, fraction, -1074⟩
    else
      some ⟨x.signed, fraction + Nat.pow 2 52, (field : Int) - 1075⟩
  else
    none

/-- The integer that `parts` denotes, when it denotes one. -/
def Parts.toInt? (p : Parts) : Option Int :=
  let size : Option Nat :=
    if 0 ≤ p.exponent then
      some (p.mantissa * Nat.pow 2 p.exponent.toNat)
    else
      let scale := Nat.pow 2 (-p.exponent).toNat
      if p.mantissa % scale = 0 then some (p.mantissa / scale) else none
  size.map fun n => if p.negative then -(n : Int) else n

/-- The integer that a whole double denotes. -/
def toInt? (x : Binary64) : Option Int :=
  x.parts.bind Parts.toInt?

/-- Whether the double is a whole number. -/
def isWhole (x : Binary64) : Bool :=
  x.toInt?.isSome

/-- The position of a pattern in the total order: the negative ones first, by falling magnitude,
then the others by rising magnitude. -/
def rank (x : Binary64) : Int :=
  if x.signed then -(x.magnitude : Int) - 1 else x.magnitude

/-- The pattern that stands for all patterns of the same number: the two zeros are one, and so
are all not-a-numbers. -/
def canonical (x : Binary64) : Binary64 :=
  if x.isZero then ⟨0⟩
  else if x.isNaN then ⟨0x7ff8000000000000⟩
  else x

/-! ## Arithmetic -/

/-- The double as a machine number. -/
def toFloat (x : Binary64) : Float :=
  Float.ofBits x.bits

/-- The pattern of a machine number. -/
def ofFloat (x : Float) : Binary64 :=
  ⟨x.toBits⟩

/-- The nearest double to a machine integer. -/
def ofInt64 (n : Int64) : Binary64 :=
  ofFloat (.ofInt n.toInt)

/-- The pattern with the leading fraction bit set, which makes a not-a-number quiet. -/
def quiet (x : Binary64) : Binary64 :=
  ⟨x.bits ||| 0x0008000000000000⟩

/-- The not-a-number that an operation gives: the first one among its operands, made quiet, or else
one of its own with the sign bit set. -/
def notANumber (operands : List Binary64) : Binary64 :=
  match operands.find? isNaN with
  | some x => x.quiet
  | none => ⟨0xfff8000000000000⟩

/-- The pattern of a computed number. -/
def computed (operands : List Binary64) (x : Float) : Binary64 :=
  if x.isNaN then notANumber operands else ofFloat x

/-- Negation turns the sign bit over. -/
def neg (x : Binary64) : Binary64 :=
  ⟨x.bits ^^^ 0x8000000000000000⟩

/-- Rounded sum. -/
def add (x y : Binary64) : Binary64 :=
  computed [x, y] (x.toFloat + y.toFloat)

/-- Rounded product. -/
def mul (x y : Binary64) : Binary64 :=
  computed [x, y] (x.toFloat * y.toFloat)

/-- Rounded power.  The exponent zero and the base one give one even beside a not-a-number, unless
that one is signaling. -/
def pow (x y : Binary64) : Binary64 :=
  if x.isSignaling || y.isSignaling then notANumber [x, y]
  else computed [x, y] (x.toFloat.pow y.toFloat)

/-- A rounded function of one double. -/
def map (f : Float → Float) (x : Binary64) : Binary64 :=
  computed [x] (f x.toFloat)

end Binary64

end TermGraph
