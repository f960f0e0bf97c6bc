import TermGraph.Number.Binary64

/-!
# The shortest decimal of a double

Every real number that is nearer to a double than to its neighbours reads back as that double.
`Shortest.ofParts` finds, for a positive double, the decimal `digits · 10 ^ exponent` with the
fewest digits among those that read back; of two such decimals the nearer one, and the upper one
when both are equally near.

For one digit, two digits, and so on, the two neighbours of the double on that decimal grid are
tested by exact integer arithmetic; seventeen digits always suffice.
-/

namespace TermGraph

/-- The positive decimal `digits · 10 ^ exponent`. -/
structure Decimal where
  /-- The digits as one whole number. -/
  digits : Nat
  /-- The power of ten that they are scaled by. -/
  exponent : Int
deriving DecidableEq, Repr, Inhabited

namespace Shortest

/-- Number of decimal digits of `n`. -/
def width (n : Nat) : Nat :=
  (Nat.toDigits 10 n).length

/-- The reals that round to a double, in quarters of its unit in the last place. -/
structure Interval where
  /-- Four times the significand. -/
  value : Nat
  /-- The lower end. -/
  low : Nat
  /-- The upper end. -/
  high : Nat
  /-- Whether the two ends themselves round to the double. -/
  closed : Bool
  /-- The power of two that one quarter stands for. -/
  exponent : Int
deriving Repr, Inhabited

/-- The rounding interval.  Below a power of two the neighbours are twice as close. -/
def Interval.ofParts (p : Binary64.Parts) : Interval where
  value := 4 * p.mantissa
  low :=
    if p.mantissa = Nat.pow 2 52 ∧ -1074 < p.exponent then 4 * p.mantissa - 1
    else 4 * p.mantissa - 2
  high := 4 * p.mantissa + 2
  closed := p.mantissa % 2 == 0
  exponent := p.exponent - 2

/-- Numerator of one quarter on the grid of multiples of `10 ^ k`. -/
def Interval.scale (i : Interval) (k : Int) : Nat :=
  Nat.pow 2 i.exponent.toNat * Nat.pow 10 (-k).toNat

/-- Denominator of one quarter on the grid of multiples of `10 ^ k`. -/
def Interval.unit (i : Interval) (k : Int) : Nat :=
  Nat.pow 2 (-i.exponent).toNat * Nat.pow 10 k.toNat

/-- Whether `c · 10 ^ k` rounds to the double. -/
def Interval.holds (i : Interval) (k : Int) (c : Nat) : Bool :=
  let low := i.low * i.scale k
  let high := i.high * i.scale k
  let here := c * i.unit k
  if i.closed then decide (low ≤ here ∧ here ≤ high) else decide (low < here ∧ here < high)

/-- The power of ten of the leading digit. -/
def Interval.leading (i : Interval) : Int :=
  let num := i.value * i.scale 0
  let den := i.unit 0
  if den ≤ num then (width (num / den) : Int) - 1
  else -(width ((den + num - 1) / num - 1) : Int)

/-- The better of the two neighbours on the grid `10 ^ k` that round to the double. -/
def Interval.onGrid? (i : Interval) (k : Int) : Option Nat :=
  let num := i.value * i.scale k
  let den := i.unit k
  let below := num / den
  let nearerAbove := decide (den ≤ 2 * (num % den))
  match i.holds k below, i.holds k (below + 1) with
  | true, true => some (if nearerAbove then below + 1 else below)
  | true, false => some below
  | false, true => some (below + 1)
  | false, false => none

/-- Tries the grids from `count` digits on, `tries` of them. -/
def search (i : Interval) : (tries count : Nat) → Decimal
  | 0, _ => ⟨i.value * i.scale 0 / i.unit 0, 0⟩
  | tries + 1, count =>
    let k := i.leading + 1 - count
    match i.onGrid? k with
    | some d => ⟨d, k⟩
    | none => search i tries (count + 1)

/-- The shortest decimal that reads back as a positive double. -/
def ofParts (p : Binary64.Parts) : Decimal :=
  search (Interval.ofParts p) 17 1

end Shortest

namespace Decimal

/-- Digits written out with a point where it belongs and no exponent. -/
def positional (d : Decimal) : String :=
  let digits := String.ofList ((Nat.toDigits 10 d.digits).reverse.dropWhile (· == '0')).reverse
  let dropped := Shortest.width d.digits - digits.length
  let exponent := d.exponent + dropped
  if 0 ≤ exponent then
    digits ++ String.ofList (List.replicate exponent.toNat '0')
  else
    let places := (-exponent).toNat
    if places < digits.length then
      let whole := digits.length - places
      String.ofList (digits.toList.take whole) ++ "." ++ String.ofList (digits.toList.drop whole)
    else
      "0." ++ String.ofList (List.replicate (places - digits.length) '0') ++ digits

end Decimal

end TermGraph
