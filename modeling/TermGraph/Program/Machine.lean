import TermGraph.Normalization
import TermGraph.Program.Bytecode

/-!
# Running register code

Instructions run one after the other over an array of registers.  They use the evaluation of
concrete values that normalization uses too, so both agree on every operation.

A range runs over integers, both ends included; a matrix is filled column by column.
-/

namespace TermGraph

/-- The registers of a running function. -/
abbrev Frame := Array Value

namespace Frame

/-- The value in a register. -/
def read (f : Frame) (r : Nat) : Value :=
  f.getD r (.number .zero)

/-- Puts a value into a register. -/
def write (f : Frame) (r : Nat) (v : Value) : Frame :=
  f.setIfInBounds r v

end Frame

namespace Instruction

/-- A bound of a summation, which must be an integer. -/
def bound (v : Value) : Build Int :=
  match v with
  | .number (.int n) => pure n.toInt
  | _ => throw (.evaluation (.boundNotInteger v))

/-- Runs a body for `count` integers from `first` on and adds up its results. -/
def sumRange (ev : Evaluator) (body : Frame → Build Frame) (counter result : Nat) (first : Int) :
    (count : Nat) → Value → Frame → Build (Value × Frame)
  | 0, sum, frame => pure (sum, frame)
  | count + 1, sum, frame => do
    let frame ← body (frame.write counter (.number (.int (Int64.ofInt first))))
    let sum ← ev.add sum (frame.read result)
    sumRange ev body counter result (first + 1) count sum frame

/-- Runs a body for the items of an array and adds up its results. -/
def sumItems (ev : Evaluator) (body : Frame → Build Frame) (item result : Nat) :
    List Value → Value → Frame → Build (Value × Frame)
  | [], sum, frame => pure (sum, frame)
  | v :: vs, sum, frame => do
    let frame ← body (frame.write item v)
    let sum ← ev.add sum (frame.read result)
    sumItems ev body item result vs sum frame

/-- Runs a body for the given rows and columns and gathers its results, the last one first. -/
def gatherEntries (body : Frame → Build Frame) (row col result : Nat) :
    List (Nat × Nat) → List Float → Frame → Build (List Float × Frame)
  | [], entries, frame => pure (entries, frame)
  | (i, j) :: rest, entries, frame => do
    let frame := frame.write row (.number (.int (Int64.ofNat i)))
    let frame ← body (frame.write col (.number (.int (Int64.ofNat j))))
    match frame.read result with
    | .number n => gatherEntries body row col result rest (n.toFloat :: entries) frame
    | v => throw (.evaluation (.entryNotANumber v))

mutual

/-- Runs one instruction with captured constants `data`. -/
def run (ev : Evaluator) (data : Array Value) (i : Instruction) (frame : Frame) :
    Build Frame :=
  match i with
  | .loadData dst slot =>
    match data[slot]? with
    | some v => pure (frame.write dst v)
    | none => throw (.evaluation (.missingConstant slot))
  | .loadNumber dst n => pure (frame.write dst (.number n))
  | .tuple dst items => pure (frame.write dst (.tuple (items.map frame.read)))
  | .apply dst target argument => do
    let v ← ev.apply (frame.read target) (frame.read argument)
    pure (frame.write dst v)
  | .add dst left right => do
    let v ← ev.add (frame.read left) (frame.read right)
    pure (frame.write dst v)
  | .inverse dst src => do
    let v ← ev.inverse (frame.read src)
    pure (frame.write dst v)
  | .transpose dst src => do
    let v ← ev.transpose (frame.read src)
    pure (frame.write dst v)
  | .rangeLoop dst counter lower upper body result => do
    let first ← bound (frame.read lower)
    let last ← bound (frame.read upper)
    let round := runAll ev data body
    let (sum, frame) ←
      sumRange ev round counter result first (last - first + 1).toNat (.number .zero) frame
    pure (frame.write dst sum)
  | .eachLoop dst item collection body result =>
    match frame.read collection with
    | .array _ _ items => do
      let round := runAll ev data body
      let (sum, frame) ← sumItems ev round item result items (.number .zero) frame
      pure (frame.write dst sum)
    | v => throw (.evaluation (.notIterable v))
  | .gridLoop dst row col rows cols body result => do
    let round := runAll ev data body
    let (entries, frame) ←
      gatherEntries round row col result (Expr.positions rows cols) [] frame
    let m ← Value.ofMatrix (.ofColumns rows cols entries.reverse.toArray)
    pure (frame.write dst m)

/-- Runs instructions one after the other. -/
def runAll (ev : Evaluator) (data : Array Value) :
    List Instruction → Frame → Build Frame
  | [], frame => pure frame
  | i :: is, frame => do
    let frame ← run ev data i frame
    runAll ev data is frame

end

end Instruction

/-- The results of a call. -/
structure Evaluation where
  /-- The value returned. -/
  value : Value
  /-- The further outputs. -/
  outputs : List Value
  /-- The output arrays. -/
  arrays : List (List Value)

namespace Program

/-- Runs a program on arguments. -/
def run (p : Program) (ev : Evaluator) (data : Array Value) (args : List Value) :
    Build Evaluation := do
  if args.length ≠ p.params then
    throw (.argumentCount p.params args.length)
  let unused := List.replicate (p.registers - args.length) (Value.number .zero)
  let frame : Frame := (args ++ unused).toArray
  let frame ← Instruction.runAll ev data p.instructions frame
  return ⟨frame.read p.value, p.outputs.map frame.read, p.arrays.map fun items => items.map frame.read⟩

end Program

end TermGraph
