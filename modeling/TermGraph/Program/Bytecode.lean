import TermGraph.Error
import TermGraph.Program.Code
import Std.Data.TreeMap

/-!
# Register code

Instructions over registers.  The first registers hold the arguments; every other one is written
by one instruction or is the variable of one loop.  A loop carries the instructions of its body.

`SourceFunction.compile` turns a statement list into a `Program`.  All problems of a function are
collected; a function with a problem has no program.
-/

namespace TermGraph

/-- An instruction. -/
inductive Instruction where
  /-- Loads a captured constant. -/
  | loadData (dst slot : Nat)
  /-- Loads a literal. -/
  | loadNumber (dst : Nat) (value : Number)
  /-- Makes a tuple. -/
  | tuple (dst : Nat) (items : List Nat)
  /-- Applies one value to another. -/
  | apply (dst target argument : Nat)
  /-- Adds two values. -/
  | add (dst left right : Nat)
  /-- Inverts a value. -/
  | inverse (dst src : Nat)
  /-- Transposes a value. -/
  | transpose (dst src : Nat)
  /-- Adds up `result` while `counter` runs over a range. -/
  | rangeLoop (dst counter lower upper : Nat) (body : List Instruction) (result : Nat)
  /-- Adds up `result` while `item` runs over a collection. -/
  | eachLoop (dst item collection : Nat) (body : List Instruction) (result : Nat)
  /-- Gathers `result` for every row and column into a matrix. -/
  | gridLoop (dst row col rows cols : Nat) (body : List Instruction) (result : Nat)

/-- A compiled function. -/
structure Program where
  /-- The instructions in order. -/
  instructions : List Instruction
  /-- The number of registers. -/
  registers : Nat
  /-- The number of parameters. -/
  params : Nat
  /-- The register of the value returned. -/
  value : Nat
  /-- The registers of the further outputs. -/
  outputs : List Nat
  /-- The registers of the items of the output arrays. -/
  arrays : List (List Nat)

/-- The most registers that a function may use. -/
def maxRegisters : Nat := 65536

/-- The state of compiling one function. -/
structure Allocation where
  /-- The number of registers in use. -/
  registers : Nat
  /-- The registers of the locals. -/
  locals : Std.TreeMap Nat Nat := ∅
  /-- The registers of the loop variables. -/
  counters : Std.TreeMap Nat Nat := ∅
  /-- The problems so far, the last one first. -/
  problems : List Problem := []

/-- A step of compiling. -/
abbrev CompileM := StateM Allocation

/-- Instructions, as what they put in front of the instructions that follow.  Fragments are joined
without copying either. -/
structure Emission where
  /-- The instructions in front of `rest`. -/
  onto : (rest : List Instruction) → List Instruction

namespace Emission

/-- No instructions. -/
def none : Emission := ⟨fun rest => rest⟩

/-- One instruction. -/
def one (i : Instruction) : Emission := ⟨fun rest => i :: rest⟩

/-- The instructions of `first` and then those of `second`. -/
def andThen (first second : Emission) : Emission := ⟨fun rest => first.onto (second.onto rest)⟩

instance : Append Emission := ⟨andThen⟩

/-- The instructions as a list. -/
def toList (code : Emission) : List Instruction := code.onto []

@[simp] theorem onto_none (rest : List Instruction) : none.onto rest = rest := rfl

@[simp] theorem onto_one (i : Instruction) (rest : List Instruction) :
    (one i).onto rest = i :: rest := rfl

@[simp] theorem onto_append (first second : Emission) (rest : List Instruction) :
    (first ++ second).onto rest = first.onto (second.onto rest) := rfl

end Emission

namespace Allocation

/-- Takes the next register. -/
def alloc : CompileM Nat :=
  modifyGet fun s => (s.registers, { s with registers := s.registers + 1 })

/-- Notes a problem. -/
def report (p : Problem) : CompileM Unit :=
  modify fun s => { s with problems := p :: s.problems }

/-- Loads a literal into a new register. -/
def literal (n : Number) : CompileM (Emission × Nat) := do
  let dst ← alloc
  return (.one (.loadNumber dst n), dst)

/-- The register of a local. -/
def hoisted (id : Nat) : CompileM (Emission × Nat) := do
  match (← get).locals[id]? with
  | some r => return (.none, r)
  | none =>
    report (.unboundLocal id)
    literal .zero

/-- The register of a loop variable. -/
def loopVariable (id : Nat) : CompileM (Emission × Nat) := do
  match (← get).counters[id]? with
  | some r => return (.none, r)
  | none =>
    report (.unboundLoopVariable id)
    literal .zero

/-- A symbol without a meaning, reported once by name. -/
def unbound (name : String) : CompileM (Emission × Nat) := do
  if !(← get).problems.contains (.unboundSymbol name) then
    report (.unboundSymbol name)
  literal .zero

/-- Gives a local its register. -/
def bindLocal (id r : Nat) : CompileM Unit :=
  modify fun s => { s with locals := s.locals.insert id r }

/-- Gives a loop variable a new register. -/
def bindVariable (id : Nat) : CompileM Nat := do
  let r ← alloc
  modify fun s => { s with counters := s.counters.insert id r }
  return r

end Allocation

open Allocation in
mutual

/-- The instructions of a computation and the register of its result. -/
def Code.compile : Code → CompileM (Emission × Nat)
  | .param k => return (.none, k)
  | .hoisted id => Allocation.hoisted id
  | .loopVariable id => Allocation.loopVariable id
  | .captured slot => do
    let dst ← alloc
    return (.one (.loadData dst slot), dst)
  | .number n => literal n
  | .unbound name => Allocation.unbound name
  | .tuple items => do
    let (code, registers) ← compileAll items
    let dst ← alloc
    return (code ++ .one (.tuple dst registers), dst)
  | .apply target argument => do
    let (code, t) ← target.compile
    let (code', a) ← argument.compile
    let dst ← alloc
    return (code ++ code' ++ .one (.apply dst t a), dst)
  | .sum [] => literal .zero
  | .sum (first :: rest) => do
    let (code, r) ← first.compile
    let (code', dst) ← compileFold .add r rest
    return (code ++ code', dst)
  | .multiply [] => literal .zero
  | .multiply (first :: rest) => do
    let (code, r) ← first.compile
    let (code', dst) ← compileFold .apply r rest
    return (code ++ code', dst)
  | .inverse inner => do
    let (code, src) ← inner.compile
    let dst ← alloc
    return (code ++ .one (.inverse dst src), dst)
  | .transpose inner => do
    let (code, src) ← inner.compile
    let dst ← alloc
    return (code ++ .one (.transpose dst src), dst)
  | .generate rows cols row col element => do
    let row ← bindVariable row
    let col ← bindVariable col
    let (body, result) ← element.compile
    let dst ← alloc
    return (.one (.gridLoop dst row col rows cols body.toList result), dst)
  | .range counter lower upper body => do
    let (code, lower) ← lower.compile
    let (code', upper) ← upper.compile
    let counter ← bindVariable counter
    let (body, result) ← body.compile
    let dst ← alloc
    return (code ++ code' ++ .one (.rangeLoop dst counter lower upper body.toList result), dst)
  | .each counter collection body => do
    let (code, collection) ← collection.compile
    let item ← bindVariable counter
    let (body, result) ← body.compile
    let dst ← alloc
    return (code ++ .one (.eachLoop dst item collection body.toList result), dst)

/-- The instructions of a list of computations and the registers of their results. -/
def compileAll : List Code → CompileM (Emission × List Nat)
  | [] => return (.none, [])
  | c :: cs => do
    let (code, r) ← c.compile
    let (code', rs) ← compileAll cs
    return (code ++ code', r :: rs)

/-- Combines the result in register `acc` with further computations, one after the other. -/
def compileFold (op : Nat → Nat → Nat → Instruction) (acc : Nat) :
    List Code → CompileM (Emission × Nat)
  | [] => return (.none, acc)
  | c :: cs => do
    let (code, r) ← c.compile
    let dst ← alloc
    let (code', result) ← compileFold op dst cs
    return (code ++ .one (op dst acc r) ++ code', result)

/-- The instructions of a block and the register of its result. -/
def Block.compile : Block → CompileM (Emission × Nat)
  | .result value => value.compile
  | .bind id code rest => do
    let (code, r) ← code.compile
    bindLocal id r
    let (code', result) ← rest.compile
    return (code ++ code', result)

end

/-- The instructions that bind locals. -/
def compileLocals : List (Nat × Code) → CompileM Emission
  | [] => return .none
  | (id, c) :: rest => do
    let (code, r) ← c.compile
    Allocation.bindLocal id r
    return code ++ (← compileLocals rest)

/-- The instructions of the output arrays and the registers of their items. -/
def compileArrays : List (List Code) → CompileM (Emission × List (List Nat))
  | [] => return (.none, [])
  | items :: rest => do
    let (code, rs) ← compileAll items
    let (code', rss) ← compileArrays rest
    return (code ++ code', rs :: rss)

namespace SourceFunction

/-- The program of a function, whatever problems it has. -/
def emit (f : SourceFunction) : CompileM Program := do
  let locals ← compileLocals f.locals
  let (code, value) ← f.value.compile
  let (outputCode, outputs) ← compileAll f.outputs
  let (arrayCode, arrays) ← compileArrays f.arrays
  let registers := (← get).registers
  if maxRegisters < registers then
    Allocation.report (.tooManyRegisters registers maxRegisters)
  return {
    instructions := (locals ++ code ++ outputCode ++ arrayCode).toList
    registers := registers
    params := f.params.length
    value := value
    outputs := outputs
    arrays := arrays }

/-- The program of a function, or all its problems. -/
def compile (f : SourceFunction) : Except (List Diagnostic) Program :=
  let (program, final) := f.emit.run { registers := f.params.length }
  match final.problems with
  | [] => .ok program
  | problems => .error (problems.reverse.map fun p => ⟨false, some f.name, p⟩)

end SourceFunction

end TermGraph
