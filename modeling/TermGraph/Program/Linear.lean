import TermGraph.Expr.Text
import TermGraph.Expr.Walk
import TermGraph.Program.Code
import TermGraph.Sorting

/-!
# From expressions to statement lists

A census counts how often each node occurs in a block; below a node that was met before, nothing
is counted again.  Every composite node that occurs more than once becomes a local, the flattest
ones first, so a local refers to locals before it only.

The body of a summation and the element of a generator are blocks of their own with a census of
their own, since they run once in every round; a node that is already a local around is used as it
is.
-/

namespace TermGraph

/-! ## Census -/

/-- What a census knows of a node. -/
structure Occurrence where
  /-- The node. -/
  node : Expr
  /-- How often it occurs. -/
  count : Nat
  /-- The longest way down to a leaf. -/
  height : Nat

/-- The nodes of a block. -/
structure Census where
  /-- What is known by ordinal. -/
  seen : Std.TreeMap Nat Occurrence := ∅
  /-- The ordinals in the order in which the nodes were completed, the last one first. -/
  reversed : List Nat := []

namespace Census

/-- Counts a known node once more, or else counts the nodes below and enters it. -/
def visit (e : Expr) (below : StateM Census Nat) : StateM Census Nat := do
  match (← get).seen[e.ordinal]? with
  | some o =>
    modify fun c => { c with seen := c.seen.insert e.ordinal { o with count := o.count + 1 } }
    return o.height
  | none =>
    let height ← below
    modify fun c => ⟨c.seen.insert e.ordinal ⟨e, 1, height⟩, e.ordinal :: c.reversed⟩
    return height

end Census

namespace Expr

mutual

/-- Counts the nodes of a block below a node and gives its height.  Bodies of loops are blocks of
their own. -/
def count (e : Expr) : StateM Census Nat :=
  Census.visit e <|
    match e with
    | .node _ _ (.tuple items) => countAll items
    | .node _ _ (.apply target argument) => do
      let h ← count target
      return max (h + 1) ((← count argument) + 1)
    | .node _ _ (.sum items) => countAll items
    | .node _ _ (.chain items) => countAll items
    | .node _ _ (.inverse inner) => do return (← count inner) + 1
    | .node _ _ (.transpose inner) => do return (← count inner) + 1
    | .node _ _ (.indexedSum _ lower upper _) => do
      let h ← count lower
      return max (h + 1) ((← count upper) + 1)
    | .node _ _ (.collectionSum _ collection _) => do return (← count collection) + 1
    | _ => pure 0

/-- Counts the nodes of a list and gives the height of a node above them. -/
def countAll : List Expr → StateM Census Nat
  | [] => pure 0
  | e :: es => do
    let h ← count e
    return max (h + 1) (← countAll es)

end

/-- A node with children that is not a constant. -/
def isComposite (e : Expr) : Bool :=
  !e.children.isEmpty && !e.isConstant

/-- The nodes that become locals of a block with the given roots, in order of binding. -/
def sharedNodes (roots : List Expr) : List Expr :=
  let census := (roots.foldlM (fun _ e => do let _ ← count e) () |>.run {}).2
  let occurrences := census.reversed.reverse.filterMap fun k => census.seen[k]?
  let shared := occurrences.filter fun o => decide (1 < o.count) && o.node.isComposite
  (Sorting.sort (fun a b => decide (a.height ≤ b.height)) shared).map Occurrence.node

end Expr

/-! ## Lowering -/

/-- The captured constants of a batch. -/
structure Pool where
  /-- The constants, the last one first. -/
  reversed : List Value := []
  /-- The slot of each constant node, by ordinal. -/
  slots : Std.TreeMap Nat Nat := ∅

namespace Pool

/-- The captured constants by slot. -/
def data (p : Pool) : List Value :=
  p.reversed.reverse

/-- The slot of a constant node, taken if it has none yet. -/
def slot (p : Pool) (e : Expr) (v : Value) : Nat × Pool :=
  match p.slots[e.ordinal]? with
  | some k => (k, p)
  | none =>
    let k := p.reversed.length
    (k, ⟨v :: p.reversed, p.slots.insert e.ordinal k⟩)

end Pool

/-- The state of lowering one function. -/
structure Lowering where
  /-- The captured constants. -/
  pool : Pool
  /-- The locals by ordinal, the innermost block first. -/
  scopes : List (Std.TreeMap Nat Nat) := []
  /-- The bound symbols by ordinal with their loop variables, the innermost loop first. -/
  bound : List (Nat × Nat) := []
  /-- The next local. -/
  nextLocal : Nat := 0
  /-- The next loop variable. -/
  nextVariable : Nat := 0

/-- A step of lowering. -/
abbrev LowerM := StateM Lowering

namespace Lowering

/-- The local of a node. -/
def local? (s : Lowering) (e : Expr) : Option Nat :=
  s.scopes.findSome? fun scope => scope[e.ordinal]?

/-- The loop variable of a symbol. -/
def loopVariable? (s : Lowering) (e : Expr) : Option Nat :=
  (s.bound.find? fun entry => entry.1 == e.ordinal).map Prod.snd

/-- The local of a node, or else what `x` makes of it. -/
def reuse (e : Expr) (x : LowerM Code) : LowerM Code := do
  match (← get).local? e with
  | some id => return .hoisted id
  | none => x

/-- A symbol: a parameter, else the variable of the innermost loop that binds it. -/
def symbol (params : List Expr) (e : Expr) (name : String) : LowerM Code := do
  match params.findIdx? (· == e) with
  | some k => return .param k
  | none =>
    match (← get).loopVariable? e with
    | some k => return .loopVariable k
    | none => return .unbound name

/-- A captured constant. -/
def captured (e : Expr) (v : Value) : LowerM Code := do
  let k ← modifyGet fun s =>
    let (k, pool) := s.pool.slot e v
    (k, { s with pool := pool })
  return .captured k

/-- Binds a symbol to a new loop variable. -/
def bind (e : Expr) : LowerM Nat :=
  modifyGet fun s =>
    (s.nextVariable,
      { s with bound := (e.ordinal, s.nextVariable) :: s.bound, nextVariable := s.nextVariable + 1 })

/-- Ends the binding of the innermost `n` symbols. -/
def unbind (n : Nat) : LowerM Unit :=
  modify fun s => { s with bound := s.bound.drop n }

/-- Gives a node the next local in the innermost block. -/
def bindLocal (e : Expr) : LowerM Nat :=
  modifyGet fun s =>
    let scopes :=
      match s.scopes with
      | [] => []
      | scope :: rest => scope.insert e.ordinal s.nextLocal :: rest
    (s.nextLocal, { s with scopes := scopes, nextLocal := s.nextLocal + 1 })

/-- Binds the given nodes as locals, except those that are locals already. -/
def bindLocals (lower : Expr → LowerM Code) : List Expr → LowerM (List (Nat × Code))
  | [] => pure []
  | e :: es => do
    match (← get).local? e with
    | some _ => bindLocals lower es
    | none =>
      let code ← lower e
      let id ← bindLocal e
      return (id, code) :: (← bindLocals lower es)

/-- Opens a block over some roots and binds its locals. -/
def openBlock (lower : Expr → LowerM Code) (roots : List Expr) : LowerM (List (Nat × Code)) := do
  modify fun s => { s with scopes := ∅ :: s.scopes }
  bindLocals lower (Expr.sharedNodes roots)

/-- Closes the innermost block. -/
def closeBlock : LowerM Unit :=
  modify fun s => { s with scopes := s.scopes.drop 1 }

end Lowering

namespace Expr

mutual

/-- The code of a node over given parameters; `block` lowers bodies of loops. -/
def lowerWith (params : List Expr) (block : Expr → LowerM Block) (e : Expr) : LowerM Code :=
  Lowering.reuse e <|
    match e with
    | .node _ _ (.symbol name) => Lowering.symbol params e name
    | .node _ _ (.number n) => pure (.number n)
    | .node _ _ (.object v _) => Lowering.captured e v
    | .node _ _ (.field name) => Lowering.captured e (.field name)
    | .node _ _ (.function f) => Lowering.captured e (.function f)
    | .node _ _ (.tuple items) => do return .tuple (← lowerAll params block items)
    | .node _ _ (.apply target argument) => do
      let target ← lowerWith params block target
      return .apply target (← lowerWith params block argument)
    | .node _ _ (.sum items) => do return .sum (← lowerAll params block items)
    | .node _ _ (.chain items) => do return .multiply (← lowerAll params block items)
    | .node _ _ (.inverse inner) => do return .inverse (← lowerWith params block inner)
    | .node _ _ (.transpose inner) => do return .transpose (← lowerWith params block inner)
    | .node _ _ (.generator rows cols element) => do
      let row ← Lowering.bind rowIndex
      let col ← Lowering.bind colIndex
      let element ← block element
      Lowering.unbind 2
      return .generate rows cols row col element
    | .node _ _ (.indexedSum index lower upper body) => do
      let lower ← lowerWith params block lower
      let upper ← lowerWith params block upper
      let k ← Lowering.bind index
      let body ← block body
      Lowering.unbind 1
      return .range k lower upper body
    | .node _ _ (.collectionSum index collection body) => do
      let collection ← lowerWith params block collection
      let k ← Lowering.bind index
      let body ← block body
      Lowering.unbind 1
      return .each k collection body

/-- The codes of a list of nodes. -/
def lowerAll (params : List Expr) (block : Expr → LowerM Block) : List Expr → LowerM (List Code)
  | [] => pure []
  | e :: es => do
    let code ← lowerWith params block e
    return code :: (← lowerAll params block es)

end

/-- The block of the body of a loop whose ordinal is below `depth`.  The bodies of the loops in it
have smaller ordinals still. -/
def lowerBlock (params : List Expr) : (depth : Nat) → Expr → LowerM Block
  | 0, body => return .result (.unbound body.text)
  | depth + 1, body => do
    let lower := lowerWith params (lowerBlock params depth)
    let locals ← Lowering.openBlock lower [body]
    let value ← lower body
    Lowering.closeBlock
    return .ofLocals locals value

/-- The greatest ordinal of some expressions, which no node below them exceeds. -/
def lastOrdinal (roots : List Expr) : Nat :=
  roots.foldl (fun n e => max n e.ordinal) 0

end Expr

/-- A function to compile: its results over its parameters. -/
structure Job where
  /-- The value returned. -/
  value : Expr
  /-- The parameters, which are symbols. -/
  params : List Expr
  /-- Further outputs. -/
  outputs : List Expr := []
  /-- Output arrays, item by item. -/
  arrays : List (List Expr) := []

namespace Job

/-- All results of a job. -/
def roots (job : Job) : List Expr :=
  job.value :: job.outputs ++ job.arrays.flatten

/-- The parameters with their types. -/
def parameters (job : Job) : List Parameter :=
  job.params.map fun p => ⟨p.text, p.domain.nativeType?.getD .any⟩

/-- The statement list of a job, with a pool of captured constants to share with other jobs. -/
def linearize (job : Job) (name : String) (pool : Pool) : SourceFunction × Pool :=
  let lower := Expr.lowerWith job.params (Expr.lowerBlock job.params (Expr.lastOrdinal job.roots))
  let run : LowerM SourceFunction := do
    let locals ← Lowering.openBlock lower job.roots
    let value ← lower job.value
    let outputs ← job.outputs.mapM lower
    let arrays ← job.arrays.mapM fun items => items.mapM lower
    Lowering.closeBlock
    return ⟨name, job.parameters, locals, value, outputs, arrays⟩
  let (source, final) := run.run { pool := pool }
  (source, final.pool)

end Job

end TermGraph
