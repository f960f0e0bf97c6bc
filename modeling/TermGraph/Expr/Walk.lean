import TermGraph.Expr.Basic
import Std.Data.TreeMap
import Std.Data.TreeSet

/-!
# Walks over the graph

A walk visits a node before its children and its children in order, and every node once, however
many parents share it.  It goes below the nodes that `enter` accepts.

* `Expr.walk` lists the visited nodes in order.
* `Expr.nodeCount` and `Expr.freeSymbols` are read off a walk.
* `Expr.nesting` is the greatest number of summations within one another.
-/

namespace TermGraph

/-- The nodes that a walk has visited. -/
structure Walked where
  /-- Their ordinals. -/
  seen : Std.TreeSet Nat := ∅
  /-- The nodes, the last one first. -/
  reversed : List Expr := []

namespace Walked

/-- Visits one more node. -/
def push (w : Walked) (e : Expr) : Walked :=
  ⟨w.seen.insert e.ordinal, e :: w.reversed⟩

end Walked

namespace Expr

/-- The sizes of some expressions together. -/
noncomputable def totalSize : List Expr → Nat
  | [] => 0
  | e :: es => sizeOf e + totalSize es

theorem totalSize_append (es fs : List Expr) :
    totalSize (es ++ fs) = totalSize es + totalSize fs := by
  induction es with
  | nil => simp [totalSize]
  | cons e es ih => rw [List.cons_append, totalSize, totalSize, ih, Nat.add_assoc]

/-- The children of a node are together smaller than the node. -/
theorem totalSize_children_lt (e : Expr) : totalSize e.children < sizeOf e := by
  have hitems (items : List Expr) : totalSize items < sizeOf items := by
    induction items with
    | nil => simp [totalSize]
    | cons item items ih => simp only [totalSize, List.cons.sizeOf_spec]; omega
  obtain ⟨ordinal, domain, kind⟩ := e
  cases kind with
  | tuple items | sum items | chain items =>
    have := hitems items
    simp [children, Kind.children, Expr.kind]
    omega
  | _ => simp [children, Kind.children, Expr.kind, totalSize]; try omega

/-- Visits the pending nodes from the front, those that have been visited apart.  The children of a
visited node come in front of what is pending, and a node may be pending more than once. -/
def walkPending (enter : Expr → Bool) (pending : List Expr) (w : Walked) : Walked :=
  match pending with
  | [] => w
  | e :: pending =>
    if w.seen.contains e.ordinal then walkPending enter pending w
    else if enter e then walkPending enter (e.children ++ pending) (w.push e)
    else walkPending enter pending (w.push e)
termination_by totalSize pending
decreasing_by
  all_goals
    have hsize := totalSize_children_lt e
    simp only [totalSize, totalSize_append]
    omega

/-- The nodes that a walk visits, in order. -/
def walk (e : Expr) (enter : Expr → Bool) : List Expr :=
  (walkPending enter [e] {}).reversed.reverse

/-- The number of distinct nodes. -/
def nodeCount (e : Expr) : Nat :=
  (e.walk fun _ => true).length

/-- The symbols that a node binds below it. -/
def binders (e : Expr) : List Expr :=
  match e.kind with
  | .indexedSum index _ _ _ => [index]
  | .collectionSum index _ _ => [index]
  | .generator _ _ _ => [rowIndex, colIndex]
  | _ => []

/-- The symbols that no node of the expression binds, in the order of the walk. -/
def freeSymbols (e : Expr) : List Expr :=
  let visited := e.walk fun _ => true
  let bound := visited.flatMap binders
  visited.filter fun s => s.isSymbol && !bound.contains s

/-! ## Nesting of summations -/

/-- Looks a node up in a table of known levels, or computes and remembers its level. -/
def knownLevel (e : Expr) (level : StateM (Std.TreeMap Nat Nat) Nat) :
    StateM (Std.TreeMap Nat Nat) Nat := do
  match (← get)[e.ordinal]? with
  | some n => return n
  | none =>
    let n ← level
    modify (·.insert e.ordinal n)
    return n

mutual

/-- The nesting of summations, each node looked at once. -/
def nestingFrom (e : Expr) : StateM (Std.TreeMap Nat Nat) Nat :=
  knownLevel e <|
    match e with
    | .node _ _ (.tuple items) => nestingAll items
    | .node _ _ (.apply target argument) => do
      return max (← nestingFrom target) (← nestingFrom argument)
    | .node _ _ (.sum items) => nestingAll items
    | .node _ _ (.generator _ _ element) => nestingFrom element
    | .node _ _ (.chain items) => nestingAll items
    | .node _ _ (.inverse inner) => nestingFrom inner
    | .node _ _ (.transpose inner) => nestingFrom inner
    | .node _ _ (.indexedSum _ lower upper body) => do
      return max (max (← nestingFrom lower) (← nestingFrom upper)) (← nestingFrom body) + 1
    | .node _ _ (.collectionSum _ collection body) => do
      return max (← nestingFrom collection) (← nestingFrom body) + 1
    | _ => pure 0

/-- The greatest nesting in a list. -/
def nestingAll : List Expr → StateM (Std.TreeMap Nat Nat) Nat
  | [] => pure 0
  | e :: es => do return max (← nestingFrom e) (← nestingAll es)

end

/-- The greatest number of summations within one another. -/
def nesting (e : Expr) : Nat :=
  (e.nestingFrom.run ∅).1

end Expr

end TermGraph
