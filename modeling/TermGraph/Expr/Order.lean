import TermGraph.Expr.Basic
import TermGraph.Sorting

/-!
# The order of operands

Operands that commute are sorted: literals first, by value, then the other constants, then the
scalars, then all else, each group by ordinal.  Matrices come last, so that a product keeps its
scalars together in front.
-/

namespace TermGraph

namespace Expr

/-- The group of an expression in the order of operands. -/
def group (e : Expr) : Nat :=
  if e.number?.isSome then 0
  else if e.isConstant then 1
  else if e.domain.isScalar then 2
  else 3

/-- The order of operands. -/
def compare (a b : Expr) : Ordering :=
  if a == b then .eq
  else
    match a.number?, b.number? with
    | some x, some y => x.compare y
    | _, _ => (Ord.compare a.group b.group).then (Ord.compare a.ordinal b.ordinal)

/-- Whether `a` may stand before `b`. -/
def le (a b : Expr) : Bool :=
  a.compare b != .gt

/-- Sorts items by the order of their keys and keeps items with one key in their order. -/
def sortBy {α : Type} (key : α → Expr) (items : List α) : List α :=
  Sorting.sort (fun x y => (key x).le (key y)) items

/-- Gathers the data of neighbouring items with one key.  `start` makes a group of its first datum
and `step` adds a further one. -/
def gatherFrom {α β : Type} (start : α → β) (step : β → α → β) (key : Expr) (group : β) :
    List (Expr × α) → List (Expr × β)
  | [] => [(key, group)]
  | (k, datum) :: rest =>
    if k == key then gatherFrom start step key (step group datum) rest
    else (key, group) :: gatherFrom start step k (start datum) rest

/-- Gathers the data that belong to one key, in the order of the keys; the data of one key keep
their order. -/
def gather {α β : Type} (start : α → β) (step : β → α → β) (items : List (Expr × α)) :
    List (Expr × β) :=
  match sortBy Prod.fst items with
  | [] => []
  | (key, datum) :: rest => gatherFrom start step key (start datum) rest

end Expr

end TermGraph
