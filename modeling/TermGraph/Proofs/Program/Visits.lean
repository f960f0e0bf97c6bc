import TermGraph.Proofs.Program.Occurrences
import TermGraph.Proofs.Store.Sharing
import Mathlib.Data.Set.Card

/-!
# The visits of a walk

A walk visits the nodes that it can descend to, in the order of their first occurrences in the tree
that the graph unfolds to.  The tree may be exponentially larger than the graph, but no node is
visited twice.

* `Expr.Descends enter`: from a node that `enter` accepts to one of its children.
* `Expr.encard_below`: the number of nodes counts the nodes of the graph below an expression.
* `Store.Reachable.walk_visits`: the order, the extent and the number of visits.
-/

namespace TermGraph

namespace Expr

variable {enter : Expr → Bool} {a e : Expr}

/-- The second node is a child of the first one, and `enter` accepts the first one. -/
def Descends (enter : Expr → Bool) (b c : Expr) : Prop :=
  enter b = true ∧ c ∈ b.children

/-- The nodes of the tree are those that one can descend to. -/
lemma mem_preorder_iff_reflTransGen :
    a ∈ e.preorder enter ↔ Relation.ReflTransGen (Descends enter) e a := by
  refine ⟨fun h => ?_, fun h => ?_⟩
  · induction hsize : sizeOf e using Nat.strongRecOn generalizing e with
    | _ n ih =>
      subst hsize
      rcases mem_preorder.1 h with rfl | ⟨henter, c, hc, ha⟩
      · exact .refl
      · exact .head ⟨henter, hc⟩ (ih _ (sizeOf_lt_of_mem_children hc) ha rfl)
  · induction h using Relation.ReflTransGen.head_induction_on with
    | refl => exact mem_preorder_self _ _
    | head hstep _ ih => exact mem_preorder.2 (.inr ⟨hstep.1, _, hstep.2, ih⟩)

/-- The number of nodes is the number of distinct nodes below the expression. -/
lemma encard_below {s : Store} (hs : s.WellFormed) (he : s.Knows e) :
    {a | Below a e}.encard = e.nodeCount := by
  classical
  have hset : {a | Below a e} = ((e.walk fun _ => true).toFinset : Set Expr) := by
    ext a
    simp [mem_walk hs he, mem_preorder_iff_below]
  rw [hset, Set.encard_coe_eq_coe_finsetCard,
    List.toFinset_card_of_nodup (nodup_walk hs he).of_map, nodeCount]

end Expr

namespace Store.Reachable

variable {s : Store} {e : Expr}

/-- **What a walk visits.**  A walk from a node of the store visits the nodes of the tree below it in
the order of their first occurrences, whatever nodes it enters.  It visits no node twice, and it
visits exactly the nodes that it can descend to.  The walk that enters all nodes counts the nodes of
the graph. -/
theorem walk_visits (hs : s.Reachable) (he : s.Knows e) (enter : Expr → Bool) :
    e.walk enter = (e.preorder enter).eraseDups ∧
      ((e.walk enter).map Expr.ordinal).Nodup ∧
      (∀ a, a ∈ e.walk enter ↔ Relation.ReflTransGen (Expr.Descends enter) e a) ∧
      {a | Expr.Below a e}.encard = e.nodeCount := by
  have hwf := hs.wellFormed
  refine ⟨Expr.walk_eq_eraseDups hwf he, Expr.nodup_walk hwf he, fun a => ?_,
    Expr.encard_below hwf he⟩
  rw [Expr.mem_walk hwf he, Expr.mem_preorder_iff_reflTransGen]

/-- A pair that occurs twice in a tuple, and its second item once more. -/
theorem walk_visits_pair :
    let x : Expr := .node 50 .reals (.symbol "x")
    let y : Expr := .node 51 .reals (.symbol "y")
    let pair : Expr := .node 52 .universal (.tuple [x, y])
    let e : Expr := .node 53 .universal (.tuple [y, pair, x, pair])
    let s := finalState ((Operation.tuple [y, pair, x, pair]).run 9 (finalState
      ((Operation.tuple [x, y]).run 9 (finalState ((Operation.symbol "y" .reals).run 9
      (finalState ((Operation.symbol "x" .reals).run 9 initial)))))))
    initial.Reaches s ∧ s.Knows e ∧
      e.walk (fun _ => true) = (e.preorder fun _ => true).eraseDups ∧
      (e.walk fun _ => true).map Expr.ordinal = [53, 51, 52, 50] ∧
      {a | Expr.Below a e}.encard = 4 := by
  intro x y pair e s
  have hs : initial.Reaches s := by
    refine .step _ 9 (.step _ 9 (.step _ 9 (.step _ 9 .refl trivial) trivial) ?_) ?_
    · simp only [Operation.KnownBy, knows_cons]
      exact ⟨rfl, rfl, by simp⟩
    · simp only [Operation.KnownBy, knows_cons]
      exact ⟨rfl, rfl, rfl, rfl, by simp⟩
  have he : s.Knows e := rfl
  obtain ⟨horder, -, -, hcount⟩ := walk_visits hs.reachable he fun _ => true
  refine ⟨hs, he, horder, by decide +kernel, ?_⟩
  rw [hcount, show e.nodeCount = 4 by decide +kernel]
  rfl

end Store.Reachable

end TermGraph
