/-!
# Sorting

Insertion sort, which keeps items that may stand either way in their order.
-/

namespace TermGraph.Sorting

/-- Puts `x` in front of the first item that it may stand before. -/
def insert {α : Type} (le : α → α → Bool) (x : α) : List α → List α
  | [] => [x]
  | y :: ys => if le x y then x :: y :: ys else y :: insert le x ys

/-- Sorts a list. -/
def sort {α : Type} (le : α → α → Bool) : List α → List α
  | [] => []
  | x :: xs => insert le x (sort le xs)

theorem insert_perm {α : Type} (le : α → α → Bool) (x : α) (ys : List α) :
    (insert le x ys).Perm (x :: ys) := by
  induction ys with
  | nil => exact .refl _
  | cons y ys ih =>
    rw [insert]
    split
    · exact .refl _
    · exact (ih.cons y).trans (.swap x y ys)

/-- Sorting keeps the items. -/
theorem sort_perm {α : Type} (le : α → α → Bool) (xs : List α) : (sort le xs).Perm xs := by
  induction xs with
  | nil => exact .refl _
  | cons x xs ih => exact (insert_perm le x (sort le xs)).trans (ih.cons x)

end TermGraph.Sorting
