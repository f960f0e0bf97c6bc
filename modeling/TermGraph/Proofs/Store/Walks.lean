import TermGraph.Expr.Walk
import TermGraph.Proofs.Store.WellFormed

/-!
# What a walk visits

A walk over the graph visits the nodes of the tree that an expression unfolds to, each at its first
occurrence.  Wherever it meets a node for the second time, everything below has been visited, since
children are older than their parents and a walk is done with the older nodes that it has seen.

* `Expr.preorder enter e`: the nodes of the tree below `e` in order, with repetitions.
* `Expr.Covers`: how the pending nodes account for what is below the visited ones.
* `Expr.walkPending_eq`: a walk visits the trees of the pending nodes one after the other.
* `Expr.mem_walk`: a node is visited if it occurs in the tree.
* `Expr.walk_eq_eraseDups`: the visited nodes are those of the tree, each at its first occurrence.
-/

namespace TermGraph

/-! ## Visiting nodes one after the other -/

namespace Walked

variable {w : Walked} {l : List Expr} {e : Expr} {k : ℕ}

/-- Visits a node, unless it has been visited. -/
def visit (w : Walked) (e : Expr) : Walked :=
  if w.seen.contains e.ordinal then w else w.push e

/-- Whether the node with an ordinal has been visited. -/
def Saw (w : Walked) (k : ℕ) : Prop :=
  w.seen.contains k = true

lemma visit_of_saw (h : w.Saw e.ordinal) : w.visit e = w := if_pos h

lemma visit_of_not_saw (h : ¬w.Saw e.ordinal) : w.visit e = w.push e := if_neg h

@[simp] lemma saw_push : (w.push e).Saw k ↔ e.ordinal = k ∨ w.Saw k := by
  simp [Saw, push]

/-- Nothing happens at nodes that have been visited. -/
lemma foldl_visit_eq_self (h : ∀ a ∈ l, w.Saw a.ordinal) : l.foldl visit w = w := by
  induction l with
  | nil => rfl
  | cons a l ih =>
    rw [List.foldl_cons, visit_of_saw (h a (by simp)), ih fun b hb => h b (by simp [hb])]

/-- The visited nodes are nodes of the store, and their ordinals are those that were seen. -/
structure Faithful (s : Store) (w : Walked) : Prop where
  /-- The visited nodes are nodes of the store. -/
  knows : ∀ a ∈ w.reversed, s.Knows a
  /-- Their ordinals are those that were seen. -/
  saw : ∀ k, w.Saw k ↔ ∃ a ∈ w.reversed, a.ordinal = k

lemma faithful_empty (s : Store) : Faithful s {} := ⟨by simp, by simp [Saw]⟩

variable {s : Store}

lemma Faithful.push (hw : w.Faithful s) (he : s.Knows e) : (w.push e).Faithful s where
  knows := List.forall_mem_cons.2 ⟨he, hw.knows⟩
  saw k := by
    show (w.push e).Saw k ↔ ∃ a ∈ e :: w.reversed, a.ordinal = k
    simp only [saw_push, hw.saw, List.mem_cons, exists_eq_or_imp]

/-- Visiting nodes of the store one after the other adds these nodes. -/
lemma Faithful.mem_reversed_foldl (hw : w.Faithful s) (hl : ∀ a ∈ l, s.Knows a) {a : Expr} :
    a ∈ (l.foldl visit w).reversed ↔ a ∈ l ∨ a ∈ w.reversed := by
  induction l generalizing w with
  | nil => simp
  | cons b l ih =>
    have hb := hl b (by simp)
    have hl' : ∀ a ∈ l, s.Knows a := fun a ha => hl a (by simp [ha])
    rw [List.foldl_cons, List.mem_cons]
    by_cases hsaw : w.Saw b.ordinal
    · -- The node that was seen under this ordinal is this one.
      obtain ⟨c, hc, hordinal⟩ := (hw.saw _).1 hsaw
      obtain rfl := Store.WellFormed.eq_of_ordinal (hw.knows c hc) hb hordinal
      rw [visit_of_saw hsaw, ih hw hl']
      refine ⟨fun h => h.imp_left .inr, ?_⟩
      rintro ((rfl | h) | h)
      · exact .inr hc
      · exact .inl h
      · exact .inr h
    · rw [visit_of_not_saw hsaw, ih (hw.push hb) hl']
      show _ ∨ a ∈ b :: w.reversed ↔ _
      rw [List.mem_cons, or_left_comm, or_assoc]

/-- Visiting nodes one after the other lists their first occurrences. -/
lemma Faithful.reverse_reversed_foldl (hw : w.Faithful s) (hl : ∀ a ∈ l, s.Knows a) :
    (l.foldl visit w).reversed.reverse = List.eraseDupsBy.loop (· == ·) l w.reversed := by
  induction l generalizing w with
  | nil => rfl
  | cons b l ih =>
    rw [List.forall_mem_cons] at hl
    have hany : w.reversed.any (b == ·) = true ↔ w.Saw b.ordinal := by
      simp only [List.any_eq_true, hw.saw, Expr.beq_iff_ordinal, eq_comm (a := b.ordinal)]
    rw [List.foldl_cons, List.eraseDupsBy.loop]
    by_cases hsaw : w.Saw b.ordinal
    · rw [visit_of_saw hsaw, hany.2 hsaw, ih hw hl.2]
    · rw [visit_of_not_saw hsaw, Bool.eq_false_of_not_eq_true fun h => hsaw (hany.1 h)]
      exact ih (hw.push hl.1) hl.2

/-- Visiting nodes one after the other lists none of them twice. -/
lemma Faithful.nodup_reversed_foldl (hw : w.Faithful s) (hl : ∀ a ∈ l, s.Knows a)
    (hnodup : (w.reversed.map Expr.ordinal).Nodup) :
    ((l.foldl visit w).reversed.map Expr.ordinal).Nodup := by
  induction l generalizing w with
  | nil => exact hnodup
  | cons b l ih =>
    rw [List.forall_mem_cons] at hl
    rw [List.foldl_cons]
    by_cases hsaw : w.Saw b.ordinal
    · rw [visit_of_saw hsaw]
      exact ih hw hl.2 hnodup
    · rw [visit_of_not_saw hsaw]
      have hnew : b.ordinal ∉ w.reversed.map Expr.ordinal := fun h =>
        hsaw ((hw.saw _).2 (List.mem_map.1 h))
      exact ih (hw.push hl.1) hl.2 (List.nodup_cons.2 ⟨hnew, hnodup⟩)

end Walked

/-! ## Unfolding the graph to a tree -/

namespace Expr

variable {enter : Expr → Bool} {a e : Expr} {w : Walked}

/-- The nodes of the tree that an expression unfolds to, each before its children, and nothing below
the nodes that `enter` refuses. -/
def preorder (enter : Expr → Bool) (e : Expr) : List Expr :=
  e :: if enter e then e.children.attach.flatMap fun c => preorder enter c.1 else []
termination_by sizeOf e
decreasing_by exact sizeOf_lt_of_mem_children c.2

lemma preorder_eq (enter : Expr → Bool) (e : Expr) :
    e.preorder enter = e :: if enter e then e.children.flatMap (preorder enter) else [] := by
  rw [preorder]
  simp only [List.flatMap_subtype, List.unattach_attach]

lemma mem_preorder : a ∈ e.preorder enter ↔
    a = e ∨ enter e = true ∧ ∃ c ∈ e.children, a ∈ c.preorder enter := by
  rw [preorder_eq]
  by_cases h : enter e = true <;> simp [h]

lemma mem_preorder_self (enter : Expr → Bool) (e : Expr) : e ∈ e.preorder enter :=
  mem_preorder.2 (.inl rfl)

lemma knows_of_mem_preorder {s : Store} (hs : s.WellFormed) (he : s.Knows e)
    (h : a ∈ e.preorder enter) : s.Knows a := by
  induction hsize : sizeOf e using Nat.strongRecOn generalizing e with
  | _ n ih =>
    subst hsize
    rcases mem_preorder.1 h with rfl | ⟨-, c, hc, ha⟩
    · exact he
    · exact ih _ (sizeOf_lt_of_mem_children hc) (hs.children he c hc) ha rfl

/-! ## Walks -/

section Pending

variable {l cs : List Expr} {n : ℕ}

lemma walkPending_of_saw (h : w.Saw e.ordinal) :
    walkPending enter (e :: l) w = walkPending enter l w := by
  have hseen : w.seen.contains e.ordinal = true := h
  rw [walkPending, if_pos hseen]

lemma walkPending_of_not_saw (h : ¬w.Saw e.ordinal) :
    walkPending enter (e :: l) w =
      if enter e then walkPending enter (e.children ++ l) (w.push e)
      else walkPending enter l (w.push e) := by
  have hseen : ¬w.seen.contains e.ordinal = true := h
  rw [walkPending, if_neg hseen]

/-- The node `a` is below a pending node, and up to there all pending nodes have ordinals below
`n`. -/
inductive Awaits (enter : Expr → Bool) (a : Expr) (n : ℕ) : List Expr → Prop
  | here {e : Expr} {l : List Expr} :
    e.ordinal < n → a ∈ e.preorder enter → Awaits enter a n (e :: l)
  | there {e : Expr} {l : List Expr} :
    e.ordinal < n → Awaits enter a n l → Awaits enter a n (e :: l)

lemma Awaits.append (hcs : ∀ c ∈ cs, c.ordinal < n) (h : Awaits enter a n l) :
    Awaits enter a n (cs ++ l) := by
  induction cs with
  | nil => exact h
  | cons c cs ih => exact .there (hcs c (by simp)) (ih fun d hd => hcs d (by simp [hd]))

lemma Awaits.of_mem {c : Expr} (hcs : ∀ c ∈ cs, c.ordinal < n) (hc : c ∈ cs)
    (ha : a ∈ c.preorder enter) : Awaits enter a n (cs ++ l) := by
  induction cs with
  | nil => cases hc
  | cons d cs ih =>
    rcases List.mem_cons.1 hc with rfl | hc
    · exact .here (hcs c (by simp)) ha
    · exact .there (hcs d (by simp)) (ih (fun d hd => hcs d (by simp [hd])) hc)

/-- Everything below a visited node has been visited, or else it comes up before any node that is
as young as the visited one. -/
def Covers (s : Store) (enter : Expr → Bool) (l : List Expr) (w : Walked) : Prop :=
  ∀ e : Expr, s.Knows e → w.Saw e.ordinal →
    ∀ a ∈ e.preorder enter, w.Saw a.ordinal ∨ Awaits enter a e.ordinal l

variable {s : Store}

/-- At a node that has been visited, all of its tree has been: nothing comes up before the node
itself. -/
lemma Covers.saw_of_saw (hw : Covers s enter (e :: l) w) (he : s.Knows e) (h : w.Saw e.ordinal) :
    ∀ a ∈ e.preorder enter, w.Saw a.ordinal := by
  intro a ha
  rcases hw e he h a ha with hsaw | ⟨hlt, -⟩ | ⟨hlt, -⟩
  · exact hsaw
  · exact absurd hlt (lt_irrefl _)
  · exact absurd hlt (lt_irrefl _)

lemma Covers.skip (hw : Covers s enter (e :: l) w) (he : s.Knows e) (h : w.Saw e.ordinal) :
    Covers s enter l w := by
  intro d hd hsaw a ha
  rcases hw d hd hsaw a ha with hsaw' | ⟨-, ha'⟩ | ⟨-, hawaits⟩
  · exact .inl hsaw'
  · exact .inl (hw.saw_of_saw he h a ha')
  · exact .inr hawaits

/-- A visited node hands its tree on to its children. -/
lemma Covers.descend (hs : s.WellFormed) (hw : Covers s enter (e :: l) w) (he : s.Knows e)
    (henter : enter e = true) : Covers s enter (e.children ++ l) (w.push e) := by
  have hbelow : ∀ c ∈ e.children, c.ordinal < e.ordinal := fun c hc => hs.below he hc
  -- The tree of `e` is `e` itself, which is visited now, and the trees of its children.
  have htree {n : ℕ} (hn : e.ordinal ≤ n) {a : Expr} (ha : a ∈ e.preorder enter) :
      (w.push e).Saw a.ordinal ∨ Awaits enter a n (e.children ++ l) := by
    rcases mem_preorder.1 ha with rfl | ⟨-, c, hc, ha⟩
    · exact .inl (Walked.saw_push.2 (.inl rfl))
    · exact .inr (.of_mem (fun c hc => (hbelow c hc).trans_le hn) hc ha)
  intro d hd hsaw a ha
  rcases Walked.saw_push.1 hsaw with hordinal | hsaw
  · obtain rfl := Store.WellFormed.eq_of_ordinal he hd hordinal
    exact htree le_rfl ha
  · rcases hw d hd hsaw a ha with hsaw' | ⟨hlt, ha'⟩ | ⟨hlt, hawaits⟩
    · exact .inl (Walked.saw_push.2 (.inr hsaw'))
    · exact htree hlt.le ha'
    · exact .inr (hawaits.append fun c hc => (hbelow c hc).trans hlt)

/-- A node that is not entered is its whole tree. -/
lemma Covers.leave (hw : Covers s enter (e :: l) w) (he : s.Knows e) (henter : enter e ≠ true) :
    Covers s enter l (w.push e) := by
  have htree {a : Expr} (ha : a ∈ e.preorder enter) : (w.push e).Saw a.ordinal := by
    rcases mem_preorder.1 ha with rfl | ⟨h, -⟩
    · exact Walked.saw_push.2 (.inl rfl)
    · exact absurd h henter
  intro d hd hsaw a ha
  rcases Walked.saw_push.1 hsaw with hordinal | hsaw
  · obtain rfl := Store.WellFormed.eq_of_ordinal he hd hordinal
    exact .inl (htree ha)
  · rcases hw d hd hsaw a ha with hsaw' | ⟨-, ha'⟩ | ⟨-, hawaits⟩
    · exact .inl (Walked.saw_push.2 (.inr hsaw'))
    · exact .inl (htree ha')
    · exact .inr hawaits

/-- A walk visits the trees of the pending nodes one after the other. -/
lemma walkPending_eq (hs : s.WellFormed) (hl : ∀ e ∈ l, s.Knows e) (hw : Covers s enter l w) :
    walkPending enter l w = (l.flatMap (preorder enter)).foldl Walked.visit w := by
  -- By the cases of the loop.  The invariant is what makes a node that comes up again superfluous.
  induction l, w using walkPending.induct enter with
  | case1 w => rw [walkPending, List.flatMap_nil, List.foldl_nil]
  | case2 w e l hsaw ih =>
    rw [List.forall_mem_cons] at hl
    rw [walkPending_of_saw hsaw, ih hl.2 (hw.skip hl.1 hsaw), List.flatMap_cons,
      List.foldl_append, Walked.foldl_visit_eq_self (hw.saw_of_saw hl.1 hsaw)]
  | case3 w e l hsaw henter ih =>
    rw [List.forall_mem_cons] at hl
    have hknown : ∀ c ∈ e.children ++ l, s.Knows c := fun c hc =>
      (List.mem_append.1 hc).elim (hs.children hl.1 c) (hl.2 c)
    rw [walkPending_of_not_saw hsaw, if_pos henter, ih hknown (hw.descend hs hl.1 henter),
      List.flatMap_cons, preorder_eq, if_pos henter, List.flatMap_append, List.cons_append,
      List.foldl_cons, Walked.visit_of_not_saw hsaw]
  | case4 w e l hsaw henter ih =>
    rw [List.forall_mem_cons] at hl
    rw [walkPending_of_not_saw hsaw, if_neg henter, ih hl.2 (hw.leave hl.1 henter),
      List.flatMap_cons, preorder_eq, if_neg henter, List.cons_append, List.nil_append,
      List.foldl_cons, Walked.visit_of_not_saw hsaw]

end Pending

section Walk

variable {s : Store}

/-- A walk visits the nodes of the tree one after the other. -/
lemma walkPending_singleton (hs : s.WellFormed) (he : s.Knows e) :
    walkPending enter [e] {} = (e.preorder enter).foldl Walked.visit {} := by
  have hcovers : Covers s enter [e] {} := fun d _ hsaw => by simp [Walked.Saw] at hsaw
  rw [walkPending_eq hs (List.forall_mem_singleton.2 he) hcovers, List.flatMap_singleton]

/-- The nodes that a walk visits are those of the tree. -/
lemma mem_walk (hs : s.WellFormed) (he : s.Knows e) :
    a ∈ e.walk enter ↔ a ∈ e.preorder enter := by
  rw [walk, List.mem_reverse, walkPending_singleton hs he,
    (Walked.faithful_empty s).mem_reversed_foldl fun b hb => knows_of_mem_preorder hs he hb]
  exact or_iff_left (by simp)

/-- A walk visits the nodes of the tree at their first occurrences. -/
lemma walk_eq_eraseDups (hs : s.WellFormed) (he : s.Knows e) :
    e.walk enter = (e.preorder enter).eraseDups := by
  rw [walk, walkPending_singleton hs he]
  exact (Walked.faithful_empty s).reverse_reversed_foldl fun a ha => knows_of_mem_preorder hs he ha

/-- A walk visits no node twice. -/
lemma nodup_walk (hs : s.WellFormed) (he : s.Knows e) : ((e.walk enter).map ordinal).Nodup := by
  rw [walk, walkPending_singleton hs he, List.map_reverse, List.nodup_reverse]
  exact (Walked.faithful_empty s).nodup_reversed_foldl
    (fun a ha => knows_of_mem_preorder hs he ha) List.nodup_nil

end Walk

end Expr

end TermGraph
