import TermGraph.Proofs.Polynomial.Gathering
import TermGraph.Proofs.Program.Scopes

/-!
# What the census finds out

The census of a block completes every node that the roots read once, and after its operands.  A node is
counted as often as it is a root or an operand of a completed node, which is what it would be lowered that
often for.

* `Expr.height`: the longest way down to a leaf, through operands.
* `Census.Records`: what a census holds after some nodes are completed.
* `Expr.exists_survey`: which nodes become locals, and in which order.
-/

namespace TermGraph

open Store (Knows)

namespace Expr

variable {s : Store} {a b c e : Expr}

/-! ## Heights -/

/-- The longest way down to a leaf, within a block. -/
def height (e : Expr) : ℕ :=
  (e.operands.attach.map fun c => height c.1 + 1).foldr max 0
termination_by sizeOf e
decreasing_by exact sizeOf_lt_of_mem_children (mem_children_of_mem_operands c.2)

/-- The height of a node above a list. -/
def heightAbove (l : List Expr) : ℕ :=
  (l.map fun c => c.height + 1).foldr max 0

lemma height_eq (e : Expr) : e.height = heightAbove e.operands := by
  conv_rhs => rw [heightAbove, ← List.attach_map_subtype_val e.operands, List.map_map]
  rw [height]
  rfl

lemma heightAbove_cons (e : Expr) (l : List Expr) :
    heightAbove (e :: l) = max (e.height + 1) (heightAbove l) := rfl

lemma height_lt_heightAbove {l : List Expr} (h : c ∈ l) : c.height < heightAbove l := by
  induction l with
  | nil => cases h
  | cons d l ih =>
    rw [heightAbove_cons]
    rcases List.mem_cons.1 h with rfl | h
    · omega
    · have := ih h
      omega

lemma height_lt (h : c ∈ e.operands) : c.height < e.height := by
  rw [height_eq e]
  exact height_lt_heightAbove h

lemma Reads.trans (h : Reads a b) (h' : Reads b e) : Reads a e := by
  induction h' with
  | refl => exact h
  | step hc _ ih => exact .step hc ih

/-- What is read is the node itself or an operand of something that is read. -/
lemma Reads.eq_or_operand (h : Reads a e) : a = e ∨ ∃ b, Reads b e ∧ a ∈ b.operands := by
  induction h with
  | refl => exact .inl rfl
  | step hc _ ih =>
    rcases ih with rfl | ⟨b, hb, hab⟩
    · exact .inr ⟨_, .refl, hc⟩
    · exact .inr ⟨b, .step hc hb, hab⟩

lemma Reads.height_le (h : Reads a e) : a.height ≤ e.height := by
  induction h with
  | refl => exact le_rfl
  | step hc _ ih => exact ih.trans (height_lt hc).le

lemma Reads.ordinal_le (hs : s.WellFormed) (h : Reads a e) (he : s.Knows e) : a.ordinal ≤ e.ordinal := by
  induction h with
  | refl => exact le_rfl
  | step hc _ ih =>
    have hchild := mem_children_of_mem_operands hc
    exact (ih (hs.children he _ hchild)).trans (hs.below he hchild).le

end Expr

/-! ## Completed nodes -/

namespace Census

open TermGraph.Expr

/-- How often the node with ordinal `k` was counted: for the visits in `T`, and for being an operand of a
node in `N`. -/
def visits (N : List Expr) (T : List ℕ) (k : ℕ) : ℕ :=
  (T ++ (N.flatMap operands).map ordinal).count k

lemma visits_perm {N : List Expr} {T T' : List ℕ} (h : T.Perm T') (k : ℕ) :
    visits N T k = visits N T' k :=
  (h.append_right _).count_eq k

lemma visits_cons_left (e : Expr) (N : List Expr) (T : List ℕ) (k : ℕ) :
    visits (e :: N) T k = visits N (e.operands.map ordinal ++ T) k := by
  simp only [visits, List.flatMap_cons, List.map_append, List.count_append]
  omega

lemma visits_cons_right (N : List Expr) (j : ℕ) (T : List ℕ) (k : ℕ) :
    visits N (j :: T) k = visits N T k + if j = k then 1 else 0 := by
  rw [visits, List.cons_append, List.count_cons, ← visits]
  simp

/-- The census has completed the nodes in `N`, the last one first, and each of them was counted for the
visits in `T` and for the nodes above it. -/
structure Records (s : Store) (N : List Expr) (T : List ℕ) (c : Census) : Prop where
  /-- The nodes are nodes of the store. -/
  knows : s.Knows N
  /-- The nodes are listed in this order. -/
  reversed : c.reversed = N.map ordinal
  /-- No node is completed twice. -/
  nodup : (N.map ordinal).Nodup
  /-- Operands are completed first. -/
  closed : ∀ e ∈ N, ∀ d ∈ e.operands, d ∈ N
  /-- What is known of a completed node. -/
  seen : ∀ e ∈ N, c.seen[e.ordinal]? = some ⟨e, visits N T e.ordinal, e.height⟩
  /-- Other nodes were not counted. -/
  unseen : ∀ k, k ∉ N.map ordinal → c.seen[k]? = none ∧ visits N T k = 0

namespace Records

variable {s : Store} {N : List Expr} {T T' : List ℕ} {c : Census} {e : Expr}

lemma nil (s : Store) : Records s [] [] {} where
  knows := Store.knows_nil
  reversed := rfl
  nodup := List.nodup_nil
  closed := by simp
  seen := by simp
  unseen k _ := ⟨by simp, rfl⟩

lemma perm (h : Records s N T c) (hperm : T.Perm T') : Records s N T' c where
  knows := h.knows
  reversed := h.reversed
  nodup := h.nodup
  closed := h.closed
  seen e he := by rw [← visits_perm hperm, h.seen e he]
  unseen k hk := by
    rw [← visits_perm hperm]
    exact h.unseen k hk

/-- A completed node is counted once more. -/
lemma again (h : Records s N T c) (he : e ∈ N) (below : StateM Census ℕ) :
    (visit e below c).1 = e.height ∧ Records s N (e.ordinal :: T) (visit e below c).2 := by
  rw [visit_seen (h.seen e he)]
  refine ⟨rfl, h.knows, h.reversed, h.nodup, h.closed, fun a ha => ?_, fun k hk => ?_⟩
  · rw [visits_cons_right, Std.TreeMap.getElem?_insert]
    split
    case isTrue heq =>
      rw [Std.compare_eq_iff_eq] at heq
      obtain rfl := Store.WellFormed.eq_of_ordinal (h.knows e he) (h.knows a ha) heq
      rw [if_pos rfl]
    case isFalse hne =>
      rw [Std.compare_eq_iff_eq] at hne
      rw [if_neg hne, h.seen a ha]
      rfl
  · have hne : e.ordinal ≠ k := by
      rintro rfl
      exact hk (List.mem_map_of_mem he)
    rw [visits_cons_right, if_neg hne]
    simp [Std.TreeMap.getElem?_insert, hne, h.unseen k hk]

/-- A node is completed after its operands: what they were counted for is that the node is above them. -/
lemma enter (h : Records s N (e.operands.map ordinal ++ T) c) (he : s.Knows e)
    (hnew : e.ordinal ∉ N.map ordinal) (hoperands : ∀ d ∈ e.operands, d ∈ N) :
    Records s (e :: N) (e.ordinal :: T)
      ⟨c.seen.insert e.ordinal ⟨e, 1, e.height⟩, e.ordinal :: c.reversed⟩ where
  knows := Store.knows_cons.2 ⟨he, h.knows⟩
  reversed := by rw [h.reversed, List.map_cons]
  nodup := List.nodup_cons.2 ⟨hnew, h.nodup⟩
  closed := by
    refine List.forall_mem_cons.2 ⟨fun d hd => by simp [hoperands d hd], fun a ha d hd => ?_⟩
    simp [h.closed a ha d hd]
  seen := by
    refine List.forall_mem_cons.2 ⟨?_, fun a ha => ?_⟩
    · rw [visits_cons_right, visits_cons_left, (h.unseen _ hnew).2]
      simp
    · have hne : e.ordinal ≠ a.ordinal := fun heq => hnew (heq ▸ List.mem_map_of_mem ha)
      rw [visits_cons_right, visits_cons_left, if_neg hne, Std.TreeMap.getElem?_insert, if_neg
        (by simpa using hne), h.seen a ha]
      rfl
  unseen k hk := by
    rw [List.map_cons, List.mem_cons, not_or] at hk
    rw [visits_cons_right, visits_cons_left, if_neg (Ne.symm hk.1)]
    simp [Std.TreeMap.getElem?_insert, Ne.symm hk.1, h.unseen k hk.2]

end Records

/-- A computation visits the nodes in `l` one after the other, and completes what they read. -/
def Completes (s : Store) (l : List Expr) (n : ℕ) (x : StateM Census ℕ) : Prop :=
  ∀ N T c, Records s N T c → (x c).1 = n ∧ ∃ M, Records s (M ++ N) (l.map ordinal ++ T) (x c).2 ∧
    (∀ e ∈ l, e ∈ M ++ N) ∧ ∀ a ∈ M, ∃ e ∈ l, Reads a e

end Census

namespace Expr

open Census

variable {s : Store} {a c e : Expr}

lemma completes_countAll {l : List Expr} (h : ∀ e ∈ l, Completes s [e] e.height (count e)) :
    Completes s l (heightAbove l) (countAll l) := by
  induction l with
  | nil =>
    intro N T c hc
    rw [countAll]
    exact ⟨rfl, [], hc, by simp, by simp⟩
  | cons e l ih =>
    rw [List.forall_mem_cons] at h
    intro N T c hc
    obtain ⟨hheight, M, hM, hmem, hreads⟩ := h.1 N T c hc
    obtain ⟨hheight', M', hM', hmem', hreads'⟩ := ih h.2 _ _ _ hM
    have hrun : countAll (e :: l) c = (max ((count e c).1 + 1) (countAll l (count e c).2).1,
        (countAll l (count e c).2).2) := by
      rw [countAll]
      rfl
    rw [hrun, hheight, hheight', heightAbove_cons]
    refine ⟨rfl, M' ++ M, ?_, ?_, ?_⟩
    · rw [List.append_assoc]
      exact hM'.perm List.perm_middle
    · refine List.forall_mem_cons.2 ⟨?_, fun d hd => ?_⟩
      · have he := hmem e (by simp)
        simp_all
      · have hd' := hmem' d hd
        simp_all
    · intro a ha
      rcases List.mem_append.1 ha with ha | ha
      · obtain ⟨d, hd, had⟩ := hreads' a ha
        exact ⟨d, by simp [hd], had⟩
      · obtain ⟨d, hd, had⟩ := hreads a ha
        exact ⟨d, by simp_all, had⟩

/-- Counting a node completes what it reads. -/
lemma completes_count (hs : s.WellFormed) (he : s.Knows e) : Completes s [e] e.height (count e) := by
  induction hsize : sizeOf e using Nat.strongRecOn generalizing e with
  | _ n ih =>
    subst hsize
    intro N T c hc
    rw [count_eq_visit]
    by_cases hmem : e.ordinal ∈ N.map ordinal
    · obtain ⟨a, ha, heq⟩ := List.mem_map.1 hmem
      obtain rfl := Store.WellFormed.eq_of_ordinal (hc.knows a ha) he heq
      obtain ⟨hheight, hrecords⟩ := hc.again ha (countAll a.operands)
      exact ⟨hheight, [], hrecords, by simpa using ha, by simp⟩
    · have hoperands : ∀ d ∈ e.operands, Completes s [d] d.height (count d) := fun d hd => by
        have hchild := mem_children_of_mem_operands hd
        exact ih _ (sizeOf_lt_of_mem_children hchild) (hs.children he d hchild) rfl
      obtain ⟨hheight, M, hM, hoperands', hreads⟩ := completes_countAll hoperands N T c hc
      rw [visit_unseen (hc.unseen _ hmem).1, hheight, ← height_eq]
      refine ⟨rfl, e :: M, hM.enter he ?_ hoperands', by simp, ?_⟩
      · rw [List.map_append, List.mem_append, not_or]
        refine ⟨fun hmem' => ?_, hmem⟩
        -- What is below is older than the node.
        obtain ⟨a, ha, heq⟩ := List.mem_map.1 hmem'
        obtain ⟨d, hd, had⟩ := hreads a ha
        have hchild := mem_children_of_mem_operands hd
        have hle := had.ordinal_le hs (hs.children he d hchild)
        have hlt := hs.below he hchild
        omega
      · refine List.forall_mem_cons.2 ⟨⟨e, by simp, .refl⟩, fun a ha => ?_⟩
        obtain ⟨d, hd, had⟩ := hreads a ha
        exact ⟨e, by simp, .step hd had⟩

/-! ## Surveys -/

/-- The nodes in `N` are those that the roots read, each listed once. -/
structure Surveyed (roots N : List Expr) : Prop where
  /-- No node is listed twice. -/
  nodup : (N.map ordinal).Nodup
  /-- The nodes are those that the roots read. -/
  mem_iff : ∀ a, a ∈ N ↔ ∃ r ∈ roots, Reads a r

/-- How often a node is a root or an operand of a node in `N`. -/
def uses (roots N : List Expr) (a : Expr) : ℕ :=
  visits N (roots.map ordinal) a.ordinal

lemma foldlM_count (roots : List Expr) (c : Census) :
    ((roots.foldlM (fun _ e => do let _ ← count e) () : StateM Census Unit) c).2 =
      (countAll roots c).2 := by
  induction roots generalizing c with
  | nil =>
    rw [countAll]
    rfl
  | cons r roots ih =>
    rw [List.foldlM_cons, countAll]
    exact ih (count r c).2

/-- The nodes that become locals of a block are the composite nodes that are used more than once, and
come in the order of their heights. -/
lemma exists_survey (hs : s.WellFormed) {roots : List Expr} (hroots : s.Knows roots) :
    ∃ N, Surveyed roots N ∧
      (∀ a, a ∈ sharedNodes roots ↔ a ∈ N ∧ 1 < uses roots N a ∧ a.isComposite = true) ∧
      ((sharedNodes roots).map ordinal).Nodup ∧
      (sharedNodes roots).Pairwise fun a b => a.height ≤ b.height := by
  obtain ⟨-, N, hN, hmem, hreads⟩ :=
    completes_countAll (fun e he => completes_count hs (hroots e he)) [] [] {} (Records.nil s)
  rw [List.append_nil, List.append_nil] at hN
  simp only [List.append_nil] at hmem
  have hclosed {a r : Expr} (h : Reads a r) : r ∈ N → a ∈ N := by
    induction h with
    | refl => exact id
    | step hc _ ih => exact fun hr => ih (hN.closed _ hr _ hc)
  -- The table holds one entry for each node that has been counted, and nothing else.
  let entry (e : Expr) : Occurrence := ⟨e, uses roots N e, e.height⟩
  have hentries : (countAll roots {}).2.reversed.reverse.filterMap
      (fun k => (countAll roots {}).2.seen[k]?) = N.reverse.map entry := by
    rw [hN.reversed, ← List.map_reverse, List.filterMap_map, ← List.filterMap_eq_map]
    exact List.filterMap_congr fun e he => hN.seen e (List.mem_reverse.1 he)
  let shared := N.reverse.filter fun e => decide (1 < uses roots N e) && e.isComposite
  let sorted := Sorting.sort (fun a b => decide (a.height ≤ b.height)) (shared.map entry)
  have hshared : sharedNodes roots = sorted.map Occurrence.node := by
    unfold sharedNodes
    simp only [StateT.run, foldlM_count, hentries, List.filter_map]
    rfl
  have hperm : (sharedNodes roots).Perm shared := by
    rw [hshared]
    have hnodes : (shared.map entry).map Occurrence.node = shared := by
      simp [entry, Function.comp_def]
    have hsort := (Sorting.sort_perm (fun a b : Occurrence => decide (a.height ≤ b.height))
      (shared.map entry)).map Occurrence.node
    rwa [hnodes] at hsort
  have hsurveyed : Surveyed roots N :=
    ⟨hN.nodup, fun a => ⟨hreads a, fun ⟨r, hr, har⟩ => hclosed har (hmem r hr)⟩⟩
  refine ⟨N, hsurveyed, fun a => ?_, ?_, ?_⟩
  · rw [hperm.mem_iff]
    simp [shared]
  · have hnodup : (N.reverse.map ordinal).Nodup := by
      rw [List.map_reverse]
      exact List.nodup_reverse.2 hN.nodup
    exact (hperm.map _).nodup_iff.2 (hnodup.sublist (List.filter_sublist.map _))
  · rw [hshared, List.pairwise_map]
    have hsorted : sorted.Pairwise fun o p => o.height ≤ p.height :=
      Sorting.sort_pairwise fun _ _ _ _ => rfl
    refine hsorted.imp_of_mem fun {o p} ho hp hle => ?_
    -- The height that is recorded is that of the node.
    have hheight {o : Occurrence} (ho : o ∈ sorted) : o.node.height = o.height := by
      obtain ⟨e, -, rfl⟩ := List.mem_map.1 ((Sorting.sort_perm _ _).subset ho)
      rfl
    rwa [hheight ho, hheight hp]

end Expr

end TermGraph
