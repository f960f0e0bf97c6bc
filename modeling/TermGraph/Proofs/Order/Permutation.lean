import TermGraph.Proofs.Polynomial.Power

/-!
# Gathering permuted items

The order of operands is a linear one that tells them apart: literals stand first, by their values,
and all else by group and ordinal.  So gathering gives the same keys in the same order
whatever the order of the items, and the same data for each key up to their order.

* `Expr.standing`, `Expr.le_eq_standing`, `Expr.eq_of_standing`: the place of an operand in the order.
* `Expr.forall₂_groups`: the groups of permuted items.
* `Expr.forall₂_gather`: what the data of permuted items combine to.
-/

namespace TermGraph

open Store (Knows)

/-! ## Groups in a strict order -/

section Groups

variable {κ α γ : Type} [LinearOrder γ] {rank : κ → γ} {l m : List (κ × List α)}

/-- The items of some groups. -/
def ungroup (l : List (κ × List α)) : List (κ × α) :=
  l.flatMap fun g => g.2.map (g.1, ·)

lemma ungroup_cons (g : κ × List α) (l : List (κ × List α)) :
    ungroup (g :: l) = g.2.map (g.1, ·) ++ ungroup l := rfl

lemma mem_ungroup {p : κ × α} : p ∈ ungroup l ↔ ∃ g ∈ l, g.1 = p.1 ∧ p.2 ∈ g.2 := by
  obtain ⟨k, a⟩ := p
  simp only [ungroup, List.mem_flatMap, List.mem_map, Prod.mk.injEq]
  constructor
  · rintro ⟨g, hg, a', ha', rfl, rfl⟩
    exact ⟨g, hg, rfl, ha'⟩
  · rintro ⟨g, hg, rfl, ha⟩
    exact ⟨g, hg, a, ha, rfl, rfl⟩

/-- The items with the first key are those of the first group. -/
lemma filter_ungroup {g : κ × List α} (h : (g :: l).Pairwise fun p q => rank p.1 < rank q.1) :
    (ungroup (g :: l)).filter (fun p => rank p.1 = rank g.1) = g.2.map (g.1, ·) := by
  rw [List.pairwise_cons] at h
  have hfirst : (g.2.map (g.1, ·)).filter (fun p => rank p.1 = rank g.1) = g.2.map (g.1, ·) := by
    simp [List.filter_eq_self]
  have hrest : (ungroup l).filter (fun p => rank p.1 = rank g.1) = [] := by
    refine List.filter_eq_nil_iff.2 fun p hp => ?_
    obtain ⟨g', hg', hkey, -⟩ := mem_ungroup.1 hp
    simpa [← hkey] using (h.1 g' hg').ne'
  rw [ungroup_cons, List.filter_append, hfirst, hrest, List.append_nil]

/-- The first key of some groups does not come after any other. -/
lemma rank_le_of_mem_ungroup {g : κ × List α} (h : (g :: l).Pairwise fun p q => rank p.1 < rank q.1)
    {p : κ × α} (hp : p ∈ ungroup (g :: l)) : rank g.1 ≤ rank p.1 := by
  rw [List.pairwise_cons] at h
  obtain ⟨g', hg', hkey, -⟩ := mem_ungroup.1 hp
  rw [← hkey]
  rcases List.mem_cons.1 hg' with rfl | hg'
  · exact le_rfl
  · exact (h.1 g' hg').le

/-- Groups in a strict order are determined by their items, up to the order in each group. -/
lemma forall₂_of_perm_ungroup (hl : l.Pairwise fun p q => rank p.1 < rank q.1)
    (hm : m.Pairwise fun p q => rank p.1 < rank q.1) (hl' : ∀ g ∈ l, g.2 ≠ [])
    (hm' : ∀ g ∈ m, g.2 ≠ []) (h : (ungroup l).Perm (ungroup m)) :
    List.Forall₂ (fun p q => p.1 = q.1 ∧ p.2.Perm q.2) l m := by
  induction l generalizing m with
  | nil =>
    cases m with
    | nil => exact .nil
    | cons g m =>
      have hnil := h.symm.eq_nil
      rw [ungroup_cons, List.append_eq_nil_iff, List.map_eq_nil_iff] at hnil
      exact absurd hnil.1 (hm' g (by simp))
  | cons g l ih =>
    cases m with
    | nil =>
      have hnil := h.eq_nil
      rw [ungroup_cons, List.append_eq_nil_iff, List.map_eq_nil_iff] at hnil
      exact absurd hnil.1 (hl' g (by simp))
    | cons g' m =>
      -- Each first key occurs among the items of the other side, so neither comes before the other.
      obtain ⟨a, ha⟩ := List.exists_mem_of_ne_nil _ (hl' g (by simp))
      obtain ⟨a', ha'⟩ := List.exists_mem_of_ne_nil _ (hm' g' (by simp))
      have hrank : rank g.1 = rank g'.1 :=
        le_antisymm
          (rank_le_of_mem_ungroup hl
            (h.symm.subset (mem_ungroup.2 ⟨g', by simp, rfl, ha'⟩ : (g'.1, a') ∈ _)))
          (rank_le_of_mem_ungroup hm (h.subset (mem_ungroup.2 ⟨g, by simp, rfl, ha⟩ : (g.1, a) ∈ _)))
      have hfirst := h.filter fun p => rank p.1 = rank g.1
      rw [filter_ungroup hl, hrank, filter_ungroup hm] at hfirst
      have hkey : g.1 = g'.1 := by
        obtain ⟨_, _, heq⟩ := List.mem_map.1 (hfirst.subset (List.mem_map_of_mem ha))
        exact (Prod.mk.inj heq).1.symm
      have hdata : g.2.Perm g'.2 := by
        simpa [List.map_map, Function.comp_def] using hfirst.map Prod.snd
      rw [ungroup_cons, ungroup_cons] at h
      rw [List.forall_mem_cons] at hl' hm'
      refine .cons ⟨hkey, hdata⟩ (ih hl.of_cons hm.of_cons hl'.2 hm'.2 ?_)
      exact (List.perm_append_left_iff _).1 ((hfirst.append_right _).symm.trans h)

end Groups

/-! ## The standing of an operand -/

namespace Expr

variable {s : Store} {a b : Expr}

/-- Literals stand first, by value; all else by group and ordinal. -/
def standing (e : Expr) : ℕ ×ₗ ℤ :=
  toLex (e.group, if e.number?.isSome then e.intValue else e.ordinal)

/-- If a node is a literal, it is an integer. -/
def IsDiscrete (e : Expr) : Prop :=
  e.number?.isSome = true → IsLiteral e.intValue e

lemma group_eq_zero_iff {e : Expr} : e.group = 0 ↔ e.number?.isSome = true := by
  unfold group
  split
  · simp [*]
  · split
    · simp [*]
    · split <;> simp [*]

/-- The standing tells nodes apart. -/
lemma eq_of_standing (hs : s.WellFormed) (ha : s.Knows a) (hb : s.Knows b) (ha' : IsDiscrete a)
    (hb' : IsDiscrete b) (h : a.standing = b.standing) : a = b := by
  have hgroup : a.group = b.group := congrArg (fun p => (ofLex p).1) h
  have hvalue := congrArg (fun p => (ofLex p).2) h
  simp only [standing, ofLex_toLex] at hvalue
  have hiff : a.number?.isSome = true ↔ b.number?.isSome = true := by
    rw [← group_eq_zero_iff, ← group_eq_zero_iff, hgroup]
  by_cases hnumber : a.number?.isSome = true
  · have hnumber' := hiff.1 hnumber
    rw [if_pos hnumber, if_pos hnumber'] at hvalue
    exact (ha' hnumber).eq hs ha hb (hvalue ▸ hb' hnumber')
  · rw [if_neg hnumber, if_neg (hiff.not.1 hnumber)] at hvalue
    exact Store.WellFormed.eq_of_ordinal ha hb (by exact_mod_cast hvalue)

/-- The order of operands is that of their standings. -/
lemma le_eq_standing (ha : IsDiscrete a) (hb : IsDiscrete b) (hordinal : a.ordinal = b.ordinal → a = b) :
    a.le b = decide (a.standing ≤ b.standing) := by
  unfold Expr.le compare
  split
  · rename_i heq
    obtain rfl := hordinal (beq_iff_ordinal.1 heq)
    simp
  · rename_i hne
    rw [beq_iff_ordinal] at hne
    simp only [standing, Prod.Lex.toLex_le_toLex]
    split
    · rename_i x y hx hy
      have hvalue {e : Expr} {x : Number} (he : IsDiscrete e) (hx : e.number? = some x) :
          ∃ m : Int64, x = .int m ∧ m.toInt = e.intValue := by
        obtain ⟨x', hx', hint⟩ := (he (by simp [hx])).number
        obtain rfl : x' = x := Option.some.inj (hx'.symm.trans hx)
        exact hint
      obtain ⟨m, rfl, hm⟩ := hvalue ha hx
      obtain ⟨n, rfl, hn⟩ := hvalue hb hy
      have hgroups : a.group = 0 ∧ b.group = 0 := by simp [group_eq_zero_iff, hx, hy]
      simp only [hx, hy, hgroups, Number.compare, hm, hn]
      rcases lt_trichotomy a.intValue b.intValue with h | h | h
      · simp [Int.compare_eq_lt.2 h, h.le]
      · simp [h]
      · simp [Int.compare_eq_gt.2 h, h]
    · rename_i hnumbers
      rcases lt_trichotomy a.group b.group with h | h | h
      · simp [Nat.compare_eq_lt.2 h, h]
      · -- In one group there are literals only, or no literals.
        have hnone : a.number?.isSome = false ∧ b.number?.isSome = false := by
          have hiff : a.number?.isSome = true ↔ b.number?.isSome = true := by
            rw [← group_eq_zero_iff, ← group_eq_zero_iff, h]
          cases hx : a.number? <;> cases hy : b.number? <;> simp_all
        simp only [h, hnone, lt_self_iff_false, false_or, true_and, Bool.false_eq_true, if_false]
        rcases lt_trichotomy a.ordinal b.ordinal with h' | h' | h'
        · simp [Nat.compare_eq_lt.2 h', h'.le]
        · exact absurd h' hne
        · simp [Nat.compare_eq_gt.2 h', h']
      · simp [Nat.compare_eq_gt.2 h, h.le, h.ne']

/-! ## Gathering -/

section Gather

variable {α β : Type} {start : α → β} {step : β → α → β} {items items' : List (Expr × α)}

/-- The data in a group come from the items, and there are some. -/
lemma mem_groups {g : Expr × List α} (hg : g ∈ groups items) :
    (∀ a ∈ g.2, a ∈ items.map Prod.snd) ∧ g.2 ≠ [] := by
  refine (gather_forall (P := fun _ => True)
    (Q := fun l => (∀ a ∈ l, a ∈ items.map Prod.snd) ∧ l ≠ []) (fun _ _ => trivial)
    (fun p hp => ?_) (fun l p hp hl => ?_) g hg).2
  · exact ⟨by simpa using ⟨p.1, hp⟩, by simp⟩
  · refine ⟨fun a ha => ?_, by simp⟩
    rcases List.mem_append.1 ha with ha | ha
    · exact hl.1 a ha
    · rw [List.mem_singleton.1 ha]
      exact List.mem_map_of_mem hp

/-- Permuted items have the same keys, and the same data for each key up to their order. -/
lemma forall₂_groups (hs : s.WellFormed) (hperm : items.Perm items')
    (hknown : ∀ p ∈ items, s.Knows p.1) (hdiscrete : ∀ p ∈ items, IsDiscrete p.1) :
    List.Forall₂ (fun p q => p.1 = q.1 ∧ p.2.Perm q.2) (groups items) (groups items') := by
  have hsorted {l : List (Expr × α)} (hl : l ⊆ items) :
      (groups l).Pairwise fun p q => p.1.standing < q.1.standing := by
    refine pairwise_gather_of_rank (S := fun e => s.Knows e ∧ IsDiscrete e)
      (fun e f he hf h => congrArg ordinal (eq_of_standing hs he.1 hf.1 he.2 hf.2 h))
      (fun p hp => ⟨hknown p (hl hp), hdiscrete p (hl hp)⟩) fun p hp q hq => ?_
    exact le_eq_standing (hdiscrete p (hl hp)) (hdiscrete q (hl hq))
      (Store.WellFormed.eq_of_ordinal (hknown p (hl hp)) (hknown q (hl hq)))
  have hsep {l : List (Expr × α)} (hl : l ⊆ items) : Separated l := fun p hp q hq =>
    Store.WellFormed.eq_of_ordinal (hknown p (hl hp)) (hknown q (hl hq))
  have hsub : items' ⊆ items := hperm.symm.subset
  exact forall₂_of_perm_ungroup (hsorted (List.Subset.refl _)) (hsorted hsub)
    (fun g hg => (mem_groups hg).2) (fun g hg => (mem_groups hg).2)
    ((flatMap_groups (hsep (List.Subset.refl _))).trans
      (hperm.trans (flatMap_groups (hsep hsub)).symm))

/-- Permuted items are gathered into the same keys, each with what the same data combine to in some
order. -/
lemma forall₂_gather (hs : s.WellFormed) (hperm : items.Perm items')
    (hknown : ∀ p ∈ items, s.Knows p.1) (hdiscrete : ∀ p ∈ items, IsDiscrete p.1) :
    List.Forall₂ (fun p q => p.1 = q.1 ∧ ∃ l l' : List α, l.Perm l' ∧
        (∀ a ∈ l, a ∈ items.map Prod.snd) ∧ Collapses start step l p.2 ∧ Collapses start step l' q.2)
      (gather start step items) (gather start step items') := by
  have hgroups := forall₂_groups hs hperm hknown hdiscrete
  have hmem : ∀ g ∈ groups items, ∀ a ∈ g.2, a ∈ items.map Prod.snd := fun g hg => (mem_groups hg).1
  have hleft : List.Forall₂ (fun p q => p.1 = q.1 ∧ Collapses start step q.2 p.2)
    (gather start step items) (groups items) := gather_eq_groups
  have hright : List.Forall₂ (fun p q => p.1 = q.1 ∧ Collapses start step q.2 p.2)
    (gather start step items') (groups items') := gather_eq_groups
  generalize groups items = G at hgroups hleft hmem
  generalize groups items' = G' at hgroups hright
  generalize gather start step items = L at hleft
  generalize gather start step items' = L' at hright
  induction hgroups generalizing L L' with
  | nil =>
    cases hleft
    cases hright
    exact .nil
  | cons hg _ ih =>
    rw [List.forall_mem_cons] at hmem
    cases hleft with
    | cons hp hleft =>
      cases hright with
      | cons hq hright =>
        exact .cons ⟨hp.1.trans (hg.1.trans hq.1.symm), _, _, hg.2, hmem.1, hp.2, hq.2⟩
          (ih hmem.2 _ hleft _ hright)

end Gather

end Expr

end TermGraph
