import TermGraph.Proofs.Store.Construction

/-!
# Exact arithmetic and gathering

What sums and products do before they build nodes.  They combine the literals among their
operands, and they gather what belongs to one key.

* `Number.IsInt n k`: the literal `n` is the machine integer with value `k`.
* `Number.Tracked.foldl_isInt`: literals that are combined without leaving the machine integers
  give the integer that one expects.
* `Expr.gather_eq_groups` and `Expr.flatMap_groups`: gathering sorts the items and then combines
  the data of neighbours with one key, so no datum is lost or counted twice.
* `Expr.pairwise_gather_of_rank`: if the keys are ordered by a rank, they come out strictly
  ascending.
* `collect`: the finitely supported function that adds up weights at points, and
  `eq_of_collect`: sorted points with weights other than zero are determined by it.
-/

namespace TermGraph

/-! ## Exact arithmetic -/

namespace Number

/-- The literal is the machine integer with value `k`. -/
def IsInt (n : Number) (k : ℤ) : Prop :=
  ∃ m : Int64, n = .int m ∧ m.toInt = k

lemma isInt_int (m : Int64) : IsInt (.int m) m.toInt := ⟨m, rfl, rfl⟩

lemma IsInt.unique {n : Number} {j k : ℤ} (hj : n.IsInt j) (hk : n.IsInt k) : j = k := by
  obtain ⟨m, rfl, rfl⟩ := hj
  obtain ⟨m', hm, rfl⟩ := hk
  cases hm
  rfl

lemma IsInt.eq {a b : Number} {k : ℤ} (ha : a.IsInt k) (hb : b.IsInt k) : a = b := by
  obtain ⟨m, rfl, rfl⟩ := ha
  obtain ⟨m', rfl, hm⟩ := hb
  rw [Int64.toInt_inj.1 hm]

/-- The value of a machine integer; anything else counts as zero. -/
def intValue : Number → ℤ
  | .int n => n.toInt
  | .float _ => 0

lemma IsInt.intValue {n : Number} {k : ℤ} (h : n.IsInt k) : n.intValue = k := by
  obtain ⟨m, rfl, rfl⟩ := h
  rfl

lemma toInt_word? {k : ℤ} {m : Int64} (h : word? k = some m) : m.toInt = k := by
  unfold word? at h
  split at h
  · rename_i hrange
    cases h
    rw [Int64.toInt_ofInt_of_le]
    · exact hrange.1
    · have : Int64.maxValue.toInt = 2 ^ 63 - 1 := rfl
      omega
  · cases h

lemma IsInt.isZero {n : Number} {k : ℤ} (h : n.IsInt k) : n.isZero = true ↔ k = 0 := by
  obtain ⟨m, rfl, rfl⟩ := h
  simp only [Number.isZero, beq_iff_eq]
  rw [← Int64.toInt_inj]
  rfl

lemma IsInt.isOne {n : Number} {k : ℤ} (h : n.IsInt k) : n.isOne = true ↔ k = 1 := by
  obtain ⟨m, rfl, rfl⟩ := h
  simp only [Number.isOne, beq_iff_eq]
  rw [← Int64.toInt_inj]
  rfl

/-- An operation on literals computes `F` on integers as long as it keeps to them. -/
def Computes (op : Number → Number → Number) (F : ℤ → ℤ → ℤ) : Prop :=
  ∀ {a b : Number} {j k : ℤ}, a.IsInt j → b.IsInt k → keepsInt op a b = true →
    (op a b).IsInt (F j k)

lemma computes_add : Computes add (· + ·) := by
  rintro _ _ _ _ ⟨m, rfl, rfl⟩ ⟨n, rfl, rfl⟩ h
  simp only [keepsInt, add, isInt] at h ⊢
  cases hw : word? (m.toInt + n.toInt) with
  | some w => exact ⟨w, rfl, toInt_word? hw⟩
  | none => simp [hw] at h

lemma computes_mul : Computes mul (· * ·) := by
  rintro _ _ _ _ ⟨m, rfl, rfl⟩ ⟨n, rfl, rfl⟩ h
  simp only [keepsInt, mul, isInt] at h ⊢
  cases hw : word? (m.toInt * n.toInt) with
  | some w => exact ⟨w, rfl, toInt_word? hw⟩
  | none => simp [hw] at h

namespace Tracked

variable {op : Number → Number → Number} {F : ℤ → ℤ → ℤ}

/-- Literals that are combined one after the other, if no step leaves the machine integers. -/
lemma foldl_isInt (hop : Computes op F) {ns : List Number} {ks : List ℤ}
    (hns : List.Forall₂ IsInt ns ks) {t : Tracked} {j : ℤ} (ht : t.kept = true → t.value.IsInt j)
    (hkept : (ns.foldl (combine op) t).kept = true) :
    (ns.foldl (combine op) t).value.IsInt (ks.foldl F j) := by
  induction hns generalizing t j with
  | nil => exact ht hkept
  | cons hn _ ih =>
    refine ih (fun h => ?_) hkept
    simp only [combine, Bool.and_eq_true] at h
    exact hop (ht h.1) hn h.2

end Tracked

end Number

section Settle

variable {s : Store} {d : ℕ}

/-- A settled literal is the value, and an exact run has kept to the integers. -/
lemma exact_settle (t : Number.Tracked) :
    Exact d s (Build.settle t) fun n _ => n = t.value ∧ t.kept = true := by
  intro h
  simp only [store_self, Bool.and_eq_true] at h
  exact ⟨rfl, h.2⟩

end Settle

/-! ## Sorting -/

namespace Sorting

variable {α γ : Type} [LinearOrder γ] {le : α → α → Bool} {rank : α → γ}

lemma insert_pairwise {x : α} {ys : List α}
    (hle : ∀ y ∈ ys, le x y = decide (rank x ≤ rank y))
    (hys : ys.Pairwise fun a b => rank a ≤ rank b) :
    (insert le x ys).Pairwise fun a b => rank a ≤ rank b := by
  induction ys with
  | nil => simp [insert]
  | cons y ys ih =>
    rw [List.pairwise_cons] at hys
    rw [insert, hle y (by simp)]
    split
    · rename_i hxy
      simp only [decide_eq_true_eq] at hxy
      refine List.pairwise_cons.2 ⟨fun z hz => ?_, List.pairwise_cons.2 hys⟩
      rcases List.mem_cons.1 hz with rfl | hz
      · exact hxy
      · exact hxy.trans (hys.1 z hz)
    · rename_i hxy
      simp only [decide_eq_true_eq] at hxy
      refine List.pairwise_cons.2 ⟨fun z hz => ?_, ih (fun z hz => hle z (by simp [hz])) hys.2⟩
      rcases List.mem_cons.1 ((insert_perm le x ys).subset hz) with rfl | hz
      · exact (not_le.1 hxy).le
      · exact hys.1 z hz

/-- Sorting by an order that a rank describes sorts by the rank. -/
lemma sort_pairwise {xs : List α}
    (hle : ∀ x ∈ xs, ∀ y ∈ xs, le x y = decide (rank x ≤ rank y)) :
    (sort le xs).Pairwise fun a b => rank a ≤ rank b := by
  induction xs with
  | nil => simp [sort]
  | cons x xs ih =>
    refine insert_pairwise (fun y hy => hle x (by simp) y ?_)
      (ih fun a ha b hb => hle a (by simp [ha]) b (by simp [hb]))
    exact List.mem_cons_of_mem x ((sort_perm le xs).subset hy)

/-- What is in order stays as it is. -/
lemma sort_of_pairwise {α : Type} {le : α → α → Bool} {xs : List α}
    (h : xs.Pairwise fun x y => le x y = true) : sort le xs = xs := by
  induction xs with
  | nil => rfl
  | cons x xs ih =>
    obtain ⟨hx, hxs⟩ := List.pairwise_cons.1 h
    rw [sort, ih hxs]
    cases xs with
    | nil => rfl
    | cons y xs => rw [insert, if_pos (hx y (by simp))]

end Sorting

/-! ## Gathering -/

namespace Expr

variable {α β : Type} {start : α → β} {step : β → α → β} {items : List (Expr × α)}

/-- The data of each key in a list, in the order of the keys. -/
def groups (items : List (Expr × α)) : List (Expr × List α) :=
  gather (fun a => [a]) (fun l a => l ++ [a]) items

/-- `b` is what the data in `l` combine to. -/
def Collapses (start : α → β) (step : β → α → β) (l : List α) (b : β) : Prop :=
  ∃ a rest, l = a :: rest ∧ b = rest.foldl step (start a)

lemma Collapses.snoc {l : List α} {b : β} (h : Collapses start step l b) (a : α) :
    Collapses start step (l ++ [a]) (step b a) := by
  obtain ⟨a', rest, rfl, rfl⟩ := h
  exact ⟨a', rest ++ [a], rfl, by simp⟩

lemma gatherFrom_eq_groups {key : Expr} {l : List α} {b : β} (h : Collapses start step l b) :
    List.Forall₂ (fun p q => p.1 = q.1 ∧ Collapses start step q.2 p.2)
      (gatherFrom start step key b items)
      (gatherFrom (fun a => [a]) (fun l a => l ++ [a]) key l items) := by
  induction items generalizing key l b with
  | nil => exact .cons ⟨rfl, h⟩ .nil
  | cons item items ih =>
    obtain ⟨k, a⟩ := item
    rw [gatherFrom, gatherFrom]
    split
    · exact ih (h.snoc a)
    · exact .cons ⟨rfl, h⟩ (ih ⟨a, [], rfl, rfl⟩)

/-- Gathering combines the data of each key. -/
lemma gather_eq_groups :
    List.Forall₂ (fun p q => p.1 = q.1 ∧ Collapses start step q.2 p.2)
      (gather start step items) (groups items) := by
  unfold groups gather
  cases sortBy Prod.fst items with
  | nil => exact .nil
  | cons item rest => exact gatherFrom_eq_groups ⟨item.2, [], rfl, rfl⟩

/-- Keys that are equal by their ordinals are equal. -/
def Separated (items : List (Expr × α)) : Prop :=
  ∀ p ∈ items, ∀ q ∈ items, p.1.ordinal = q.1.ordinal → p.1 = q.1

lemma flatMap_gatherFrom {key : Expr} {l : List α}
    (hkey : ∀ p ∈ items, p.1.ordinal = key.ordinal → p.1 = key) (hsep : Separated items) :
    (gatherFrom (fun a => [a]) (fun l a => l ++ [a]) key l items).flatMap
      (fun p => p.2.map (p.1, ·)) = l.map (key, ·) ++ items := by
  induction items generalizing key l with
  | nil => simp [gatherFrom]
  | cons item items ih =>
    obtain ⟨k, a⟩ := item
    have hsep' : Separated items := fun p hp q hq => hsep p (by simp [hp]) q (by simp [hq])
    rw [gatherFrom]
    split
    · rename_i heq
      have hk : k = key := hkey (k, a) (by simp) (beq_iff_ordinal.1 heq)
      subst hk
      rw [ih (fun p hp => hkey p (by simp [hp])) hsep']
      simp
    · rw [List.flatMap_cons, ih (fun p hp h => hsep p (by simp [hp]) (k, a) (by simp) h) hsep']
      simp

/-- The groups hold all items and no others. -/
lemma flatMap_groups (hsep : Separated items) :
    ((groups items).flatMap fun p => p.2.map (p.1, ·)).Perm items := by
  have hperm : (sortBy Prod.fst items).Perm items := Sorting.sort_perm _ _
  have hsep' : Separated (sortBy Prod.fst items) := fun p hp q hq =>
    hsep p (hperm.subset hp) q (hperm.subset hq)
  unfold groups gather
  cases hsorted : sortBy Prod.fst items with
  | nil =>
    rw [hsorted] at hperm
    simpa using hperm
  | cons item rest =>
    obtain ⟨key, a⟩ := item
    rw [hsorted] at hperm hsep'
    refine (List.Perm.of_eq ?_).trans hperm
    exact flatMap_gatherFrom (fun p hp h => hsep' p (by simp [hp]) (key, a) (by simp) h)
      fun p hp q hq => hsep' p (by simp [hp]) q (by simp [hq])

section Ranks

variable {γ : Type} [LinearOrder γ] {rank : Expr → γ}

lemma pairwise_gatherFrom {key : Expr} {b : β} {S : Expr → Prop}
    (hrank : ∀ e f, S e → S f → rank e = rank f → e.ordinal = f.ordinal) (hkeyS : S key)
    (hS : ∀ p ∈ items, S p.1) (hkey : ∀ p ∈ items, rank key ≤ rank p.1)
    (hsorted : items.Pairwise fun p q => rank p.1 ≤ rank q.1) :
    (gatherFrom start step key b items).Pairwise (fun p q => rank p.1 < rank q.1) ∧
      ∀ p ∈ gatherFrom start step key b items, rank key ≤ rank p.1 := by
  induction items generalizing key b with
  | nil => simp [gatherFrom]
  | cons item items ih =>
    obtain ⟨k, a⟩ := item
    rw [List.pairwise_cons] at hsorted
    rw [List.forall_mem_cons] at hS hkey
    rw [gatherFrom]
    split
    · exact ih hkeyS hS.2 hkey.2 hsorted.2
    · rename_i hne
      have hlt : rank key < rank k := by
        refine lt_of_le_of_ne hkey.1 fun heq => hne (beq_iff_ordinal.2 ?_)
        exact (hrank key k hkeyS hS.1 heq).symm
      obtain ⟨hpairwise, hbound⟩ := @ih k (start a) hS.1 hS.2 hsorted.1 hsorted.2
      refine ⟨List.pairwise_cons.2 ⟨fun p hp => hlt.trans_le (hbound p hp), hpairwise⟩, ?_⟩
      intro p hp
      rcases List.mem_cons.1 hp with rfl | hp
      · exact le_rfl
      · exact hlt.le.trans (hbound p hp)

/-- Keys that are ordered by a rank, which tells them apart, come out strictly ascending. -/
lemma pairwise_gather_of_rank {S : Expr → Prop}
    (hrank : ∀ e f, S e → S f → rank e = rank f → e.ordinal = f.ordinal) (hS : ∀ p ∈ items, S p.1)
    (hle : ∀ p ∈ items, ∀ q ∈ items, p.1.le q.1 = decide (rank p.1 ≤ rank q.1)) :
    (gather start step items).Pairwise fun p q => rank p.1 < rank q.1 := by
  have hsorted : (sortBy Prod.fst items).Pairwise fun p q => rank p.1 ≤ rank q.1 :=
    Sorting.sort_pairwise hle
  have hperm : (sortBy Prod.fst items).Perm items := Sorting.sort_perm _ _
  have hS' : ∀ p ∈ sortBy Prod.fst items, S p.1 := fun p hp => hS p (hperm.subset hp)
  unfold gather
  cases hitems : sortBy Prod.fst items with
  | nil => simp
  | cons item rest =>
    rw [hitems, List.pairwise_cons] at hsorted
    rw [hitems, List.forall_mem_cons] at hS'
    exact (pairwise_gatherFrom hrank hS'.1 hS'.2 hsorted.1 hsorted.2).1

end Ranks

/-- Keys that are ordered by their ordinals come out strictly ascending. -/
lemma pairwise_gather
    (hle : ∀ p ∈ items, ∀ q ∈ items, p.1.le q.1 = decide (p.1.ordinal ≤ q.1.ordinal)) :
    (gather start step items).Pairwise fun p q => p.1.ordinal < q.1.ordinal :=
  pairwise_gather_of_rank (S := fun _ => True) (fun _ _ _ _ h => h) (fun _ _ => trivial) hle

/-- Items in the strict order of their keys are gathered as they are. -/
lemma gather_of_pairwise (h : items.Pairwise fun p q => p.1.compare q.1 = .lt) :
    gather start step items = items.map fun p => (p.1, start p.2) := by
  have hsorted : sortBy Prod.fst items = items :=
    Sorting.sort_of_pairwise (h.imp fun hlt => by rw [Expr.le, hlt]; rfl)
  have hfrom (item : Expr × α) (items : List (Expr × α))
      (h : (item :: items).Pairwise fun p q => p.1.compare q.1 = .lt) :
      gatherFrom start step item.1 (start item.2) items =
        (item :: items).map fun p => (p.1, start p.2) := by
    induction items generalizing item with
    | nil => rfl
    | cons next items ih =>
      obtain ⟨hitem, hrest⟩ := List.pairwise_cons.1 h
      have hne : ¬(next.1 == item.1) = true := fun heq => by
        have hlt := hitem next (by simp)
        rw [Expr.compare, if_pos (beq_iff_ordinal.2 (beq_iff_ordinal.1 heq).symm)] at hlt
        cases hlt
      rw [gatherFrom, if_neg hne, ih next hrest]
      rfl
  rw [gather, hsorted]
  cases items with
  | nil => rfl
  | cons item items => exact hfrom item items h

end Expr

/-! ## Weights at points -/

section Collect

variable {ι : Type} {l m : List (ι × ℤ)} {i : ι} {k : ℤ}

/-- The weights at each point, added up. -/
noncomputable def collect (l : List (ι × ℤ)) : ι →₀ ℤ :=
  (l.map fun p => Finsupp.single p.1 p.2).sum

@[simp] lemma collect_nil : collect ([] : List (ι × ℤ)) = 0 := rfl

@[simp] lemma collect_cons (p : ι × ℤ) (l : List (ι × ℤ)) :
    collect (p :: l) = Finsupp.single p.1 p.2 + collect l := by
  simp [collect]

@[simp] lemma collect_append (l m : List (ι × ℤ)) : collect (l ++ m) = collect l + collect m := by
  simp [collect]

lemma collect_perm (h : l.Perm m) : collect l = collect m :=
  (h.map _).sum_eq

/-- Points of weight zero do not count. -/
lemma collect_filter (l : List (ι × ℤ)) : collect (l.filter fun p => p.2 ≠ 0) = collect l := by
  induction l with
  | nil => rfl
  | cons p l ih =>
    rw [List.filter_cons]
    split
    · rw [collect_cons, collect_cons, ih]
    · rename_i hzero
      simp only [ne_eq, decide_not, Bool.not_eq_true', decide_eq_false_iff_not, not_not] at hzero
      rw [collect_cons, ih, hzero, Finsupp.single_zero, zero_add]

/-- Several weights at one point count as their sum. -/
lemma collect_map_const (i : ι) (ks : List ℤ) :
    collect (ks.map (i, ·)) = Finsupp.single i ks.sum := by
  induction ks with
  | nil => simp
  | cons k ks ih => rw [List.map_cons, collect_cons, ih, List.sum_cons, Finsupp.single_add]

lemma collect_apply_eq_zero (h : ∀ p ∈ l, p.1 ≠ i) : collect l i = 0 := by
  induction l with
  | nil => rfl
  | cons p l ih =>
    have hp : p.1 ≠ i := h p (by simp)
    rw [collect_cons, Finsupp.add_apply, ih fun q hq => h q (by simp [hq]),
      Finsupp.single_eq_of_ne' hp, add_zero]

lemma collect_apply_of_mem (hl : (l.map Prod.fst).Nodup) (h : (i, k) ∈ l) : collect l i = k := by
  induction l with
  | nil => cases h
  | cons p l ih =>
    rw [List.map_cons, List.nodup_cons] at hl
    rw [collect_cons, Finsupp.add_apply]
    rcases List.mem_cons.1 h with rfl | hmem
    · have hzero : collect l i = 0 := by
        exact collect_apply_eq_zero fun p hp hpi => hl.1 (List.mem_map.2 ⟨p, hp, hpi⟩)
      rw [hzero, Finsupp.single_eq_same, add_zero]
    · have hne : p.1 ≠ i := fun hpi => hl.1 (hpi ▸ List.mem_map_of_mem hmem)
      rw [ih hl.2 hmem, Finsupp.single_eq_of_ne' hne, zero_add]

/-- The pairs of a list of distinct points with weights other than zero. -/
lemma mem_iff_collect (hl : (l.map Prod.fst).Nodup) (hne : ∀ p ∈ l, p.2 ≠ 0) :
    (i, k) ∈ l ↔ k ≠ 0 ∧ collect l i = k := by
  constructor
  · exact fun h => ⟨hne _ h, collect_apply_of_mem hl h⟩
  · rintro ⟨hk, h⟩
    by_contra hmem
    refine hk (h ▸ collect_apply_eq_zero fun p hp hpi => hmem ?_)
    obtain ⟨j, m⟩ := p
    obtain rfl : j = i := hpi
    rwa [← h, collect_apply_of_mem hl hp]

/-- Sorted points with weights other than zero are determined by the weight of each point. -/
lemma eq_of_collect (rank : ι → ℕ) (hl : l.Pairwise fun p q => rank p.1 < rank q.1)
    (hm : m.Pairwise fun p q => rank p.1 < rank q.1) (hl' : ∀ p ∈ l, p.2 ≠ 0)
    (hm' : ∀ p ∈ m, p.2 ≠ 0) (h : collect l = collect m) : l = m := by
  have hnodup {n : List (ι × ℤ)} (hn : n.Pairwise fun p q => rank p.1 < rank q.1) :
      (n.map Prod.fst).Nodup :=
    List.pairwise_map.2 (hn.imp fun hlt heq => by simp [heq] at hlt)
  have : Std.Irrefl fun p q : ι × ℤ => rank p.1 < rank q.1 := ⟨fun p => lt_irrefl _⟩
  have : Std.Antisymm fun p q : ι × ℤ => rank p.1 < rank q.1 :=
    ⟨fun p q hpq hqp => absurd hqp hpq.asymm⟩
  refine hl.eq_of_mem_iff hm fun p => ?_
  rw [mem_iff_collect (hnodup hl) hl', mem_iff_collect (hnodup hm) hm', h]

/-- Gathering keeps the weights of the keys. -/
lemma Expr.collect_groups {α : Type} {items : List (Expr × α)} (hsep : Separated items)
    (point : Expr → ι) (weight : α → ℤ) :
    collect ((groups items).map fun g => (point g.1, (g.2.map weight).sum)) =
      collect (items.map fun p => (point p.1, weight p.2)) := by
  rw [← collect_perm ((flatMap_groups hsep).map fun p => (point p.1, weight p.2))]
  induction groups items with
  | nil => rfl
  | cons g gs ih =>
    rw [List.map_cons, collect_cons, ih, List.flatMap_cons, List.map_append, collect_append,
      List.map_map, ← collect_map_const, List.map_map]
    rfl

end Collect

end TermGraph
