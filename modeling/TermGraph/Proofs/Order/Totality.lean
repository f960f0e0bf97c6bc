import Mathlib
import TermGraph.Proofs.Number.Rounding
import TermGraph.Proofs.Order.Permutation
import TermGraph.Proofs.Store.Sharing

/-!
# The order of operands is total

Literals are compared by their values, an integer with a double by the double next to it.  Several
integers may share that double, and the double itself may be a literal too; then the integers stand
in their own order and the double behind them.  So literals, and with them all nodes, are ordered
like certain keys in a linear order, and the keys tell the nodes of a store apart.

* `Number.key`, `Number.compare_eq_cmp`, `Number.key_injective`: the order of literals.
* `Expr.key`, `Expr.compare_eq_cmp`, `Expr.eq_of_key`: the order of nodes.
* `Store.Reachable.compare_strictTotal`: the order is total, and sorting forgets the initial order.
-/

namespace TermGraph

section Cmp

variable {α β : Type} [LinearOrder α] [LinearOrder β]

/-- Pairs are compared by their first components, then by their second ones. -/
lemma cmp_toLex (a a' : α) (b b' : β) :
    cmp (toLex (a, b)) (toLex (a', b')) = (cmp a a').then (cmp b b') := by
  rcases lt_trichotomy a a' with h | rfl | h
  · rw [h.cmp_eq_lt, (Prod.Lex.toLex_lt_toLex.2 (.inl h)).cmp_eq_lt]
    rfl
  · rw [cmp_self_eq_eq]
    rcases lt_trichotomy b b' with h | rfl | h
    · have hlt : toLex (a, b) < toLex (a, b') := Prod.Lex.toLex_lt_toLex.2 (.inr ⟨rfl, h⟩)
      rw [h.cmp_eq_lt, hlt.cmp_eq_lt]
      rfl
    · rw [cmp_self_eq_eq, cmp_self_eq_eq]
      rfl
    · have hlt : toLex (a, b') < toLex (a, b) := Prod.Lex.toLex_lt_toLex.2 (.inr ⟨rfl, h⟩)
      rw [h.cmp_eq_gt, hlt.cmp_eq_gt]
      rfl
  · rw [h.cmp_eq_gt, (Prod.Lex.toLex_lt_toLex.2 (.inl h)).cmp_eq_gt]
    rfl

end Cmp

/-! ## Literals -/

namespace Number

/-- The place of a literal: the place of the double next to it, and there the integers in their own
order before the double. -/
def key : Number → ℤ ×ₗ WithTop ℤ
  | .int n => toLex ((Binary64.ofInt64 n).rank, (n.toInt : WithTop ℤ))
  | .float x => toLex (x.rank, ⊤)

lemma key_injective : Function.Injective key := by
  intro a b h
  cases a <;> cases b <;> simp only [key, EmbeddingLike.apply_eq_iff_eq, Prod.mk.injEq] at h
  case int.int m n => exact congrArg int (Int64.toInt_inj.1 (WithTop.coe_injective h.2))
  case int.float m y => exact absurd h.2 (WithTop.coe_ne_top)
  case float.int x n => exact absurd h.2.symm (WithTop.coe_ne_top)
  case float.float x y => exact congrArg float (Binary64.rank_injective h.1)

/-- Integers are compared by their values, not by the doubles next to them; the doubles have the same
order, as far as they differ. -/
lemma cmp_key_int (m n : Int64) : cmp (key (.int m)) (key (.int n)) = cmp m.toInt n.toInt := by
  have hlt {m n : Int64} (h : m.toInt < n.toInt) : key (.int m) < key (.int n) := by
    refine Prod.Lex.toLex_lt_toLex.2 ?_
    rcases (Binary64.rank_ofInt64_mono h.le).lt_or_eq with hrank | hrank
    · exact .inl hrank
    · exact .inr ⟨hrank, WithTop.coe_lt_coe.2 h⟩
  rcases lt_trichotomy m.toInt n.toInt with h | h | h
  · rw [h.cmp_eq_lt, (hlt h).cmp_eq_lt]
  · rw [Int64.toInt_inj.1 h, cmp_self_eq_eq, cmp_self_eq_eq]
  · rw [h.cmp_eq_gt, (hlt h).cmp_eq_gt]

/-- Literals are compared by their places. -/
lemma compare_eq_cmp (a b : Number) : a.compare b = cmp a.key b.key := by
  cases a with
  | int m =>
    cases b with
    | int n => rw [cmp_key_int, cmp_eq_compare]; rfl
    | float y =>
      rw [key, key, cmp_toLex, (WithTop.coe_lt_top m.toInt).cmp_eq_lt, cmp_eq_compare]
      rfl
  | float x =>
    cases b with
    | int n =>
      rw [key, key, cmp_toLex, (WithTop.coe_lt_top n.toInt).cmp_eq_gt, cmp_eq_compare]
      rfl
    | float y =>
      rw [key, key, cmp_toLex, cmp_self_eq_eq, cmp_eq_compare]
      rfl

end Number

/-! ## Nodes -/

namespace Expr

variable {s : Store} {a b : Expr}

/-- The place of a node: literals by their places, all else by group and ordinal. -/
def key (e : Expr) : ℕ ×ₗ ℤ ×ₗ WithTop ℤ :=
  toLex (e.group, match e.number? with
    | some x => x.key
    | none => toLex ((e.ordinal : ℤ), ⊤))

lemma key_of_number? {x : Number} (h : a.number? = some x) : a.key = toLex (0, x.key) := by
  rw [key, group_eq_zero_iff.2 (by rw [h]; rfl), h]

lemma key_of_number?_eq_none (h : a.number? = none) :
    a.key = toLex (a.group, toLex ((a.ordinal : ℤ), (⊤ : WithTop ℤ))) := by
  rw [key, h]

/-- Nodes are compared by their places. -/
lemma compare_eq_cmp (hordinal : a.ordinal = b.ordinal → a = b) : a.compare b = cmp a.key b.key := by
  unfold compare
  split
  · rename_i heq
    rw [hordinal (beq_iff_ordinal.1 heq), cmp_self_eq_eq]
  · split
    · rename_i x y hx hy
      rw [key_of_number? hx, key_of_number? hy, cmp_toLex, cmp_self_eq_eq, Number.compare_eq_cmp]
      rfl
    · rename_i hnumbers
      rcases lt_trichotomy a.group b.group with h | h | h
      · rw [key, key, cmp_toLex, h.cmp_eq_lt, Nat.compare_eq_lt.2 h]
        rfl
      · -- In one group there are literals only, or no literals.
        have hiff : a.number?.isSome = true ↔ b.number?.isSome = true := by
          rw [← group_eq_zero_iff, ← group_eq_zero_iff, h]
        have hnone : a.number? = none ∧ b.number? = none := by
          cases hx : a.number? <;> cases hy : b.number? <;> simp_all
        rw [key_of_number?_eq_none hnone.1, key_of_number?_eq_none hnone.2, cmp_toLex, cmp_toLex, h,
          cmp_self_eq_eq, cmp_self_eq_eq, Nat.strictMono_cast.cmp_map_eq, cmp_eq_compare,
          Nat.compare_eq_eq.2 rfl, Ordering.then_eq]
      · rw [key, key, cmp_toLex, h.cmp_eq_gt, Nat.compare_eq_gt.2 h]
        rfl

/-- The place tells the nodes of a store apart. -/
lemma eq_of_key (hs : s.WellFormed) (ha : s.Knows a) (hb : s.Knows b) (h : a.key = b.key) : a = b := by
  have hgroup : a.group = b.group := congrArg (fun p => (ofLex p).1) h
  have hiff : a.number?.isSome = true ↔ b.number?.isSome = true := by
    rw [← group_eq_zero_iff, ← group_eq_zero_iff, hgroup]
  cases hx : a.number? with
  | some x =>
    obtain ⟨y, hy⟩ := Option.isSome_iff_exists.1 (hiff.1 (by rw [hx]; rfl))
    rw [key_of_number? hx, key_of_number? hy] at h
    have hxy : x = y := Number.key_injective (congrArg (fun p => (ofLex p).2) h)
    subst hxy
    exact hs.eq_of_kind ha hb (kind_of_number? hx) (kind_of_number? hy) (by simp [Kind.code])
  | none =>
    have hy : b.number? = none := by
      simpa [hx] using hiff
    rw [key_of_number?_eq_none hx, key_of_number?_eq_none hy] at h
    have hordinal : (a.ordinal : ℤ) = b.ordinal := congrArg (fun p => (ofLex (ofLex p).2).1) h
    exact Store.WellFormed.eq_of_ordinal ha hb (by exact_mod_cast hordinal)

lemma compare_eq_cmp_of_knows (ha : s.Knows a) (hb : s.Knows b) : a.compare b = cmp a.key b.key :=
  compare_eq_cmp (Store.WellFormed.eq_of_ordinal ha hb)

lemma le_eq_key (ha : s.Knows a) (hb : s.Knows b) : a.le b = decide (a.key ≤ b.key) := by
  rw [Expr.le, compare_eq_cmp_of_knows ha hb]
  rcases lt_trichotomy a.key b.key with h | h | h
  · simp [h.cmp_eq_lt, h.le]
  · simp [h]
  · simp [h.cmp_eq_gt, h.not_ge]

/-- Items with keys in the store come out in the order of the places of their keys. -/
lemma pairwise_sortBy {α : Type} {key : α → Expr} {l : List α} (hl : ∀ x ∈ l, s.Knows (key x)) :
    (sortBy key l).Pairwise fun x y => (key x).key ≤ (key y).key :=
  Sorting.sort_pairwise fun x hx y hy => le_eq_key (hl x hx) (hl y hy)

/-- Permuted items have the same keys in the same order when they have been sorted. -/
lemma map_sortBy_eq (hs : s.WellFormed) {α : Type} {key : α → Expr} {l l' : List α}
    (hl : ∀ x ∈ l, s.Knows (key x)) (hperm : l.Perm l') :
    (sortBy key l).map key = (sortBy key l').map key := by
  have hl' : ∀ x ∈ l', s.Knows (key x) := fun x hx => hl x (hperm.symm.subset hx)
  have hsorted {l : List α} (hl : ∀ x ∈ l, s.Knows (key x)) :
      ((sortBy key l).map key).Pairwise fun a b => a.key ≤ b.key :=
    List.pairwise_map.2 (pairwise_sortBy hl)
  have hknown {l : List α} (hl : ∀ x ∈ l, s.Knows (key x)) : ∀ a ∈ (sortBy key l).map key, s.Knows a := by
    intro a ha
    obtain ⟨x, hx, rfl⟩ := List.mem_map.1 ha
    exact hl x ((Sorting.sort_perm _ _).subset hx)
  have hsame : ((sortBy key l).map key).Perm ((sortBy key l').map key) :=
    (((Sorting.sort_perm _ l).trans hperm).trans (Sorting.sort_perm _ l').symm).map key
  refine hsame.eq_of_pairwise (fun a b ha hb hab hba => ?_) (hsorted hl) (hsorted hl')
  exact eq_of_key hs (hknown hl a ha) (hknown hl' b hb) (le_antisymm hab hba)

/-- Gathered keys are strictly ascending. -/
lemma pairwise_gather_of_knows (hs : s.WellFormed) {α β : Type} {start : α → β} {step : β → α → β}
    {items : List (Expr × α)} (h : ∀ p ∈ items, s.Knows p.1) :
    (gather start step items).Pairwise fun p q => p.1.compare q.1 = .lt := by
  have hkeys : ∀ p ∈ gather start step items, s.Knows p.1 := gather_keys_forall h
  have hinjective : ∀ e f : Expr, s.Knows e → s.Knows f → e.key = f.key → e.ordinal = f.ordinal :=
    fun e f he hf hkey => congrArg ordinal (eq_of_key hs he hf hkey)
  have hle : ∀ p ∈ items, ∀ q ∈ items, p.1.le q.1 = decide (p.1.key ≤ q.1.key) :=
    fun p hp q hq => le_eq_key (h p hp) (h q hq)
  refine (pairwise_gather_of_rank hinjective h hle).imp_of_mem fun hp hq hlt => ?_
  rwa [compare_eq_cmp_of_knows (hkeys _ hp) (hkeys _ hq), cmp_eq_lt_iff]

end Expr

namespace Store.Reachable

variable {s : Store}

/-- **The order of operands is total.**  Over all nodes of a store that can be reached, two nodes
compare as equal exactly if they are one, to exchange them turns the answer over, and the order is
transitive.  So items that are sorted by such nodes have them in one order, whatever the order of the
items was before. -/
theorem compare_strictTotal (hs : s.Reachable) :
    (∀ a b : Expr, s.Knows a → s.Knows b → (a.compare b = .eq ↔ a = b)) ∧
    (∀ a b : Expr, s.Knows a → s.Knows b → b.compare a = (a.compare b).swap) ∧
    (∀ a b c : Expr, s.Knows a → s.Knows b → s.Knows c →
      a.compare b = .lt → b.compare c = .lt → a.compare c = .lt) ∧
    ∀ (α : Type) (key : α → Expr) (l l' : List α), (∀ x ∈ l, s.Knows (key x)) → l.Perm l' →
      (Expr.sortBy key l).map key = (Expr.sortBy key l').map key := by
  have hwf := hs.wellFormed
  refine ⟨fun a b ha hb => ?_, fun a b ha hb => ?_, fun a b c ha hb hc hab hbc => ?_,
    fun α key l l' hl hperm => Expr.map_sortBy_eq hwf hl hperm⟩
  · rw [Expr.compare_eq_cmp_of_knows ha hb, cmp_eq_eq_iff]
    exact ⟨Expr.eq_of_key hwf ha hb, congrArg Expr.key⟩
  · rw [Expr.compare_eq_cmp_of_knows ha hb, Expr.compare_eq_cmp_of_knows hb ha, cmp_swap]
  · rw [Expr.compare_eq_cmp_of_knows ha hb, cmp_eq_lt_iff] at hab
    rw [Expr.compare_eq_cmp_of_knows hb hc, cmp_eq_lt_iff] at hbc
    rw [Expr.compare_eq_cmp_of_knows ha hc, cmp_eq_lt_iff]
    exact hab.trans hbc

/-- Two integers that share a double, the double itself, and a symbol. -/
theorem compare_strictTotal_shared :
    let m : Expr := .node 50 .integers (.number (.int 9007199254740992))
    let n : Expr := .node 51 .integers (.number (.int 9007199254740993))
    let x : Expr := .node 52 .reals (.number (.float ⟨0x4340000000000000⟩))
    let y : Expr := .node 53 .reals (.symbol "y")
    let s := finalState ((Operation.symbol "y" .reals).run 9 (finalState
      ((Operation.number (.float ⟨0x4340000000000000⟩)).run 9 (finalState
      ((Operation.number (.int 9007199254740993)).run 9 (finalState
      ((Operation.number (.int 9007199254740992)).run 9 initial)))))))
    initial.Reaches s ∧ s.Knows [m, n, x, y] ∧
      m.compare n = .lt ∧ n.compare x = .lt ∧ m.compare x = .lt ∧
      (Expr.sortBy id [y, x, n, m]).map id = (Expr.sortBy id [m, n, x, y]).map id ∧
      (Expr.sortBy id [y, x, n, m]).map Expr.ordinal = [50, 51, 52, 53] := by
  intro m n x y s
  have hs : initial.Reaches s := .step _ 9 (.step _ 9 (.step _ 9 (.step _ 9 .refl trivial) trivial)
    trivial) trivial
  have hknown : s.Knows [m, n, x, y] := by
    simp only [knows_cons]
    exact ⟨rfl, rfl, rfl, rfl, by simp⟩
  obtain ⟨-, -, htrans, hsort⟩ := compare_strictTotal hs.reachable
  have hmn : m.compare n = .lt := by decide +kernel
  have hnx : n.compare x = .lt := by decide +kernel
  refine ⟨hs, hknown, hmn, hnx, htrans m n x rfl rfl rfl hmn hnx, ?_, by decide +kernel⟩
  refine hsort Expr id _ _ (fun e he => hknown e ?_) (List.reverse_perm [m, n, x, y])
  simpa [or_comm, or_assoc, or_left_comm] using he

end Store.Reachable

end TermGraph
