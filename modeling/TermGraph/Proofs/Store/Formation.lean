import TermGraph.Proofs.Order.Grading

/-!
# No needless nodes

A store holds no sum and no matrix product of fewer than two items, since those are zero or one, or
the item itself, and no power of one or to the exponent zero or one.  Neither does it hold a call of a function with a body, since such a call is its body
with the arguments put in; where a custom domain has a say in what commutes, an application may put a
function in front, and that one is left as it stands.

* `Store.Formed s`: the nodes of `s` are of kinds that are needed.
* `Upkeep.formation`: this is kept up along with the invariant.
* `Store.Reachable.formed`: it holds of every store that can be reached.
-/

namespace TermGraph

open Store (Knows)

/-- The base of a power that is needed is not one, and the exponent is neither zero nor one. -/
lemma Expr.power_of_isFormed {e b n : Expr} (h : e.kind.isFormed = true)
    (hpower : e.power? = some (b, n)) : b.isOne = false ∧ n.isZero = false ∧ n.isOne = false := by
  obtain ⟨t, a, hkind, ht, ha⟩ := power?_eq_some.1 hpower
  simp only [hkind, Kind.isFormed, function?, ht, ha, Bool.not_eq_true', Bool.or_eq_false_iff] at h
  exact ⟨h.1.2, h.1.1, h.2⟩

namespace Store

variable {s t : Store} {domain : Domain} {kind : Kind}

/-- Every node is of a kind that is needed. -/
def Formed (s : Store) : Prop :=
  ∀ e : Expr, s.Knows e → e.kind.isFormed = true

lemma Formed.of_nodes (hnodes : t.nodes = s.nodes) (h : s.Formed) : t.Formed :=
  fun e he => h e ((knows_iff_of_nodes hnodes).1 he)

lemma Formed.intern (h : s.Formed) (hkind : kind.isFormed = true) :
    (s.intern domain kind).2.Formed := by
  intro e he
  rcases knows_of_knows_intern he with he | rfl
  · exact h e he
  · exact hkind

/-- Symbols are needed. -/
lemma Blank.formed (h : s.Blank) : s.Formed := by
  intro e he
  obtain ⟨name, hkind⟩ := h.exists_symbol he
  rw [hkind]
  rfl

end Store

/-- Needless nodes are never made. -/
@[reducible] def Upkeep.formation : Upkeep where
  Holds := Store.Formed
  since := 0
  since_le _ := Nat.zero_le _
  of_nodes _ := Store.Formed.of_nodes
  intern _ _ hkind _ h := h.intern (by simp_all [Kind.isPlain])

namespace Expr

variable {s : Store} {e : Expr}

/-- The factors of what is no function are no functions. -/
lemma function?_of_mem_factors (hs : s.WellFormed) (he : s.Knows e) (h : e.function? = none) :
    ∀ f ∈ e.factors, f.function? = none := by
  induction e using inductionOnFactors with
  | single e hproduct => simpa [factors_of_isProduct hproduct] using h
  | product e t a hkind hm iht iha =>
    obtain ⟨ht, ha⟩ := hs.knows_of_apply he hkind
    have hsides := hm
    simp only [multiplies, Bool.and_eq_true, Option.isNone_iff_eq_none] at hsides
    rw [factors_of_kind hkind hm]
    exact List.forall_mem_append.2 ⟨iht ht hsides.1.1, iha ha (function?_of_isLinear hs ha hsides.2)⟩

/-- A function is among the factors of a product at the end at most.  So applications of functions play no
part in what products can harm. -/
lemma ledBy_nonfunctions [Upkeep] (hintern : ∀ {s : Store} {domain : Domain} {t a : Expr}, Good s →
      s.Admits domain (.apply t a) → t.function? = none → Upkeep.Holds (s.intern domain (.apply t a)).2) :
    Upkeep.LedBy fun _ e => e.function? = none where
  mono _ h := h
  scalar hs he h := function?_of_domain hs.wellFormed he fun hdomain => by
    rw [hdomain] at h
    cases h
  product _ _ hkind _ _ := by rw [function?, hkind]
  factors {s e} hs he f hf := by
    cases hfunction : e.function? with
    | none =>
      exact function?_of_mem_factors hs.wellFormed he hfunction f
        (List.mem_filter.1 (List.mem_of_mem_dropLast hf)).1
    | some g =>
      -- A function has no factors but itself.
      have hproduct : e.isProduct = false := by
        unfold function? at hfunction
        unfold isProduct
        split at hfunction <;> simp_all
      have hpos := List.length_pos_of_mem hf
      have hle := List.length_filter_le isMatrixFactor e.factors
      rw [List.length_dropLast] at hpos
      rw [factors_of_isProduct hproduct, List.length_singleton] at hle
      rw [factors_of_isProduct hproduct] at hpos
      omega
  intern := hintern

end Expr

section Formation

local instance : Upkeep := Upkeep.formation

/-- Sums of two or more terms are needed. -/
instance : Upkeep.Sums := ⟨fun _ _ hlength h => Store.Formed.intern h (by simpa [Kind.isFormed] using hlength)⟩

instance : Upkeep.Products :=
  (Expr.ledBy_nonfunctions fun hs _ h => Store.Formed.intern hs.holds (by simp [Kind.isFormed, h])).products

/-- In every store that can be reached, all nodes are of kinds that are needed. -/
lemma Store.Reachable.formed {s : Store} (h : s.Reachable) : s.Formed :=
  (h.good fun hs => hs.formed).holds

end Formation

end TermGraph
