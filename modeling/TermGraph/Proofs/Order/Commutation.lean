import TermGraph.Proofs.Order.Sums
import TermGraph.Proofs.Polynomial.Canonicity

/-!
# The order of operands does not matter

A sum of scalars and matrices is one node, and so is a product of a scalar and a scalar or matrix,
whatever the order in which the operands are given and whatever is built in between.

Sums multiply terms by coefficients and products add up exponents, so the two are shown to be
independent of the order together, by induction on the grade of the operands: the exponents in a product
have a smaller grade than the product.

* `Expr.productsAgree_productAux`, `Expr.sumsAgree_sum`: products and sums of graded operands.
* `Store.Coincide s x y`: run from `s`, `x` gives a node, and `y` gives the same node in every store that
  is reached later.
* `Store.Reachable.commutative`: this holds of sums of permuted operands, and of a product and the product
  with its sides exchanged.
-/

namespace TermGraph

open Store (Knows)

namespace Expr

variable {s t : Store} {d k : ℕ} {P : Prop}

/-! ## Sums of exponents -/

section Exponents

variable {p q : List Expr → Build Expr}

/-- The exponents in a product of the smallest grade are literals, which are added up without
products. -/
lemma exponentsAgree_zero [∀ l, Growing (p l)] (hp : YieldsAll p) :
    ExponentsAgree d 0 (sumWith p) (sumWith q) := by
  intro s l l' hs hknown hne hl hperm
  refine ⟨yields_sumWith hp s l hs hknown d, ?_⟩
  have hliterals : AreLiterals l := fun n hn => by
    refine (hl n hn).graded.literal (Option.isSome_iff_ne_none.2 fun hnone => ?_)
    exact absurd ((hl n hn).positive hnone) (lt_irrefl 0)
  have hliterals' : AreLiterals l' := fun n hn => hliterals n (hperm.symm.subset hn)
  rw [sumWith_of_areLiterals hliterals, sumWith_of_areLiterals hliterals']
  refine (repeats_constant hs (fun e he _ => hliterals e he) hperm).bind_eq
    fun constant t _ _ _ hconstant => ?_
  obtain ⟨hnil, -⟩ | ⟨c, rfl, hc⟩ := hconstant
  · have hlength := hliterals.forall₂.length_eq
    rw [List.map_eq_nil_iff.1 hnil, List.length_map] at hlength
    exact absurd (List.eq_nil_of_length_eq_zero hlength.symm) hne
  · obtain ⟨m, hm, -⟩ := hc.number
    exact .pure ⟨⟨.of_literal hc, hc.real.isScalar, fun hnone => by simp [hm] at hnone⟩, .pure rfl⟩

/-- The exponents in a product are operands of a smaller grade. -/
lemma exponentsAgree_succ (h : SumsAgree d k p q) : ExponentsAgree d (k + 1) p q := by
  intro s l l' hs hknown _ hl hperm
  refine (h True s l l' hs hknown (fun n hn => (hl n hn).fits) hperm).imp (fun n hn => ?_)
    fun _ _ _ heq => heq
  exact ⟨hn.graded, hn.isScalar trivial, fun _ => k.succ_pos⟩

end Exponents

/-! ## Products and sums of graded operands -/

/-- At depth zero there are no products. -/
lemma productsAgree_of_succ {p : List Expr → Build Expr}
    (h : ∀ depth, ProductsAgree d k p (productAux (depth + 1))) (depth : ℕ) :
    ProductsAgree d k p (productAux depth) := by
  cases depth with
  | zero =>
    intro P s l l' hs hknown hl hmatrices hperm
    have hone := h 0 P s l l' hs hknown hl hmatrices hperm
    refine ⟨hone.yields, hone.exact.imp fun e t _ _ he => ⟨he.1, ?_⟩⟩
    unfold productAux
    exact .throw _
  | succ depth => exact h depth

/-- Products of operands of grade `k` at depths above `k`, and later at any depth. -/
lemma productsAgree_productAux {depth : ℕ} (hdepth : k < depth) (depth' : ℕ) :
    ProductsAgree d k (productAux depth) (productAux depth') := by
  induction k generalizing depth depth' with
  | zero =>
    obtain ⟨n, rfl⟩ : ∃ n, depth = n + 1 := ⟨depth - 1, by omega⟩
    exact productsAgree_of_succ (fun _ => productsAgree_of_exponentsAgree
      (exponentsAgree_zero (yields_productAux n))) depth'
  | succ k ih =>
    obtain ⟨n, rfl⟩ : ∃ n, depth = n + 1 := ⟨depth - 1, by omega⟩
    exact productsAgree_of_succ (fun m => productsAgree_of_exponentsAgree (exponentsAgree_succ
      (sumsAgree_of_productsAgree (yields_productAux n) (ih (by omega) m)))) depth'

lemma canonicalProduct_apply (l : List Expr) (d : ℕ) (s : Store) :
    canonicalProduct l d s = productAux d l d s := rfl

lemma productsAgree_canonicalProduct (hd : k < d) :
    ProductsAgree d k canonicalProduct canonicalProduct := by
  intro P s l l' hs hknown hl hmatrices hperm
  have hproduct (depth : ℕ) :=
    productsAgree_productAux (d := d) hd depth P s l l' hs hknown hl hmatrices hperm
  refine ⟨yields_canonicalProduct s l hs hknown d, ?_⟩
  refine ((hproduct d).exact.of_run_eq (canonicalProduct_apply l d s)).imp fun e t hrun ht he =>
    ⟨he.1, fun u d' e' v hle hrun' => ?_⟩
  rw [canonicalProduct_apply] at hrun hrun'
  exact ((hproduct d').exact.of_ok hrun ht).2 u d' e' v hle hrun'

/-- Sums of operands of grade `k` at depths above `k`. -/
lemma sumsAgree_sum (hd : k < d) : SumsAgree d k sum sum :=
  sumsAgree_of_productsAgree yields_canonicalProduct (productsAgree_canonicalProduct hd)

/-! ## Applications -/

section Apply

variable {a b : Expr}

/-- Applying a scalar or matrix to another multiplies them. -/
lemma apply_succ (ha : a.function? = none) (ha' : a.domain.IsNumeric) (hb' : b.domain.IsNumeric)
    (d : ℕ) (s : Store) : apply a b (d + 1) s = canonicalProduct [a, b] (d + 1) s := by
  obtain ⟨domain, hdomain, -⟩ := applyDomain?_numeric ha' hb'
  simp [apply, Run.bind_apply, applyAux, ha, applyDomain, hdomain, ha'.isLinear, hb'.isLinear]

/-- A graded operand times a graded scalar, in either order. -/
lemma repeats_apply (hd : k < d) (hs : Good s) (ha : s.Knows a) (hb : s.Knows b) (ha' : Graded k a)
    (hb' : Graded k b) (hscalar : a.domain.isScalar = true ∨ b.domain.isScalar = true) :
    Repeats d s (apply a b) (apply b a) (fun _ => True) Eq where
  yields := yields_apply s a b hs ha hb d
  exact := by
    have hfunction {e : Expr} (he : s.Knows e) (he' : Graded k e) : e.function? = none :=
      function?_of_isLinear (good_store.1 hs) he he'.numeric.isLinear
    have hnone {e : Expr} (he : Graded k e) (hscalar : e.domain.isScalar = true) :
        e.factors.filter isMatrixFactor = [] := (Fits.mk he fun _ => hscalar).filter_isMatrixFactor
    have hlength : (([a, b].flatMap factors).filter isMatrixFactor).length ≤ 1 := by
      simp only [List.flatMap_cons, List.flatMap_nil, List.append_nil, List.filter_append]
      rcases hscalar with hscalar | hscalar
      · rw [hnone ha' hscalar, List.nil_append]
        exact hb'.length_matrixFactors
      · rw [hnone hb' hscalar, List.append_nil]
        exact ha'.length_matrixFactors
    have hperm : ([a, b].flatMap factors).Perm ([b, a].flatMap factors) := by
      simpa using List.perm_append_comm
    have hproduct := (productsAgree_canonicalProduct hd False s [a, b] [b, a] hs (by grind)
      (by simpa using ⟨⟨ha', False.elim⟩, ⟨hb', False.elim⟩⟩) hlength hperm).exact
    obtain ⟨n, rfl⟩ : ∃ n, d = n + 1 := ⟨d - 1, by omega⟩
    refine (hproduct.of_run_eq (apply_succ (hfunction ha ha') ha'.numeric hb'.numeric n s)).imp
      fun e t _ _ he => ⟨trivial, fun u d' e' v hle hrun => ?_⟩
    cases d' with
    | zero => cases hrun
    | succ m =>
      rw [apply_succ (hfunction hb hb') hb'.numeric ha'.numeric] at hrun
      exact he.2 u _ e' v hle hrun

end Apply

end Expr

/-! ## Commutation -/

namespace Store

/-- Given enough depth, `x` run from `s` gives a node, and `y` run from any store that is reached from
there gives the same node.  This is said of runs in which every operation on integers gives an
integer. -/
def Coincide (s : Store) (x y : Build Expr) : Prop :=
  ∃ k, ∀ d > k, (finalState (x d s.watched)).exact = true →
    ∃ e s', x d s.watched = .ok e s' ∧
      ∀ t, s'.Reaches t → ∀ d' > k, (finalState (y d' t.watched)).exact = true →
        ∃ t', y d' t.watched = .ok e t'

/-- `e` is a scalar or matrix whose literals are integers. -/
structure HasOperand (s : Store) (e : Expr) : Prop where
  /-- The store knows it. -/
  known : s.Knows e
  /-- It is a scalar or a matrix. -/
  linear : e.domain.isLinear = true
  /-- Its literals are integers. -/
  integral : e.Integral

variable {s t : Store} {k : ℕ}

/-- Without custom domains, operands that can be reached are graded. -/
lemma HasOperand.graded {e : Expr} (h : s.HasOperand e) (hs : s.Reachable) (hb : s.Builtin)
    (hk : sizeOf e ≤ k) : Expr.Graded k e :=
  (Expr.graded_of_knows hs.wellFormed hs.led hb h.known h.linear
    h.integral).mono hk

/-- Computations coincide if the second repeats the first and gives results in all later stores. -/
lemma coincide_of_repeats {x y : Build Expr} [Growing x] {Q R : Expr → Prop} (k : ℕ)
    (hx : ∀ d > k, Repeats d s.watched x y Q Eq)
    (hy : ∀ t : Store, t.WellFormed → (∀ e : Expr, s.Knows e → t.Knows e) → ∀ d > k,
      Exact d t y fun e _ => R e) : s.Coincide x y := by
  refine ⟨k, fun d hd hfinal => ?_⟩
  obtain ⟨e, s', hrun, hexact, -, hlater⟩ := (hx d hd).exact.exists_ok hfinal
  refine ⟨e, s', hrun, fun t ht d' hd' hfinal' => ?_⟩
  have hwf : t.watched.WellFormed :=
    (ht.wellFormed (good_store.1 ((hx d hd).yields.of_ok hrun).1)).watched
  have hle : s' ≤ t.watched :=
    ⟨ht.le.nodes, ht.le.table, ht.le.placeholders, ht.le.identity, fun _ => hexact, ht.le.bound⟩
  have hknows (e : Expr) (he : s.Knows e) : t.watched.Knows e := by
    have hwatched : s.watched.Knows e := he
    exact hwatched.mono ((Growing.le_of_ok hrun : s.watched ≤ s').trans hle)
  obtain ⟨e', t', hrun', hexact', -⟩ := (hy t.watched hwf hknows d' hd').exists_ok hfinal'
  obtain rfl := hlater t.watched d' e' t' hle hrun' hexact'
  exact ⟨t', hrun'⟩

/-- **Commutation.**  In a store that can be reached and has no custom domains, take scalars and
matrices whose literals are integers.  Their sum and, called later, the sum of any permutation of them
are the same node.  If one of two operands is a scalar, their product and, called later, the product
with the sides exchanged are the same node. -/
theorem Reachable.commutative (hs : s.Reachable) (hb : s.Builtin) :
    (∀ l l' : List Expr, (∀ e ∈ l, s.HasOperand e) → l.Perm l' →
      s.Coincide (Expr.sum l) (Expr.sum l')) ∧
    (∀ a b : Expr, s.HasOperand a → s.HasOperand b →
      (a.domain.isScalar = true ∨ b.domain.isScalar = true) →
        s.Coincide (Expr.apply a b) (Expr.apply b a)) := by
  have hwf := good_store.2 hs.wellFormed.watched
  refine ⟨fun l l' hl hperm => ?_, fun a b ha hb' hscalar => ?_⟩
  · have hfits : ∀ e ∈ l, Expr.Fits False (l.map sizeOf).sum e := fun e he =>
      ⟨(hl e he).graded hs hb (List.le_sum_of_mem (List.mem_map_of_mem he)), False.elim⟩
    have hknown : s.watched.Knows l := fun e he => (hl e he).known
    refine coincide_of_repeats (l.map sizeOf).sum
      (fun d hd => Expr.sumsAgree_sum hd False _ l l' hwf hknown hfits hperm)
      (R := Expr.Fits False (l.map sizeOf).sum) fun t ht hknows d hd => ?_
    have hknown' : t.Knows l' := fun e he => hknows e (hl e (hperm.symm.subset he)).known
    exact (Expr.sumsAgree_sum hd False t l' l' (good_store.2 ht) hknown'
      (fun e he => hfits e (hperm.symm.subset he)) (.refl _)).exact.imp fun _ _ _ _ he => he.1
  · have hgraded := ha.graded hs hb (Nat.le_add_right (sizeOf a) (sizeOf b))
    have hgraded' := hb'.graded hs hb (Nat.le_add_left (sizeOf b) (sizeOf a))
    refine coincide_of_repeats (sizeOf a + sizeOf b) (fun d hd => Expr.repeats_apply hd hwf ha.known
      hb'.known hgraded hgraded' hscalar) (R := fun _ => True) fun t ht hknows d hd => ?_
    exact (Expr.repeats_apply hd (good_store.2 ht) (hknows b hb'.known) (hknows a ha.known) hgraded'
      hgraded hscalar.symm).exact.imp fun _ _ _ _ he => he.1

/-- The sum of the row and the column index is that of the column and the row index, and so is their
product. -/
theorem commutative_indices :
    (∃ d e s t, Expr.sum [.rowIndex, .colIndex] d initial.watched = .ok e s ∧
      Expr.sum [.colIndex, .rowIndex] d s.watched = .ok e t) ∧
    (∃ d e s t, Expr.apply .rowIndex .colIndex d initial.watched = .ok e s ∧
      Expr.apply .colIndex .rowIndex d s.watched = .ok e t) := by
  have hb : initial.Builtin := fun e he => by
    have hnodes : ∀ e ∈ initial.nodes.toList, e.domain.isBuiltin = true := by decide
    exact hnodes e (Array.mem_toList_iff.2 (Array.mem_of_getElem? he))
  have hrow : initial.HasOperand .rowIndex :=
    ⟨wellFormed_initial.rowIndex, rfl, ⟨by simp [Expr.number?, Expr.kind, Expr.rowIndex],
      by simp [Expr.children, Kind.children, Expr.kind, Expr.rowIndex]⟩⟩
  have hcol : initial.HasOperand .colIndex :=
    ⟨wellFormed_initial.colIndex, rfl, ⟨by simp [Expr.number?, Expr.kind, Expr.colIndex],
      by simp [Expr.children, Kind.children, Expr.kind, Expr.colIndex]⟩⟩
  obtain ⟨hsum, hproduct⟩ := Reachable.commutative blank_initial.reachable hb
  constructor
  · obtain ⟨k, hk⟩ := hsum [.rowIndex, .colIndex] [.colIndex, .rowIndex] (by simpa using ⟨hrow, hcol⟩)
      (.swap _ _ _)
    obtain ⟨e, s, hrun, hlater⟩ := hk (k + 1) k.lt_succ_self rfl
    obtain rfl : finalState (Expr.sum [.rowIndex, .colIndex] (k + 1) initial.watched) = s := by
      rw [hrun]
      rfl
    obtain ⟨t, ht⟩ := hlater _ .refl (k + 1) k.lt_succ_self rfl
    exact ⟨k + 1, e, _, t, hrun, ht⟩
  · obtain ⟨k, hk⟩ := hproduct .rowIndex .colIndex hrow hcol (.inl rfl)
    obtain ⟨e, s, hrun, hlater⟩ := hk (k + 1) k.lt_succ_self rfl
    obtain rfl : finalState (Expr.apply .rowIndex .colIndex (k + 1) initial.watched) = s := by
      rw [hrun]
      rfl
    obtain ⟨t, ht⟩ := hlater _ .refl (k + 1) k.lt_succ_self rfl
    exact ⟨k + 1, e, _, t, hrun, ht⟩

end Store

end TermGraph
