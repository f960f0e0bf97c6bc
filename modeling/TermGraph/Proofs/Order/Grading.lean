import TermGraph.Proofs.Order.Leading

/-!
# Graded operands

Products add up exponents, and sums of exponents multiply again, so how deep the two recur depends on
how deep exponents are nested.  The grade of an operand bounds this.

* `Expr.Integral e`: all literals in `e` are machine integers.
* `Expr.Graded k e`: `e` is made of integer literals, powers, products and sums of scalars and
  matrices, with other scalars and matrices for its atoms; in its products only the last factor is a
  matrix; and exponents that are no literals are nested at most `k` deep.
* `Expr.Fits P k e`: `e` is graded, and a scalar in case `P`.
* `Expr.graded_of_knows`: in a store where scalars lead, scalars and matrices with integer literals are
  graded.
-/

namespace TermGraph

open Store (Knows)

namespace Expr

/-- All literals are machine integers. -/
inductive Integral : Expr → Prop
  | intro {e : Expr} (literal : ∀ n ∈ e.number?, n.isInt = true)
    (children : ∀ c ∈ e.children, Integral c) : Integral e

lemma Integral.literal {e : Expr} (h : e.Integral) : ∀ n ∈ e.number?, n.isInt = true := by
  obtain ⟨h, -⟩ := h
  exact h

lemma Integral.children {e : Expr} (h : e.Integral) : ∀ c ∈ e.children, c.Integral := by
  obtain ⟨-, h⟩ := h
  exact h

/-- The terms of a sum, the sides of a product and the base of a power. -/
def pieces (e : Expr) : List Expr :=
  match e.kind with
  | .sum terms => terms
  | .apply target argument =>
    if multiplies target argument then [target, argument]
    else (e.power?.map Prod.fst).toList
  | _ => []

/-- Scalars and matrices whose products end in their only matrix, with integers for literals and
exponents that are nested at most `k` deep. -/
inductive Graded : ℕ → Expr → Prop
  | intro {k : ℕ} {e : Expr} (numeric : e.domain.IsNumeric)
    (literal : e.number?.isSome = true → IsLiteral e.intValue e)
    (target : ∀ t a, e.kind = .apply t a → multiplies t a = true → t.domain.isScalar = true)
    (isScalar : e.domain.isScalar = true → ∀ c ∈ e.pieces, c.domain.isScalar = true)
    (power : ∀ b n, e.power? = some (b, n) → e.domain.isScalar = true ∧ n.domain.isScalar = true ∧
      (n.number? = none → 0 < k))
    (exponent : ∀ b n, e.power? = some (b, n) → Graded (k - 1) n)
    (pieces : ∀ c ∈ e.pieces, Graded k c) : Graded k e

/-- An exponent in an operand of grade `k`. -/
structure IsExponent (k : ℕ) (n : Expr) : Prop where
  /-- It has a smaller grade. -/
  graded : Graded (k - 1) n
  /-- It is a scalar. -/
  isScalar : n.domain.isScalar = true
  /-- In the smallest grade it is a literal. -/
  positive : n.number? = none → 0 < k

section Nodes

variable {k : ℕ} {e t a b n : Expr} {l : List Expr}

lemma isProduct_of_kind (hkind : e.kind = .apply t a) : e.isProduct = multiplies t a := by
  simp [isProduct, hkind]

lemma exists_of_isProduct (h : e.isProduct = true) :
    ∃ t a, e.kind = .apply t a ∧ multiplies t a = true := by
  unfold isProduct at h
  split at h
  · exact ⟨_, _, ‹_›, h⟩
  · cases h

lemma factors_of_kind (hkind : e.kind = .apply t a) (hm : multiplies t a = true) :
    e.factors = t.factors ++ a.factors := by
  obtain ⟨ordinal, domain, kind⟩ := e
  obtain rfl : kind = .apply t a := hkind
  exact factors_apply ordinal domain hm

lemma factors_of_isProduct (h : e.isProduct = false) : e.factors = [e] := by
  obtain ⟨ordinal, domain, kind⟩ := e
  cases kind with
  | apply t a =>
    have hm : multiplies t a = false := h
    simp [factors, factorsOnto, hm]
  | _ => rfl

lemma terms_of_kind (hkind : e.kind = .sum l) : e.terms = l.flatMap terms := by
  obtain ⟨ordinal, domain, kind⟩ := e
  obtain rfl : kind = .sum l := hkind
  rw [terms, allTerms_eq_flatMap]

lemma terms_of_kind_ne (h : ∀ l, e.kind ≠ .sum l) : e.terms = [e] := by
  obtain ⟨ordinal, domain, kind⟩ := e
  cases kind with
  | sum l => exact absurd rfl (h l)
  | _ => rfl

/-- Induction along the factors of a product. -/
lemma inductionOnFactors {motive : Expr → Prop} (single : ∀ e, e.isProduct = false → motive e)
    (product : ∀ e t a, e.kind = .apply t a → multiplies t a = true → motive t → motive a → motive e)
    (e : Expr) : motive e := by
  induction hsize : sizeOf e using Nat.strongRecOn generalizing e with
  | _ m ih =>
    subst hsize
    cases hproduct : e.isProduct with
    | false => exact single e hproduct
    | true =>
      obtain ⟨t, a, hkind, hm⟩ := exists_of_isProduct hproduct
      have hlt {c : Expr} (hc : c ∈ [t, a]) : sizeOf c < sizeOf e :=
        sizeOf_lt_of_mem_children (by simpa [children, hkind, Kind.children] using hc)
      exact product e t a hkind hm (ih _ (hlt (by simp)) t rfl) (ih _ (hlt (by simp)) a rfl)

lemma length_factors_pos (e : Expr) : 0 < e.factors.length := by
  induction e using inductionOnFactors with
  | single e hproduct => simp [factors_of_isProduct hproduct]
  | product e t a hkind hm iht _ =>
    rw [factors_of_kind hkind hm, List.length_append]
    omega

/-- A product has at least two factors. -/
lemma two_le_length_factors (h : e.isProduct = true) : 2 ≤ e.factors.length := by
  obtain ⟨t, a, hkind, hm⟩ := exists_of_isProduct h
  rw [factors_of_kind hkind hm, List.length_append]
  exact Nat.add_le_add t.length_factors_pos a.length_factors_pos

/-- Induction along the terms of a sum. -/
lemma inductionOnTerms {motive : Expr → Prop} (single : ∀ e, (∀ l, e.kind ≠ .sum l) → motive e)
    (sum : ∀ e l, e.kind = .sum l → (∀ c ∈ l, motive c) → motive e) (e : Expr) : motive e := by
  induction hsize : sizeOf e using Nat.strongRecOn generalizing e with
  | _ m ih =>
    subst hsize
    by_cases hsum : ∃ l, e.kind = .sum l
    · obtain ⟨l, hkind⟩ := hsum
      exact sum e l hkind fun c hc => ih _
        (sizeOf_lt_of_mem_children (by simpa [children, hkind, Kind.children] using hc)) c rfl
    · exact single e fun l hkind => hsum ⟨l, hkind⟩

/-- Powers are no products. -/
lemma isProduct_of_power? (h : e.power? = some (b, n)) : e.isProduct = false := by
  obtain ⟨t, a, hkind, ht, -⟩ := power?_eq_some.1 h
  rw [isProduct_of_kind hkind]
  simp [multiplies, function?, ht]

lemma pieces_of_product (hkind : e.kind = .apply t a) (hm : multiplies t a = true) :
    e.pieces = [t, a] := by
  simp [pieces, hkind, hm]

lemma pieces_of_power? (h : e.power? = some (b, n)) : e.pieces = [b] := by
  have hproduct := isProduct_of_power? h
  obtain ⟨t, a, hkind, -, -⟩ := power?_eq_some.1 h
  rw [isProduct_of_kind hkind] at hproduct
  simp [pieces, hkind, hproduct, h]

lemma pieces_of_sum (hkind : e.kind = .sum l) : e.pieces = l := by
  simp [pieces, hkind]

end Nodes

namespace Graded

variable {j k : ℕ} {e t a b n : Expr} {l : List Expr}

lemma numeric (h : Graded k e) : e.domain.IsNumeric := by
  obtain ⟨h, -, -, -, -, -, -⟩ := h
  exact h

/-- Literals are integers. -/
lemma literal (h : Graded k e) (hnumber : e.number?.isSome = true) : IsLiteral e.intValue e := by
  obtain ⟨-, h, -, -, -, -, -⟩ := h
  exact h hnumber

/-- The sides of a product are graded, the target is a scalar, and the argument is one if the product
is. -/
lemma product (h : Graded k e) (hkind : e.kind = .apply t a) (hm : multiplies t a = true) :
    (Graded k t ∧ Graded k a) ∧ t.domain.isScalar = true ∧
      (e.domain.isScalar = true → a.domain.isScalar = true) := by
  obtain ⟨-, -, htarget, hscalar, -, -, hpieces⟩ := h
  rw [pieces_of_product hkind hm] at hscalar hpieces
  exact ⟨by simpa using hpieces, htarget t a hkind hm, fun he => hscalar he a (by simp)⟩

/-- The base of a power is a graded scalar, and the exponent has a smaller grade. -/
lemma power (h : Graded k e) (hpower : e.power? = some (b, n)) :
    (Graded k b ∧ b.domain.isScalar = true) ∧ IsExponent k n := by
  obtain ⟨-, -, -, hscalar, hspec, hexponent, hpieces⟩ := h
  rw [pieces_of_power? hpower] at hscalar hpieces
  obtain ⟨he, hn, hpositive⟩ := hspec b n hpower
  exact ⟨⟨hpieces b (by simp), hscalar he b (by simp)⟩, hexponent b n hpower, hn, hpositive⟩

/-- The terms of a sum are graded, and scalars if the sum is. -/
lemma sum (h : Graded k e) (hkind : e.kind = .sum l) :
    ∀ c ∈ l, Graded k c ∧ (e.domain.isScalar = true → c.domain.isScalar = true) := by
  obtain ⟨-, -, -, hscalar, -, -, hpieces⟩ := h
  rw [pieces_of_sum hkind] at hscalar hpieces
  exact fun c hc => ⟨hpieces c hc, fun he => hscalar he c hc⟩

lemma mono (h : Graded j e) (hle : j ≤ k) : Graded k e := by
  induction h generalizing k with
  | intro numeric literal target isScalar power exponent pieces ihexponent ihpieces =>
    refine ⟨numeric, literal, target, isScalar, fun b n hpower => ?_,
      fun b n hpower => ihexponent b n hpower (by omega), fun c hc => ihpieces c hc hle⟩
    obtain ⟨he, hn, hpositive⟩ := power b n hpower
    exact ⟨he, hn, fun hnumber => (hpositive hnumber).trans_le hle⟩

/-! Nodes over graded pieces. -/

lemma of_literal {m : ℤ} (h : IsLiteral m e) : Graded k e := by
  obtain ⟨n, hkind, -⟩ := h.kind
  exact ⟨.inl h.domain, fun _ => h.self, by simp [hkind], by simp [Expr.pieces, hkind],
    by simp [power?, hkind], by simp [power?, hkind], by simp [Expr.pieces, hkind]⟩

lemma of_atom (hnumeric : e.domain.IsNumeric)
    (hliteral : e.number?.isSome = true → IsLiteral e.intValue e) (hpower : e.power? = none)
    (hpieces : e.pieces = []) : Graded k e := by
  refine ⟨hnumeric, hliteral, fun t a hkind hm => ?_, by simp [hpieces], by simp [hpower],
    by simp [hpower], by simp [hpieces]⟩
  rw [pieces_of_product hkind hm] at hpieces
  cases hpieces

lemma of_product (hkind : e.kind = .apply t a) (hm : multiplies t a = true)
    (hnumeric : e.domain.IsNumeric) (ht : Graded k t) (ha : Graded k a)
    (hscalar : t.domain.isScalar = true)
    (hscalar' : e.domain.isScalar = true → a.domain.isScalar = true) : Graded k e := by
  have hpower (b n : Expr) : e.power? ≠ some (b, n) := fun hpower => by
    have hproduct := isProduct_of_power? hpower
    rw [isProduct_of_kind hkind, hm] at hproduct
    cases hproduct
  refine ⟨hnumeric, by simp [number?, hkind], fun t' a' hkind' _ => ?_, fun he => ?_,
    fun b n h => absurd h (hpower b n), fun b n h => absurd h (hpower b n), ?_⟩
  · rw [hkind, Kind.apply.injEq] at hkind'
    exact hkind'.1 ▸ hscalar
  · rw [pieces_of_product hkind hm]
    simpa using ⟨hscalar, hscalar' he⟩
  · rw [pieces_of_product hkind hm]
    simpa using ⟨ht, ha⟩

lemma of_power (hpower : e.power? = some (b, n)) (hreal : e.domain = .reals) (hb : Graded k b)
    (hscalar : b.domain.isScalar = true) (hn : IsExponent k n) : Graded k e := by
  have hproduct := isProduct_of_power? hpower
  obtain ⟨t, a, hkind, -, -⟩ := power?_eq_some.1 hpower
  rw [isProduct_of_kind hkind] at hproduct
  have heq {b' n' : Expr} (h : e.power? = some (b', n')) : n' = n := by
    rw [hpower, Option.some.injEq, Prod.mk.injEq] at h
    exact h.2.symm
  refine ⟨.inr (.inl hreal), by simp [number?, hkind], fun t' a' hkind' hm => ?_, fun _ => ?_,
    fun b' n' h => ?_, fun b' n' h => heq h ▸ hn.graded, ?_⟩
  · rw [hkind, Kind.apply.injEq] at hkind'
    rw [← hkind'.1, ← hkind'.2, hproduct] at hm
    cases hm
  · rw [pieces_of_power? hpower]
    simpa using hscalar
  · obtain rfl := heq h
    exact ⟨by rw [hreal]; rfl, hn.isScalar, hn.positive⟩
  · rw [pieces_of_power? hpower]
    simpa using hb

lemma of_sum (hkind : e.kind = .sum l) (hnumeric : e.domain.IsNumeric) (hl : ∀ c ∈ l, Graded k c)
    (hscalar : e.domain.isScalar = true → ∀ c ∈ l, c.domain.isScalar = true) : Graded k e :=
  ⟨hnumeric, by simp [number?, hkind], by simp [hkind], by simpa [pieces_of_sum hkind] using hscalar,
    by simp [power?, hkind], by simp [power?, hkind], by simpa [pieces_of_sum hkind] using hl⟩

end Graded

/-! ## Terms and factors -/

/-- A graded operand that is a scalar in case `P`. -/
structure Fits (P : Prop) (k : ℕ) (e : Expr) : Prop where
  /-- It is graded. -/
  graded : Graded k e
  /-- It is a scalar in case `P`. -/
  isScalar : P → e.domain.isScalar = true

namespace Fits

variable {P : Prop} {k : ℕ} {e : Expr}

lemma of_literal {m : ℤ} (h : IsLiteral m e) : Fits P k e :=
  ⟨.of_literal h, fun _ => h.real.isScalar⟩

/-- Factors are graded as the product is, and scalars if the product is. -/
lemma factors (h : Fits P k e) : ∀ f ∈ e.factors, Fits P k f := by
  induction e using inductionOnFactors with
  | single e hproduct =>
    rw [factors_of_isProduct hproduct]
    simpa using h
  | product e t a hkind hm iht iha =>
    obtain ⟨⟨ht, ha⟩, hscalar, hscalar'⟩ := h.graded.product hkind hm
    rw [factors_of_kind hkind hm]
    exact List.forall_mem_append.2
      ⟨iht ⟨ht, fun _ => hscalar⟩, iha ⟨ha, fun hP => hscalar' (h.isScalar hP)⟩⟩

/-- Terms are graded as the sum is, and scalars if the sum is. -/
lemma terms (h : Fits P k e) : ∀ f ∈ e.terms, Fits P k f := by
  induction e using inductionOnTerms with
  | single e hsum =>
    rw [terms_of_kind_ne hsum]
    simpa using h
  | sum e l hkind ih =>
    rw [terms_of_kind hkind]
    intro f hf
    obtain ⟨c, hc, hmem⟩ := List.mem_flatMap.1 hf
    obtain ⟨hgraded, hscalar⟩ := h.graded.sum hkind c hc
    exact ih c hc ⟨hgraded, fun hP => hscalar (h.isScalar hP)⟩ f hmem

end Fits

/-- Factors are no products. -/
lemma isProduct_of_mem_factors {e f : Expr} (h : f ∈ e.factors) : f.isProduct = false := by
  induction e using inductionOnFactors with
  | single e hproduct =>
    rw [factors_of_isProduct hproduct, List.mem_singleton] at h
    rw [h, hproduct]
  | product e t a hkind hm iht iha =>
    rw [factors_of_kind hkind hm, List.mem_append] at h
    exact h.elim iht iha

/-- Factors have no factors of their own. -/
lemma factors_of_mem_factors {e f : Expr} (h : f ∈ e.factors) : f.factors = [f] :=
  factors_of_isProduct (isProduct_of_mem_factors h)

/-- The factors of a scalar are no matrices. -/
lemma Fits.filter_isMatrixFactor {k : ℕ} {e : Expr} (h : Fits True k e) :
    e.factors.filter isMatrixFactor = [] :=
  List.filter_eq_nil_iff.2 fun f hf => by simp [isMatrixFactor, (h.factors f hf).isScalar trivial]

/-- At most one factor is a matrix. -/
lemma Graded.length_matrixFactors {k : ℕ} {e : Expr} (h : Graded k e) :
    (e.factors.filter isMatrixFactor).length ≤ 1 := by
  induction e using inductionOnFactors with
  | single e hproduct =>
    rw [factors_of_isProduct hproduct]
    exact List.length_filter_le _ _
  | product e t a hkind hm _ iha =>
    obtain ⟨⟨ht, ha⟩, hscalar, -⟩ := h.product hkind hm
    have htarget : Fits True k t := ⟨ht, fun _ => hscalar⟩
    rw [factors_of_kind hkind hm, List.filter_append, htarget.filter_isMatrixFactor, List.nil_append]
    exact iha ha

/-! ## Known operands -/

section Known

variable {s : Store} {e t a b n : Expr}

lemma sizeOf_lt_of_power? (h : e.power? = some (b, n)) : sizeOf b < sizeOf e ∧ sizeOf n < sizeOf e := by
  obtain ⟨t, a, hkind, -, ha⟩ := power?_eq_some.1 h
  have hlt : sizeOf a < sizeOf e :=
    sizeOf_lt_of_mem_children (by simp [children, hkind, Kind.children])
  have hlt' {c : Expr} (hc : c ∈ [b, n]) : sizeOf c < sizeOf a :=
    sizeOf_lt_of_mem_children (by simpa [children, ha, Kind.children] using hc)
  exact ⟨(hlt' (by simp)).trans hlt, (hlt' (by simp)).trans hlt⟩

lemma Integral.power? (h : e.Integral) (hpower : e.power? = some (b, n)) :
    b.Integral ∧ n.Integral := by
  obtain ⟨t, a, hkind, -, ha⟩ := power?_eq_some.1 hpower
  have hargument := h.children a (by simp [Expr.children, hkind, Kind.children])
  simpa [Expr.children, ha, Kind.children] using hargument.children

/-- Integer literals lie in the integers. -/
lemma isLiteral_of_integral (hs : s.WellFormed) (he : s.Knows e) (hint : e.Integral)
    (h : e.number?.isSome = true) : IsLiteral e.intValue e := by
  obtain ⟨m, hm⟩ := Option.isSome_iff_exists.1 h
  have htyped := (hs.admits he).typed
  have hkind : e.kind = .number m := by
    unfold number? at hm
    split at hm
    · rename_i hkind
      rw [hkind, Option.some.inj hm]
    · cases hm
  cases m with
  | int m =>
    rw [hkind] at htyped
    exact (IsLiteral.of_kind hkind htyped).self
  | float x => cases hint.literal _ hm

/-- In a store without custom domains where scalars lead, scalars and matrices with integer literals
are graded. -/
lemma graded_of_knows (hs : s.WellFormed) (hled : s.Led) (hb : s.Builtin) (he : s.Knows e)
    (hlinear : e.domain.isLinear = true) (hint : e.Integral) : Graded (sizeOf e) e := by
  induction hsize : sizeOf e using Nat.strongRecOn generalizing e with
  | _ m ih =>
    subst hsize
    have hnumeric := Domain.isNumeric_of_isLinear (hb e he) hlinear
    have hchildren := hs.children he
    have hchild {c : Expr} (hc : c ∈ e.children) (hc' : c.domain.IsNumeric) :
        Graded (sizeOf e) c :=
      (ih _ (sizeOf_lt_of_mem_children hc) (hchildren c hc) hc'.isLinear (hint.children c hc)
        rfl).mono (sizeOf_lt_of_mem_children hc).le
    -- A sum is graded by its terms, a product by its factors, a power by base and exponent; what is
    -- left is an atom.
    by_cases hsum : ∃ l, e.kind = .sum l
    · obtain ⟨l, hkind⟩ := hsum
      have hl : e.children = l := by rw [children, hkind]; rfl
      have htyped := (hs.admits he).typed
      rw [hkind, Kind.Typed] at htyped
      have hterms := isNumeric_of_sumDomain (fun c hc => hb c (hchildren c (hl ▸ hc))) htyped hnumeric
      obtain ⟨domain, hdomain, -, hscalar⟩ := sumDomain_numeric hterms
      obtain rfl : domain = e.domain := Except.ok.inj (hdomain.symm.trans htyped)
      exact .of_sum hkind hnumeric (fun c hc => hchild (hl ▸ hc) (hterms c hc)) hscalar.1
    by_cases hproduct : ∃ t a, e.kind = .apply t a ∧ multiplies t a = true
    · obtain ⟨t, a, hkind, hm⟩ := hproduct
      have hmem {c : Expr} (hc : c ∈ [t, a]) : c ∈ e.children := by
        rw [children, hkind]
        exact hc
      obtain ⟨ht, ha⟩ := isNumeric_of_multiplies hb (hchildren t (hmem (by simp)))
        (hchildren a (hmem (by simp))) hm
      exact .of_product hkind hm hnumeric (hchild (hmem (by simp)) ht) (hchild (hmem (by simp)) ha)
        (hled hb e t a he hkind hm) fun hscalar => ((domain_of_apply hs he hkind ht ha).2.1 hscalar).2
    by_cases hpower : ∃ b n, e.power? = some (b, n)
    · obtain ⟨b, n, hpower⟩ := hpower
      obtain ⟨hreal, hbscalar, hnscalar⟩ := domain_of_power? hs he hpower
      obtain ⟨hbknown, hnknown⟩ := knows_power? hs he hpower
      obtain ⟨hblt, hnlt⟩ := sizeOf_lt_of_power? hpower
      obtain ⟨hbint, hnint⟩ := hint.power? hpower
      have hgraded {c : Expr} (hc : s.Knows c) (hscalar : c.domain.isScalar = true)
          (hint : c.Integral) (hlt : sizeOf c < sizeOf e) : Graded (sizeOf c) c :=
        ih _ hlt hc (Domain.isLinear_of_isScalar (hb c hc) hscalar) hint rfl
      exact .of_power hpower hreal ((hgraded hbknown hbscalar hbint hblt).mono hblt.le) hbscalar
        ⟨(hgraded hnknown hnscalar hnint hnlt).mono (by omega), hnscalar, fun _ => by omega⟩
    · have hnone : e.power? = none :=
        Option.eq_none_iff_forall_ne_some.2 fun p hp => hpower ⟨p.1, p.2, hp⟩
      refine .of_atom hnumeric (isLiteral_of_integral hs he hint) hnone ?_
      unfold pieces
      split
      · rename_i l hkind
        exact absurd ⟨l, hkind⟩ hsum
      · rename_i t a hkind
        rw [if_neg fun hm => hproduct ⟨t, a, hkind, hm⟩, hnone]
        rfl
      · rfl

end Known

end Expr

end TermGraph
