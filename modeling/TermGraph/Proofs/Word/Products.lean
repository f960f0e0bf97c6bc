import TermGraph.Proofs.Polynomial.Sum
import TermGraph.Proofs.Word.Letters

/-!
# Canonical products of scalars and matrices

The form that products of integer literals, variables and matrices take: a coefficient, powers of
variables and the product of a reduced word of matrices, in this order.

* `Shape`: a coefficient, exponents and a word, which are multiplied each in its own way.
* `IsWord p e`: `e` is the canonical product of shape `p`.
* `IsWord.eq`, `IsWord.unique`: in a well-formed store there is one node for each shape, and a node
  has one shape only, except that all shapes with coefficient zero are the literal zero.
* `achieves_applyWord`, `achieves_productWord`, `achieves_chainWord`: applications, products and
  matrix products multiply shapes.
-/

namespace TermGraph

open Store (Knows)

/-- A coefficient, exponents of variables, and a word of matrices. -/
abbrev Shape := ℤ × Multiplicative Exponents × FreeGroup ℕ

namespace Shape

/-- The coefficient. -/
abbrev coefficient (p : Shape) : ℤ := p.1

/-- The exponents. -/
abbrev exponents (p : Shape) : Exponents := p.2.1.toAdd

/-- The word. -/
abbrev word (p : Shape) : FreeGroup ℕ := p.2.2

/-- The shapes are the same, where the coefficient zero leaves nothing to tell shapes apart. -/
def Same (p q : Shape) : Prop :=
  p = q ∨ p.coefficient = 0 ∧ q.coefficient = 0

variable {p q r : Shape}

lemma Same.trans (h : p.Same q) (h' : q.Same r) : p.Same r := by
  obtain rfl | ⟨hp, hq⟩ := h
  · exact h'
  · obtain rfl | ⟨-, hr⟩ := h'
    · exact .inr ⟨hp, hq⟩
    · exact .inr ⟨hp, hr⟩

lemma Same.mul_right (h : p.Same q) (r : Shape) : (p * r).Same (q * r) := by
  obtain rfl | ⟨hp, hq⟩ := h
  · exact .inl rfl
  · exact .inr ⟨mul_eq_zero_of_left hp r.1, mul_eq_zero_of_left hq r.1⟩

lemma eq_scaled (p : Shape) :
    ((p.coefficient, .ofAdd p.exponents, 1) * (1, 1, p.word) : Shape) = p := by
  obtain ⟨c, v, g⟩ := p
  simp

lemma eq_scalar (h : p.word = 1) : ((p.coefficient, .ofAdd p.exponents, 1) : Shape) = p := by
  obtain ⟨c, v, g⟩ := p
  exact Prod.ext rfl (Prod.ext rfl h.symm)

end Shape

namespace Expr

variable {s : Store} {d : ℕ}

/-! ## Canonical products -/

/-- The product of the matrix `m` and the scalars `l` in front of it. -/
inductive IsScaled (l : List Expr) (m e : Expr) : Prop
  | bare : l = [] → e = m → IsScaled l m e
  | apply {h : Expr} : IsChain l h → e.kind = .apply h m → e.domain = .matrices → IsScaled l m e

/-- The canonical product of a shape. -/
inductive IsWord (p : Shape) (e : Expr) : Prop
  | zero : p.coefficient = 0 → IsLiteral 0 e → IsWord p e
  | scalar : p.coefficient ≠ 0 → p.word = 1 → IsMonomial p.coefficient p.exponents e → IsWord p e
  | matrix {front l : List Expr} {m : Expr} : p.coefficient ≠ 0 → IsFront p.coefficient front →
    IsPowers p.exponents l → IsMatrix p.word m → IsScaled (front ++ l) m e → IsWord p e

section Facts

variable {p q : Shape} {e e' a m : Expr} {l l' : List Expr}

lemma IsMatrix.isLinear {g : FreeGroup ℕ} (h : IsMatrix g m) : m.domain.isLinear = true := by
  rw [h.isWhole.domain]
  rfl

lemma IsMatrix.isMatrixFactor {g : FreeGroup ℕ} (h : IsMatrix g m) : m.isMatrixFactor = true := by
  simp [Expr.isMatrixFactor, h.isWhole.number?, h.isWhole.domain]
  rfl

/-- A scalar in front of a matrix. -/
lemma multiplies_scaled {g : FreeGroup ℕ} (ha : a.IsReal) (hfunction : a.function? = none)
    (h : IsMatrix g m) : multiplies a m = true := by
  simp [multiplies, hfunction, ha.isLinear, h.isLinear]

/-- A coefficient and powers that are not all left out. -/
lemma isAtom_of_front {c : ℤ} {v : Exponents} {front l : List Expr} (hfront : IsFront c front)
    (hl : IsPowers v l) : ∀ a ∈ front ++ l, IsAtom a := fun a ha =>
  ((HasFactors.of_front hfront hl).factors a ha).isAtom

namespace IsWord

lemma facts (h : IsWord p e) : (e.IsReal ∨ e.domain = .matrices) ∧ e.function? = none := by
  cases h with
  | zero _ h => exact ⟨.inl h.real, h.function?⟩
  | scalar _ _ h => exact ⟨.inl h.facts.1, h.facts.2⟩
  | matrix _ _ _ hm h =>
    cases h with
    | bare _ heq => exact heq ▸ ⟨.inr hm.isWhole.domain, hm.isWhole.function?⟩
    | apply _ hkind hdomain => exact ⟨.inr hdomain, by simp [Expr.function?, hkind]⟩

lemma isLinear (h : IsWord p e) : e.domain.isLinear = true := by
  rcases h.facts.1 with h | h
  · exact h.isLinear
  · rw [h]
    rfl

lemma isLiteral (h : IsWord p e) (hzero : p.coefficient = 0) : IsLiteral 0 e := by
  cases h with
  | zero _ h => exact h
  | scalar hne _ _ => exact absurd hzero hne
  | matrix hne _ _ _ _ => exact absurd hzero hne

/-- The canonical product of scalars. -/
lemma of_isMonomial {c : ℤ} {v : Exponents} (h : IsMonomial c v e) : IsWord (c, .ofAdd v, 1) e := by
  by_cases hzero : c = 0
  · subst hzero
    cases h with
    | literal _ h => exact .zero rfl h
    | chain hne _ _ _ _ => exact absurd rfl hne
  · exact .scalar hzero rfl h

lemma of_isMatrix {g : FreeGroup ℕ} (h : IsMatrix g e) : IsWord (1, 1, g) e :=
  .matrix (l := []) one_ne_zero (.inl ⟨rfl, rfl⟩) .nil h (.bare rfl rfl)

lemma congr (h : IsWord p e) (hpq : p.Same q) : IsWord q e := by
  obtain rfl | ⟨hp, hq⟩ := hpq
  · exact h
  · exact .zero hq (h.isLiteral hp)

end IsWord

/-! ## Factors -/

/-- Factors whose product has a shape: literals, powers and matrix products. -/
structure HasParts (p : Shape) (l : List Expr) : Prop where
  /-- The scalars. -/
  scalars : HasFactors p.coefficient p.exponents (l.filter fun e => !e.isMatrixFactor)
  /-- The matrices. -/
  matrices : ∃ gs, List.Forall₂ IsMatrix gs (l.filter isMatrixFactor) ∧
    (p.coefficient ≠ 0 → gs.prod = p.word)

/-- Factors whose product has a shape: literals, powers and letters. -/
structure HasLetters (p : Shape) (l : List Expr) : Prop where
  /-- The scalars. -/
  scalars : HasFactors p.coefficient p.exponents (l.filter fun e => e.domain.isScalar)
  /-- The letters. -/
  letters : ∀ e ∈ l.filter fun e => !e.domain.isScalar, IsLetter e
  /-- The word. -/
  word : p.coefficient ≠ 0 → wordOf (l.filter fun e => !e.domain.isScalar) = p.word

lemma HasParts.congr (h : HasParts p l) (hpq : p.Same q) : HasParts q l := by
  obtain rfl | ⟨hp, hq⟩ := hpq
  · exact h
  · obtain ⟨gs, hgs, -⟩ := h.matrices
    exact ⟨⟨h.scalars.factors, h.scalars.coefficients.trans (hp.trans hq.symm),
      fun hne => absurd hq hne⟩, gs, hgs, fun hne => absurd hq hne⟩

lemma HasLetters.congr (h : HasLetters p l) (hpq : p.Same q) : HasLetters q l := by
  obtain rfl | ⟨hp, hq⟩ := hpq
  · exact h
  · exact ⟨⟨h.scalars.factors, h.scalars.coefficients.trans (hp.trans hq.symm),
      fun hne => absurd hq hne⟩, h.letters, fun hne => absurd hq hne⟩

/-- The shape of the scalars and the word of the letters; without a coefficient the letters do not
tell the word. -/
lemma HasLetters.same (h : HasLetters p l) : ((p.coefficient, .ofAdd p.exponents, 1) *
    (1, 1, wordOf (l.filter fun e => !e.domain.isScalar)) : Shape).Same p := by
  by_cases hzero : p.coefficient = 0
  · exact .inr ⟨mul_eq_zero_of_left hzero _, hzero⟩
  · rw [h.word hzero]
    exact .inl p.eq_scaled

/-- Factors have one shape only. -/
lemma HasLetters.unique (h : HasLetters p l) (h' : HasLetters q l) : p.Same q := by
  obtain ⟨hc, hv⟩ := h.scalars.unique h'.scalars
  by_cases hzero : p.coefficient = 0
  · exact .inr ⟨hzero, hc ▸ hzero⟩
  · refine .inl (Prod.ext hc (Prod.ext (Multiplicative.toAdd.injective (hv hzero)) ?_))
    exact (h.word hzero).symm.trans (h'.word (hc ▸ hzero))

lemma HasParts.append (h : HasParts p l) (h' : HasParts q l') : HasParts (p * q) (l ++ l') where
  scalars := by
    rw [List.filter_append]
    exact h.scalars.append h'.scalars
  matrices := by
    obtain ⟨gs, hgs, hprod⟩ := h.matrices
    obtain ⟨gs', hgs', hprod'⟩ := h'.matrices
    refine ⟨gs ++ gs', ?_, fun hne => ?_⟩
    · rw [List.filter_append]
      exact List.rel_append hgs hgs'
    · rw [List.prod_append, hprod (left_ne_zero_of_mul hne), hprod' (right_ne_zero_of_mul hne)]
      rfl

lemma HasLetters.append (h : HasLetters p l) (h' : HasLetters q l') :
    HasLetters (p * q) (l ++ l') where
  scalars := by
    rw [List.filter_append]
    exact h.scalars.append h'.scalars
  letters := by
    rw [List.filter_append]
    exact List.forall_mem_append.2 ⟨h.letters, h'.letters⟩
  word hne := by
    rw [List.filter_append, wordOf_append, h.word (left_ne_zero_of_mul hne),
      h'.word (right_ne_zero_of_mul hne)]
    rfl

lemma HasFactors.filter_not_isMatrixFactor {c : ℤ} {v : Exponents} (h : HasFactors c v l) :
    (l.filter fun e => !e.isMatrixFactor) = l :=
  List.filter_eq_self.2 fun e he => by simp [(h.factors e he).isMatrixFactor]

/-- A list of scalars. -/
lemma HasFactors.hasParts {c : ℤ} {v : Exponents} (h : HasFactors c v l) :
    HasParts (c, .ofAdd v, 1) l where
  scalars := by
    rw [h.filter_not_isMatrixFactor]
    exact h
  matrices := ⟨[], by rw [h.filter_isMatrixFactor]; exact .nil, fun _ => rfl⟩

/-- A single matrix. -/
lemma IsMatrix.hasParts {g : FreeGroup ℕ} (h : IsMatrix g m) : HasParts (1, 1, g) [m] where
  scalars := by
    rw [List.filter_cons_of_neg (by simp [h.isMatrixFactor]), List.filter_nil]
    exact .nil
  matrices := ⟨[g], by simpa [h.isMatrixFactor] using h, fun _ => by simp⟩

lemma HasFactors.isScalar {c : ℤ} {v : Exponents} (h : HasFactors c v l) :
    ∀ e ∈ l, e.domain.isScalar = true := fun e he => (h.factors e he).isAtom.real.isScalar

/-- A list of scalars. -/
lemma HasFactors.hasLetters {c : ℤ} {v : Exponents} (h : HasFactors c v l) :
    HasLetters (c, .ofAdd v, 1) l := by
  have hscalars : (l.filter fun e => e.domain.isScalar) = l := List.filter_eq_self.2 h.isScalar
  have hletters : (l.filter fun e => !e.domain.isScalar) = [] :=
    List.filter_eq_nil_iff.2 fun e he => by simp [h.isScalar e he]
  refine ⟨?_, by simp [hletters], fun _ => by rw [hletters]; rfl⟩
  rw [hscalars]
  exact h

/-- The letters of a reduced word. -/
lemma Spells.hasLetters {g : FreeGroup ℕ} (h : Spells g l) : HasLetters (1, 1, g) l := by
  have hscalars : (l.filter fun e => e.domain.isScalar) = [] :=
    List.filter_eq_nil_iff.2 fun e he => by simp [(h.letters e he).isScalar]
  have hletters : (l.filter fun e => !e.domain.isScalar) = l :=
    List.filter_eq_self.2 fun e he => by simp [(h.letters e he).isScalar]
  refine ⟨?_, by rw [hletters]; exact h.letters, fun _ => by rw [hletters]; exact h.wordOf_eq⟩
  rw [hscalars]
  exact .nil

/-! ### Factors of canonical products -/

lemma IsPower.chainFactorsOnto {i : ℕ} {k : ℤ} (h : IsPower i k e) (rest : List Expr) :
    e.chainFactorsOnto rest = e :: rest := by
  obtain ⟨ordinal, domain, kind⟩ := e
  cases h with
  | base hx =>
    obtain ⟨name, hkind⟩ := hx.symbol
    simp only [Expr.kind] at hkind
    subst hkind
    rfl
  | raised hpower _ _ _ _ _ =>
    obtain ⟨t, a, hkind, ht, -⟩ := power?_eq_some.1 hpower
    simp only [Expr.kind] at hkind
    subst hkind
    rw [Expr.chainFactorsOnto, if_neg (by simp [multiplies, Expr.function?, ht])]

lemma IsFactor.chainFactorsOnto (h : IsFactor e) (rest : List Expr) :
    e.chainFactorsOnto rest = e :: rest := by
  rcases h with h | h
  · obtain ⟨n, hkind, -⟩ := h.kind
    obtain ⟨ordinal, domain, kind⟩ := e
    simp only [Expr.kind] at hkind
    subst hkind
    rfl
  · exact h.chainFactorsOnto rest

lemma IsChain.chainFactorsOnto (h : IsChain l e) (hl : ∀ a ∈ l, IsFactor a) (rest : List Expr) :
    e.chainFactorsOnto rest = l ++ rest := by
  induction h generalizing rest with
  | single a => exact (hl a (by simp)).chainFactorsOnto rest
  | @snoc l e f a h hkind _ ih =>
    have hl' : ∀ b ∈ l, IsFactor b := fun b hb => hl b (by simp [hb])
    have ha : IsFactor a := hl a (by simp)
    obtain ⟨hreal, hfunction, -⟩ := h.facts fun b hb => (hl' b hb).isAtom
    obtain ⟨ordinal, domain, kind⟩ := f
    simp only [Expr.kind] at hkind
    subst hkind
    have hm : multiplies e a = true := by
      simp [multiplies, hfunction, hreal.isLinear, ha.isAtom.real.isLinear]
    rw [Expr.chainFactorsOnto, if_pos hm, ha.chainFactorsOnto, ih hl', List.append_assoc,
      List.singleton_append]

lemma IsMonomial.chainFactorsOnto {c : ℤ} {v : Exponents} (h : IsMonomial c v e)
    (rest : List Expr) : e.chainFactorsOnto rest = e.factors ++ rest := by
  cases h with
  | literal _ h =>
    rw [h.isFactor.chainFactorsOnto, h.isAtom.factors]
    rfl
  | chain _ _ hfront hl h =>
    rw [h.chainFactorsOnto (HasFactors.of_front hfront hl).factors,
      (h.facts (isAtom_of_front hfront hl)).2.2]

/-- The factors of a scaled matrix. -/
lemma IsScaled.factors {g : FreeGroup ℕ} (h : IsScaled l m e) (hl : ∀ a ∈ l, IsFactor a)
    (hm : IsMatrix g m) : e.factors = l ++ [m] := by
  cases h with
  | bare hnil heq => rw [heq, hnil, hm.isWhole.factors, List.nil_append]
  | apply hchain hkind _ =>
    obtain ⟨hreal, hfunction, hh⟩ := hchain.facts fun a ha => (hl a ha).isAtom
    obtain ⟨ordinal, domain, kind⟩ := e
    simp only [Expr.kind] at hkind
    subst hkind
    rw [factors_apply _ _ (multiplies_scaled hreal hfunction hm), hh, hm.isWhole.factors]

/-- The letters of a scaled matrix. -/
lemma IsScaled.chainFactorsOnto {g : FreeGroup ℕ} (h : IsScaled l m e) (hl : ∀ a ∈ l, IsFactor a)
    (hm : IsMatrix g m) (rest : List Expr) :
    e.chainFactorsOnto rest = l ++ m.chainFactorsOnto rest := by
  cases h with
  | bare hnil heq => rw [heq, hnil, List.nil_append]
  | apply hchain hkind _ =>
    obtain ⟨hreal, hfunction, -⟩ := hchain.facts fun a ha => (hl a ha).isAtom
    obtain ⟨ordinal, domain, kind⟩ := e
    simp only [Expr.kind] at hkind
    subst hkind
    rw [Expr.chainFactorsOnto, if_pos (multiplies_scaled hreal hfunction hm),
      hchain.chainFactorsOnto hl]

/-- In a well-formed store there is one product of given scalars and a matrix. -/
lemma IsScaled.eq (hs : s.WellFormed) (he : s.Knows e) (he' : s.Knows e') (h : IsScaled l m e)
    (h' : IsScaled l m e') : e = e' := by
  cases h with
  | bare hnil heq =>
    cases h' with
    | bare _ heq' => rw [heq, heq']
    | apply hchain _ _ => exact absurd hnil hchain.ne_nil
  | @apply a hchain hkind _ =>
    cases h' with
    | bare hnil _ => exact absurd hnil hchain.ne_nil
    | @apply b hchain' hkind' _ =>
      have ha : s.Knows a := hs.children he a (by simp [children, hkind, Kind.children])
      have hb : s.Knows b := hs.children he' b (by simp [children, hkind', Kind.children])
      obtain rfl := hchain.eq hs ha hb hchain'
      exact hs.eq_of_code he he' (by rw [hkind, hkind']) (by rw [hkind']; rfl)

namespace IsWord

/-- The factors of a canonical product. -/
lemma hasParts (h : IsWord p e) : HasParts p e.factors := by
  cases h with
  | zero hzero h =>
    rw [h.isAtom.factors]
    exact h.hasFactors.hasParts.congr (.inr ⟨rfl, hzero⟩)
  | scalar _ hword h => exact Shape.eq_scalar hword ▸ h.hasFactors.hasParts
  | matrix _ hfront hl hm h =>
    have hfactors := HasFactors.of_front hfront hl
    rw [h.factors hfactors.factors hm, ← Shape.eq_scaled p]
    exact hfactors.hasParts.append hm.hasParts

/-- The letters of a canonical product, in front of other factors. -/
lemma exists_hasLetters (h : IsWord p e) :
    ∃ l, HasLetters p l ∧ ∀ rest, e.chainFactorsOnto rest = l ++ rest := by
  cases h with
  | zero hzero h =>
    exact ⟨[e], h.hasFactors.hasLetters.congr (.inr ⟨rfl, hzero⟩), h.isFactor.chainFactorsOnto⟩
  | scalar _ hword h =>
    exact ⟨e.factors, Shape.eq_scalar hword ▸ h.hasFactors.hasLetters, h.chainFactorsOnto⟩
  | @matrix front l m _ hfront hl hm h =>
    have hfactors := HasFactors.of_front hfront hl
    obtain ⟨w, hw, hletters⟩ := hm.exists_spells
    refine ⟨(front ++ l) ++ w, Shape.eq_scaled p ▸ hfactors.hasLetters.append hw.hasLetters,
      fun rest => ?_⟩
    rw [h.chainFactorsOnto hfactors.factors hm, hletters, List.append_assoc (front ++ l)]

/-- A node has one shape only. -/
lemma unique (h : IsWord p e) (h' : IsWord q e) : p.Same q := by
  obtain ⟨l, hl, hfactors⟩ := h.exists_hasLetters
  obtain ⟨l', hl', hfactors'⟩ := h'.exists_hasLetters
  have heq := (hfactors []).symm.trans (hfactors' [])
  rw [List.append_nil, List.append_nil] at heq
  exact hl.unique (heq ▸ hl')

/-- In a well-formed store there is one node for each shape. -/
lemma eq (hs : s.WellFormed) (he : s.Knows e) (he' : s.Knows e') (h : IsWord p e)
    (h' : IsWord p e') : e = e' := by
  cases h with
  | zero hzero h => exact h.eq hs he he' (h'.isLiteral hzero)
  | scalar hc hword h =>
    cases h' with
    | zero hzero _ => exact absurd hzero hc
    | scalar _ _ h' => exact h.eq hs he he' h'
    | matrix _ _ _ hm _ => exact absurd hword hm.ne_one
  | @matrix front l m hc hfront hl hm h =>
    cases h' with
    | zero hzero _ => exact absurd hzero hc
    | scalar _ hword _ => exact absurd hword hm.ne_one
    | @matrix front' l' m' _ hfront' hl' hm' h' =>
      have hknown {front l : List Expr} {m f : Expr} (hfront : IsFront p.coefficient front)
          (hl : IsPowers p.exponents l) (hm : IsMatrix p.word m) (hf : s.Knows f)
          (h : IsScaled (front ++ l) m f) : (s.Knows front ∧ s.Knows l) ∧ s.Knows m := by
        have hfactors := knows_factors hs hf
        rw [h.factors (HasFactors.of_front hfront hl).factors hm, Store.knows_append,
          Store.knows_append] at hfactors
        exact ⟨hfactors.1, by simpa using hfactors.2⟩
      obtain ⟨⟨hknown₁, hknown₂⟩, hknown₃⟩ := hknown hfront hl hm he h
      obtain ⟨⟨hknown₁', hknown₂'⟩, hknown₃'⟩ := hknown hfront' hl' hm' he' h'
      obtain rfl := hfront.eq hs hknown₁ hknown₁' hfront'
      obtain rfl := hl.eq hs hknown₂ hknown₂' hl'
      obtain rfl := hm.eq hs hknown₃ hknown₃' hm'
      exact h.eq hs he he' h'

end IsWord

end Facts

/-! ## Making canonical products -/

section Making

variable {p q : Shape} {a b m : Expr} {l : List Expr} {c : ℤ} {v : Exponents} {g : FreeGroup ℕ}

lemma applyDomain?_matrix (ha : a.IsReal ∨ a.domain = .matrices) (hb : b.domain = .matrices) :
    applyDomain? a b = some .matrices := by
  rcases ha with (ha | ha) | ha <;>
    simp [applyDomain?, Domain.leftApply?, Domain.firstAnswer, Domain.lineage, ha, hb,
      Domain.arithmetic?, Domain.isIntegral, Domain.isScalar, Domain.isLinear, Domain.within,
      BEq.beq, Domain.same]

lemma exists_applyDomain? (ha : a.IsReal ∨ a.domain = .matrices)
    (hb : b.IsReal ∨ b.domain = .matrices) : ∃ domain, applyDomain? a b = some domain := by
  rcases hb with hb | hb
  · rcases ha with ha | ha
    · obtain ⟨domain, hdomain, -⟩ := applyDomain?_real ha hb
      exact ⟨domain, hdomain⟩
    · rcases hb with hb | hb <;>
        simp [applyDomain?, Domain.leftApply?, Domain.firstAnswer, Domain.lineage, ha, hb,
          Domain.arithmetic?, Domain.isLinear, Domain.within, BEq.beq, Domain.same]
  · exact ⟨.matrices, applyDomain?_matrix ha hb⟩

/-- The chain of some scalars and a matrix. -/
lemma exact_leftChain_matrix (hs : Good s) (n : Number) (hl : ∀ a ∈ l, IsAtom a)
    (hm : IsMatrix g m) (hknown : s.Knows l) (hknown' : s.Knows m) :
    Exact d s (leftChain n (l ++ [m])) fun e _ => IsScaled l m e := by
  cases l with
  | nil => exact .pure (.bare rfl rfl)
  | cons a l =>
    rw [Store.knows_cons] at hknown
    rw [List.forall_mem_cons] at hl
    rw [List.cons_append, leftChain, List.foldlM_append]
    have hchain : Achieves d s (l.foldlM rawApply a) (IsChain (a :: l)) := by
      refine ⟨?_, ?_⟩
      · exact yields_leftChain hs (Store.knows_cons.2 hknown) n d
      · exact exact_foldlM_rawApply hs hknown.1 hknown.2 (by simpa using hl.1) hl.2 (.single a)
    refine hchain.bind fun h t ht hle hknownh _ hh => ?_
    have hreal := (hh.facts (List.forall_mem_cons.2 hl)).1
    rw [List.foldlM_cons]
    refine (achieves_rawApply ht hknownh (hknown'.mono hle) (P := (· = .matrices))
      ⟨_, applyDomain?_matrix (.inl hreal) hm.isWhole.domain, rfl⟩).bind
      fun e u _ _ _ _ he => .pure (.apply hh he.1 he.2)

/-- The literals among some factors are scalars. -/
lemma coefficient_filter (l : List Expr) :
    coefficient (l.filter fun e => !e.isMatrixFactor) = coefficient l := by
  have hliterals : literals (l.filter fun e => !e.isMatrixFactor) = literals l := by
    induction l with
    | nil => rfl
    | cons e l ih =>
      unfold literals at ih ⊢
      cases hmatrix : e.isMatrixFactor with
      | false => rw [List.filter_cons_of_pos (by simp [hmatrix]), List.filterMap_cons,
          List.filterMap_cons, ih]
      | true =>
        have hnone : e.number? = none := by simp_all [isMatrixFactor]
        rw [List.filter_cons_of_neg (by simp [hmatrix]), List.filterMap_cons, hnone, ih]
  rw [coefficient, coefficient, hliterals]

lemma filter_isScalarFactor (l : List Expr) :
    (l.filter fun e => !e.isMatrixFactor).filter isScalarFactor = l.filter isScalarFactor := by
  rw [List.filter_filter]
  refine List.filter_congr fun e _ => ?_
  cases hscalar : e.isScalarFactor with
  | false => rfl
  | true => simp_all [isScalarFactor, isMatrixFactor]

lemma HasParts.achieves_settle (h : HasParts p l) (hs : Good s) :
    Achieves d s (Build.settle (Expr.coefficient l)) fun n => n.IsInt p.coefficient := by
  rw [← coefficient_filter]
  exact h.scalars.achieves_settle hs

/-- Scalars and at most one matrix, whose product has a shape. -/
structure HasMerged (p : Shape) (l : List Expr) : Prop where
  /-- The scalars. -/
  scalars : HasFactors p.coefficient p.exponents (l.filter fun e => !e.isMatrixFactor)
  /-- The matrix. -/
  matrix : (l.filter isMatrixFactor = [] ∧ p.word = 1) ∨
    ∃ m, l.filter isMatrixFactor = [m] ∧ IsMatrix p.word m

variable {sum : List Expr → Build Expr} [∀ l, Growing (sum l)]

/-- The canonical product of literals, powers and at most one matrix. -/
lemma achieves_assembleWord (hsum : YieldsAll sum) (hadds : AddsLiterals d sum) (hs : Good s)
    (h : HasMerged p l) (hknown : s.Knows l) : Achieves d s (assemble sum l) (IsWord p) where
  yields := yields_assemble hsum s l hs hknown d
  exact := by
    rcases h.matrix with ⟨hnil, hword⟩ | ⟨m, hmatrix, hm⟩
    · -- Without a matrix the product is a monomial.
      have hall : (l.filter fun e => !e.isMatrixFactor) = l :=
        List.filter_eq_self.2 fun e he => by
          simpa using List.filter_eq_nil_iff.1 hnil e he
      have hscalars := h.scalars
      rw [hall] at hscalars
      refine (achieves_assemble hsum hadds hs hscalars hknown).exact.imp fun e _ _ _ he => ?_
      exact Shape.eq_scalar hword ▸ IsWord.of_isMonomial he
    · have hknownm : s.Knows m := hknown m (List.mem_of_mem_filter (p := isMatrixFactor)
        (by rw [hmatrix]; simp))
      unfold assemble
      have hsettle : Achieves d s (Build.settle (Expr.coefficient l)) fun n =>
          n.IsInt p.coefficient := by
        rw [← coefficient_filter]
        exact h.scalars.achieves_settle hs
      refine hsettle.bind fun n t ht hle _ _ hn => ?_
      split
      · rename_i hzero
        rw [hn.isZero] at hzero
        exact (achieves_number ht hn).exact.imp fun e _ _ _ he => .zero hzero (hzero ▸ he)
      rename_i hzero
      rw [hn.isZero] at hzero
      have hpowers := h.scalars.arePowers
      rw [filter_isScalarFactor] at hpowers
      have hexponents := h.scalars.exponents hzero
      rw [exponentSum, filter_isScalarFactor] at hexponents
      refine (achieves_mergePowers hsum hadds ht hpowers
        ((hknown.of_subset List.filter_sublist.subset).mono hle)).bind
        fun powers u hu hle' hknownp _ hpowers' => ?_
      rw [hexponents] at hpowers'
      refine (achieves_coefficientFactor hu hn).bind fun front w hw hle'' hfront _ hfront' => ?_
      rw [hmatrix]
      refine (exact_leftChain_matrix hw n (isAtom_of_front hfront' hpowers') hm
        (Store.knows_append.2 ⟨hfront, hknownp.mono hle''⟩)
        (hknownm.mono (hle.trans (hle'.trans hle'')))).imp fun e _ _ _ he => ?_
      exact .matrix hzero hfront' hpowers' hm he

/-! ### Matrix products -/

/-- The letters of a matrix product, reduced and multiplied. -/
def reduceLetters (l : List Expr) : Build Expr := do
  let reversed ← l.foldlM pushFactor []
  ofChain reversed.reverse

instance (l : List Expr) : Growing (reduceLetters l) := by
  unfold reduceLetters
  infer_instance

lemma achieves_reduceLetters (hs : Good s) (hl : ∀ e ∈ l, IsLetter e) (hknown : s.Knows l) :
    Achieves d s (reduceLetters l)
      fun e => (wordOf l = 1 ∧ IsLiteral 1 e) ∨ IsMatrix (wordOf l) e := by
  obtain ⟨hknown, hspells⟩ := spells_foldl_pushLetter (good_store.1 hs) (r := []) Spells.nil
    Store.knows_nil hl hknown
  rw [one_mul] at hspells
  unfold reduceLetters
  rw [foldlM_pushFactor_eq (by simp) hl, pure_bind]
  exact achieves_ofChain hs hspells (by simpa using hknown)

lemma chainWith_eq (product : List Expr → Build Expr) (factors : List Expr) :
    chainWith product factors = (do
      let all := allChainFactorsOnto factors []
      let matrix ← reduceLetters (all.filter fun e => !e.domain.isScalar)
      if (all.filter fun e => e.domain.isScalar).isEmpty then pure matrix
        else product (all.filter (fun e => e.domain.isScalar) ++ [matrix])) := by
  simp only [chainWith, reduceLetters, bind_assoc]

/-- The letters of a list of matrices. -/
lemma exists_letters {gs : List (FreeGroup ℕ)} {ms : List Expr} (h : List.Forall₂ IsMatrix gs ms) :
    (∀ e ∈ allChainFactorsOnto ms [], IsLetter e) ∧ wordOf (allChainFactorsOnto ms []) = gs.prod := by
  induction h with
  | nil => exact ⟨by simp [allChainFactorsOnto], rfl⟩
  | cons hm _ ih =>
    obtain ⟨w, hw, hletters⟩ := hm.exists_spells
    rw [allChainFactorsOnto, hletters, List.forall_mem_append, wordOf_append, hw.wordOf_eq, ih.2,
      List.prod_cons]
    exact ⟨⟨hw.letters, ih.1⟩, rfl⟩

/-- The matrix product of matrices alone. -/
lemma achieves_chainWith_matrices {product : List Expr → Build Expr} [∀ l, Growing (product l)]
    (hs : Good s) {gs : List (FreeGroup ℕ)} {ms : List Expr} (h : List.Forall₂ IsMatrix gs ms)
    (hknown : s.Knows ms) : Achieves d s (chainWith product ms)
      fun e => (gs.prod = 1 ∧ IsLiteral 1 e) ∨ IsMatrix gs.prod e := by
  obtain ⟨hletters, hword⟩ := exists_letters h
  have hscalars : ((allChainFactorsOnto ms []).filter fun e => e.domain.isScalar) = [] :=
    List.filter_eq_nil_iff.2 fun e he => by simp [(hletters e he).isScalar]
  have hall : ((allChainFactorsOnto ms []).filter fun e => !e.domain.isScalar) =
      allChainFactorsOnto ms [] :=
    List.filter_eq_self.2 fun e he => by simp [(hletters e he).isScalar]
  rw [chainWith_eq]
  simp only [hscalars, hall, List.isEmpty_nil, if_true, bind_pure]
  rw [← hword]
  exact achieves_reduceLetters hs hletters (knows_allChainFactorsOnto (good_store.1 hs) hknown)

lemma HasFactors.hasMerged (h : HasFactors p.coefficient p.exponents l) (hword : p.word = 1) :
    HasMerged p l :=
  ⟨by rwa [h.filter_not_isMatrixFactor], .inl ⟨h.filter_isMatrixFactor, hword⟩⟩

lemma HasFactors.hasMerged_append (h : HasFactors p.coefficient p.exponents l)
    (hm : IsMatrix p.word m) : HasMerged p (l ++ [m]) where
  scalars := by
    rw [List.filter_append, h.filter_not_isMatrixFactor,
      List.filter_cons_of_neg (by simp [hm.isMatrixFactor]), List.filter_nil, List.append_nil]
    exact h
  matrix := by
    refine .inr ⟨m, ?_, hm⟩
    rw [List.filter_append, h.filter_isMatrixFactor, List.filter_cons_of_pos hm.isMatrixFactor,
      List.filter_nil, List.nil_append]

/-- Several matrices are multiplied into one. -/
lemma achieves_mergeMatrices {product : List Expr → Build Expr} [∀ l, Growing (product l)]
    (hproduct : YieldsAll product) (hs : Good s) (h : HasParts p l) (hne : p.coefficient ≠ 0)
    (hknown : s.Knows l) : Achieves d s (mergeMatrices product l) (HasMerged p) where
  yields := yields_mergeMatrices hproduct hs hknown d
  exact := by
    obtain ⟨gs, hgs, hprod⟩ := h.matrices
    have hword := hprod hne
    unfold mergeMatrices
    dsimp only
    split
    · refine (achieves_chainWith_matrices hs hgs
        (hknown.of_subset List.filter_sublist.subset)).bind fun e t _ _ _ _ he => .pure ?_
      rw [hword] at he
      rcases he with ⟨hone, he⟩ | he
      · have hfactors := h.scalars.append he.hasFactors
        rw [mul_one, add_zero] at hfactors
        rw [he.isAtom.factors]
        exact hfactors.hasMerged hone
      · rw [he.isWhole.factors]
        exact h.scalars.hasMerged_append he
    · rename_i hlength
      refine .pure ⟨h.scalars, ?_⟩
      generalize l.filter isMatrixFactor = ms at hgs hlength
      cases hgs with
      | nil => exact .inl ⟨rfl, hword.symm⟩
      | @cons g m gs ms hm hrest =>
        cases hrest with
        | nil =>
          rw [List.prod_singleton] at hword
          exact .inr ⟨m, rfl, hword ▸ hm⟩
        | cons _ _ => simp at hlength

/-! ### Products -/

/-- The factors of some canonical products. -/
lemma hasParts_flatMap {ps : List Shape} (h : List.Forall₂ IsWord ps l) :
    HasParts ps.prod (l.flatMap factors) := by
  induction h with
  | nil => exact HasFactors.nil.hasParts
  | cons he _ ih =>
    rw [List.prod_cons, List.flatMap_cons]
    exact he.hasParts.append ih

/-- A product multiplies shapes. -/
lemma achieves_productAuxWord (hs : Good s) {ps : List Shape} (h : List.Forall₂ IsWord ps l)
    (hknown : s.Knows l) (depth : ℕ) :
    Achieves d s (productAux (depth + 1) l) (IsWord ps.prod) where
  yields := yields_productAux (depth + 1) s l hs hknown d
  exact := by
    have hparts := hasParts_flatMap h
    have hknown' : s.Knows (l.flatMap factors) := by
      intro e he
      obtain ⟨f, hf, hmem⟩ := List.mem_flatMap.1 he
      exact knows_factors (good_store.1 hs) (hknown f hf) e hmem
    unfold productAux
    refine (hparts.achieves_settle hs).bind fun n t ht hle _ _ hn => ?_
    split
    · rename_i hzero
      rw [hn.isZero] at hzero
      exact (achieves_number ht hn).exact.imp fun e _ _ _ he => .zero hzero (hzero ▸ he)
    · rename_i hzero
      rw [hn.isZero] at hzero
      have hpair : YieldsBoth fun a b => applyDomain a b >>= fun _ => productAux depth [a, b] :=
        fun s a b hs ha hb => (yields_applyDomain hs a b).bind fun _ t ht hle _ =>
          yields_productAux depth t _ ht (by grind)
      refine (achieves_mergeMatrices (yields_foldProduct hpair) ht hparts hzero
        (hknown'.mono hle)).bind fun m u hu _ hm _ hmerged => ?_
      exact (achieves_assembleWord (yields_sumWith (yields_productAux depth))
        (fun s l hs h hne => exact_sumWith_literals hs h hne) hu hmerged hm).exact

/-- Applying a canonical product to another multiplies their shapes. -/
lemma achieves_applyWord (hs : Good s) (hd : 0 < d) (ha : IsWord p a) (hb : IsWord q b)
    (hknown : s.Knows a) (hknown' : s.Knows b) : Achieves d s (apply a b) (IsWord (p * q)) where
  yields := yields_apply s a b hs hknown hknown' d
  exact := by
    obtain ⟨depth, rfl⟩ : ∃ n, d = n + 1 := ⟨d - 1, by omega⟩
    have hpair : List.Forall₂ IsWord [p, q] [a, b] := .cons ha (.cons hb .nil)
    obtain ⟨domain, hdomain⟩ := exists_applyDomain? ha.facts.1 hb.facts.1
    have hproduct := (achieves_productAuxWord (d := depth + 1) hs hpair (by simp [hknown, hknown'])
      depth).exact
    have hrun : apply a b (depth + 1) s = productAux (depth + 1) [a, b] (depth + 1) s := by
      simp [apply, Run.bind_apply, applyAux, ha.facts.2, applyDomain, hdomain, ha.isLinear,
        hb.isLinear, canonicalProduct]
    rw [Exact, hrun]
    simpa [Exact] using hproduct

/-- Factors multiplied one after the other. -/
lemma achieves_foldlM_applyWord (hs : Good s) (hd : 0 < d) {ps : List Shape}
    (h : List.Forall₂ IsWord ps l) (hl : s.Knows l) (ha : IsWord p a) (hknown : s.Knows a) :
    Achieves d s (l.foldlM apply a) (IsWord (p * ps.prod)) where
  yields := Yields.foldlM hs hknown l (fun b e he t ht hle hb =>
    yields_apply t b e ht hb ((hl e he).mono hle)) d
  exact := by
    induction h generalizing s p a with
    | nil => simpa using Exact.pure (s := s) ha
    | @cons q e ps l he _ ih =>
      rw [Store.knows_cons] at hl
      rw [List.foldlM_cons, List.prod_cons, ← mul_assoc]
      refine (achieves_applyWord hs hd ha he hknown hl.1).bind fun b t ht hle hb _ hword => ?_
      exact ih ht (hl.2.mono hle) hword hb

/-- A product of canonical products in order. -/
lemma achieves_productWord (hs : Good s) (hd : 0 < d) {ps : List Shape}
    (h : List.Forall₂ IsWord ps l) (hl : s.Knows l) :
    Achieves d s (product l) (IsWord ps.prod) := by
  unfold product foldProduct
  cases h with
  | nil =>
    exact (achieves_one hs).imp fun e he => IsWord.of_isMonomial (.literal (.inr rfl) he)
  | cons he h =>
    rw [Store.knows_cons] at hl
    exact achieves_foldlM_applyWord hs hd h hl.2 he hl.1

/-- The letters of some canonical products. -/
lemma hasLetters_allChainFactorsOnto {ps : List Shape} (h : List.Forall₂ IsWord ps l) :
    HasLetters ps.prod (allChainFactorsOnto l []) := by
  induction h with
  | nil => exact HasFactors.nil.hasLetters
  | cons he _ ih =>
    obtain ⟨w, hw, hletters⟩ := he.exists_hasLetters
    rw [List.prod_cons, allChainFactorsOnto, hletters]
    exact hw.append ih

/-- Scalars are canonical products one by one. -/
lemma HasFactors.exists_isWord (h : HasFactors c v l) : ∃ ps : List Shape,
    List.Forall₂ IsWord ps l ∧ ps.prod.Same (c, .ofAdd v, 1) := by
  have hwords : ∃ ps : List Shape, List.Forall₂ IsWord ps l := by
    have hfactors := h.factors
    clear h
    induction l with
    | nil => exact ⟨[], .nil⟩
    | cons e l ih =>
      rw [List.forall_mem_cons] at hfactors
      obtain ⟨ps, hps⟩ := ih hfactors.2
      rcases hfactors.1 with he | he
      · exact ⟨_ :: ps, .cons (.of_isMonomial (.literal (.inr rfl) he)) hps⟩
      · exact ⟨_ :: ps, .cons (.of_isMonomial he.isMonomial) hps⟩
  obtain ⟨ps, hps⟩ := hwords
  have hall : allChainFactorsOnto l [] = l := by
    have hfactors := h.factors
    clear h hps
    induction l with
    | nil => rfl
    | cons e l ih =>
      rw [List.forall_mem_cons] at hfactors
      rw [allChainFactorsOnto, ih hfactors.2, hfactors.1.chainFactorsOnto]
  have hletters := hasLetters_allChainFactorsOnto hps
  rw [hall] at hletters
  exact ⟨ps, hps, hletters.unique h.hasLetters⟩

/-- A matrix product of canonical products in order. -/
lemma achieves_chainWord (hs : Good s) (hd : 0 < d) {ps : List Shape}
    (h : List.Forall₂ IsWord ps l) (hl : s.Knows l) : Achieves d s (chain l) (IsWord ps.prod) where
  yields := yields_chain s l hs hl d
  exact := by
    have hletters := hasLetters_allChainFactorsOnto h
    have hall := knows_allChainFactorsOnto (good_store.1 hs) hl
    unfold chain
    rw [chainWith_eq]
    dsimp only
    generalize allChainFactorsOnto l [] = all at hletters hall
    have hmatrices : s.Knows (all.filter fun e => !e.domain.isScalar) :=
      hall.of_subset List.filter_sublist.subset
    have hscalars : s.Knows (all.filter fun e => e.domain.isScalar) :=
      hall.of_subset List.filter_sublist.subset
    obtain ⟨qs, hqs, hsame⟩ := hletters.scalars.exists_isWord
    refine (achieves_reduceLetters hs hletters.letters hmatrices).bind
      fun m t ht hle hm _ hmatrix => ?_
    have hword : IsWord (1, 1, wordOf (all.filter fun e => !e.domain.isScalar)) m := by
      rcases hmatrix with ⟨hone, hm⟩ | hm
      · rw [hone]
        exact .of_isMonomial (.literal (.inr rfl) hm)
      · exact .of_isMatrix hm
    have hshape := (hsame.mul_right _).trans hletters.same
    split
    · rename_i hempty
      rw [List.isEmpty_iff.1 hempty] at hqs
      cases hqs
      rw [List.prod_nil, one_mul] at hshape
      exact .pure (hword.congr hshape)
    · refine (achieves_productWord ht hd (List.rel_append hqs (.cons hword .nil))
        (Store.knows_append.2 ⟨hscalars.mono hle, by simpa using hm⟩)).exact.imp
        fun e _ _ _ he => he.congr ?_
      rwa [List.prod_append, List.prod_singleton]

end Making

end Expr

end TermGraph
