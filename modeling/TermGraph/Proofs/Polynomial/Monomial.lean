import TermGraph.Proofs.Polynomial.Power
import TermGraph.Proofs.Store.Transformation

/-!
# Canonical monomials

The form that products of integer literals and powers of variables take.

* `IsChain l e`: `e` is the chain of applications of the factors `l` that leans to the left.
* `IsMonomial c v e`: `e` is the canonical product of the coefficient `c` and the powers with
  exponents `v`.
* `achieves_productAux`: in a product, coefficients are multiplied and exponents are added.
* `IsMonomial.eq` and `IsMonomial.unique`: in a well-formed store there is one node for each
  monomial, and a node is one monomial only.
-/

namespace TermGraph

open Store (Knows)

namespace Expr

variable {s : Store} {d : ℕ}

/-! ## Chains of factors -/

/-- The chain of applications of the factors `l` that leans to the left. -/
inductive IsChain : List Expr → Expr → Prop
  | single (a : Expr) : IsChain [a] a
  | snoc {l : List Expr} {e f a : Expr} : IsChain l e → f.kind = .apply e a → f.IsReal →
    IsChain (l ++ [a]) f

lemma IsLiteral.isAtom {k : ℤ} {e : Expr} (h : IsLiteral k e) : IsAtom e := by
  refine ⟨h.real, h.function?, ?_⟩
  obtain ⟨n, hkind, -⟩ := h.kind
  obtain ⟨ordinal, domain, kind⟩ := e
  simp only [Expr.kind] at hkind
  subst hkind
  rfl

namespace IsChain

variable {l : List Expr} {e : Expr}

lemma ne_nil (h : IsChain l e) : l ≠ [] := by
  cases h <;> simp

/-- A chain of atoms is a real scalar with these atoms as its factors. -/
lemma facts (h : IsChain l e) (hl : ∀ a ∈ l, IsAtom a) :
    e.IsReal ∧ e.function? = none ∧ e.factors = l := by
  induction h with
  | single a =>
    have ha := hl a (by simp)
    exact ⟨ha.real, ha.function?, ha.factors⟩
  | @snoc l e f a _ hkind hreal ih =>
    obtain ⟨he, hfunction, hfactors⟩ := ih fun b hb => hl b (by simp [hb])
    have ha := hl a (by simp)
    obtain ⟨ordinal, domain, kind⟩ := f
    simp only [Expr.kind] at hkind
    subst hkind
    refine ⟨hreal, rfl, ?_⟩
    have hmultiplies : multiplies e a = true := by
      simp [multiplies, hfunction, he.isLinear, ha.real.isLinear]
    rw [factors_apply _ _ hmultiplies, hfactors, ha.factors]

/-- In a well-formed store there is one chain of given factors. -/
lemma eq (hs : s.WellFormed) {e' : Expr} (he : s.Knows e) (he' : s.Knows e') (h : IsChain l e)
    (h' : IsChain l e') : e = e' := by
  induction h generalizing e' with
  | single a =>
    generalize hl : [a] = l at h'
    cases h' with
    | single _ => exact List.singleton_inj.1 hl
    | snoc h' _ _ => exact absurd (List.append_eq_singleton_iff.1 hl.symm) (by simp [h'.ne_nil])
  | @snoc l e f a h hkind _ ih =>
    generalize hm : l ++ [a] = m at h'
    cases h' with
    | single b => exact absurd (List.append_eq_singleton_iff.1 hm) (by simp [h.ne_nil])
    | @snoc m e₂ _ b h' hkind' _ =>
      obtain ⟨rfl, hab⟩ := List.append_inj' hm rfl
      obtain rfl := List.singleton_inj.1 hab
      have heq := ih (hs.knows_of_apply he hkind).1 (hs.knows_of_apply he' hkind').1 h'
      exact hs.eq_of_code he he' (by rw [hkind, hkind', heq]) (by rw [hkind']; rfl)

end IsChain

/-- Applying factors one after the other makes their chain. -/
lemma exact_foldlM_rawApply (hs : Good s) {l rest : List Expr} {e : Expr} (he : s.Knows e)
    (hrest : s.Knows rest) (hl : ∀ a ∈ l, IsAtom a) (hrest' : ∀ a ∈ rest, IsAtom a)
    (h : IsChain l e) : Exact d s (rest.foldlM rawApply e) fun f _ => IsChain (l ++ rest) f := by
  induction rest generalizing s l e with
  | nil =>
    rw [List.foldlM_nil, List.append_nil]
    exact .pure h
  | cons a rest ih =>
    rw [List.foldlM_cons, List.append_cons]
    rw [Store.knows_cons] at hrest
    simp only [List.mem_cons, forall_eq_or_imp] at hrest'
    refine (achieves_rawApply hs he hrest.1
      (applyDomain?_real (h.facts hl).1 hrest'.1.real)).bind fun f t ht hle hf _ hkind => ?_
    refine ih ht hf (hrest.2.mono hle) (fun b hb => ?_) hrest'.2 (.snoc h hkind.1 hkind.2)
    rcases List.mem_append.1 hb with hb | hb
    · exact hl b hb
    · rw [List.mem_singleton.1 hb]
      exact hrest'.1

/-- The chain of some factors, of which there is at least one. -/
lemma achieves_leftChain (hs : Good s) {l : List Expr} (hl : s.Knows l) (hatoms : ∀ a ∈ l, IsAtom a)
    (hne : l ≠ []) (c : Number) : Achieves d s (leftChain c l) (IsChain l) where
  yields := yields_leftChain hs hl c d
  exact := by
    cases l with
    | nil => exact absurd rfl hne
    | cons a rest =>
      rw [Store.knows_cons] at hl
      simp only [List.mem_cons, forall_eq_or_imp] at hatoms
      exact exact_foldlM_rawApply hs hl.1 hl.2 (by simpa using hatoms.1) hatoms.2 (.single a)

/-! ## Monomials -/

/-- The coefficient in front of the powers, which is left out for one. -/
def IsFront (c : ℤ) (front : List Expr) : Prop :=
  (c = 1 ∧ front = []) ∨ (c ≠ 1 ∧ ∃ k, front = [k] ∧ IsLiteral c k)

/-- The canonical product of the coefficient `c` and the powers with exponents `v`. -/
inductive IsMonomial (c : ℤ) (v : Exponents) (e : Expr) : Prop
  | literal : c = 0 ∨ v = 0 → IsLiteral c e → IsMonomial c v e
  | chain {front l : List Expr} : c ≠ 0 → v ≠ 0 → IsFront c front → IsPowers v l →
    IsChain (front ++ l) e → IsMonomial c v e

/-- A factor of a canonical monomial. -/
def IsFactor (e : Expr) : Prop :=
  IsLiteral e.intValue e ∨ IsPower e.toPower.1 e.toPower.2 e

/-- The product of the literals among some factors. -/
def literalProduct (l : List Expr) : ℤ :=
  ((l.filter fun e => e.number?.isSome).map intValue).prod

/-- The exponents of the powers among some factors. -/
noncomputable def exponentSum (l : List Expr) : Exponents :=
  collect ((l.filter isScalarFactor).map toPower)

/-- Factors whose product is the monomial with coefficient `c` and exponents `v`; a monomial with
coefficient zero has any exponents. -/
structure HasFactors (c : ℤ) (v : Exponents) (l : List Expr) : Prop where
  /-- Each one is a literal or a power of a variable. -/
  factors : ∀ e ∈ l, IsFactor e
  /-- The coefficients are multiplied. -/
  coefficients : literalProduct l = c
  /-- The exponents are added. -/
  exponents : c ≠ 0 → exponentSum l = v

/-- In a well-formed store there is one coefficient in front. -/
lemma IsFront.eq (hs : s.WellFormed) {c : ℤ} {front front' : List Expr}
    (hfront : s.Knows front) (hfront' : s.Knows front') (h : IsFront c front)
    (h' : IsFront c front') : front = front' := by
  rcases h with ⟨rfl, rfl⟩ | ⟨hc, k, rfl, hk⟩
  · rcases h' with ⟨-, rfl⟩ | ⟨hc, -⟩
    · rfl
    · exact absurd rfl hc
  · rcases h' with ⟨rfl, -⟩ | ⟨-, k', rfl, hk'⟩
    · exact absurd rfl hc
    · rw [hk.eq hs (hfront k (by simp)) (hfront' k' (by simp)) hk']

/-- The literals among some factors multiply to their product, if they keep to the integers. -/
lemma isInt_prod_literals {l : List Expr} {ks : List ℤ}
    (h : List.Forall₂ Number.IsInt (literals l) ks) (hkept : (coefficient l).kept = true) :
    (coefficient l).value.IsInt ks.prod := by
  unfold coefficient at hkept ⊢
  cases ks with
  | nil =>
    rw [List.forall₂_nil_right_iff.1 h]
    exact Number.isInt_int 1
  | cons k ks =>
    obtain ⟨t, hcombine, hvalue⟩ := Number.combine_isInt Number.computes_mul h
    rw [hcombine] at hkept ⊢
    rw [← Number.foldl_mul_eq_prod]
    exact hvalue hkept

/-! ### Factors -/

section Factors

variable {c c' k : ℤ} {v v' : Exponents} {l m : List Expr} {e : Expr}

lemma IsFactor.isAtom (h : IsFactor e) : IsAtom e := by
  rcases h with h | h
  · exact h.isAtom
  · exact h.isAtom

lemma IsFactor.isMatrixFactor (h : IsFactor e) : e.isMatrixFactor = false := by
  simp [Expr.isMatrixFactor, h.isAtom.real.isScalar]

lemma IsLiteral.isFactor (h : IsLiteral k e) : IsFactor e := .inl h.self

lemma IsLiteral.isScalarFactor (h : IsLiteral k e) : e.isScalarFactor = false := by
  obtain ⟨n, hn, -⟩ := h.number
  simp [Expr.isScalarFactor, hn]

lemma HasFactors.nil : HasFactors 1 0 [] := ⟨by simp, rfl, fun _ => rfl⟩

lemma HasFactors.append (h : HasFactors c v l) (h' : HasFactors c' v' m) :
    HasFactors (c * c') (v + v') (l ++ m) where
  factors e he := by
    rcases List.mem_append.1 he with he | he
    · exact h.factors e he
    · exact h'.factors e he
  coefficients := by
    rw [literalProduct, List.filter_append, List.map_append, List.prod_append]
    exact congrArg₂ _ h.coefficients h'.coefficients
  exponents hne := by
    rw [exponentSum, List.filter_append, List.map_append, collect_append]
    exact congrArg₂ _ (h.exponents (left_ne_zero_of_mul hne))
      (h'.exponents (right_ne_zero_of_mul hne))

/-- Factors are those of one monomial only. -/
lemma HasFactors.unique (h : HasFactors c v l) (h' : HasFactors c' v' l) :
    c = c' ∧ (c ≠ 0 → v = v') := by
  have hc : c = c' := h.coefficients.symm.trans h'.coefficients
  exact ⟨hc, fun hne => (h.exponents hne).symm.trans (h'.exponents (hc ▸ hne))⟩

lemma IsLiteral.hasFactors (h : IsLiteral k e) : HasFactors k 0 [e] where
  factors := by simpa using h.isFactor
  coefficients := by
    obtain ⟨n, hn, -⟩ := h.number
    simp [literalProduct, hn, h.intValue]
  exponents _ := by simp [exponentSum, h.isScalarFactor]

lemma ArePowers.filter_isScalarFactor (h : ArePowers l) : l.filter isScalarFactor = l :=
  List.filter_eq_self.2 fun e he => (h e he).isScalarFactor

lemma IsPowers.hasFactors (h : IsPowers v l) : HasFactors 1 v l where
  factors e he := .inr (h.powers e he)
  coefficients := by
    have hliterals : l.filter (fun e => e.number?.isSome) = [] :=
      List.filter_eq_nil_iff.2 fun e he => by simp [(h.powers e he).number?]
    rw [literalProduct, hliterals]
    rfl
  exponents _ := by rw [exponentSum, h.powers.filter_isScalarFactor, h.exponents]

/-- The factors of a chain whose factors are atoms. -/
lemma HasFactors.of_isChain (h : HasFactors c v l) (he : IsChain l e) : HasFactors c v e.factors := by
  rwa [(he.facts fun a ha => (h.factors a ha).isAtom).2.2]

lemma HasFactors.of_front {front : List Expr} (hfront : IsFront c front) (hl : IsPowers v l) :
    HasFactors c v (front ++ l) := by
  rcases hfront with ⟨rfl, rfl⟩ | ⟨-, k, rfl, hk⟩
  · exact hl.hasFactors
  · simpa using hk.hasFactors.append hl.hasFactors

/-- The powers among some factors. -/
lemma HasFactors.arePowers (h : HasFactors c v l) : ArePowers (l.filter isScalarFactor) := by
  intro e he
  obtain ⟨hmem, hscalar⟩ := List.mem_filter.1 he
  refine (h.factors e hmem).resolve_left fun hliteral => ?_
  rw [hliteral.isScalarFactor] at hscalar
  cases hscalar

lemma HasFactors.filter_isMatrixFactor (h : HasFactors c v l) : l.filter isMatrixFactor = [] :=
  List.filter_eq_nil_iff.2 fun e he => by simp [(h.factors e he).isMatrixFactor]

lemma forall₂_literals (h : ∀ e ∈ l, IsFactor e) : List.Forall₂ Number.IsInt (literals l)
    ((l.filter fun e => e.number?.isSome).map intValue) := by
  induction l with
  | nil => exact .nil
  | cons e l ih =>
    have hl := ih fun f hf => h f (by simp [hf])
    rw [literals, List.filterMap_cons]
    rcases h e (by simp) with he | he
    · obtain ⟨n, hn, hk⟩ := he.number
      rw [hn, List.filter_cons_of_pos (by simp [hn]), List.map_cons]
      exact .cons hk hl
    · rw [he.number?, List.filter_cons_of_neg (by simp [he.number?])]
      exact hl

/-- The literals among some factors multiply to the coefficient. -/
lemma HasFactors.isInt_coefficient (h : HasFactors c v l) (hkept : (coefficient l).kept = true) :
    (coefficient l).value.IsInt c := by
  rw [← h.coefficients]
  exact isInt_prod_literals (forall₂_literals h.factors) hkept

lemma HasFactors.achieves_settle (h : HasFactors c v l) (hs : Good s) :
    Achieves d s (Build.settle (coefficient l)) fun n => n.IsInt c :=
  ⟨yields_settle hs _ d, (exact_settle _).imp fun _ _ _ _ hn => hn.1 ▸ h.isInt_coefficient hn.2⟩

end Factors

/-! ### Facts about monomials -/

namespace IsMonomial

variable {c c' : ℤ} {v v' : Exponents} {e e' : Expr}

lemma hasFactors (h : IsMonomial c v e) : HasFactors c v e.factors := by
  cases h with
  | literal hcv he =>
    rw [he.isAtom.factors]
    refine { he.hasFactors with exponents := fun hne => ?_ }
    rw [hcv.resolve_left hne]
    exact he.hasFactors.exponents hne
  | chain _ _ hfront hl he => exact (HasFactors.of_front hfront hl).of_isChain he

/-- A node is one monomial only. -/
lemma unique (h : IsMonomial c v e) (h' : IsMonomial c' v' e) : c = c' ∧ (c ≠ 0 → v = v') :=
  h.hasFactors.unique h'.hasFactors

lemma facts (h : IsMonomial c v e) : e.IsReal ∧ e.function? = none := by
  cases h with
  | literal _ he => exact ⟨he.real, he.function?⟩
  | chain _ _ hfront hl he =>
    have hfactors := (HasFactors.of_front hfront hl).factors
    obtain ⟨hreal, hfunction, -⟩ := he.facts fun a ha => (hfactors a ha).isAtom
    exact ⟨hreal, hfunction⟩

/-- In a well-formed store there is one node for each monomial. -/
lemma eq (hs : s.WellFormed) (he : s.Knows e) (he' : s.Knows e') (h : IsMonomial c v e)
    (h' : IsMonomial c v e') : e = e' := by
  cases h with
  | literal hcv hliteral =>
    cases h' with
    | literal _ hliteral' => exact hliteral.eq hs he he' hliteral'
    | chain hc hv _ _ _ => exact absurd (hcv.resolve_left hc) hv
  | @chain front l hc hv hfront hl hchain =>
    cases h' with
    | literal hcv _ => exact absurd (hcv.resolve_left hc) hv
    | @chain front' l' _ _ hfront' hl' hchain' =>
      have hknown {f : Expr} {front l : List Expr} (hfront : IsFront c front) (hl : IsPowers v l)
          (hf : s.Knows f) (h : IsChain (front ++ l) f) : s.Knows front ∧ s.Knows l := by
        have hfactors := (HasFactors.of_front hfront hl).factors
        rw [← Store.knows_append, ← (h.facts fun a ha => (hfactors a ha).isAtom).2.2]
        exact knows_factors hs hf
      obtain ⟨hknown₁, hknown₂⟩ := hknown hfront hl he hchain
      obtain ⟨hknown₁', hknown₂'⟩ := hknown hfront' hl' he' hchain'
      obtain rfl := hfront.eq hs hknown₁ hknown₁' hfront'
      obtain rfl := hl.eq hs hknown₂ hknown₂' hl'
      exact hchain.eq hs he he' hchain'

end IsMonomial

/-! ## Products -/

/-- The coefficient in front, which is left out for one. -/
lemma achieves_coefficientFactor (hs : Good s) {n : Number} {c : ℤ} (h : n.IsInt c) :
    Achieves d s (coefficientFactor n) (IsFront c) where
  yields := yields_coefficientFactor hs n d
  exact := by
    unfold coefficientFactor
    split
    · rename_i hone
      exact .pure (.inl ⟨h.isOne.1 hone, rfl⟩)
    · rename_i hone
      rw [h.isOne] at hone
      exact (achieves_number hs h).bind fun k t _ _ _ _ hk => .pure (.inr ⟨hone, k, rfl, hk⟩)

/-- The chain of a coefficient and sorted powers is their monomial. -/
lemma exact_leftChain_monomial (hs : Good s) {n : Number} {c : ℤ} {v : Exponents}
    {front l : List Expr} (hn : n.IsInt c) (hc : c ≠ 0) (hfront : IsFront c front)
    (hl : IsPowers v l) (hknown : s.Knows front) (hknown' : s.Knows l) :
    Exact d s (leftChain n (front ++ l)) fun e _ => IsMonomial c v e := by
  have hfactors := HasFactors.of_front hfront hl
  by_cases hv : v = 0
  · obtain rfl := hl.eq_nil_iff.2 hv
    rcases hfront with ⟨rfl, rfl⟩ | ⟨-, k, rfl, hk⟩
    · exact (achieves_number hs hn).exact.imp fun e _ _ _ he => .literal (.inr hv) he
    · exact .pure (.literal (.inr hv) hk)
  · have hne : front ++ l ≠ [] := fun h => hv (hl.eq_nil_iff.1 (List.append_eq_nil_iff.1 h).2)
    refine (achieves_leftChain hs (Store.knows_append.2 ⟨hknown, hknown'⟩)
      (fun a ha => (hfactors.factors a ha).isAtom) hne n).exact.imp fun e _ _ _ he => ?_
    exact .chain hc hv hfront hl he

/-- The canonical product of literals and powers. -/
lemma achieves_assemble {sum : List Expr → Build Expr} [∀ l, Growing (sum l)]
    (hsum : YieldsAll sum) (hadds : AddsLiterals d sum) (hs : Good s) {c : ℤ} {v : Exponents}
    {l : List Expr} (h : HasFactors c v l) (hknown : s.Knows l) :
    Achieves d s (assemble sum l) (IsMonomial c v) where
  yields := yields_assemble hsum s l hs hknown d
  exact := by
    unfold assemble
    refine (h.achieves_settle hs).bind fun n t ht hle _ _ hn => ?_
    split
    · rename_i hzero
      rw [hn.isZero] at hzero
      exact (achieves_number ht hn).exact.imp fun e _ _ _ he => .literal (.inl hzero) he
    rename_i hzero
    rw [hn.isZero] at hzero
    refine (achieves_mergePowers hsum hadds ht h.arePowers
      ((hknown.of_subset List.filter_sublist.subset).mono hle)).bind
      fun powers u hu hle' hpowers _ hpowers' => ?_
    rw [← exponentSum, h.exponents hzero] at hpowers'
    refine (achieves_coefficientFactor hu hn).bind fun front w hw hle'' hfront _ hfront' => ?_
    rw [h.filter_isMatrixFactor, List.append_nil]
    exact exact_leftChain_monomial hw hn hzero hfront' hpowers' hfront (hpowers.mono hle'')

/-- The factors of a product of monomials. -/
lemma hasFactors_flatMap {ps : List (ℤ × Exponents)} {l : List Expr}
    (h : List.Forall₂ (fun p e => IsMonomial p.1 p.2 e) ps l) :
    HasFactors (ps.map Prod.fst).prod (ps.map Prod.snd).sum (l.flatMap factors) := by
  induction h with
  | nil => exact .nil
  | cons he _ ih =>
    rw [List.map_cons, List.map_cons, List.prod_cons, List.sum_cons, List.flatMap_cons]
    exact he.hasFactors.append ih

/-- In a product the coefficients are multiplied and the exponents are added. -/
lemma achieves_productAux (hs : Good s) {ps : List (ℤ × Exponents)} {l : List Expr}
    (h : List.Forall₂ (fun p e => IsMonomial p.1 p.2 e) ps l) (hknown : s.Knows l) (depth : ℕ) :
    Achieves d s (productAux (depth + 1) l)
      (IsMonomial (ps.map Prod.fst).prod (ps.map Prod.snd).sum) where
  yields := yields_productAux (depth + 1) s l hs hknown d
  exact := by
    have hfactors := hasFactors_flatMap h
    have hknown' : s.Knows (l.flatMap factors) := by
      intro e he
      obtain ⟨f, hf, hmem⟩ := List.mem_flatMap.1 he
      exact knows_factors (good_store.1 hs) (hknown f hf) e hmem
    unfold productAux
    refine (hfactors.achieves_settle hs).bind fun n t ht hle _ _ hn => ?_
    split
    · rename_i hzero
      rw [hn.isZero] at hzero
      exact (achieves_number ht hn).exact.imp fun e _ _ _ he => .literal (.inl hzero) he
    · have hmerge (product : List Expr → Build Expr) :
          mergeMatrices product (l.flatMap factors) = pure (l.flatMap factors) := by
        simp [mergeMatrices, hfactors.filter_isMatrixFactor]
      simp only [hmerge, pure_bind]
      exact (achieves_assemble (yields_sumWith (yields_productAux depth))
        (fun s l hs h hne => exact_sumWith_literals hs h hne) ht hfactors (hknown'.mono hle)).exact

section Apply

variable {c c' : ℤ} {v v' : Exponents} {a b : Expr}

/-- Applying a monomial to a monomial multiplies them. -/
lemma achieves_apply (hs : Good s) (hd : 0 < d) (ha : IsMonomial c v a) (hb : IsMonomial c' v' b)
    (hknown : s.Knows a) (hknown' : s.Knows b) :
    Achieves d s (apply a b) (IsMonomial (c * c') (v + v')) where
  yields := yields_apply s a b hs hknown hknown' d
  exact := by
    obtain ⟨depth, rfl⟩ : ∃ n, d = n + 1 := ⟨d - 1, by omega⟩
    have hpair : List.Forall₂ (fun p e => IsMonomial p.1 p.2 e) [(c, v), (c', v')] [a, b] :=
      .cons ha (.cons hb .nil)
    obtain ⟨domain, hdomain, -⟩ := applyDomain?_real ha.facts.1 hb.facts.1
    have hproduct := (achieves_productAux (d := depth + 1) hs hpair (by simp [hknown, hknown'])
      depth).exact
    have hrun : apply a b (depth + 1) s = productAux (depth + 1) [a, b] (depth + 1) s := by
      simp [apply, Run.bind_apply, applyAux, ha.facts.2, applyDomain, hdomain,
        ha.facts.1.isLinear, hb.facts.1.isLinear, canonicalProduct]
    rw [Exact, hrun]
    simpa [Exact] using hproduct

/-- Factors multiplied one after the other. -/
lemma achieves_foldlM_apply (hs : Good s) (hd : 0 < d) {ps : List (ℤ × Exponents)} {l : List Expr}
    (h : List.Forall₂ (fun p e => IsMonomial p.1 p.2 e) ps l) (hl : s.Knows l)
    (ha : IsMonomial c v a) (hknown : s.Knows a) :
    Achieves d s (l.foldlM apply a)
      (IsMonomial (c * (ps.map Prod.fst).prod) (v + (ps.map Prod.snd).sum)) where
  yields := Yields.foldlM hs hknown l (fun b e he t ht hle hb =>
    yields_apply t b e ht hb ((hl e he).mono hle)) d
  exact := by
    induction h generalizing s c v a with
    | nil => simpa using Exact.pure (s := s) ha
    | @cons p e ps l he _ ih =>
      rw [Store.knows_cons] at hl
      rw [List.foldlM_cons, List.map_cons, List.map_cons, List.prod_cons, List.sum_cons,
        ← mul_assoc, ← add_assoc]
      refine (achieves_apply hs hd ha he hknown hl.1).bind fun b t ht hle hb _ hmonomial => ?_
      exact ih ht (hl.2.mono hle) hmonomial hb

/-- A product of monomials in order. -/
lemma achieves_product (hs : Good s) (hd : 0 < d) {ps : List (ℤ × Exponents)} {l : List Expr}
    (h : List.Forall₂ (fun p e => IsMonomial p.1 p.2 e) ps l) (hl : s.Knows l) :
    Achieves d s (product l) (IsMonomial (ps.map Prod.fst).prod (ps.map Prod.snd).sum) := by
  unfold product foldProduct
  cases h with
  | nil => exact (achieves_one hs).imp fun e he => .literal (.inr rfl) he
  | cons he h =>
    rw [Store.knows_cons] at hl
    exact achieves_foldlM_apply hs hd h hl.2 he hl.1

end Apply

end Expr

end TermGraph
