import TermGraph.Proofs.Form.Products

/-!
# Canonical forms are kept

Where products and sums are canonical, doing again what was done to them changes nothing: the
factors of a product give the chain of these factors, and the sum of a single expression is that
expression.  It does not matter how much has been added to the store since.

* `Store.Flat s`: no sum has a sum for a term, and products are canonical.
* `Expr.IsCanonicalSum`: the canonical form of a sum; `Expr.IsMultiple k e` says that `k` is the
  term `e` without its coefficient.
* `Store.InForm s`: powers, products and sums are canonical.
* `Expr.Chains` and `Expr.Keeps`: products of factors, and sums of a single expression.
* `Expr.chains_productAux`, `Expr.keeps_sumWith`: canonical products and sums are such.
-/

namespace TermGraph

open Store (Knows)

/-! ## Canonical forms -/

/-- No sum has a sum for a term, and products are canonical. -/
structure Store.Flat (s : Store) : Prop where
  /-- Sums have been spliced. -/
  sum : ∀ {e : Expr} {l : List Expr}, s.Knows e → e.kind = .sum l → ∀ f ∈ l, f.kind.isSum = false
  /-- Products are canonical. -/
  product : ∀ {e : Expr}, s.Knows e → e.isProduct = true → e.IsCanonicalProduct

namespace Expr

/-- A literal other than zero and one. -/
structure IsCoefficient (c : Expr) : Prop where
  /-- It is a literal. -/
  number : c.number?.isSome = true
  /-- It is not zero. -/
  not_zero : c.isZero = false
  /-- It is not one. -/
  not_one : c.isOne = false

/-- `e` is `k`, or it is the product of a coefficient and the factors of `k`. -/
def IsMultiple (k e : Expr) : Prop :=
  e = k ∨ e.isProduct = true ∧ ∃ c : Expr, c.IsCoefficient ∧ e.factors = c :: k.factors

/-- The canonical form of the terms of a sum: at most one literal, which is not zero, and then
multiples of expressions without a coefficient, in the order of these. -/
structure IsCanonicalSum (s : Store) (l : List Expr) : Prop where
  /-- There are two or more. -/
  length : 2 ≤ l.length
  /-- They are in order. -/
  terms : ∃ (constant : Option Expr) (pairs : List (Expr × Expr)),
    l = constant.toList ++ pairs.map Prod.fst ∧
    (∀ c ∈ constant, c.number?.isSome = true ∧ c.isZero = false) ∧
    (∀ p ∈ pairs, s.Knows p.2 ∧ (∀ f ∈ p.2.factors, f.number? = none) ∧ p.2.IsMultiple p.1) ∧
    pairs.Pairwise fun p q => p.2.compare q.2 = .lt

end Expr

/-- Powers, products and sums are canonical, and there are no custom domains. -/
structure Store.InForm (s : Store) : Prop where
  /-- The store is well formed. -/
  wellFormed : s.WellFormed
  /-- There are no custom domains. -/
  builtin : s.Builtin
  /-- Needless powers are not there. -/
  power : ∀ {e b n : Expr}, s.Knows e → e.power? = some (b, n) →
    b.isOne = false ∧ n.isZero = false ∧ n.isOne = false
  /-- Sums have been spliced, and products are canonical. -/
  flat : s.Flat
  /-- Sums are canonical. -/
  sum : ∀ {e : Expr} {l : List Expr}, s.Knows e → e.kind = .sum l → Expr.IsCanonicalSum s l

namespace Expr

variable {s t u : Store} {d : ℕ} {e f k : Expr} {l : List Expr}

lemma IsCanonicalSum.mono (h : IsCanonicalSum s l) (hle : s ≤ t) : IsCanonicalSum t l := by
  obtain ⟨hlength, constant, pairs, hl, hconstant, hpairs, horder⟩ := h
  exact ⟨hlength, constant, pairs, hl, hconstant, fun p hp => ⟨(hpairs p hp).1.mono hle, (hpairs p hp).2⟩,
    horder⟩

lemma IsCoefficient.of_number? {c : Expr} {n : Number} (h : c.IsCoefficient) (hn : c.number? = some n) :
    n.isZero = false ∧ n.isOne = false := by
  obtain ⟨-, hzero, hone⟩ := h
  rw [isZero, hn] at hzero
  rw [isOne, hn] at hone
  exact ⟨hzero, hone⟩

/-- A multiple of what has no coefficient is no literal. -/
lemma IsMultiple.number? (h : k.IsMultiple e) (hbare : ∀ f ∈ k.factors, f.number? = none) :
    e.number? = none := by
  rcases h with rfl | ⟨hproduct, -⟩
  · cases hn : e.number? with
    | none => rfl
    | some n =>
      have hfactors : e.factors = [e] := factors_of_isProduct (by rw [isProduct, kind_of_number? hn])
      rw [← hn]
      exact hbare e (by simp [hfactors])
  · obtain ⟨t, a, hkind, -⟩ := exists_of_isProduct hproduct
    rw [Expr.number?, hkind]

/-- No factor of a multiple of what has no coefficient is zero. -/
lemma IsMultiple.isZero (h : k.IsMultiple e) (hbare : ∀ f ∈ k.factors, f.number? = none) :
    ∀ f ∈ e.factors, f.isZero = false := by
  have hfactors : ∀ f ∈ k.factors, f.isZero = false := fun f hf => by rw [Expr.isZero, hbare f hf]
  rcases h with rfl | ⟨-, c, hc, hl⟩
  · exact hfactors
  · rw [hl]
    exact List.forall_mem_cons.2 ⟨hc.not_zero, hfactors⟩

/-! ## Chains of factors -/

/-- A chain is given by what is applied. -/
lemma Chained.unique (hs : s.WellFormed) (h : Chained l e) (h' : Chained l f) (he : s.Knows e)
    (hf : s.Knows f) : e = f := by
  induction h generalizing f with
  | single e =>
    generalize hl : [e] = l' at h'
    cases h' with
    | single f => exact List.singleton_inj.1 hl
    | snoc h' _ _ =>
      have hpos := h'.length_pos
      have hlength := congrArg List.length hl
      simp only [List.length_singleton, List.length_append] at hlength
      omega
  | @snoc l t a e h hkind _ ih =>
    generalize hl : l ++ [a] = l' at h'
    cases h' with
    | single f =>
      have hpos := h.length_pos
      have hlength := congrArg List.length hl
      simp only [List.length_singleton, List.length_append] at hlength
      omega
    | snoc h' hkind' _ =>
      obtain ⟨rfl, ha⟩ := List.append_inj' hl rfl
      obtain rfl := List.singleton_inj.1 ha
      obtain rfl := ih h' (hs.knows_of_apply he hkind).1 (hs.knows_of_apply hf hkind').1
      exact hs.eq_of_kind he hf hkind hkind' (by simp [Kind.code])

/-- Where products are canonical, an expression is the chain of its factors. -/
lemma chained_factors (hs : s.WellFormed) (hflat : s.Flat) (he : s.Knows e) : Chained e.factors e := by
  induction e using inductionOnFactors with
  | single e hproduct =>
    rw [factors_of_isProduct hproduct]
    exact .single e
  | product e t a hkind hm iht _ =>
    have hargument := (hflat.product he (by rw [isProduct_of_kind hkind, hm])).argument t a hkind
    rw [factors_of_kind hkind hm, factors_of_isProduct hargument]
    exact (iht (hs.knows_of_apply he hkind).1).snoc hkind hm

/-- The factors of a canonical product without its coefficient. -/
structure AreBare (s : Store) (l : List Expr) : Prop where
  /-- There are some. -/
  ne_nil : l ≠ []
  /-- They are known. -/
  knows : s.Knows l
  /-- They are no literals. -/
  number : ∀ f ∈ l, f.number? = none
  /-- They are no products. -/
  single : ∀ f ∈ l, f.isProduct = false
  /-- The scalars stand in the order of their bases. -/
  bases : (l.filter isScalarFactor).Pairwise fun f g => f.base.compare g.base = .lt
  /-- Only the last may be a matrix. -/
  matrix : ∀ f ∈ l.dropLast, f.isMatrixFactor = false

namespace AreBare

/-- They are their only factors. -/
lemma flatMap_factors (h : AreBare s l) : l.flatMap factors = l := by
  rw [List.flatMap_congr fun f hf => factors_of_isProduct (h.single f hf)]
  simp

lemma literals (h : AreBare s l) : literals l = [] :=
  List.filterMap_eq_nil_iff.2 h.number

/-- What is no scalar is a matrix. -/
lemma isMatrixFactor (h : AreBare s l) (hf : f ∈ l) : f.isMatrixFactor = !f.isScalarFactor := by
  simp [Expr.isMatrixFactor, isScalarFactor, h.number f hf]

/-- The scalars stand before the matrix, if there is one. -/
lemma parts (h : AreBare s l) : l.filter isScalarFactor ++ l.filter Expr.isMatrixFactor = l ∧
    (l.filter Expr.isMatrixFactor).length ≤ 1 := by
  obtain ⟨l, f, rfl⟩ := List.eq_nil_or_concat l |>.resolve_left h.ne_nil
  rw [List.concat_eq_append] at h ⊢
  have hmatrix : ∀ g ∈ l, g.isMatrixFactor = false := by
    have hmatrix := h.matrix
    rwa [List.dropLast_concat] at hmatrix
  have hscalar : ∀ g ∈ l, g.isScalarFactor = true := fun g hg => by
    simpa [h.isMatrixFactor (List.mem_append_left _ hg)] using hmatrix g hg
  have hfactor := h.isMatrixFactor (f := f) (by simp)
  have hnone : l.filter Expr.isMatrixFactor = [] :=
    List.filter_eq_nil_iff.2 fun g hg => by simp [hmatrix g hg]
  rw [List.filter_append, List.filter_append, List.filter_eq_self.2 hscalar, hnone]
  cases hlast : f.isScalarFactor <;> simp [hlast, hfactor]

end AreBare

/-- An expression other than a literal has no coefficient, or there are factors behind it. -/
lemma bare_or_coefficient (h : s.InForm) (he : s.Knows e) (hnumber : e.number? = none) :
    AreBare s e.factors ∨ e.isProduct = true ∧ ∃ c l, c.IsCoefficient ∧ e.factors = c :: l ∧ AreBare s l := by
  have hknown := knows_factors h.wellFormed he
  have hsingle : ∀ f ∈ e.factors, f.isProduct = false := fun f => isProduct_of_mem_factors
  cases hproduct : e.isProduct with
  | false =>
    refine .inl ?_
    rw [factors_of_isProduct hproduct] at hknown hsingle ⊢
    exact ⟨by simp, hknown, by simpa using hnumber, hsingle, List.pairwise_filter.2 (by simp), by simp⟩
  | true =>
    have hform := h.flat.product he hproduct
    have hlength := two_le_length_factors hproduct
    obtain ⟨c, f, l, hl⟩ : ∃ c f l, e.factors = c :: f :: l := by
      match hl : e.factors with
      | [] | [_] => simp [hl] at hlength
      | c :: f :: l => exact ⟨c, f, l, rfl⟩
    obtain ⟨-, hliteral, hcoefficient, hbases, hmatrix⟩ := hform
    rw [hl] at hknown hsingle hliteral hcoefficient hbases hmatrix ⊢
    rw [List.tail_cons] at hliteral
    cases hc : c.number? with
    | none =>
      exact .inl ⟨by simp, hknown, List.forall_mem_cons.2 ⟨hc, hliteral⟩, hsingle, hbases, hmatrix⟩
    | some n =>
      have hc' := hcoefficient c (by simp) (by simp [hc])
      refine .inr ⟨rfl, c, f :: l, ⟨by simp [hc], hc'.1, hc'.2⟩, rfl, by simp, (Store.knows_cons.1 hknown).2,
        hliteral, (List.forall_mem_cons.1 hsingle).2, ?_, ?_⟩
      · rw [List.filter_cons_of_neg (by simp [isScalarFactor, hc])] at hbases
        exact hbases
      · rw [List.dropLast_cons_cons, List.forall_mem_cons] at hmatrix
        exact hmatrix.2

/-! ## Steps of products -/

variable {sum product : List Expr → Build Expr} [∀ l, Growing (sum l)] [∀ l, Growing (product l)]

/-- `product` gives the chain of the factors of a canonical product of `s`, with or without a
coefficient. -/
def Chains (d : ℕ) (s : Store) (product : List Expr → Build Expr) : Prop :=
  ∀ (t : Store) (o : Option Expr) (l input : List Expr), s ≤ t → Good t → t.Knows input →
    (∀ c ∈ o, c.IsCoefficient) → AreBare s l → input.flatMap factors = o.toList ++ l →
    Sound Good d t (product input) fun e u => u.Knows e ∧ Chained (o.toList ++ l) e

/-- `sum` gives back a single expression of `s`, or a literal. -/
def Keeps (d : ℕ) (s : Store) (sum : List Expr → Build Expr) : Prop :=
  ∀ (t : Store) (n : Expr), s ≤ t → Good t → (s.Knows n ∨ t.Knows n ∧ n.number?.isSome = true) →
    Sound Good d t (sum [n]) fun e _ => e = n

/-- A node that is there is found. -/
lemma sound_intern_of_knows {domain : Domain} {kind : Kind} (hs : Good s) (hadm : s.Admits domain kind)
    (he : s.Knows e) (h : e.kind = kind) (hcode : kind.code ≠ none) :
    Sound Good d s (Build.intern domain kind) fun f _ => f = e := by
  obtain ⟨code, hcode⟩ := Option.ne_none_iff_exists'.1 hcode
  obtain ⟨hwf, hknown, hcode'⟩ := hs.wellFormed.intern hadm
  exact ⟨good_store.2 hwf, hwf.eq_of_code hknown (he.mono (s.le_intern domain kind))
    (hcode'.trans (congrArg Kind.code h).symm) (h ▸ hcode)⟩

/-- A literal that is there is found. -/
lemma sound_number_of_knows (hs : Good s) {c : Number} (he : s.Knows e) (h : e.number? = some c) :
    Sound Good d s (number c) fun f _ => f = e :=
  sound_intern_of_knows hs ⟨by simp [Kind.children], fun _ h => h.elim, rfl, by simp [Kind.index?]⟩ he
    (kind_of_number? h) (by simp [Kind.code])

/-- A power that is there is found. -/
lemma sound_power_of_knows (h : s.InForm) (hle : s ≤ t) (ht : Good t) {b n : Expr} (he : s.Knows e)
    (hpower : e.power? = some (b, n)) : Sound Good d t (power b n) fun f _ => f = e := by
  obtain ⟨hb, hn⟩ := knows_power? h.wellFormed he hpower
  obtain ⟨hbone, hzero, hone⟩ := h.power he hpower
  refine (sound_power ht (hb.mono hle) (hn.mono hle)).and_invariant.imp fun f u hle' hresult => ?_
  obtain ⟨hu, hf, -, hf'⟩ := hresult
  exact eq_of_power? hu.wellFormed hf ((he.mono hle).mono hle') (hf' (by simp [hzero, hbone]) hone) hpower

/-! ## Powers -/

/-- `p` is `f` as base and exponent. -/
def IsSplit (s t : Store) (f : Expr) (p : Expr × Expr) : Prop :=
  s.Knows f ∧ t.Knows p ∧ p.1 = f.base ∧
    (f.power? = some p ∨
      f.power? = none ∧ p.2.number?.isSome = true ∧ p.2.isZero = false ∧ p.2.isOne = true)

lemma IsSplit.mono {p : Expr × Expr} (h : IsSplit s t f p) (hle : t ≤ u) : IsSplit s u f p :=
  ⟨h.1, h.2.1.mono hle, h.2.2⟩

lemma sound_splitPower_of_knows (hs : s.WellFormed) (hle : s ≤ t) (ht : Good t) (hf : s.Knows f) :
    Sound Good d t (splitPower f) fun p u => IsSplit s u f p := by
  unfold splitPower
  split
  · rename_i b n hpower
    have hpair : s.Knows (b, n) := knows_power? hs hf hpower
    exact .pure ht ⟨hf, hpair.mono hle, (base_of_power? hpower).symm, .inl hpower⟩
  · rename_i hpower
    refine (sound_number ht (.int 1)).bind fun n u hu hle' hn => .pure hu ?_
    obtain ⟨hknown, -, m, hm, hcode⟩ := hn
    refine ⟨hf, ⟨(hf.mono hle).mono hle', hknown⟩, (base_of_power?_eq_none hpower).symm, .inr ⟨hpower, ?_⟩⟩
    rw [isZero, isOne, hm]
    exact ⟨rfl, Number.isZero_isOne_of_code hcode⟩

/-- The power of a base to a single exponent. -/
lemma sound_raisedBases_of_isSplit (h : s.InForm) (hsum : Keeps d s sum) (hle : s ≤ t) (ht : Good t)
    {split : List (Expr × Expr)} (hsplit : List.Forall₂ (IsSplit s t) l split) :
    Sound Good d t (raisedBases sum (split.map fun p => (p.1, [p.2]))) fun l' _ => l' = l := by
  induction l generalizing split t with
  | nil =>
    cases hsplit
    exact .pure ht rfl
  | cons f l ih =>
    obtain ⟨⟨b, n⟩, split, ⟨hknown, hp, hbase, hcases⟩, hrest, rfl⟩ := List.forall₂_cons_left_iff.1 hsplit
    have hexponent : s.Knows n ∨ t.Knows n ∧ n.number?.isSome = true := by
      rcases hcases with hpower | ⟨-, hnumber, -, -⟩
      · exact .inl (knows_power? h.wellFormed hknown hpower).2
      · exact .inr ⟨hp.2, hnumber⟩
    have hraised {u : Store} (hle' : t ≤ u) (hu : Good u) :
        Sound Good d u (raisedBase b n) fun e _ => e = f := by
      unfold raisedBase
      rcases hcases with hpower | ⟨hpower, -, -, hone⟩
      · rw [if_neg (by simp [(h.power hknown hpower).2.2])]
        exact sound_power_of_knows h (hle.trans hle') hu hknown hpower
      · rw [if_pos hone]
        exact .pure hu (hbase.trans (base_of_power?_eq_none hpower))
    have hzero : n.isZero = false := by
      rcases hcases with hpower | ⟨-, -, hzero, -⟩
      · exact (h.power hknown hpower).2.1
      · exact hzero
    rw [List.map_cons, raisedBases]
    refine (hsum t n hle ht hexponent).bind fun n' u hu hle' hn => ?_
    subst hn
    rw [if_neg (by simp [hzero])]
    refine (hraised hle' hu).bind fun e v hv hle'' he => ?_
    subst he
    refine (ih (hle.trans (hle'.trans hle'')) hv ?_).bind fun l' w hw _ hl => .pure hw (by rw [hl])
    exact hrest.imp fun f p hf => hf.mono (hle'.trans hle'')

/-- Powers of different bases, in the order of these, do not merge. -/
lemma sound_mergePowers_of_bases (h : s.InForm) (hsum : Keeps d s sum) (hle : s ≤ t) (ht : Good t)
    (hl : s.Knows l) (hbases : l.Pairwise fun f g => f.base.compare g.base = .lt) :
    Sound Good d t (mergePowers sum l) fun l' _ => l' = l := by
  unfold mergePowers
  refine (Sound.forall₂_mapM (P := fun f p u => IsSplit s u f p) (fun _ _ _ _ hle hp => hp.mono hle) l ht
    fun f hf u hu hle' => sound_splitPower_of_knows h.wellFormed (hle.trans hle') hu (hl f hf)).bind
    fun split u hu hle' hsplit => ?_
  have hkeys : split.map Prod.fst = l.map base := by
    clear hbases
    induction hsplit with
    | nil => rfl
    | cons hf _ ih => simp [hf.2.2.1, ih fun f hf => hl f (by simp [hf])]
  rw [gather_of_pairwise]
  · exact sound_raisedBases_of_isSplit h hsum (hle.trans hle') hu hsplit
  · rw [← List.pairwise_map (f := Prod.fst) (R := fun b c : Expr => b.compare c = .lt), hkeys,
      List.pairwise_map]
    exact hbases

/-! ## Products -/

lemma sound_rawApply_of_isScalar (hs : Good s) {a : Expr} (he : s.Knows e) (ha : s.Knows a)
    (hbuiltin : e.domain.isBuiltin = true) (hbuiltin' : a.domain.isBuiltin = true)
    (hscalar : e.domain.isScalar = true) : Sound Good d s (rawApply e a) fun f t => t.Knows f ∧
      f.kind = .apply e a ∧ multiplies e a = true ∧ f.domain.isBuiltin = true ∧
      (a.domain.isScalar = true → f.domain.isScalar = true) := by
  unfold rawApply
  refine (sound_applyDomain hs e a d).bind fun domain t ht hle hdomain => ?_
  have he' := he.mono hle
  have ha' := ha.mono hle
  obtain ⟨hnumeric, hnumeric', hm⟩ :=
    multiplies_of_isScalar hs.wellFormed he hbuiltin hbuiltin' hscalar hdomain
  obtain ⟨hwf, hknown, hcode⟩ := ht.wellFormed.intern (admits_apply he' ha' hdomain)
  have hle' := t.le_intern domain (.apply e a)
  have hkind := hwf.kind_eq_apply hknown (he'.mono hle') (ha'.mono hle') hcode
  obtain ⟨hnumeric, hiff⟩ := domain_of_apply hwf hknown hkind hnumeric hnumeric'
  exact ⟨good_store.2 hwf, hknown, hkind, hm, hnumeric.isBuiltin, fun h => hiff.2 ⟨hscalar, h⟩⟩

/-- Expressions of which all but the last are scalars are applied one after the other. -/
lemma sound_foldlM_of_isScalar (hs : Good s) {first rest : List Expr} (he : s.Knows e)
    (hrest : s.Knows rest) (hchained : Chained first e)
    (hbuiltin : ∀ f ∈ e :: rest, f.domain.isBuiltin = true)
    (hscalar : ∀ f ∈ (e :: rest).dropLast, f.domain.isScalar = true) :
    Sound Good d s (rest.foldlM rawApply e) fun f t => t.Knows f ∧ Chained (first ++ rest) f := by
  induction rest generalizing s e first with
  | nil => exact .pure hs ⟨he, by rwa [List.append_nil]⟩
  | cons a rest ih =>
    rw [Store.knows_cons] at hrest
    rw [List.forall_mem_cons, List.forall_mem_cons] at hbuiltin
    rw [List.dropLast_cons_cons, List.forall_mem_cons] at hscalar
    rw [List.foldlM_cons]
    refine (sound_rawApply_of_isScalar hs he hrest.1 hbuiltin.1 hbuiltin.2.1 hscalar.1).bind
      fun f t ht hle happlied => ?_
    obtain ⟨hf, hkind, hm, hfbuiltin, hfscalar⟩ := happlied
    rw [List.append_cons]
    refine ih ht hf (hrest.2.mono hle) (hchained.snoc hkind hm)
      (List.forall_mem_cons.2 ⟨hfbuiltin, hbuiltin.2.2⟩) ?_
    cases rest with
    | nil => simp
    | cons b rest =>
      rw [List.dropLast_cons_cons, List.forall_mem_cons] at hscalar ⊢
      exact ⟨hfscalar hscalar.2.1, hscalar.2.2⟩

lemma sound_leftChain_of_isScalar (hs : Good s) (hl : s.Knows l) (hne : l ≠ [])
    (hbuiltin : ∀ f ∈ l, f.domain.isBuiltin = true)
    (hscalar : ∀ f ∈ l.dropLast, f.domain.isScalar = true) (c : Number) :
    Sound Good d s (leftChain c l) fun f t => t.Knows f ∧ Chained l f := by
  obtain ⟨e, l, rfl⟩ := List.exists_cons_of_ne_nil hne
  rw [Store.knows_cons] at hl
  exact sound_foldlM_of_isScalar hs hl.1 hl.2 (.single e) hbuiltin hscalar

/-- The coefficient of factors, if there is one. -/
lemma coefficient_of_bare (hl : AreBare s l) {o : Option Expr} (ho : ∀ c ∈ o, c.IsCoefficient) :
    coefficient (o.toList ++ l) = .of ((o.bind number?).getD .one) := by
  have hliterals : literals (o.toList ++ l) = (o.bind number?).toList := by
    rw [Expr.literals, List.filterMap_append, show l.filterMap number? = [] from hl.literals]
    cases o with
    | none => rfl
    | some c => cases hc : c.number? <;> simp [hc]
  rw [coefficient, hliterals]
  cases o.bind number? <;> rfl

lemma isZero_coefficient {o : Option Expr} (ho : ∀ c ∈ o, c.IsCoefficient) :
    (Number.Tracked.of ((o.bind number?).getD .one)).value.isZero = false := by
  cases o with
  | none => rfl
  | some c =>
    obtain ⟨n, hn⟩ := Option.isSome_iff_exists.1 (ho c rfl).number
    rw [Option.bind_some, hn]
    exact ((ho c rfl).of_number? hn).1

lemma sound_coefficientFactor_of_knows (hs : Good s) {o : Option Expr} (hknown : s.Knows o.toList)
    (ho : ∀ c ∈ o, c.IsCoefficient) :
    Sound Good d s (coefficientFactor ((o.bind number?).getD .one)) fun l _ => l = o.toList := by
  unfold coefficientFactor
  cases o with
  | none => exact .pure hs rfl
  | some c =>
    obtain ⟨n, hn⟩ := Option.isSome_iff_exists.1 (ho c rfl).number
    simp only [Option.bind_some, hn, Option.getD_some, ((ho c rfl).of_number? hn).2, Bool.false_eq_true,
      if_false]
    exact (sound_number_of_knows hs (hknown c (by simp)) hn).bind fun f t ht _ hf => .pure ht (by simp [hf])

lemma not_factor_of_number (h : e.number?.isSome = true) :
    e.isScalarFactor = false ∧ e.isMatrixFactor = false := by
  obtain ⟨n, hn⟩ := Option.isSome_iff_exists.1 h
  simp [isScalarFactor, isMatrixFactor, hn]

lemma filter_of_coefficient {o : Option Expr} {p : Expr → Bool} (ho : ∀ c ∈ o, c.IsCoefficient)
    (hp : ∀ c : Expr, c.number?.isSome = true → p c = false) : (o.toList ++ l).filter p = l.filter p := by
  rw [List.filter_append, List.filter_eq_nil_iff.2 fun c hc => ?_, List.nil_append]
  simp [hp c (ho c (by simpa using hc)).number]

/-- A coefficient and the factors of a canonical product are chained as they are. -/
lemma sound_assemble_of_bare (h : s.InForm) (hsum : Keeps d s sum) (hle : s ≤ t) (ht : Good t)
    {o : Option Expr} (hknown : t.Knows o.toList) (ho : ∀ c ∈ o, c.IsCoefficient) (hl : AreBare s l) :
    Sound Good d t (assemble sum (o.toList ++ l)) fun e u => u.Knows e ∧ Chained (o.toList ++ l) e := by
  have hliteral : ∀ c ∈ o.toList, c.number?.isSome = true := fun c hc => (ho c (by simpa using hc)).number
  unfold assemble
  rw [coefficient_of_bare hl ho, filter_of_coefficient ho fun c hc => (not_factor_of_number hc).1,
    filter_of_coefficient ho fun c hc => (not_factor_of_number hc).2]
  refine (sound_settle ht _ d).bind fun c u hu hle' hc => ?_
  subst hc
  rw [if_neg (by simp [isZero_coefficient ho])]
  refine (sound_mergePowers_of_bases h hsum (hle.trans hle') hu
    (hl.knows.of_subset List.filter_sublist.subset) hl.bases).bind fun scalars v hv hle'' hscalars => ?_
  subst hscalars
  refine (sound_coefficientFactor_of_knows hv ((hknown.mono hle').mono hle'') ho).bind
    fun front w hw hle₃ hfront => ?_
  subst hfront
  rw [List.append_assoc, hl.parts.1]
  have hsw : t ≤ w := hle'.trans (hle''.trans hle₃)
  refine sound_leftChain_of_isScalar hw
    (Store.knows_append.2 ⟨hknown.mono hsw, hl.knows.mono (hle.trans hsw)⟩) (by simp [hl.ne_nil]) ?_ ?_ _
  · refine List.forall_mem_append.2 ⟨fun c hc => ?_, fun f hf => h.builtin f (hl.knows f hf)⟩
    exact (isReal_of_number ht.wellFormed (hknown c hc) (hliteral c hc)).isNumeric.isBuiltin
  · rw [List.dropLast_append_of_ne_nil hl.ne_nil]
    refine List.forall_mem_append.2 ⟨fun c hc => ?_, fun f hf => ?_⟩
    · exact isScalar_of_number ht.wellFormed (hknown c hc) (hliteral c hc)
    · simpa [isMatrixFactor, hl.number f (List.mem_of_mem_dropLast hf)] using hl.matrix f hf

/-- Canonical products are chained as they are, if sums of single exponents are kept. -/
lemma chains_productAux_succ (h : s.InForm) {depth : ℕ} (hsum : Keeps d s (sumWith (productAux depth))) :
    Chains d s (productAux (depth + 1)) := by
  intro t o l input hle ht hknown ho hl hinput
  have hfactors : t.Knows (o.toList ++ l) := by
    rw [← hinput]
    intro f hf
    obtain ⟨e, he, hmem⟩ := List.mem_flatMap.1 hf
    exact knows_factors ht.wellFormed (hknown e he) f hmem
  have hmatrices : ((o.toList ++ l).filter Expr.isMatrixFactor).length ≤ 1 := by
    rw [filter_of_coefficient ho fun c hc => (not_factor_of_number hc).2]
    exact hl.parts.2
  unfold productAux
  simp only [hinput, coefficient_of_bare hl ho]
  refine (sound_settle ht _ d).bind fun c u hu hle' hc => ?_
  subst hc
  rw [if_neg (by simp [isZero_coefficient ho])]
  simp only [mergeMatrices, if_neg (not_lt.2 hmatrices), pure_bind]
  exact sound_assemble_of_bare h hsum (hle.trans hle') hu
    ((Store.knows_append.1 hfactors).1.mono hle') ho hl

/-! ## Terms of sums -/

/-- `p` is the term `e` as what it is a multiple of, and its coefficient. -/
structure IsSplitTerm (s t : Store) (e : Expr) (p : Expr × Number) : Prop where
  /-- What it is a multiple of is known. -/
  knows : t.Knows p.1
  /-- That has no coefficient. -/
  bare : AreBare s p.1.factors
  /-- It is the chain of its factors. -/
  chained : Chained p.1.factors p.1
  /-- The term is a multiple of it. -/
  multiple : e = p.1 ∧ p.2 = .one ∨ e.isProduct = true ∧ ∃ c : Expr, c.IsCoefficient ∧
    c.number? = some p.2 ∧ e.factors = c :: p.1.factors

lemma IsSplitTerm.mono {p : Expr × Number} (h : IsSplitTerm s t e p) (hle : t ≤ u) : IsSplitTerm s u e p :=
  ⟨h.knows.mono hle, h.bare, h.chained, h.multiple⟩

lemma sound_splitCoefficient_of_knows (h : s.InForm) (hproduct : Chains d s product) (hle : s ≤ t)
    (ht : Good t) (he : s.Knows e) (hnumber : e.number? = none) :
    Sound Good d t (splitCoefficient product e) fun p u => IsSplitTerm s u e p := by
  rcases bare_or_coefficient h he hnumber with hbare | ⟨hisproduct, c, l, hc, hl, hbare⟩
  · have hrun : splitCoefficient product e = pure (e, .one) := by
      unfold splitCoefficient
      split
      · split
        · rename_i first rest hfactors
          rw [hbare.number first (by simp [hfactors])]
        · rfl
      · rfl
    rw [hrun]
    exact .pure ht ⟨he.mono hle, hbare, chained_factors h.wellFormed h.flat he, .inl ⟨rfl, rfl⟩⟩
  · obtain ⟨n, hn⟩ := Option.isSome_iff_exists.1 hc.number
    unfold splitCoefficient
    rw [if_pos hisproduct, hl]
    simp only [hn]
    refine (hproduct t none l l hle ht (hbare.knows.mono hle) (by simp) hbare hbare.flatMap_factors).bind
      fun k u hu hle' hproduct => .pure hu ?_
    obtain ⟨hk, hchained⟩ := hproduct
    have hfactors : k.factors = l := hchained.factors_eq.trans hbare.flatMap_factors
    rw [← hfactors] at hl hbare hchained
    exact ⟨hk, hbare, hchained, .inr ⟨hisproduct, c, hc, hn, hl⟩⟩

/-- A coefficient is multiplied with an expression that has none. -/
lemma sound_scaledTerm_of_bare (hproduct : Chains d s product) (hle : s ≤ t) (ht : Good t)
    (hk : t.Knows k) (hbare : AreBare s k.factors) {c : Number} (hzero : c.isZero = false) :
    Sound Good d t (scaledTerm product k c) fun e u => u.Knows e ∧
      (c.isOne = true ∧ e = k ∨ c.isOne = false ∧ ∃ f m, u.Knows f ∧ f.number? = some m ∧ m.code = c.code ∧
        f.IsCoefficient ∧ Chained (f :: k.factors) e) := by
  unfold scaledTerm
  split
  · exact .pure ht ⟨hk, .inl ⟨‹_›, rfl⟩⟩
  · rename_i hone
    refine (sound_number ht c).bind fun f u hu hle' hliteral => ?_
    obtain ⟨hf, -, m, hm, hcode⟩ := hliteral
    obtain ⟨hmzero, hmone⟩ := Number.isZero_isOne_of_code hcode
    have hcoefficient : f.IsCoefficient :=
      ⟨by simp [hm], by simp [isZero, hm, hmzero, hzero], by simpa [isOne, hm, hmone] using hone⟩
    have hfactors : f.factors = [f] :=
      factors_of_isProduct (by rw [isProduct, kind_of_number? hm])
    refine (hproduct u (some f) k.factors [f, k] (hle.trans hle') hu ?_ (by simpa using hcoefficient) hbare
      (by simp [hfactors])).imp fun e v hle'' he => ⟨he.1, .inr ⟨by simpa using hone, f, m,
        hf.mono hle'', hm, hcode, hcoefficient, he.2⟩⟩
    simpa using ⟨hf, hk.mono hle'⟩

/-- A term is put together again. -/
lemma sound_scaledTerm_of_isSplitTerm (h : s.InForm) (hproduct : Chains d s product) (hle : s ≤ t)
    (ht : Good t) (he : s.Knows e) {p : Expr × Number} (hp : IsSplitTerm s t e p)
    (hzero : p.2.isZero = false) : Sound Good d t (scaledTerm product p.1 p.2) fun f _ => f = e := by
  refine (sound_scaledTerm_of_bare hproduct hle ht hp.knows hp.bare hzero).and_invariant.imp
    fun f u hle' hterm => ?_
  obtain ⟨hu, hf, hcases⟩ := hterm
  rcases hp.multiple with ⟨rfl, hone⟩ | ⟨-, c, hc, hnumber, hfactors⟩
  · rcases hcases with ⟨-, rfl⟩ | ⟨hone', -⟩
    · rfl
    · rw [hone] at hone'
      cases hone'
  · rcases hcases with ⟨hone, -⟩ | ⟨-, c', m, hc', hm, hcode, -, hchained⟩
    · exact absurd ((hc.of_number? hnumber).2.symm.trans hone) (by decide)
    · -- The literal is the one that stood there.
      have hknown := knows_factors h.wellFormed he
      rw [hfactors, Store.knows_cons] at hknown
      obtain rfl : c' = c := hu.wellFormed.eq_of_code hc' ((hknown.1.mono hle).mono hle')
        (by rw [kind_of_number? hm, kind_of_number? hnumber, Kind.code, Kind.code, hcode])
        (by rw [kind_of_number? hnumber, Kind.code])
      rw [← hfactors] at hchained
      exact hchained.unique hu.wellFormed (chained_factors h.wellFormed h.flat he) hf
        ((he.mono hle).mono hle')

/-- Terms of different expressions, in the order of these, are put together again. -/
lemma sound_scaledTerms_of_isSplitTerm (h : s.InForm) (hproduct : Chains d s product) (hle : s ≤ t)
    (ht : Good t) (hl : s.Knows l) {split : List (Expr × Number)}
    (hsplit : List.Forall₂ (IsSplitTerm s t) l split) :
    Sound Good d t (scaledTerms product (split.map fun p => (p.1, .of p.2))) fun l' _ => l' = l := by
  induction l generalizing split t with
  | nil =>
    cases hsplit
    exact .pure ht rfl
  | cons e l ih =>
    obtain ⟨p, split, hp, hrest, rfl⟩ := List.forall₂_cons_left_iff.1 hsplit
    rw [Store.knows_cons] at hl
    have hzero : p.2.isZero = false := by
      rcases hp.multiple with ⟨-, hone⟩ | ⟨-, c, hc, hnumber, -⟩
      · rw [hone]
        rfl
      · exact (hc.of_number? hnumber).1
    rw [List.map_cons, scaledTerms]
    refine (sound_settle ht _ d).bind fun c u hu hle' hc => ?_
    subst hc
    rw [if_neg (by simpa [Number.Tracked.of] using hzero)]
    refine (sound_scaledTerm_of_isSplitTerm h hproduct (hle.trans hle') hu hl.1 (hp.mono hle') hzero).bind
      fun f v hv hle'' hf => ?_
    subst hf
    refine (ih (hle.trans (hle'.trans hle'')) hv hl.2
      (hrest.imp fun e p hp => hp.mono (hle'.trans hle''))).bind fun l' w hw _ hl' => .pure hw (by rw [hl'])

/-- What a term is a multiple of is determined. -/
lemma IsSplitTerm.eq_of_isMultiple (h : s.InForm) (hu : u.WellFormed) (hle : s ≤ u) {p : Expr × Number}
    (hp : IsSplitTerm s u e p) (hk : s.Knows k) (hbare : ∀ f ∈ k.factors, f.number? = none)
    (hmultiple : k.IsMultiple e) : p.1 = k := by
  have hcoefficient {c : Expr} {l l' : List Expr} (hc : c.IsCoefficient) (hl : l = c :: l')
      (hbare : ∀ f ∈ l, f.number? = none) : False := by
    have hnumber := hc.number
    rw [hbare c (by simp [hl])] at hnumber
    cases hnumber
  rcases hp.multiple with ⟨rfl, -⟩ | ⟨-, c, hc, -, hfactors⟩
  · rcases hmultiple with rfl | ⟨-, c, hc, hfactors⟩
    · rfl
    · exact (hcoefficient hc hfactors hp.bare.number).elim
  · rcases hmultiple with rfl | ⟨-, c', -, hfactors'⟩
    · exact (hcoefficient hc hfactors hbare).elim
    · have heq : p.1.factors = k.factors := (List.cons.inj (hfactors.symm.trans hfactors')).2
      have hchained := hp.chained
      rw [heq] at hchained
      exact hchained.unique hu (chained_factors h.wellFormed h.flat hk) hp.knows (hk.mono hle)

lemma map_fst_of_isMultiple (h : s.InForm) (hu : u.WellFormed) (hle : s ≤ u)
    {pairs : List (Expr × Expr)} {split : List (Expr × Number)}
    (hpairs : ∀ p ∈ pairs, s.Knows p.2 ∧ (∀ f ∈ p.2.factors, f.number? = none) ∧ p.2.IsMultiple p.1)
    (hsplit : List.Forall₂ (IsSplitTerm s u) (pairs.map Prod.fst) split) :
    split.map Prod.fst = pairs.map Prod.snd := by
  induction pairs generalizing split with
  | nil =>
    cases hsplit
    rfl
  | cons p pairs ih =>
    rw [List.forall_mem_cons] at hpairs
    obtain ⟨q, split, hq, hrest, rfl⟩ := List.forall₂_cons_left_iff.1 hsplit
    rw [List.map_cons, List.map_cons, ih hpairs.2 hrest,
      hq.eq_of_isMultiple h hu hle hpairs.1.1 hpairs.1.2.1 hpairs.1.2.2]

/-! ## Sums -/

/-- A sum that is there is found. -/
lemma sound_ofTerms_of_knows (hs : Good s) (he : s.Knows e) (hkind : e.kind = .sum l)
    (hlength : 2 ≤ l.length) (constant : Option Expr) :
    Sound Good d s (ofTerms constant l) fun f _ => f = e := by
  have hl : s.Knows l := by
    have hchildren := hs.wellFormed.children he
    rwa [children, hkind, Kind.children] at hchildren
  unfold ofTerms
  split
  · simp at hlength
  · simp at hlength
  · refine (sound_sumDomain hs l d).bind fun domain t ht hle hdomain => ?_
    exact sound_intern_of_knows ht (admits_sum (hl.mono hle) hdomain) (he.mono hle) hkind (by simp [Kind.code])

lemma nonLiterals_append {constant : Option Expr} (hconstant : ∀ c ∈ constant, c.number?.isSome = true)
    (hl : ∀ e ∈ l, e.number? = none) : nonLiterals (constant.toList ++ l) = l := by
  rw [nonLiterals, List.filter_append, List.filter_eq_nil_iff.2 fun c hc => ?_,
    List.filter_eq_self.2 fun e he => by simp [hl e he], List.nil_append]
  have hnumber := hconstant c (by simpa using hc)
  cases hc : c.number? <;> simp [hc] at hnumber ⊢

/-- A constant and terms of different expressions, in the order of these, are kept. -/
lemma sound_sumWith_of_terms (h : s.InForm) (hproduct : Chains d s product) (hle : s ≤ t) (ht : Good t)
    {input : List Expr} (constant : Option Expr) (others : List Expr)
    (hinput : allTerms input = constant.toList ++ others)
    (hknown : t.Knows constant.toList) (hconstant : ∀ c ∈ constant, c.number?.isSome = true)
    (hothers : ∀ e ∈ others, s.Knows e ∧ e.number? = none)
    (horder : ∀ (u : Store) (split : List (Expr × Number)), Good u → t ≤ u →
      List.Forall₂ (IsSplitTerm s u) others split → split.Pairwise fun p q => p.1.compare q.1 = .lt)
    (hterms : ∀ u, Good u → t ≤ u → Sound Good d u
      (ofTerms constant ((constant.filter fun c => !c.isZero).toList ++ others)) fun f _ => f = e) :
    Sound Good d t (sumWith product input) fun f _ => f = e := by
  have hliterals : literals (constant.toList ++ others) = (constant.bind number?).toList := by
    rw [Expr.literals, List.filterMap_append,
      List.filterMap_eq_nil_iff.2 fun e he => (hothers e he).2, List.append_nil]
    cases constant with
    | none => rfl
    | some c => cases hc : c.number? <;> simp [hc]
  have hliteral : Sound Good d t ((combine .add (constant.bind number?).toList).mapM fun total => do
      number (← Build.settle total)) fun o _ => o = constant := by
    cases constant with
    | none => exact .pure ht rfl
    | some c =>
      obtain ⟨n, hn⟩ := Option.isSome_iff_exists.1 (hconstant c rfl)
      rw [Option.bind_some, hn]
      refine Sound.map (Q := fun f _ => f = c) ?_ fun f u _ hf => congrArg some hf
      refine (sound_settle ht _ d).bind fun m u hu hle' hm => ?_
      subst hm
      exact sound_number_of_knows hu ((hknown c (by simp)).mono hle') hn
  unfold sumWith
  simp only [hinput, hliterals, nonLiterals_append hconstant fun e he => (hothers e he).2]
  refine hliteral.bind fun o u hu hle' ho => ?_
  subst ho
  refine (sound_sumDomain hu _ d).bind fun _ v hv hle'' _ => ?_
  refine (Sound.forall₂_mapM (P := fun e p w => IsSplitTerm s w e p) (fun _ _ _ _ hle hp => hp.mono hle)
    others hv fun e he w hw hle₃ => sound_splitCoefficient_of_knows h hproduct
      (hle.trans (hle'.trans (hle''.trans hle₃))) hw (hothers e he).1 (hothers e he).2).bind
    fun split w hw hle₃ hsplit => ?_
  have hsw : t ≤ w := hle'.trans (hle''.trans hle₃)
  rw [gather_of_pairwise (horder w split hw hsw hsplit)]
  refine (sound_scaledTerms_of_isSplitTerm h hproduct (hle.trans hsw) hw (fun e he => (hothers e he).1)
    hsplit).bind fun l x hx hle₄ hl => ?_
  subst hl
  exact hterms x hx (hsw.trans hle₄)

/-- Sums of a single expression are kept, if canonical products are chained as they are. -/
lemma keeps_sumWith (h : s.InForm) (hproduct : Chains d s product) : Keeps d s (sumWith product) := by
  intro t n hle ht hn
  cases hnumber : n.number? with
  | some c =>
    have hknown : t.Knows n := hn.elim (·.mono hle) (·.1)
    refine sound_sumWith_of_terms h hproduct hle ht (some n) [] ?_
      (by simpa using hknown) (by simp [hnumber]) (by simp) (fun u split _ _ hsplit => ?_) fun u hu _ => ?_
    · rw [allTerms_eq_flatMap, List.flatMap_singleton, terms_of_kind_ne (by simp [kind_of_number? hnumber])]
      rfl
    · cases hsplit
      exact .nil
    · cases hzero : n.isZero <;> simp only [Option.filter, hzero] <;> exact .pure hu rfl
  | none =>
    have hknown : s.Knows n := hn.resolve_right fun hn => by simp [hnumber] at hn
    by_cases hsum : ∃ l, n.kind = .sum l
    · -- The terms of a sum are in canonical form already: each is its own group, and none vanishes.
      obtain ⟨l, hkind⟩ := hsum
      obtain ⟨hlength, constant, pairs, hl, hconstant, hpairs, horder⟩ := h.sum hknown hkind
      have hitems : s.Knows l := by
        have hchildren := h.wellFormed.children hknown
        rwa [children, hkind, Kind.children] at hchildren
      rw [hl, Store.knows_append] at hitems
      refine sound_sumWith_of_terms h hproduct hle ht constant (pairs.map Prod.fst) ?_ (hitems.1.mono hle)
        (fun c hc => (hconstant c hc).1) (List.forall_mem_map.2 fun p hp => ?_)
        (fun u split hu hle' hsplit => ?_) fun u hu hle' => ?_
      · rw [allTerms_eq_flatMap, List.flatMap_singleton, terms_of_kind hkind, ← hl,
          List.flatMap_congr fun e he => terms_of_kind_ne fun items hitems => ?_, List.flatMap_singleton']
        have hflat := h.flat.sum hknown hkind e he
        rw [hitems] at hflat
        cases hflat
      · obtain ⟨-, hbare, hmultiple⟩ := hpairs p hp
        exact ⟨hitems.2 _ (List.mem_map_of_mem hp), hmultiple.number? hbare⟩
      · have hkeys := map_fst_of_isMultiple h hu.wellFormed (hle.trans hle') hpairs hsplit
        rw [← List.pairwise_map (f := Prod.fst) (R := fun b c : Expr => b.compare c = .lt), hkeys,
          List.pairwise_map]
        exact horder
      · have hfilter : constant.filter (fun c => !c.isZero) = constant := by
          cases constant with
          | none => rfl
          | some c => simp [(hconstant c rfl).2]
        rw [hfilter, ← hl]
        exact sound_ofTerms_of_knows hu (hknown.mono (hle.trans hle')) hkind hlength constant
    · refine sound_sumWith_of_terms h hproduct hle ht none [n] ?_ (by simp)
        (by simp) (by simpa using ⟨hknown, hnumber⟩) (fun u split _ _ hsplit => ?_) fun u hu _ => .pure hu rfl
      · rw [allTerms_eq_flatMap, List.flatMap_singleton, terms_of_kind_ne fun l hkind => hsum ⟨l, hkind⟩]
        rfl
      · obtain ⟨p, split, -, hrest, rfl⟩ := List.forall₂_cons_left_iff.1 hsplit
        cases hrest
        exact List.pairwise_singleton _ _

/-- Canonical products are chained as they are. -/
lemma chains_productAux (h : s.InForm) (depth : ℕ) : Chains d s (productAux depth) := by
  induction depth with
  | zero =>
    intro t o l input _ ht _ _ _ _
    unfold productAux
    exact .throw ht _
  | succ depth ih => exact chains_productAux_succ h (keeps_sumWith h ih)

end Expr
end TermGraph
