import TermGraph.Proofs.Polynomial.Monomial

/-!
# Canonical sums of monomials

The form that sums of canonical monomials take.

* `IsTerms s P l`: `l` lists the terms of the polynomial `P`, a constant first and then by the
  ordinals of the bare monomials in `s`.
* `IsPolynomial s P e`: `e` is the canonical sum with the polynomial `P`.
* `exact_sumWith`: in a sum the polynomials are added.
* `IsPolynomial.eq` and `IsPolynomial.unique`: in a well-formed store there is one node for each
  polynomial, and a node is one polynomial only.
-/

namespace TermGraph

open Store (Knows)

/-- Coefficients by exponents. -/
abbrev Coefficients := Exponents →₀ ℤ

namespace Expr

variable {s t : Store} {d : ℕ}

/-! ## Terms -/

/-- A canonical monomial as its exponents and its coefficient. -/
noncomputable def toMonomial (e : Expr) : Exponents × ℤ :=
  (exponentSum e.factors, literalProduct e.factors)

/-- A canonical monomial. -/
def IsTerm (e : Expr) : Prop :=
  IsMonomial e.toMonomial.2 e.toMonomial.1 e

section Terms

variable {c : ℤ} {v : Exponents} {e : Expr} {l : List Expr}

lemma IsMonomial.toMonomial (h : IsMonomial c v e) (hc : c ≠ 0) : e.toMonomial = (v, c) := by
  have hfactors := h.hasFactors
  rw [Expr.toMonomial, hfactors.coefficients, hfactors.exponents hc]

lemma IsMonomial.isTerm (h : IsMonomial c v e) : IsTerm e := by
  by_cases hc : c = 0
  · have hzero : e.toMonomial.2 = 0 := h.hasFactors.coefficients.trans hc
    cases h with
    | literal _ he =>
      rw [hc, ← hzero] at he
      exact .literal (.inl hzero) he
    | chain hne _ _ _ _ => exact absurd hc hne
  · rw [IsTerm, h.toMonomial hc]
    exact h

lemma IsLiteral.toMonomial {k : ℤ} (h : IsLiteral k e) : e.toMonomial = (0, k) := by
  have hfactors := h.hasFactors
  rw [Expr.toMonomial, h.isAtom.factors, hfactors.coefficients]
  simp [exponentSum, h.isScalarFactor]

lemma IsLiteral.isTerm {k : ℤ} (h : IsLiteral k e) : IsTerm e := by
  rw [IsTerm, h.toMonomial]
  exact .literal (.inr rfl) h

/-- A power is a symbol or an application. -/
lemma IsPower.kind {i : ℕ} {k : ℤ} (h : IsPower i k e) :
    (∃ name, e.kind = .symbol name) ∨ ∃ t a, e.kind = .apply t a := by
  cases h with
  | base hx => exact .inl hx.symbol
  | raised hpower _ _ _ _ _ =>
    obtain ⟨t, a, hkind, -⟩ := power?_eq_some.1 hpower
    exact .inr ⟨t, a, hkind⟩

/-- A monomial with a variable is a symbol or an application. -/
lemma IsMonomial.kind (h : IsMonomial c v e) (hc : c ≠ 0) (hv : v ≠ 0) :
    (∃ name, e.kind = .symbol name) ∨ ∃ t a, e.kind = .apply t a := by
  cases h with
  | literal hcv _ => exact absurd (hcv.resolve_left hc) hv
  | @chain front l _ _ _ hl he =>
    have hne : l ≠ [] := fun h => hv (hl.eq_nil_iff.1 h)
    generalize hm : front ++ l = m at he
    cases he with
    | single _ =>
      have hmem : e ∈ l := by
        rcases List.append_eq_singleton_iff.1 hm with ⟨-, rfl⟩ | ⟨-, rfl⟩
        · simp
        · exact absurd rfl hne
      exact (hl.powers e hmem).kind
    | snoc _ hkind _ => exact .inr ⟨_, _, hkind⟩

lemma IsMonomial.isOpen (h : IsMonomial c v e) (hc : c ≠ 0) (hv : v ≠ 0) : IsOpen e := by
  have hkind := h.kind hc hv
  refine ⟨h.facts.1, ?_, ?_⟩
  · rcases hkind with ⟨_, hkind⟩ | ⟨_, _, hkind⟩ <;> simp [Expr.number?, hkind]
  · obtain ⟨ordinal, domain, kind⟩ := e
    rcases hkind with ⟨_, hkind⟩ | ⟨_, _, hkind⟩ <;> simp only [Expr.kind] at hkind <;> subst hkind
      <;> rfl

/-- A monomial is its own only term. -/
lemma IsMonomial.terms (h : IsMonomial c v e) : e.terms = [e] := by
  obtain ⟨ordinal, domain, kind⟩ := e
  by_cases hcv : c = 0 ∨ v = 0
  · cases h with
    | literal _ he =>
      obtain ⟨n, hkind, -⟩ := he.kind
      simp only [Expr.kind] at hkind
      subst hkind
      rfl
    | chain hc hv _ _ _ => exact absurd (hcv.resolve_left hc) hv
  · rw [not_or] at hcv
    rcases h.kind hcv.1 hcv.2 with ⟨_, hkind⟩ | ⟨_, _, hkind⟩ <;> simp only [Expr.kind] at hkind <;>
      subst hkind <;> rfl

lemma IsTerm.isOpen (h : IsTerm e) (hnumber : e.number? = none) :
    IsOpen e ∧ e.toMonomial.1 ≠ 0 ∧ e.toMonomial.2 ≠ 0 := by
  have hne : ¬(e.toMonomial.2 = 0 ∨ e.toMonomial.1 = 0) := by
    intro hcv
    cases h with
    | literal _ he =>
      obtain ⟨n, hn, -⟩ := he.number
      rw [hn] at hnumber
      cases hnumber
    | chain hc hv _ _ _ => exact hv (hcv.resolve_left hc)
  rw [not_or] at hne
  exact ⟨IsMonomial.isOpen h hne.1 hne.2, hne.2, hne.1⟩

lemma IsTerm.isLiteral (h : IsTerm e) (hnumber : e.number?.isSome = true) :
    IsLiteral e.intValue e := by
  cases h with
  | literal _ he => exact he.self
  | chain hc hv hfront hl he =>
    have hopen := IsMonomial.isOpen (.chain hc hv hfront hl he) hc hv
    rw [hopen.number?] at hnumber
    cases hnumber

/-- Every term is one of these. -/
def AreTerms (l : List Expr) : Prop :=
  ∀ e ∈ l, IsTerm e

end Terms

/-! ## Sorted terms -/

/-- The store knows the bare monomial with exponents `v`. -/
def HasBare (s : Store) (v : Exponents) : Prop :=
  ∃ k, s.Knows k ∧ IsMonomial 1 v k

open Classical in
/-- The place of a monomial in a sum: the constant comes first, and the others are ordered by the
ordinals of their bare monomials. -/
noncomputable def rank (s : Store) (v : Exponents) : ℕ :=
  if v = 0 then 0
  else if h : HasBare s v then h.choose.ordinal + 1
  else 0

section Rank

variable {v : Exponents} {k : Expr}

@[simp] lemma rank_zero : rank s 0 = 0 := if_pos rfl

lemma rank_eq (hs : s.WellFormed) (hk : s.Knows k) (h : IsMonomial 1 v k) (hv : v ≠ 0) :
    rank s v = k.ordinal + 1 := by
  have hexists : HasBare s v := ⟨k, hk, h⟩
  rw [rank, if_neg hv, dif_pos hexists,
    hexists.choose_spec.2.eq hs hexists.choose_spec.1 hk h]

end Rank

/-- The terms of a polynomial in their order. -/
structure IsTerms (s : Store) (P : Coefficients) (l : List Expr) : Prop where
  /-- They are canonical monomials. -/
  terms : AreTerms l
  /-- No coefficient is zero. -/
  nonzero : ∀ e ∈ l, e.toMonomial.2 ≠ 0
  /-- They are sorted. -/
  sorted : (l.map toMonomial).Pairwise fun p q => rank s p.1 < rank s q.1
  /-- The coefficients are as given. -/
  coefficients : collect (l.map toMonomial) = P

/-- The store knows the bare monomials of several terms.  A single term may stand without its bare
monomial. -/
def Bared (s : Store) (l : List Expr) : Prop :=
  l.length ≤ 1 ∨ ∀ e ∈ l, e.toMonomial.1 ≠ 0 → HasBare s e.toMonomial.1

lemma Bared.mono {l : List Expr} (h : Bared s l) (hle : ∀ e : Expr, s.Knows e → t.Knows e) :
    Bared t l := by
  refine h.imp id fun hall e he hv => ?_
  obtain ⟨k, hk, hmonomial⟩ := hall e he hv
  exact ⟨k, hle k hk, hmonomial⟩

namespace IsTerms

variable {P : Coefficients} {l m : List Expr}

/-- Sorted terms stay sorted, since their bare monomials are known. -/
lemma mono (hs : s.WellFormed) (ht : t.WellFormed) (hle : ∀ e : Expr, s.Knows e → t.Knows e)
    (h : IsTerms s P l) (hbare : Bared s l) : IsTerms t P l where
  terms := h.terms
  nonzero := h.nonzero
  sorted := by
    have hrank {e : Expr} (he : e ∈ l) (hall : ∀ e ∈ l, e.toMonomial.1 ≠ 0 → HasBare s e.toMonomial.1) :
        rank t e.toMonomial.1 = rank s e.toMonomial.1 := by
      by_cases hv : e.toMonomial.1 = 0
      · rw [hv, rank_zero, rank_zero]
      · obtain ⟨k, hk, hmonomial⟩ := hall e he hv
        rw [rank_eq hs hk hmonomial hv, rank_eq ht (hle k hk) hmonomial hv]
    rcases hbare with hlength | hall
    · match l, hlength with
      | [], _ | [_], _ => simp
    · refine List.pairwise_map.2 ((List.pairwise_map.1 h.sorted).imp_of_mem fun ha hb hlt => ?_)
      rwa [hrank ha hall, hrank hb hall]
  coefficients := h.coefficients

/-- In a well-formed store the terms of a polynomial are determined. -/
lemma eq (hs : s.WellFormed) (hl : s.Knows l) (hm : s.Knows m) (h : IsTerms s P l)
    (h' : IsTerms s P m) : l = m := by
  have hne {n : List Expr} (hn : IsTerms s P n) : ∀ p ∈ n.map toMonomial, p.2 ≠ 0 := by
    intro p hp
    obtain ⟨e, he, rfl⟩ := List.mem_map.1 hp
    exact hn.nonzero e he
  have hmap := eq_of_collect (rank s) h.sorted h'.sorted (hne h) (hne h')
    (h.coefficients.trans h'.coefficients.symm)
  have hterms := h.terms
  have hterms' := h'.terms
  clear h h' hne
  induction l generalizing m with
  | nil => exact (List.map_eq_nil_iff.1 hmap.symm).symm
  | cons e l ih =>
    cases m with
    | nil => cases hmap
    | cons e' m =>
      rw [List.map_cons, List.map_cons, List.cons.injEq] at hmap
      rw [Store.knows_cons] at hl hm
      have he' := hterms' e' (by simp)
      rw [IsTerm, ← hmap.1] at he'
      rw [IsMonomial.eq hs hl.1 hm.1 (hterms e (by simp)) he', ih hl.2 hm.2 hmap.2
        (fun f hf => hterms f (by simp [hf])) fun f hf => hterms' f (by simp [hf])]

end IsTerms

/-! ## Sums of terms -/

/-- The sum of canonical terms. -/
inductive IsSumOf : List Expr → Expr → Prop
  | zero {e : Expr} : IsLiteral 0 e → IsSumOf [] e
  | single (e : Expr) : IsSumOf [e] e
  | sum {a b e : Expr} {l : List Expr} : e.kind = .sum (a :: b :: l) → IsSumOf (a :: b :: l) e

/-- The canonical sum with the polynomial `P`. -/
def IsPolynomial (s : Store) (P : Coefficients) (e : Expr) : Prop :=
  ∃ l, IsTerms s P l ∧ Bared s l ∧ IsSumOf l e

lemma allTerms_eq_self {l : List Expr} (h : AreTerms l) : allTerms l = l := by
  induction l with
  | nil => rfl
  | cons e l ih =>
    rw [allTerms, IsMonomial.terms (h e (by simp)), ih fun f hf => h f (by simp [hf])]
    rfl

/-- What the terms of an expression add up to. -/
structure HasTerms (P : Coefficients) (l : List Expr) : Prop where
  /-- They are canonical monomials. -/
  terms : AreTerms l
  /-- They add up to the polynomial. -/
  coefficients : collect (l.map toMonomial) = P

lemma HasTerms.nil : HasTerms 0 [] := ⟨by simp [AreTerms], rfl⟩

lemma HasTerms.append {P Q : Coefficients} {l m : List Expr} (h : HasTerms P l)
    (h' : HasTerms Q m) : HasTerms (P + Q) (l ++ m) where
  terms e he := by
    rcases List.mem_append.1 he with he | he
    · exact h.terms e he
    · exact h'.terms e he
  coefficients := by rw [List.map_append, collect_append, h.coefficients, h'.coefficients]

namespace IsPolynomial

variable {P Q : Coefficients} {e e' : Expr}

lemma mono (hs : s.WellFormed) (ht : t.WellFormed) (hle : ∀ e : Expr, s.Knows e → t.Knows e)
    (h : IsPolynomial s P e) : IsPolynomial t P e := by
  obtain ⟨l, hl, hbare, he⟩ := h
  exact ⟨l, hl.mono hs ht hle hbare, hbare.mono hle, he⟩

lemma hasTerms (h : IsPolynomial s P e) : HasTerms P e.terms := by
  obtain ⟨l, hl, -, he⟩ := h
  cases he with
  | zero he =>
    rw [IsMonomial.terms he.isTerm]
    refine ⟨by simpa [AreTerms] using he.isTerm, ?_⟩
    rw [← hl.coefficients]
    simp [he.toMonomial]
  | single _ =>
    rw [IsMonomial.terms (hl.terms e (by simp))]
    exact ⟨hl.terms, hl.coefficients⟩
  | @sum a b _ l hkind =>
    obtain ⟨ordinal, domain, kind⟩ := e
    simp only [Expr.kind] at hkind
    subst hkind
    rw [Expr.terms, allTerms_eq_self hl.terms]
    exact ⟨hl.terms, hl.coefficients⟩

/-- A monomial is a polynomial. -/
lemma of_isMonomial {c : ℤ} {v : Exponents} (h : IsMonomial c v e) :
    IsPolynomial s (Finsupp.single v c) e := by
  by_cases hc : c = 0
  · cases h with
    | literal _ he =>
      rw [hc] at he ⊢
      exact ⟨[], ⟨by simp [AreTerms], by simp, by simp, by simp⟩, .inl (by simp), .zero he⟩
    | chain hne _ _ _ _ => exact absurd hc hne
  · refine ⟨[e], ⟨by simpa [AreTerms] using h.isTerm, ?_, by simp, ?_⟩, .inl (by simp), .single e⟩
    · simpa [h.toMonomial hc] using hc
    · simp [h.toMonomial hc]

/-- A node is one polynomial only. -/
lemma unique (h : IsPolynomial s P e) (h' : IsPolynomial t Q e) : P = Q :=
  h.hasTerms.coefficients.symm.trans h'.hasTerms.coefficients

lemma knows {l : List Expr} (hs : s.WellFormed) (he : s.Knows e) (h : IsSumOf l e) : s.Knows l := by
  cases h with
  | zero _ => simp
  | single _ => simpa using he
  | sum hkind =>
    have hchildren := hs.children he
    rwa [children, hkind] at hchildren

/-- In a well-formed store there is one node for each polynomial. -/
lemma eq (hs : s.WellFormed) (he : s.Knows e) (he' : s.Knows e') (h : IsPolynomial s P e)
    (h' : IsPolynomial s P e') : e = e' := by
  obtain ⟨l, hl, -, hsum⟩ := h
  obtain ⟨m, hm, -, hsum'⟩ := h'
  obtain rfl := hl.eq hs (knows hs he hsum) (knows hs he' hsum') hm
  cases hsum with
  | zero hzero =>
    cases hsum' with
    | zero hzero' => exact hzero.eq hs he he' hzero'
  | single _ =>
    cases hsum' with
    | single _ => rfl
  | sum hkind =>
    cases hsum' with
    | sum hkind' => exact hs.eq_of_code he he' (by rw [hkind, hkind']) (by rw [hkind']; rfl)

end IsPolynomial

/-! ## Splitting off coefficients -/

/-- A function of expressions multiplies monomials. -/
def Multiplies (d : ℕ) (product : List Expr → Build Expr) : Prop :=
  ∀ (s : Store) (ps : List (ℤ × Exponents)) (l : List Expr), Good s → s.Knows l →
    List.Forall₂ (fun p e => IsMonomial p.1 p.2 e) ps l →
      Achieves d s (product l) (IsMonomial (ps.map Prod.fst).prod (ps.map Prod.snd).sum)

/-- A power is a monomial. -/
lemma IsPower.isMonomial {i : ℕ} {k : ℤ} {e : Expr} (h : IsPower i k e) :
    IsMonomial 1 (Finsupp.single i k) e := by
  refine @IsMonomial.chain _ _ _ [] [e] one_ne_zero ?_ (.inl ⟨rfl, rfl⟩) ?_ (.single e)
  · simpa using h.ne_zero
  · exact ⟨by simpa [ArePowers] using h.self, by simp, by simp [h.toPower]⟩

lemma ArePowers.forall₂ {l : List Expr} (h : ArePowers l) :
    List.Forall₂ (fun p e => IsMonomial p.1 p.2 e)
      (l.map fun e => (1, Finsupp.single e.toPower.1 e.toPower.2)) l := by
  induction l with
  | nil => exact .nil
  | cons e l ih => exact .cons (h e (by simp)).isMonomial (ih fun f hf => h f (by simp [hf]))

lemma IsChain.isProduct {l : List Expr} {e : Expr} (h : IsChain l e) (hl : ∀ a ∈ l, IsAtom a)
    (hlength : 1 < l.length) : e.isProduct = true := by
  cases h with
  | single _ => simp at hlength
  | @snoc l f _ a hf hkind _ =>
    obtain ⟨hreal, hfunction, -⟩ := hf.facts fun b hb => hl b (by simp [hb])
    have ha := (hl a (by simp)).real
    simp [Expr.isProduct, hkind, multiplies, hfunction, hreal.isLinear, ha.isLinear]

variable {product : List Expr → Build Expr} [∀ l, Growing (product l)]

/-- A term is split into its bare monomial and its coefficient. -/
lemma achieves_splitCoefficient (hproduct : YieldsAll product) (hmul : Multiplies d product)
    (hs : Good s) {e : Expr} (hknown : s.Knows e) (h : IsTerm e) (hnumber : e.number? = none) :
    Achieves d s (splitCoefficient product e) fun p =>
      IsMonomial 1 e.toMonomial.1 p.1 ∧ p.2.IsInt e.toMonomial.2 where
  yields := yields_splitCoefficient hproduct hs hknown d
  exact := by
    obtain ⟨-, hv, hc⟩ := h.isOpen hnumber
    have hterm : IsMonomial e.toMonomial.2 e.toMonomial.1 e := h
    cases hterm with
    | literal hcv _ => exact absurd (hcv.resolve_left hc) hv
    | @chain front l _ _ hfront hl hchain =>
      have hatoms : ∀ a ∈ front ++ l, IsAtom a := fun a ha =>
        ((HasFactors.of_front hfront hl).factors a ha).isAtom
      have hfactors : e.factors = front ++ l := (hchain.facts hatoms).2.2
      rcases hfront with ⟨hone, rfl⟩ | ⟨-, k, rfl, hk⟩
      · -- Without a coefficient the first factor, if there is one, is a power.
        have hrun : splitCoefficient product e = pure (e, .one) := by
          unfold splitCoefficient
          rw [hfactors, List.nil_append]
          cases l with
          | nil => simp
          | cons a l => simp [(hl.powers a (by simp)).number?]
        rw [hrun]
        have hbare : IsMonomial e.toMonomial.2 e.toMonomial.1 e := h
        rw [hone] at hbare ⊢
        exact .pure ⟨hbare, Number.isInt_int 1⟩
      · -- A coefficient is taken off, and the factors behind it are multiplied again.
        have hne : l ≠ [] := fun h => hv (hl.eq_nil_iff.1 h)
        have hlength : 1 < ([k] ++ l).length := by
          have := List.length_pos_of_ne_nil hne
          simp only [List.length_append, List.length_singleton]
          omega
        obtain ⟨n, hn, hvalue⟩ := hk.number
        have hknown' : s.Knows l := by
          have hall := knows_factors (good_store.1 hs) hknown
          rw [hfactors, Store.knows_append] at hall
          exact hall.2
        unfold splitCoefficient
        rw [if_pos (hchain.isProduct hatoms hlength), hfactors]
        simp only [List.singleton_append, hn]
        refine (hmul s _ l hs hknown' hl.powers.forall₂).bind fun b t _ _ _ _ hb => .pure ⟨?_, hvalue⟩
        have hprod : ((l.map fun e => ((1 : ℤ), Finsupp.single e.toPower.1 e.toPower.2)).map
            Prod.fst).prod = 1 := by simp [Function.comp_def]
        have hsum : ((l.map fun e => ((1 : ℤ), Finsupp.single e.toPower.1 e.toPower.2)).map
            Prod.snd).sum = e.toMonomial.1 := by
          rw [← hl.exponents, collect, List.map_map, List.map_map]
          rfl
        rwa [hprod, hsum] at hb

/-! ## Putting terms together -/

/-- The bare monomial times a coefficient. -/
lemma achieves_scaledTerm (hproduct : YieldsAll product) (hmul : Multiplies d product)
    (hs : Good s) {n : Number} {c : ℤ} {v : Exponents} {k : Expr} (hknown : s.Knows k)
    (h : IsMonomial 1 v k) (hn : n.IsInt c) :
    Achieves d s (scaledTerm product k n) (IsMonomial c v) where
  yields := yields_scaledTerm hproduct hs hknown n d
  exact := by
    unfold scaledTerm
    split
    · rename_i hone
      rw [hn.isOne] at hone
      exact .pure (hone ▸ h)
    · refine (achieves_number hs hn).bind fun e t ht hle he _ hliteral => ?_
      have hpair : List.Forall₂ (fun p e => IsMonomial p.1 p.2 e) [(c, 0), (1, v)] [e, k] :=
        .cons (.literal (.inr rfl) hliteral) (.cons h .nil)
      simpa using (hmul t _ [e, k] ht (by simp [he, hknown.mono hle]) hpair).exact

/-- The keys are bare monomials with a variable, and the coefficients integers. -/
def AreTermGroups (groups : List (Expr × List Number)) : Prop :=
  ∀ g ∈ groups, IsMonomial 1 g.1.toMonomial.1 g.1 ∧ g.1.toMonomial.1 ≠ 0 ∧
    ∀ n ∈ g.2, n.IsInt n.intValue

/-- The coefficient of each key is the sum of those that were gathered for it. -/
noncomputable def totals (groups : List (Expr × List Number)) : List (Exponents × ℤ) :=
  groups.map fun g => (g.1.toMonomial.1, (g.2.map Number.intValue).sum)

lemma totals_cons (k : Expr) (ns : List Number) (groups : List (Expr × List Number)) :
    totals ((k, ns) :: groups) =
      (k.toMonomial.1, (ns.map Number.intValue).sum) :: totals groups := rfl

/-- The coefficients of one key, settled. -/
lemma achieves_settle_total (hs : Good s) {ns : List Number} {total : Number.Tracked}
    (h : Collapses Number.Tracked.of (Number.Tracked.combine .add) ns total)
    (hns : ∀ n ∈ ns, n.IsInt n.intValue) :
    Achieves d s (Build.settle total) fun n => n.IsInt (ns.map Number.intValue).sum where
  yields := yields_settle hs total d
  exact := by
    obtain ⟨n, rest, rfl, rfl⟩ := h
    have hrest : List.Forall₂ Number.IsInt rest (rest.map Number.intValue) := by
      rw [List.forall₂_map_right_iff, List.forall₂_same]
      exact fun m hm => hns m (by simp [hm])
    refine (exact_settle _).imp fun m _ _ _ hm => ?_
    rw [hm.1, List.map_cons, ← Number.foldl_add_eq_sum]
    exact Number.Tracked.foldl_isInt Number.computes_add hrest (fun _ => hns n (by simp)) hm.2

/-- The gathered terms, without those whose coefficients add up to zero. -/
lemma exact_scaledTerms (hproduct : YieldsAll product) (hmul : Multiplies d product) (hs : Good s)
    {groups : List (Expr × Number.Tracked)} {groups' : List (Expr × List Number)}
    (heq : List.Forall₂ (fun p q => p.1 = q.1 ∧
      Collapses Number.Tracked.of (Number.Tracked.combine .add) q.2 p.2) groups groups')
    (h : AreTermGroups groups') (hknown : ∀ g ∈ groups, s.Knows g.1) :
    Exact d s (scaledTerms product groups) fun l _ =>
      AreTerms l ∧ l.map toMonomial = (totals groups').filter fun p => p.2 ≠ 0 := by
  induction heq generalizing s with
  | nil => exact .pure ⟨by simp [AreTerms], rfl⟩
  | @cons p q groups groups' hpq _ ih =>
    obtain ⟨k, total⟩ := p
    obtain ⟨k', ns⟩ := q
    obtain ⟨hkey, hcollapses⟩ := hpq
    simp only at hkey hcollapses
    subst hkey
    obtain ⟨hmonomial, hv, hns⟩ := h (k, ns) (by simp)
    have hgroups : AreTermGroups groups' := fun g hg => h g (by simp [hg])
    simp only [List.mem_cons, forall_eq_or_imp] at hknown
    have hknown' {u : Store} (hle : s ≤ u) : ∀ g ∈ groups, u.Knows g.1 := fun g hg =>
      (hknown.2 g hg).mono hle
    rw [scaledTerms, totals_cons, List.filter_cons]
    refine (achieves_settle_total hs hcollapses hns).bind fun n t ht hle _ _ hn => ?_
    split
    · rename_i hzero
      rw [hn.isZero] at hzero
      simpa [hzero] using ih ht hgroups (hknown' hle)
    · rename_i hzero
      rw [hn.isZero] at hzero
      simp only [ne_eq, hzero, not_false_eq_true, decide_true, if_true]
      refine (achieves_scaledTerm hproduct hmul ht (hknown.1.mono hle) hmonomial hn).bind
        fun e u hu hle' _ _ he => ?_
      refine (show Achieves d u _ _ from ⟨yields_scaledTerms hproduct hu
        (hknown' (hle.trans hle')) d, ih hu hgroups (hknown' (hle.trans hle'))⟩).bind
        fun l w _ _ _ _ hl => .pure ⟨?_, ?_⟩
      · intro f hf
        rcases List.mem_cons.1 hf with rfl | hf
        · exact he.isTerm
        · exact hl.1 f hf
      · rw [List.map_cons, he.toMonomial hzero, hl.2]

lemma sumDomainFrom_real {l : List Expr} {left : Expr} {domain : Domain}
    (hdomain : domain = .integers ∨ domain = .reals) (h : ∀ e ∈ l, e.IsReal) :
    ∃ domain', sumDomainFrom left domain l = .ok domain' ∧
      (domain' = .integers ∨ domain' = .reals) := by
  induction l generalizing left domain with
  | nil => exact ⟨domain, rfl, hdomain⟩
  | cons e l ih =>
    have hresolve : ∃ d', domain.resolveSum? e.domain = some d' ∧ (d' = .integers ∨ d' = .reals) := by
      rcases hdomain with rfl | rfl <;> rcases h e (by simp) with he | he <;> rw [he]
      · exact ⟨_, rfl, .inl rfl⟩
      all_goals exact ⟨_, rfl, .inr rfl⟩
    obtain ⟨d', hd', hreal⟩ := hresolve
    rw [sumDomainFrom, hd']
    exact ih hreal fun f hf => h f (by simp [hf])

/-- Real terms can be added, and their sum is real. -/
lemma sumDomain_real {l : List Expr} (h : ∀ e ∈ l, e.IsReal) :
    ∃ domain, sumDomain l = .ok domain ∧ (domain = .integers ∨ domain = .reals) := by
  cases l with
  | nil => exact ⟨_, rfl, .inl rfl⟩
  | cons e l => exact sumDomainFrom_real (h e (by simp)) fun f hf => h f (by simp [hf])

/-- A sum of real terms is real. -/
lemma IsReal.of_sum (hs : s.WellFormed) {e : Expr} (he : s.Knows e) {terms : List Expr}
    (hkind : e.kind = .sum terms) (h : ∀ t ∈ terms, t.IsReal) : e.IsReal := by
  obtain ⟨domain, hdomain, hreal⟩ := sumDomain_real h
  have htyped := (hs.admits he).typed
  rw [hkind, Kind.Typed, hdomain, Except.ok.injEq] at htyped
  rwa [IsReal, ← htyped]

/-- The sum of terms; a constant that is left alone is zero. -/
lemma achieves_ofTerms (hs : Good s) {constant : Option Expr} {l : List Expr}
    (hconstant : s.Knows constant) (hl : s.Knows l) (hreal : ∀ e ∈ l, e.IsReal)
    (hzero : l = [] → ∀ c ∈ constant, IsLiteral 0 c) :
    Achieves d s (ofTerms constant l) (IsSumOf l) where
  yields := yields_ofTerms hs hconstant hl d
  exact := by
    unfold ofTerms
    split
    · cases constant with
      | none => exact (achieves_zero hs).exact.imp fun e _ _ _ he => .zero he
      | some c => exact .pure (.zero (hzero rfl c rfl))
    · exact .pure (.single _)
    · rename_i hne hne'
      obtain ⟨domain, hdomain, -⟩ := sumDomain_real hreal
      rw [hdomain]
      show Exact d s (Build.intern domain (.sum l)) _
      refine (achieves_intern hs (admits_sum hl hdomain) fun e t ht hle he hcode => ?_).exact
      have hkind := ht.kind_eq_sum he (hl.mono hle) hcode
      obtain _ | ⟨a, _ | ⟨b, l⟩⟩ := l
      · exact absurd rfl hne
      · exact absurd rfl (hne' a)
      · exact .sum hkind

/-! ## The sum of polynomials -/

lemma literals_eq_filter (l : List Expr) :
    literals l = literals (l.filter fun e => e.number?.isSome) := by
  rw [literals, literals, List.filterMap_filter]
  refine List.filterMap_congr fun e _ => ?_
  cases e.number? <;> simp

/-- The literals among some terms. -/
lemma AreTerms.areLiterals {l : List Expr} (h : AreTerms l) :
    AreLiterals (l.filter fun e => e.number?.isSome) := fun e he =>
  (h e (List.mem_filter.1 he).1).isLiteral (List.mem_filter.1 he).2

/-- The terms are the literals among them and the others. -/
lemma AreTerms.collect_eq {l : List Expr} (h : AreTerms l) : collect (l.map toMonomial) =
    Finsupp.single 0 ((l.filter fun e => e.number?.isSome).map intValue).sum +
      collect ((nonLiterals l).map toMonomial) := by
  have hperm := (List.filter_append_perm (fun e : Expr => e.number?.isSome) l).symm
  have hliterals : (l.filter fun e => e.number?.isSome).map toMonomial =
      ((l.filter fun e => e.number?.isSome).map intValue).map ((0 : Exponents), ·) := by
    rw [List.map_map]
    exact List.map_congr_left fun e he => (h.areLiterals e he).toMonomial
  have hothers : (l.filter fun e => !e.number?.isSome) = nonLiterals l := by
    simp [nonLiterals]
  rw [collect_perm (hperm.map toMonomial), List.map_append, collect_append, hliterals,
    collect_map_const, hothers]

/-- What splitting makes of terms that are no literals. -/
lemma split_toMonomial {l : List Expr} {split : List (Expr × Number)}
    (hopen : ∀ e ∈ l, e.toMonomial.1 ≠ 0) (h : List.Forall₂
      (fun e p => IsMonomial 1 e.toMonomial.1 p.1 ∧ p.2.IsInt e.toMonomial.2) l split) :
    (∀ p ∈ split, IsMonomial 1 p.1.toMonomial.1 p.1 ∧ p.1.toMonomial.1 ≠ 0 ∧
      p.2.IsInt p.2.intValue) ∧
      split.map (fun p => (p.1.toMonomial.1, p.2.intValue)) = l.map toMonomial := by
  induction h with
  | nil => simp
  | @cons e p _ _ hp _ ih =>
    obtain ⟨hall, hmap⟩ := ih fun f hf => hopen f (by simp [hf])
    rw [List.forall_mem_cons, List.map_cons, List.map_cons, hmap, hp.1.toMonomial one_ne_zero,
      hp.2.intValue]
    exact ⟨⟨⟨hp.1, hopen e (by simp), hp.2⟩, hall⟩, rfl⟩

/-- The gathered terms are in their order. -/
lemma isTerms_of_totals (hs : s.WellFormed) {l : List Expr} {groups : List (Expr × List Number)}
    (hl : AreTerms l) (hmap : l.map toMonomial = (totals groups).filter fun p => p.2 ≠ 0)
    (hgroups : AreTermGroups groups) (hknown : ∀ g ∈ groups, s.Knows g.1)
    (hsorted : groups.Pairwise fun p q => p.1.ordinal < q.1.ordinal) :
    IsTerms s (collect (totals groups)) l ∧
      ∀ e ∈ l, HasBare s e.toMonomial.1 ∧ 0 < rank s e.toMonomial.1 := by
  have hrank {g : Expr × List Number} (hg : g ∈ groups) :
      rank s g.1.toMonomial.1 = g.1.ordinal + 1 :=
    rank_eq hs (hknown g hg) (hgroups g hg).1 (hgroups g hg).2.1
  have htotal {e : Expr} (he : e ∈ l) : e.toMonomial.2 ≠ 0 ∧
      ∃ g ∈ groups, e.toMonomial.1 = g.1.toMonomial.1 := by
    have hmem : e.toMonomial ∈ (totals groups).filter fun p => p.2 ≠ 0 := by
      rw [← hmap]
      exact List.mem_map_of_mem he
    obtain ⟨htotals, hne⟩ := List.mem_filter.1 hmem
    obtain ⟨g, hg, heq⟩ := List.mem_map.1 htotals
    exact ⟨by simpa using hne, g, hg, by rw [← heq]⟩
  refine ⟨⟨hl, fun e he => (htotal he).1, ?_, ?_⟩, fun e he => ?_⟩
  · rw [hmap]
    refine List.Pairwise.filter _ (List.pairwise_map.2 (hsorted.imp_of_mem fun ha hb hlt => ?_))
    rw [hrank ha, hrank hb]
    omega
  · rw [hmap, collect_filter]
  · obtain ⟨-, g, hg, heq⟩ := htotal he
    rw [heq, hrank hg]
    exact ⟨⟨g.1, hknown g hg, (hgroups g hg).1⟩, Nat.succ_pos _⟩

/-- A constant in front of the other terms. -/
lemma IsTerms.cons {P : Coefficients} {k : ℤ} {c : Expr} {l : List Expr} (h : IsTerms s P l)
    (hl : ∀ e ∈ l, 0 < rank s e.toMonomial.1) (hc : IsLiteral k c) (hk : k ≠ 0) :
    IsTerms s (Finsupp.single 0 k + P) (c :: l) where
  terms := List.forall_mem_cons.2 ⟨hc.isTerm, h.terms⟩
  nonzero := List.forall_mem_cons.2 ⟨by simpa [hc.toMonomial] using hk, h.nonzero⟩
  sorted := by
    rw [List.map_cons, List.pairwise_cons]
    refine ⟨fun p hp => ?_, h.sorted⟩
    obtain ⟨e, he, rfl⟩ := List.mem_map.1 hp
    rw [hc.toMonomial, rank_zero]
    exact hl e he
  coefficients := by rw [List.map_cons, collect_cons, hc.toMonomial, h.coefficients]

/-- The constant in front, which is left out for zero. -/
lemma IsTerms.constant {P : Coefficients} {ks : List ℤ} {constant : Option Expr} {l : List Expr}
    (h : IsTerms s P l) (hl : ∀ e ∈ l, 0 < rank s e.toMonomial.1) (hc : IsConstant ks constant) :
    IsTerms s (Finsupp.single 0 ks.sum + P) ((constant.filter fun c => !c.isZero).toList ++ l) := by
  obtain ⟨rfl, rfl⟩ | ⟨c, rfl, hliteral⟩ := hc
  · simpa using h
  by_cases hzero : ks.sum = 0
  · simpa [Option.filter, hliteral.isZero.2 hzero, hzero] using h
  · have hne : c.isZero = false := by
      rw [← Bool.not_eq_true, hliteral.isZero]
      exact hzero
    simpa [Option.filter, hne] using h.cons hl hliteral hzero

/-- A constant without other terms that is left out is zero. -/
lemma IsConstant.of_nil {ks : List ℤ} {constant : Option Expr} {l : List Expr}
    (h : IsConstant ks constant) (hnil : (constant.filter fun c => !c.isZero).toList ++ l = []) :
    ∀ c ∈ constant, IsLiteral 0 c := by
  obtain ⟨-, rfl⟩ | ⟨c, rfl, hliteral⟩ := h
  · simp
  · rintro _ ⟨⟩
    have hzero : c.isZero = true := by
      have hfilter := (List.append_eq_nil_iff.1 hnil).1
      cases hc : c.isZero <;> simp [Option.filter, hc] at hfilter ⊢
    rwa [hliteral.isZero.1 hzero] at hliteral

/-- With a constant in front, the store still knows the bare monomials. -/
lemma IsConstant.bare {ks : List ℤ} {constant : Option Expr} {l : List Expr}
    (h : IsConstant ks constant) (hl : ∀ e ∈ l, HasBare s e.toMonomial.1) :
    ∀ e ∈ (constant.filter fun c => !c.isZero).toList ++ l, e.toMonomial.1 ≠ 0 →
      HasBare s e.toMonomial.1 := by
  intro e he hv
  rcases List.mem_append.1 he with he | he
  · have hmem := (Option.mem_filter_iff.1 (Option.mem_toList.1 he)).1
    obtain ⟨-, rfl⟩ | ⟨c, rfl, hliteral⟩ := h
    · cases hmem
    · obtain rfl : c = e := Option.some.inj hmem
      exact absurd (by rw [hliteral.toMonomial]) hv
  · exact hl e he

/-- In a sum the polynomials are added. -/
lemma exact_sumWith (hproduct : YieldsAll product) (hmul : Multiplies d product) (hs : Good s)
    {P : Coefficients} {l : List Expr} (hknown : s.Knows l) (h : HasTerms P (allTerms l)) :
    Exact d s (sumWith product l) fun e t => IsPolynomial t P e := by
  have hall := knows_allTerms (good_store.1 hs) hknown
  have hothers : s.Knows (nonLiterals (allTerms l)) := hall.of_subset List.filter_sublist.subset
  have hopen {e : Expr} (he : e ∈ nonLiterals (allTerms l)) : IsTerm e ∧ e.number? = none := by
    obtain ⟨hmem, hnone⟩ := List.mem_filter.1 he
    exact ⟨h.terms e hmem, by simpa using hnone⟩
  unfold sumWith
  have hliterals := h.terms.areLiterals.forall₂
  rw [← literals_eq_filter] at hliterals
  -- The literals among the terms add up to the constant term.
  refine (achieves_constant hs hliterals).bind fun constant s₁ hs₁ h₁ hconstant _ hconstant' => ?_
  have hreal : ∀ e ∈ constant.toList ++ nonLiterals (allTerms l), e.IsReal := by
    intro e he
    rcases List.mem_append.1 he with he | he
    · obtain ⟨-, rfl⟩ | ⟨c, rfl, hc⟩ := hconstant'
      · simp at he
      · simp only [Option.toList_some, List.mem_singleton] at he
        exact he ▸ hc.real
    · exact (IsMonomial.facts (hopen he).1).1
  obtain ⟨domain, hdomain, -⟩ := sumDomain_real hreal
  simp only [hdomain, Build.ofExcept, pure_bind]
  -- Every other term splits into a coefficient and a monomial, by which the terms are gathered.
  refine (Achieves.mapM hs₁ _ fun e he t ht hle => achieves_splitCoefficient hproduct hmul ht
    ((hothers e he).mono (h₁.trans hle)) (hopen he).1 (hopen he).2).bind
    fun split s₂ hs₂ h₂ hsplit _ hsplit' => ?_
  obtain ⟨hitems, hmap⟩ := split_toMonomial
    (fun e he => ((hopen he).1.isOpen (hopen he).2).2.1) hsplit'
  have hsep : Separated split := fun p hp q hq hordinal =>
    Store.WellFormed.eq_of_ordinal (hsplit p hp).1 (hsplit q hq).1 hordinal
  have hgroups : AreTermGroups (groups split) := by
    have hforall : ∀ g ∈ groups split, (IsMonomial 1 g.1.toMonomial.1 g.1 ∧
        g.1.toMonomial.1 ≠ 0) ∧ ∀ n ∈ g.2, n.IsInt n.intValue := gather_forall
      (P := fun k => IsMonomial 1 k.toMonomial.1 k ∧ k.toMonomial.1 ≠ 0)
      (Q := fun ns : List Number => ∀ n ∈ ns, n.IsInt n.intValue)
      (fun p hp => ⟨(hitems p hp).1, (hitems p hp).2.1⟩)
      (fun p hp => by simpa using (hitems p hp).2.2)
      (fun ns p hp hns => by
        simp only [List.mem_append, List.mem_singleton]
        rintro n (hn | rfl)
        · exact hns n hn
        · exact (hitems p hp).2.2)
    exact fun g hg => ⟨(hforall g hg).1.1, (hforall g hg).1.2, (hforall g hg).2⟩
  -- On monomials other than one the order is that of the ordinals.
  have hsorted : (groups split).Pairwise fun p q => p.1.ordinal < q.1.ordinal :=
    pairwise_gather fun p hp q hq =>
      ((hitems p hp).1.isOpen one_ne_zero (hitems p hp).2.1).le
        ((hitems q hq).1.isOpen one_ne_zero (hitems q hq).2.1)
  have hkeys : ∀ g ∈ gather Number.Tracked.of (Number.Tracked.combine .add) split, s₂.Knows g.1 :=
    gather_keys_forall fun p hp => (hsplit p hp).1
  have hkeys' : ∀ g ∈ groups split, s₂.Knows g.1 :=
    gather_keys_forall fun p hp => (hsplit p hp).1
  refine (show Achieves d s₂ _ _ from ⟨yields_scaledTerms hproduct hs₂ hkeys d,
    exact_scaledTerms hproduct hmul hs₂ gather_eq_groups hgroups hkeys⟩).bind
    fun scaled s₃ hs₃ h₃ hscaled _ hscaled' => ?_
  obtain ⟨hterms, hvariables⟩ := isTerms_of_totals (good_store.1 hs₃) hscaled'.1 hscaled'.2 hgroups
    (fun g hg => (hkeys' g hg).mono h₃) hsorted
  have hlist := hterms.constant (fun e he => (hvariables e he).2) hconstant'
  have hbare : Bared s₃ ((constant.filter fun c => !c.isZero).toList ++ scaled) :=
    .inr (hconstant'.bare fun e he => (hvariables e he).1)
  -- Gathering does not change the polynomial: the totals are its coefficients.
  have hP : Finsupp.single 0 (((allTerms l).filter fun e => e.number?.isSome).map intValue).sum +
      collect (totals (groups split)) = P := by
    rw [totals, collect_groups hsep (fun k => k.toMonomial.1) Number.intValue, hmap,
      ← h.terms.collect_eq, h.coefficients]
  rw [hP] at hlist
  have hconstant₃ : s₃.Knows constant := hconstant.mono (h₂.trans h₃)
  have hknown₃ : s₃.Knows ((constant.filter fun c => !c.isZero).toList ++ scaled) :=
    Store.knows_append.2
      ⟨Knows.toList fun e he => hconstant₃ e (Option.mem_filter_iff.1 he).1, hscaled⟩
  have hsum := achieves_ofTerms (d := d) hs₃ hconstant₃ hknown₃
    (fun e he => (IsMonomial.facts (hlist.terms e he)).1) (hconstant'.of_nil)
  refine hsum.exact.imp fun e t hrun _ he => ?_
  refine IsPolynomial.mono (good_store.1 hs₃) (good_store.1 (hsum.yields.of_ok hrun).1)
    (fun k hk => hk.mono (Growing.le_of_ok hrun)) ⟨_, hlist, hbare, he⟩

/-- Products multiply monomials. -/
lemma multiplies_canonicalProduct (hd : 0 < d) : Multiplies d canonicalProduct := by
  intro s ps l hs hl h
  obtain ⟨depth, rfl⟩ : ∃ n, d = n + 1 := ⟨d - 1, by omega⟩
  refine ⟨yields_canonicalProduct s l hs hl _, ?_⟩
  have hrun : canonicalProduct l (depth + 1) s = productAux (depth + 1) l (depth + 1) s := by
    simp [canonicalProduct, Run.bind_apply]
  rw [Exact, hrun]
  exact (achieves_productAux hs h hl depth).exact

/-- In a sum the polynomials are added. -/
lemma exact_sum (hs : Good s) (hd : 0 < d) {P : Coefficients} {l : List Expr} (hl : s.Knows l)
    (h : HasTerms P (allTerms l)) : Exact d s (sum l) fun e t => IsPolynomial t P e :=
  exact_sumWith yields_canonicalProduct (multiplies_canonicalProduct hd) hs hl h

end Expr

end TermGraph
