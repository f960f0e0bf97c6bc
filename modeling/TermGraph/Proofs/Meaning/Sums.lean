import TermGraph.Proofs.Meaning.Products

/-!
# The value of sums

Sums within a sum are spliced, literals are added up, and terms that differ by a coefficient alone
are gathered.  The value in a commutative ring stays what it is.

* `Meaning.achieves_splitCoefficient`: a term is its coefficient times its other factors.
* `Meaning.achieves_sum`: a canonical sum of scalars has the sum of their values.
-/

namespace TermGraph

open Store (Knows)

namespace Meaning

open TermGraph.Expr

variable {B : Type} [CommRing B] {M : Meaning B} {s : Store} {d : ℕ} {v : B} {e : Expr}
  {l : List Expr}

/-! ## Terms -/

section Terms

mutual

/-- The terms of a scalar are scalars, and add up to its value. -/
theorem terms_spec : ∀ e, M.Scalar e →
    (∀ t ∈ e.terms, M.Scalar t) ∧ (e.terms.map M.value).sum = M.value e
  | .node ordinal domain kind, he => by
    match kind with
    | .sum items =>
      rw [terms, M.value_sum (e := node ordinal domain (.sum items)) rfl]
      exact allTerms_spec items ((M.sum rfl (M.real he)).1 he)
    | .symbol _ | .number _ | .object _ _ | .field _ | .function _ | .tuple _ | .apply _ _
    | .generator _ _ _ | .chain _ | .inverse _ | .transpose _ | .indexedSum _ _ _ _
    | .collectionSum _ _ _ => simpa [terms] using he

/-- The terms of several scalars are scalars, and add up to the sum of their values. -/
theorem allTerms_spec : ∀ l : List Expr, (∀ e ∈ l, M.Scalar e) →
    (∀ t ∈ allTerms l, M.Scalar t) ∧ ((allTerms l).map M.value).sum = (l.map M.value).sum
  | [], _ => by simp [allTerms]
  | e :: l, h => by
    rw [List.forall_mem_cons] at h
    obtain ⟨hterms, hsum⟩ := terms_spec e h.1
    obtain ⟨hrest, hsum'⟩ := allTerms_spec l h.2
    rw [allTerms, List.map_append, List.sum_append, hsum, hsum', List.map_cons, List.sum_cons]
    exact ⟨List.forall_mem_append.2 ⟨hterms, hrest⟩, rfl⟩

end

/-- Scalars that are no literals are the scalar factors. -/
lemma nonLiterals_eq (h : ∀ e ∈ l, M.Scalar e) : nonLiterals l = l.filter isScalarFactor :=
  List.filter_congr fun e he => by simp [isScalarFactor, (M.real (h e he)).isScalar]

/-- The literals among some terms and the others add up to the value of the sum. -/
lemma sum_eq (h : ∀ e ∈ l, M.Scalar e) : (l.map M.value).sum =
    (((l.filter fun e => e.number?.isSome).map intValue).sum : ℤ) +
      ((nonLiterals l).map M.value).sum := by
  rw [← ((filter_literals_perm h).map M.value).sum_eq, List.map_append, List.sum_append,
    map_value_literals h, nonLiterals_eq h, Int.cast_list_sum]

end Terms

/-! ## Coefficients -/

section Coefficients

/-- A function of expressions multiplies scalars. -/
def Multiplies (M : Meaning B) (d : ℕ) (product : List Expr → Build Expr) : Prop :=
  ∀ (s : Store) (l : List Expr), Good s → s.Knows l → (∀ e ∈ l, M.Scalar e) →
    Achieves d s (product l) (M.Denotes (l.map M.value).prod)

/-- The value of a term for its other factors and its coefficient. -/
def termValue (M : Meaning B) (p : Expr × Number) : B :=
  p.2.intValue * M.value p.1

variable {product : List Expr → Build Expr} [∀ l, Growing (product l)]

/-- A term is its coefficient times its other factors. -/
lemma achieves_splitCoefficient (hproduct : YieldsAll product) (hmul : M.Multiplies d product)
    (hs : Good s) (he : M.Scalar e) (hknown : s.Knows e) :
    Achieves d s (splitCoefficient product e) fun p =>
      M.Scalar p.1 ∧ p.2.IsInt p.2.intValue ∧ termValue M p = M.value e where
  yields := yields_splitCoefficient hproduct hs hknown d
  exact := by
    have hwhole : Exact d s (Pure.pure (e, Number.one) : Build (Expr × Number)) fun p _ =>
        M.Scalar p.1 ∧ p.2.IsInt p.2.intValue ∧ termValue M p = M.value e :=
      .pure ⟨he, Number.isInt_int 1, by simp [termValue, Number.one, Number.intValue]⟩
    unfold splitCoefficient
    split
    · obtain ⟨hscalars, hprod⟩ := factors_spec he
      have hknown' := knows_factors (good_store.1 hs) hknown
      split
      · rename_i first rest hfactors
        rw [hfactors, List.forall_mem_cons] at hscalars
        rw [hfactors, Store.knows_cons] at hknown'
        rw [hfactors, List.map_cons, List.prod_cons] at hprod
        split
        · rename_i c hc
          have hliteral := M.number hscalars.1 (by simp [hc])
          obtain ⟨n, hn, hvalue⟩ := hliteral.number
          rw [hc] at hn
          cases hn
          refine (hmul s rest hs hknown'.2 hscalars.2).bind fun b t _ _ _ _ hb => .pure ?_
          refine ⟨hb.scalar, by rwa [hvalue.intValue], ?_⟩
          rw [termValue, hvalue.intValue, hb.value_eq, ← M.value_literal hliteral, hprod]
        · exact hwhole
      · exact hwhole
    · exact hwhole

/-- A term times a coefficient. -/
lemma achieves_scaledTerm (hproduct : YieldsAll product) (hmul : M.Multiplies d product)
    (hs : Good s) {c : Number} {k : ℤ} (he : M.Denotes v e) (hc : c.IsInt k) (hknown : s.Knows e) :
    Achieves d s (scaledTerm product e c) (M.Denotes (k * v)) where
  yields := yields_scaledTerm hproduct hs hknown c d
  exact := by
    unfold scaledTerm
    split
    · rename_i hone
      rw [hc.isOne] at hone
      rw [hone, Int.cast_one, one_mul]
      exact .pure he
    · refine (achieves_number hs hc).bind fun n t ht hle hn _ hliteral => ?_
      have hscalars : ∀ f ∈ [n, e], M.Scalar f := by
        simpa using ⟨M.literal hliteral, he.scalar⟩
      simpa [M.value_literal hliteral, he.value_eq] using
        (hmul t [n, e] ht (by simp [hn, hknown.mono hle]) hscalars).exact

/-- The value of a key times the sum of the coefficients that were gathered for it. -/
def totalValue (M : Meaning B) (g : Expr × List Number) : B :=
  ((g.2.map Number.intValue).sum : ℤ) * M.value g.1

/-- The keys are scalars, and the coefficients integers. -/
def AreTermGroups (M : Meaning B) (groups : List (Expr × List Number)) : Prop :=
  ∀ g ∈ groups, M.Scalar g.1 ∧ ∀ n ∈ g.2, n.IsInt n.intValue

/-- Gathering keeps the sum. -/
lemma sum_totalValue {items : List (Expr × Number)} (hsep : Separated items) :
    ((groups items).map (totalValue M)).sum = (items.map (termValue M)).sum := by
  rw [← ((flatMap_groups hsep).map (termValue M)).sum_eq]
  induction groups items with
  | nil => rfl
  | cons g gs ih =>
    rw [List.map_cons, List.sum_cons, ih, List.flatMap_cons, List.map_append, List.sum_append,
      List.map_map]
    congr 1
    simp only [totalValue, Function.comp_def, termValue]
    induction g.2 with
    | nil => simp
    | cons n ns ihn =>
      rw [List.map_cons, List.sum_cons, Int.cast_add, add_mul, ihn, List.map_cons, List.sum_cons]

/-- The gathered terms add up to the values of the groups. -/
lemma exact_scaledTerms (hproduct : YieldsAll product) (hmul : M.Multiplies d product) (hs : Good s)
    {groups : List (Expr × Number.Tracked)} {groups' : List (Expr × List Number)}
    (heq : List.Forall₂ (fun p q => p.1 = q.1 ∧
      Collapses Number.Tracked.of (Number.Tracked.combine .add) q.2 p.2) groups groups')
    (h : AreTermGroups M groups') (hknown : ∀ g ∈ groups, s.Knows g.1) :
    Exact d s (scaledTerms product groups) fun m _ =>
      (∀ e ∈ m, M.Scalar e) ∧ (m.map M.value).sum = (groups'.map (totalValue M)).sum := by
  induction heq generalizing s with
  | nil => exact .pure ⟨by simp, rfl⟩
  | @cons p q groups groups' hpq _ ih =>
    obtain ⟨key, total⟩ := p
    obtain ⟨key', ns⟩ := q
    obtain ⟨hkey, hcollapses⟩ := hpq
    simp only at hkey hcollapses
    subst hkey
    obtain ⟨hscalar, hns⟩ := h (key, ns) (by simp)
    have hgroups : AreTermGroups M groups' := fun g hg => h g (by simp [hg])
    simp only [List.mem_cons, forall_eq_or_imp] at hknown
    have hknown' {u : Store} (hle : s ≤ u) : ∀ g ∈ groups, u.Knows g.1 := fun g hg =>
      (hknown.2 g hg).mono hle
    rw [scaledTerms, List.map_cons, List.sum_cons]
    refine (achieves_settle_total hs hcollapses hns).bind fun c t ht hle _ _ hc => ?_
    split
    · rename_i hzero
      rw [hc.isZero] at hzero
      rw [totalValue, hzero, Int.cast_zero, zero_mul, zero_add]
      exact ih ht hgroups (hknown' hle)
    · refine (achieves_scaledTerm hproduct hmul ht (denotes_value hscalar) hc
        (hknown.1.mono hle)).bind fun e u hu hle' _ _ he => ?_
      refine (show Achieves d u _ _ from ⟨yields_scaledTerms hproduct hu
        (hknown' (hle.trans hle')) d, ih hu hgroups (hknown' (hle.trans hle'))⟩).bind
        fun m w _ _ _ _ hm => .pure ⟨List.forall_mem_cons.2 ⟨he.scalar, hm.1⟩, ?_⟩
      rw [List.map_cons, List.sum_cons, he.value_eq, hm.2, totalValue]

/-- What splitting makes of a list of terms. -/
lemma splitTerms_spec {split : List (Expr × Number)} (h : List.Forall₂
      (fun e p => M.Scalar p.1 ∧ p.2.IsInt p.2.intValue ∧ termValue M p = M.value e) l split) :
    (∀ p ∈ split, M.Scalar p.1 ∧ p.2.IsInt p.2.intValue) ∧
      split.map (termValue M) = l.map M.value := by
  induction h with
  | nil => simp
  | cons hp _ ih =>
    rw [List.forall_mem_cons, List.map_cons, List.map_cons, hp.2.2, ih.2]
    exact ⟨⟨⟨hp.1, hp.2.1⟩, ih.1⟩, rfl⟩

end Coefficients

/-! ## Sums -/

section Sums

lemma denotes_of_isSumOf (hs : s.WellFormed) (he : s.Knows e) (h : ∀ t ∈ l, M.Scalar t)
    (hsum : IsSumOf l e) : M.Denotes (l.map M.value).sum e := by
  cases hsum with
  | zero he => simpa using denotes_literal (M := M) he
  | single _ => simpa using denotes_value (h e (by simp))
  | sum hkind =>
    exact ⟨(M.sum hkind (.of_sum hs he hkind fun t ht => M.real (h t ht))).2 h, M.value_sum hkind⟩

/-- The sum of terms; a constant that is left alone is zero. -/
lemma achieves_ofTerms (hs : Good s) {constant : Option Expr} (hconstant : s.Knows constant)
    (hknown : s.Knows l) (h : ∀ e ∈ l, M.Scalar e)
    (hzero : l = [] → ∀ c ∈ constant, IsLiteral 0 c) :
    Achieves d s (ofTerms constant l) (M.Denotes (l.map M.value).sum) where
  yields := yields_ofTerms hs hconstant hknown d
  exact := by
    have hterms := Expr.achieves_ofTerms (d := d) hs hconstant hknown (fun e he => M.real (h e he))
      hzero
    refine hterms.exact.imp fun e t hrun _ he => ?_
    obtain ⟨ht, hknown⟩ := hterms.yields.of_ok hrun
    exact denotes_of_isSumOf (good_store.1 ht) hknown h he

/-- The constant in front, which is left out for zero. -/
lemma sum_constant {ks : List ℤ} {constant : Option Expr} (h : IsConstant ks constant) :
    (∀ c ∈ (constant.filter fun c => !c.isZero).toList, M.Scalar c) ∧
      (((constant.filter fun c => !c.isZero).toList).map M.value).sum = (ks.sum : ℤ) := by
  obtain ⟨rfl, rfl⟩ | ⟨c, rfl, hliteral⟩ := h
  · simp
  cases hzero : c.isZero with
  | true =>
    rw [hliteral.isZero] at hzero
    simp [Option.filter, hliteral.isZero.2 hzero, hzero]
  | false => simpa [Option.filter, hzero, M.value_literal hliteral] using M.literal hliteral

variable {product : List Expr → Build Expr} [∀ l, Growing (product l)]

/-- A sum of scalars has the sum of their values. -/
lemma achieves_sumWith (hproduct : YieldsAll product) (hmul : M.Multiplies d product) (hs : Good s)
    (hknown : s.Knows l) (h : ∀ e ∈ l, M.Scalar e) :
    Achieves d s (sumWith product l) (M.Denotes (l.map M.value).sum) where
  yields := yields_sumWith hproduct s l hs hknown d
  exact := by
    obtain ⟨hterms, hsum⟩ := allTerms_spec l h
    have hall := knows_allTerms (good_store.1 hs) hknown
    have hothers : s.Knows (nonLiterals (allTerms l)) := hall.of_subset List.filter_sublist.subset
    have hscalars : ∀ e ∈ nonLiterals (allTerms l), M.Scalar e := fun e he =>
      hterms e (List.mem_filter.1 he).1
    rw [← hsum, sum_eq hterms]
    unfold sumWith
    refine (achieves_constant hs (forall₂_literals hterms)).bind
      fun constant s₁ hs₁ h₁ hconstant _ hconstant' => ?_
    have hreal : ∀ e ∈ constant.toList ++ nonLiterals (allTerms l), e.IsReal := by
      refine List.forall_mem_append.2 ⟨fun e he => ?_, fun e he => M.real (hscalars e he)⟩
      obtain ⟨-, rfl⟩ | ⟨c, rfl, hc⟩ := hconstant'
      · simp at he
      · simp only [Option.toList_some, List.mem_singleton] at he
        exact he ▸ hc.real
    obtain ⟨domain, hdomain, -⟩ := sumDomain_real hreal
    simp only [hdomain, Build.ofExcept, pure_bind]
    refine (Achieves.mapM hs₁ _ fun e he t ht hle => achieves_splitCoefficient hproduct hmul ht
      (hscalars e he) ((hothers e he).mono (h₁.trans hle))).bind
      fun split s₂ hs₂ h₂ hsplit _ hsplit' => ?_
    obtain ⟨hitems, hmap⟩ := splitTerms_spec hsplit'
    have hsep : Separated split := fun p hp q hq hordinal =>
      Store.WellFormed.eq_of_ordinal (hsplit p hp).1 (hsplit q hq).1 hordinal
    have hgroups : AreTermGroups M (groups split) := by
      refine gather_forall (P := M.Scalar) (Q := fun ns : List Number => ∀ n ∈ ns, n.IsInt n.intValue)
        (fun p hp => (hitems p hp).1) (fun p hp => by simpa using (hitems p hp).2)
        fun ns p hp hns => ?_
      exact List.forall_mem_append.2 ⟨hns, by simpa using (hitems p hp).2⟩
    have hkeys : ∀ g ∈ gather Number.Tracked.of (Number.Tracked.combine .add) split,
        s₂.Knows g.1 := gather_keys_forall fun p hp => (hsplit p hp).1
    refine (show Achieves d s₂ _ _ from ⟨yields_scaledTerms hproduct hs₂ hkeys d,
      exact_scaledTerms hproduct hmul hs₂ gather_eq_groups hgroups hkeys⟩).bind
      fun scaled s₃ hs₃ h₃ hscaled _ hscaled' => ?_
    rw [sum_totalValue hsep, hmap] at hscaled'
    obtain ⟨hfront, hvalue⟩ := sum_constant (M := M) hconstant'
    rw [← hvalue, ← hscaled'.2, ← List.sum_append, ← List.map_append]
    have hconstant₃ : s₃.Knows constant := hconstant.mono (h₂.trans h₃)
    exact (achieves_ofTerms hs₃ hconstant₃ (Store.knows_append.2
      ⟨Knows.toList fun e he => hconstant₃ e (Option.mem_filter_iff.1 he).1, hscaled⟩)
      (List.forall_mem_append.2 ⟨hfront, hscaled'.1⟩) hconstant'.of_nil).exact

/-- A canonical sum of scalars has the sum of their values. -/
lemma achieves_sum (hs : Good s) (hd : 0 < d) (hknown : s.Knows l) (h : ∀ e ∈ l, M.Scalar e) :
    Achieves d s (Expr.sum l) (M.Denotes (l.map M.value).sum) :=
  achieves_sumWith yields_canonicalProduct
    (fun _ _ hs hknown h => achieves_canonicalProduct hs hd h hknown) hs hknown h

end Sums

end Meaning

end TermGraph
