import TermGraph.Proofs.Ring.Products

/-!
# The value of sums in a ring

Sums within a sum are spliced, literals are added up, and terms that differ by a coefficient alone
are gathered.  Coefficients are integers, which are central, so a term may be split into its
coefficient and its other factors in any ring.
-/

namespace TermGraph

open Store (Knows)

namespace Expr

variable {R : Type*} [Ring R] {ν : Expr → R} {s : Store} {d : ℕ} {v : R} {e : Expr} {l : List Expr}

/-- The literals among some terms and the others add up to the value of the sum. -/
lemma sum_eq_parts (h : ∀ e ∈ l, e.Ordinary) : (l.map (valueIn ν)).sum =
    (((l.filter fun e => e.number?.isSome).map intValue).sum : ℤ) +
      ((nonLiterals l).map (valueIn ν)).sum := by
  have hperm : (l.filter (fun e => e.number?.isSome) ++ nonLiterals l).Perm l := by
    simpa [nonLiterals] using List.filter_append_perm (fun e => e.number?.isSome) l
  rw [← (hperm.map (valueIn ν)).sum_eq, List.map_append, List.sum_append, Int.cast_list_sum,
    List.map_map]
  congr 2
  refine List.map_congr_left fun e he => ?_
  obtain ⟨hmem, hnumber⟩ := List.mem_filter.1 he
  exact valueIn_literal ((h e hmem).literal hnumber)

/-! ## Coefficients -/

section Coefficients

/-- The value of a term for its other factors and its coefficient. -/
noncomputable def scaledValue (ν : Expr → R) (p : Expr × Number) : R :=
  p.2.intValue * p.1.valueIn ν

/-- The value of a key times the sum of the coefficients that were gathered for it. -/
noncomputable def totalValue (ν : Expr → R) (g : Expr × List Number) : R :=
  ((g.2.map Number.intValue).sum : ℤ) * g.1.valueIn ν

/-- Gathering keeps the sum. -/
lemma sum_totalValue {items : List (Expr × Number)} (hsep : Separated items) :
    ((groups items).map (totalValue ν)).sum = (items.map (scaledValue ν)).sum := by
  rw [← ((flatMap_groups hsep).map (scaledValue ν)).sum_eq]
  induction groups items with
  | nil => rfl
  | cons g gs ih =>
    rw [List.map_cons, List.sum_cons, ih, List.flatMap_cons, List.map_append, List.sum_append,
      List.map_map]
    congr 1
    simp only [totalValue, Function.comp_def, scaledValue]
    induction g.2 with
    | nil => simp
    | cons n ns ihn =>
      rw [List.map_cons, List.sum_cons, Int.cast_add, add_mul, ihn, List.map_cons, List.sum_cons]

variable {product : List Expr → Build Expr} [∀ l, Growing (product l)]

/-- A term is its coefficient times its other factors. -/
lemma ensures_splitCoefficient (hproduct : YieldsAll product) (hmul : MultipliesAll ν d product)
    (hs : Good s) (he : e.Ordinary) (hknown : s.Knows e) :
    Ensures (Store.valued ν) d s (splitCoefficient product e) fun p _ =>
      p.1.Ordinary ∧ p.2.IsInt p.2.intValue ∧ scaledValue ν p = e.valueIn ν := by
  have hwhole : Ensures (Store.valued ν) d s (Pure.pure (e, Number.one) : Build (Expr × Number))
      fun p _ => p.1.Ordinary ∧ p.2.IsInt p.2.intValue ∧ scaledValue ν p = e.valueIn ν :=
    .pure ⟨he, Number.isInt_int 1, by simp [scaledValue, Number.one, Number.intValue]⟩
  unfold splitCoefficient
  refine .ite (fun _ => ?_) fun _ => hwhole
  obtain ⟨hfactors, hprod⟩ := he.factors_spec (ν := ν)
  have hknown' := knows_factors (good_store.1 hs) hknown
  split
  · rename_i first rest hsplit
    rw [hsplit, List.forall_mem_cons] at hfactors
    rw [hsplit, Store.knows_cons] at hknown'
    rw [hsplit, List.map_cons, List.prod_cons] at hprod
    split
    · rename_i c hc
      have hliteral := hfactors.1.literal (by simp [hc])
      obtain ⟨n, hn, hvalue⟩ := hliteral.number
      rw [hc] at hn
      cases hn
      refine Delivers.bind ⟨hproduct s rest hs hknown'.2 d, hmul s rest hs hknown'.2 hfactors.2⟩
        fun b t _ _ _ _ hb => .pure ⟨hb.ordinary, by rwa [hvalue.intValue], ?_⟩
      rw [scaledValue, hvalue.intValue, hb.valueIn, ← valueIn_literal (ν := ν) hliteral, hprod]
    · exact hwhole
  · exact hwhole

/-- A term times a coefficient. -/
lemma ensures_scaledTerm (hmul : MultipliesAll ν d product) (hs : Good s) {c : Number} {k : ℤ}
    (he : ValuedAt ν v e) (hc : c.IsInt k) (hknown : s.Knows e) :
    Ensures (Store.valued ν) d s (scaledTerm product e c) fun e _ => ValuedAt ν (k * v) e := by
  unfold scaledTerm
  refine .ite (fun hone => .pure ?_) fun _ => ?_
  · rw [hc.isOne] at hone
    rwa [hone, Int.cast_one, one_mul]
  · refine ((achieves_number hs hc).delivers Store.valued_le).bind fun n t ht hle hn _ hliteral => ?_
    have hknown' : t.Knows [n, e] := by
      simp only [Store.knows_cons]
      exact ⟨hn, hknown.mono hle, Store.knows_nil⟩
    have hvalues := hmul t [n, e] ht hknown' (by simpa using ⟨.of_literal hliteral, he.ordinary⟩)
    simpa [valueIn_literal hliteral, he.valueIn] using hvalues

/-- The keys are ordinary, and the coefficients integers. -/
def AreOrdinaryTerms (groups : List (Expr × List Number)) : Prop :=
  ∀ g ∈ groups, g.1.Ordinary ∧ ∀ n ∈ g.2, n.IsInt n.intValue

/-- The gathered terms add up to the values of the groups. -/
lemma ensures_scaledTerms (hproduct : YieldsAll product) (hmul : MultipliesAll ν d product)
    (hs : Good s) {groups : List (Expr × Number.Tracked)} {groups' : List (Expr × List Number)}
    (heq : List.Forall₂ (fun p q => p.1 = q.1 ∧
      Collapses Number.Tracked.of (Number.Tracked.combine .add) q.2 p.2) groups groups')
    (h : AreOrdinaryTerms groups') (hknown : ∀ g ∈ groups, s.Knows g.1) :
    Ensures (Store.valued ν) d s (scaledTerms product groups) fun m _ =>
      (m.map (valueIn ν)).sum = (groups'.map (totalValue ν)).sum := by
  induction heq generalizing s with
  | nil => exact .pure rfl
  | @cons p q groups groups' hpq _ ih =>
    obtain ⟨key, total⟩ := p
    obtain ⟨key', ns⟩ := q
    obtain ⟨hkey, hcollapses⟩ := hpq
    simp only at hkey hcollapses
    subst hkey
    obtain ⟨hordinary, hns⟩ := h (key, ns) (by simp)
    have hgroups : AreOrdinaryTerms groups' := fun g hg => h g (by simp [hg])
    simp only [List.mem_cons, forall_eq_or_imp] at hknown
    have hknown' {u : Store} (hle : s ≤ u) : ∀ g ∈ groups, u.Knows g.1 := fun g hg =>
      (hknown.2 g hg).mono hle
    rw [scaledTerms, List.map_cons, List.sum_cons]
    refine ((achieves_settle_total hs hcollapses hns).delivers Store.valued_le).bind
      fun c t ht hle _ _ hc => ?_
    refine .ite (fun hzero => ?_) fun _ => ?_
    · rw [hc.isZero] at hzero
      rw [totalValue, hzero, Int.cast_zero, zero_mul, zero_add]
      exact ih ht hgroups (hknown' hle)
    · refine Delivers.bind ⟨yields_scaledTerm hproduct ht (hknown.1.mono hle) c d,
        ensures_scaledTerm hmul ht hordinary.valuedAt hc (hknown.1.mono hle)⟩
        fun e u hu hle' _ _ he => ?_
      refine Delivers.bind ⟨yields_scaledTerms hproduct hu (hknown' (hle.trans hle')) d,
        ih hu hgroups (hknown' (hle.trans hle'))⟩ fun m w _ _ _ _ hm => .pure ?_
      rw [List.map_cons, List.sum_cons, he.valueIn, hm, totalValue]

/-- What splitting makes of a list of terms. -/
lemma splitCoefficients_spec {split : List (Expr × Number)} (h : List.Forall₂ (fun e p =>
      p.1.Ordinary ∧ p.2.IsInt p.2.intValue ∧ scaledValue ν p = e.valueIn ν) l split) :
    (∀ p ∈ split, p.1.Ordinary ∧ p.2.IsInt p.2.intValue) ∧
      split.map (scaledValue ν) = l.map (valueIn ν) := by
  induction h with
  | nil => simp
  | cons hp _ ih =>
    rw [List.forall_mem_cons, List.map_cons, List.map_cons, hp.2.2, ih.2]
    exact ⟨⟨⟨hp.1, hp.2.1⟩, ih.1⟩, rfl⟩

end Coefficients

/-! ## Sums -/

section Sums

/-- The sum of terms; a constant that is left alone is zero. -/
lemma ensures_ofTerms (hs : Good s) {constant : Option Expr} (hknown : s.Knows l)
    (hzero : l = [] → ∀ c ∈ constant, IsLiteral 0 c) :
    Ensures (Store.valued ν) d s (ofTerms constant l)
      fun e _ => e.valueIn ν = (l.map (valueIn ν)).sum := by
  obtain _ | ⟨a, _ | ⟨b, l⟩⟩ := l
  · have hvalue {e : Expr} (he : IsLiteral 0 e) : e.valueIn ν = (([] : List Expr).map (valueIn ν)).sum := by
      rw [valueIn_literal he]
      simp
    cases constant with
    | none => exact ((achieves_zero hs).ensures Store.valued_le).imp fun _ _ _ _ he => hvalue he
    | some c => exact .pure (hvalue (hzero rfl c rfl))
  · exact .pure (by simp)
  · change Ensures _ d s (Build.ofExcept id (sumDomain (a :: b :: l)) >>=
      fun domain => Build.intern domain (.sum (a :: b :: l))) _
    generalize a :: b :: l = terms at hknown
    cases hdomain : sumDomain terms with
    | error e => exact .throw e
    | ok domain =>
      refine ((achieves_intern (Q := fun e => e.kind = .sum terms) hs (admits_sum hknown hdomain)
        fun e u hu hle he hcode => hu.kind_eq_sum he (hknown.mono hle) hcode).ensures
          Store.valued_le).imp fun e _ _ _ he => valueIn_sum he

/-- The constant in front, which is left out for zero. -/
lemma sum_constant {ks : List ℤ} {constant : Option Expr} (h : IsConstant ks constant) :
    (((constant.filter fun c => !c.isZero).toList).map (valueIn ν)).sum = (ks.sum : ℤ) := by
  obtain ⟨rfl, rfl⟩ | ⟨c, rfl, hliteral⟩ := h
  · simp
  cases hzero : c.isZero with
  | true =>
    rw [hliteral.isZero] at hzero
    simp [Option.filter, hliteral.isZero.2 hzero, hzero]
  | false => simp [Option.filter, hzero, valueIn_literal hliteral]

/-- A canonical sum has the sum of the values of its terms as its value. -/
lemma ensures_sumWith {product : List Expr → Build Expr} [∀ l, Growing (product l)]
    (hproduct : YieldsAll product) (hmul : MultipliesAll ν d product) (hs : Good s)
    (hknown : s.Knows l) (h : ∀ e ∈ l, e.Ordinary) :
    Ensures (Store.valued ν) d s (sumWith product l)
      fun e _ => e.valueIn ν = (l.map (valueIn ν)).sum := by
  obtain ⟨hterms, hsum⟩ := allTerms_spec (ν := ν) l h
  have hall := knows_allTerms (good_store.1 hs) hknown
  have hothers : s.Knows (nonLiterals (allTerms l)) := hall.of_subset List.filter_sublist.subset
  have hordinary : ∀ e ∈ nonLiterals (allTerms l), e.Ordinary := fun e he =>
    hterms e (List.mem_filter.1 he).1
  rw [← hsum, sum_eq_parts hterms]
  unfold sumWith
  refine ((achieves_constant hs (isInt_literals hterms)).delivers Store.valued_le).bind
    fun constant s₁ hs₁ h₁ hconstant _ hconstant' => ?_
  -- The domain may be refused, but has no bearing on the value.
  refine Delivers.bind (Q := fun _ _ => True)
    ⟨Yields.ofExcept hs₁ (fun d _ => Store.knows_plain d) d, fun _ _ _ _ => trivial⟩
    fun _ s₂ hs₂ h₂ _ _ _ => ?_
  have hothers : s₂.Knows (nonLiterals (allTerms l)) := (hothers.mono h₁).mono h₂
  have hsplits : Delivers (Store.valued ν) d s₂ ((nonLiterals (allTerms l)).mapM
      (splitCoefficient product)) fun split _ => True ∧ List.Forall₂ (fun e p =>
        p.1.Ordinary ∧ p.2.IsInt p.2.intValue ∧ scaledValue ν p = e.valueIn ν)
        (nonLiterals (allTerms l)) split :=
    ⟨Yields.mapM hs₂ _ (fun e he t ht hle =>
        yields_splitCoefficient hproduct ht ((hothers e he).mono hle)) d,
      Delivers.mapM (I := fun _ => True) hs₂ trivial _ fun e he t ht hle _ =>
        ⟨yields_splitCoefficient hproduct ht ((hothers e he).mono hle) d,
          (ensures_splitCoefficient hproduct hmul ht (hordinary e he) ((hothers e he).mono hle)).imp
            fun _ _ _ _ hp => ⟨trivial, hp⟩⟩⟩
  refine hsplits.bind fun split s₃ hs₃ h₃ hsplit _ hsplit' => ?_
  obtain ⟨hitems, hmap⟩ := splitCoefficients_spec hsplit'.2
  have hsep : Separated split := fun p hp q hq hordinal =>
    Store.WellFormed.eq_of_ordinal (hsplit p hp).1 (hsplit q hq).1 hordinal
  have hgroups : AreOrdinaryTerms (groups split) := by
    refine gather_forall (P := Ordinary) (Q := fun ns : List Number => ∀ n ∈ ns, n.IsInt n.intValue)
      (fun p hp => (hitems p hp).1) (fun p hp => by simpa using (hitems p hp).2) fun ns p hp hns => ?_
    exact List.forall_mem_append.2 ⟨hns, by simpa using (hitems p hp).2⟩
  have hkeys : ∀ g ∈ gather Number.Tracked.of (Number.Tracked.combine .add) split,
      s₃.Knows g.1 := gather_keys_forall fun p hp => (hsplit p hp).1
  refine Delivers.bind ⟨yields_scaledTerms hproduct hs₃ hkeys d,
    ensures_scaledTerms hproduct hmul hs₃ gather_eq_groups hgroups hkeys⟩
    fun scaled s₄ hs₄ h₄ hscaled _ hscaled' => ?_
  -- The totals of the groups have the sum of the values of the terms that were split.
  rw [sum_totalValue hsep, hmap] at hscaled'
  rw [← sum_constant hconstant', ← hscaled', ← List.sum_append, ← List.map_append]
  have hconstant₄ : s₄.Knows constant := hconstant.mono (h₂.trans (h₃.trans h₄))
  exact ensures_ofTerms hs₄ (Store.knows_append.2
    ⟨Knows.toList fun e he => hconstant₄ e (Option.mem_filter_iff.1 he).1, hscaled⟩) hconstant'.of_nil

lemma ensures_sum (hs : Good s) (hknown : s.Knows l) (h : ∀ e ∈ l, e.Ordinary) :
    Ensures (Store.valued ν) d s (Expr.sum l)
      fun e _ => e.valueIn ν = (l.map (valueIn ν)).sum :=
  ensures_sumWith yields_canonicalProduct multipliesAll_canonicalProduct hs hknown h

end Sums

end Expr

end TermGraph
