import TermGraph.Proofs.Order.Products

/-!
# Sums in any order

The canonical sum of graded operands, and later the sum of the same operands in any order.  The
literals add up to the same constant, the other terms are gathered in the same order with the same
coefficients, and each of them is multiplied by its coefficient to the same node.

* `Expr.repeats_splitCoefficient`, `Expr.repeats_scaledTerms`, `Expr.repeats_ofTerms`: the steps.
* `Expr.sumsAgree_of_productsAgree`: the order of terms does not matter if products are found again.
-/

namespace TermGraph

open Store (Knows)

namespace Expr

variable {s t : Store} {d k : ℕ} {P : Prop}

/-! ## Constants -/

/-- The literals of a sum add up to the same constant in any order. -/
lemma repeats_constant (hs : Good s) {l l' : List Expr} (h : ∀ e ∈ l, IsDiscrete e)
    (hperm : l.Perm l') :
    Repeats d s ((combine .add (literals l)).mapM fun total => do number (← Build.settle total))
      ((combine .add (literals l')).mapM fun total => do number (← Build.settle total))
      (IsConstant (literalValues l)) Eq where
  yields := (achieves_constant hs (forall₂_literalValues h)).yields
  exact := by
    have hl := forall₂_literalValues h
    have hl' := forall₂_literalValues fun e he => h e (hperm.symm.subset he)
    have hvalues := perm_literalValues hperm
    cases hks : literalValues l with
    | nil =>
      rw [hks] at hl hvalues
      rw [← hvalues.nil_eq] at hl'
      rw [List.forall₂_nil_right_iff.1 hl, List.forall₂_nil_right_iff.1 hl']
      exact .pure ⟨.inl ⟨rfl, rfl⟩, .pure rfl⟩
    | cons m ms =>
      rw [hks] at hl hvalues
      obtain ⟨m', ms', hks'⟩ : ∃ m' ms', literalValues l' = m' :: ms' :=
        List.exists_cons_of_ne_nil fun hnil => by simp [hnil] at hvalues
      rw [hks'] at hl' hvalues
      obtain ⟨total, hcombine, htotal⟩ := Number.combine_isInt Number.computes_add hl
      obtain ⟨total', hcombine', htotal'⟩ := Number.combine_isInt Number.computes_add hl'
      rw [Number.foldl_add_eq_sum] at htotal htotal'
      rw [← hvalues.sum_eq] at htotal'
      simp only [hcombine, hcombine', Option.mapM_some, Run.map_eq_bind, bind_assoc]
      refine (repeats_settle hs htotal htotal').bind_eq fun n t ht _ _ hn => ?_
      refine (repeats_number ht hn).bind_eq fun e u _ _ _ he => ?_
      exact .pure ⟨.inr ⟨e, rfl, he⟩, .pure rfl⟩

/-- The constant of a sum is a literal. -/
lemma IsConstant.isLiteral {ks : List ℤ} {constant : Option Expr} (h : IsConstant ks constant) :
    ∀ c ∈ constant, IsLiteral ks.sum c := by
  obtain ⟨-, rfl⟩ | ⟨c, rfl, hc⟩ := h
  · simp
  · simpa using hc

/-! ## Coefficients -/

/-- Integers that were gathered add up to their sum. -/
lemma isInt_of_collapses {ns : List Number} {total : Number.Tracked} (h : ∀ n ∈ ns, ∃ c, n.IsInt c)
    (hcollapse : Collapses Number.Tracked.of (Number.Tracked.combine .add) ns total)
    (hkept : total.kept = true) : total.value.IsInt (ns.map Number.intValue).sum := by
  obtain ⟨n, rest, rfl, rfl⟩ := hcollapse
  have hint {m : Number} (hm : m ∈ n :: rest) : m.IsInt m.intValue := by
    obtain ⟨c, hc⟩ := h m hm
    exact hc.intValue ▸ hc
  have hrest : List.Forall₂ Number.IsInt rest (rest.map Number.intValue) :=
    List.forall₂_map_right_iff.2 (List.forall₂_same.2 fun m hm => hint (by simp [hm]))
  rw [List.map_cons, ← Number.foldl_add_eq_sum]
  exact Number.Tracked.foldl_isInt Number.computes_add hrest
    (fun _ => hint (List.mem_cons_self ..)) hkept

variable {p q : List Expr → Build Expr} [∀ l, Growing (p l)] [∀ l, Growing (q l)]

/-- A term is split into a graded term and an integer coefficient. -/
lemma repeats_splitCoefficient (hp : YieldsAll p) (hpq : ProductsAgree d k p q) (hs : Good s) {e : Expr}
    (he : s.Knows e) (h : Fits P k e) :
    Repeats d s (splitCoefficient p e) (splitCoefficient q e)
      (fun r => Fits P k r.1 ∧ ∃ c, r.2.IsInt c) Eq where
  yields := yields_splitCoefficient hp hs he d
  exact := by
    have hone : Exact d s (pure (e, Number.one) : Build (Expr × Number)) fun r t =>
        (Fits P k r.1 ∧ ∃ c, r.2.IsInt c) ∧ Later t (pure (e, Number.one)) (Eq r) :=
      .pure ⟨⟨h, 1, Number.isInt_int 1⟩, .pure rfl⟩
    unfold splitCoefficient
    split
    · split
      · rename_i first rest hfactors
        have hknown := knows_factors (good_store.1 hs) he
        have hfits := h.factors
        have hmatrices := h.graded.length_matrixFactors
        have hflat : rest.flatMap factors = rest := by
          rw [List.flatMap_congr fun f hf => factors_of_mem_factors (e := e) (by simp [hfactors, hf])]
          simp
        rw [hfactors] at hknown hfits hmatrices
        rw [Store.knows_cons] at hknown
        rw [List.forall_mem_cons] at hfits
        split
        · rename_i c hc
          obtain ⟨c', hc', hint⟩ := (hfits.1.graded.literal (by simp [hc])).number
          obtain rfl : c' = c := Option.some.inj (hc'.symm.trans hc)
          have hlength : ((rest.flatMap factors).filter isMatrixFactor).length ≤ 1 := by
            rw [hflat]
            exact ((List.sublist_cons_self first rest).filter _).length_le.trans hmatrices
          refine (hpq P s rest rest hs hknown.2 hfits.2 hlength (.refl _)).bind_eq
            fun r t _ _ _ hr => ?_
          exact .pure ⟨⟨hr, _, hint⟩, .pure rfl⟩
        · exact hone
      · exact hone
    · exact hone

lemma repeats_scaledTerm (hp : YieldsAll p) (hpq : ProductsAgree d k p q) (hs : Good s) {e : Expr}
    (he : s.Knows e) (h : Fits P k e) {n : Number} {c : ℤ} (hn : n.IsInt c) :
    Repeats d s (scaledTerm p e n) (scaledTerm q e n) (Fits P k) Eq where
  yields := yields_scaledTerm hp hs he n d
  exact := by
    unfold scaledTerm
    split
    · exact .pure ⟨h, .pure rfl⟩
    · refine (repeats_number hs hn).bind_eq fun l t ht hle hknown hl => ?_
      have hfits : ∀ f ∈ [l, e], Fits P k f := by simpa using ⟨.of_literal hl, h⟩
      have hliteral : Fits True k l := .of_literal hl
      have hlength : (([l, e].flatMap factors).filter isMatrixFactor).length ≤ 1 := by
        simpa [hliteral.filter_isMatrixFactor] using h.graded.length_matrixFactors
      exact (hpq P t [l, e] [l, e] ht (by grind) hfits hlength (.refl _)).exact

/-- Terms with the same coefficients. -/
lemma repeats_scaledTerms (hp : YieldsAll p) (hpq : ProductsAgree d k p q) (hs : Good s)
    {groups groups' : List (Expr × Number.Tracked)}
    (hgroups : List.Forall₂ (fun g g' => g.1 = g'.1 ∧ ∃ c : ℤ,
      (g.2.kept = true → g.2.value.IsInt c) ∧ (g'.2.kept = true → g'.2.value.IsInt c)) groups groups')
    (hknown : ∀ g ∈ groups, s.Knows g.1) (h : ∀ g ∈ groups, Fits P k g.1) :
    Repeats d s (scaledTerms p groups) (scaledTerms q groups') (fun l => ∀ e ∈ l, Fits P k e) Eq where
  yields := yields_scaledTerms hp hs hknown d
  exact := by
    induction hgroups generalizing s with
    | nil => exact .pure ⟨by simp, .pure rfl⟩
    | @cons g g' groups groups' hg _ ih =>
      obtain ⟨e, total⟩ := g
      obtain ⟨_, total'⟩ := g'
      obtain ⟨rfl, c, hc, hc'⟩ := hg
      rw [List.forall_mem_cons] at hknown h
      have hknown' {u : Store} (hle : s ≤ u) : ∀ g ∈ groups, u.Knows g.1 := fun g hg =>
        (hknown.2 g hg).mono hle
      rw [scaledTerms, scaledTerms]
      refine (repeats_settle hs hc hc').bind_eq fun n t ht hle _ hn => ?_
      split
      · exact ih ht (hknown' hle) h.2
      · refine (repeats_scaledTerm hp hpq ht (hknown.1.mono hle) h.1 hn).bind_eq
          fun f u hu hle' _ hf => ?_
        have hrest : Repeats d u (scaledTerms p groups) (scaledTerms q groups')
            (fun l => ∀ e ∈ l, Fits P k e) Eq :=
          ⟨yields_scaledTerms hp hu (hknown' (hle.trans hle')) d, ih hu (hknown' (hle.trans hle')) h.2⟩
        refine hrest.bind_eq fun l v _ _ _ hl => .pure ⟨?_, .pure rfl⟩
        exact List.forall_mem_cons.2 ⟨hf, hl⟩

/-! ## Sums -/

/-- Scalars and matrices can be added. -/
lemma repeats_sumDomain (hs : Good s) {l l' : List Expr} (h : ∀ e ∈ l, Fits P k e) :
    Repeats d s (Build.ofExcept id (sumDomain l)) (Build.ofExcept id (sumDomain l'))
      (fun domain => sumDomain l = .ok domain) (fun _ _ => True) where
  yields := Yields.ofExcept hs (fun _ _ => Store.knows_plain _) d
  exact := by
    obtain ⟨domain, hdomain, -⟩ := sumDomain_numeric fun e he => (h e he).graded.numeric
    rw [hdomain]
    exact .pure ⟨rfl, .any _⟩

/-- The sum of graded terms, in the same way each time. -/
lemma repeats_ofTerms (hs : Good s) {constant : Option Expr} {l : List Expr}
    (hconstant : s.Knows constant) (hl : s.Knows l) (hc : ∀ c ∈ constant, Fits P k c)
    (h : ∀ e ∈ l, Fits P k e) :
    Repeats d s (ofTerms constant l) (ofTerms constant l) (Fits P k) Eq where
  yields := yields_ofTerms hs hconstant hl d
  exact := by
    unfold ofTerms
    split
    · cases constant with
      | none =>
        exact (repeats_number hs (Number.isInt_int 0)).exact.imp fun e _ _ _ he =>
          ⟨.of_literal he.1, he.2⟩
      | some c => exact .pure ⟨hc c rfl, .pure rfl⟩
    · rename_i term
      exact .pure ⟨h term (by simp), .pure rfl⟩
    · obtain ⟨domain, hdomain, hnumeric, hscalar⟩ :=
        sumDomain_numeric fun e he => (h e he).graded.numeric
      rw [hdomain]
      show Exact d s (Build.intern domain (.sum l)) fun e t =>
        Fits P k e ∧ Later t (Build.intern domain (.sum l)) (Eq e)
      have hintern : Achieves d s (Build.intern domain (.sum l))
          fun e => e.kind = .sum l ∧ e.domain = domain := by
        refine achieves_intern hs (admits_sum hl hdomain) fun e u hu hle he hcode => ?_
        have hkind := hu.kind_eq_sum he (hl.mono hle) hcode
        have htyped := (hu.admits he).typed
        rw [hkind, Kind.Typed, hdomain, Except.ok.injEq] at htyped
        exact ⟨hkind, htyped.symm⟩
      refine (hintern.repeats (y := Build.intern domain (.sum l)) (R := Eq) fun e u hu he hspec =>
        .intern hu he (by rw [hspec.1]) rfl _).exact.imp fun e _ _ _ he => ⟨⟨?_, fun hP => ?_⟩, he.2⟩
      · exact .of_sum he.1.1 (he.1.2 ▸ hnumeric) (fun c hc => (h c hc).graded)
          (he.1.2 ▸ hscalar.1)
      · rw [he.1.2, hscalar]
        exact fun c hc => (h c hc).isScalar hP

/-- If products are found again, the order of terms does not matter. -/
lemma sumsAgree_of_productsAgree (hp : YieldsAll p) (hpq : ProductsAgree d k p q) :
    SumsAgree d k (sumWith p) (sumWith q) := by
  intro P s l l' hs hknown hl hperm
  refine ⟨yields_sumWith hp s l hs hknown d, ?_⟩
  have hall : ∀ e ∈ allTerms l, Fits P k e := fun e he => by
    rw [allTerms_eq_flatMap] at he
    obtain ⟨e', he', hmem⟩ := List.mem_flatMap.1 he
    exact (hl e' he').terms e hmem
  have hknown' := knows_allTerms (good_store.1 hs) hknown
  have hperm' : (allTerms l).Perm (allTerms l') := by
    rw [allTerms_eq_flatMap, allTerms_eq_flatMap]
    exact hperm.flatMap_right _
  have hothers : ∀ e ∈ nonLiterals (allTerms l), Fits P k e := fun e he =>
    hall e (List.mem_filter.1 he).1
  unfold sumWith
  -- In whichever order they come, the literals add up to the same constant, and each term splits
  -- in the same way.
  refine (repeats_constant hs (fun e he => (hall e he).graded.literal) hperm').bind_eq
    fun constant s₁ hs₁ h₁ hknown₁ hconstant => ?_
  have hc : ∀ c ∈ constant, Fits P k c := fun c hc => .of_literal (hconstant.isLiteral c hc)
  refine (repeats_sumDomain (P := P) (k := k) hs₁ (List.forall_mem_append.2
    ⟨by simpa using hc, hothers⟩)).bind (fun _ => trivial) fun _ _ s₂ hs₂ h₂ _ _ _ => ?_
  have hknown₂ : s₂.Knows (nonLiterals (allTerms l)) :=
    (hknown'.of_subset List.filter_sublist.subset).mono (h₁.trans h₂)
  refine (Repeats.mapM hs₂ (hperm'.filter _) fun e he t ht hle =>
    repeats_splitCoefficient hp hpq ht ((hknown₂ e he).mono hle) (hothers e he)).bind
    (fun _ => .refl _) fun split split' s₃ hs₃ h₃ hknown₃ hsplit hsplit' => ?_
  -- Gathering may meet the coefficients of a group in another order, with the same total.
  have hgroups : List.Forall₂ (fun g g' => g.1 = g'.1 ∧ ∃ c : ℤ,
      (g.2.kept = true → g.2.value.IsInt c) ∧ (g'.2.kept = true → g'.2.value.IsInt c))
      (gather Number.Tracked.of (Number.Tracked.combine .add) split)
      (gather Number.Tracked.of (Number.Tracked.combine .add) split') := by
    refine (forall₂_gather (good_store.1 hs₃) hsplit' (fun r hr => (hknown₃ r hr).1)
      fun r hr => (hsplit r hr).1.graded.literal).imp fun g g' hg => ?_
    obtain ⟨hkey, ns, ns', hns, hmem, hcollapse, hcollapse'⟩ := hg
    have hint : ∀ n ∈ ns, ∃ c, n.IsInt c := fun n hn => by
      obtain ⟨r, hr, rfl⟩ := List.mem_map.1 (hmem n hn)
      exact (hsplit r hr).2
    refine ⟨hkey, (ns.map Number.intValue).sum, isInt_of_collapses hint hcollapse, ?_⟩
    rw [(hns.map _).sum_eq]
    exact isInt_of_collapses (fun n hn => hint n (hns.symm.subset hn)) hcollapse'
  refine (repeats_scaledTerms hp hpq hs₃ hgroups
    (gather_keys_forall fun r hr => (hknown₃ r hr).1)
    (gather_keys_forall fun r hr => (hsplit r hr).1)).bind_eq
    fun scaled s₄ hs₄ h₄ hknown₄ hscaled => ?_
  have hknown₅ : s₄.Knows constant := hknown₁.mono (h₂.trans (h₃.trans h₄))
  refine (repeats_ofTerms hs₄ hknown₅ ?_ hc ?_).exact
  · refine Store.knows_append.2 ⟨Knows.toList fun e he => ?_, hknown₄⟩
    exact hknown₅ e (Option.mem_filter_iff.1 he).1
  · refine List.forall_mem_append.2 ⟨fun e he => ?_, hscaled⟩
    exact hc e (Option.mem_filter_iff.1 (Option.mem_toList.1 he)).1

end Expr

end TermGraph
