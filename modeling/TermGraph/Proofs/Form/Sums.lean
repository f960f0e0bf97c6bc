import TermGraph.Proofs.Form.Stability

/-!
# What sums are made of

In a store without custom domains, where no sum has a sum for a term and products are canonical,
sums are canonical: a literal other than zero, if there is one, and then multiples of different
expressions without a coefficient, in the order of these.

* `Store.Summed s`: sums are canonical as long as no sum has a sum for a term and products are
  canonical.
* `Upkeep.summing`: it is kept up along with the invariant.
* `Store.Reachable.sum_terms`: it holds of every store that can be reached.
* `Store.Reachable.sum_spliced`: a new sum has no sum for a term, if no term that is added is a multiple
  of a sum.
-/

namespace TermGraph

open Store (Knows)

/-! ## Upkeep -/

namespace Store

variable {s t : Store} {domain : Domain} {kind : Kind}

lemma Flat.anti (h : t.Flat) (hle : s ≤ t) : s.Flat :=
  ⟨fun he => h.sum (he.mono hle), fun he => h.product (he.mono hle)⟩

/-- A check of all nodes. -/
lemma Flat.of_nodes
    (hsum : ∀ e ∈ s.nodes.toList, e.children.all (fun f => !f.kind.isSum) = true)
    (hproduct : ∀ e ∈ s.nodes.toList, e.isProduct = true →
      (∀ a ∈ e.children.tail, a.isProduct = false) ∧ (∀ f ∈ e.factors.tail, f.number? = none) ∧
      (∀ f ∈ e.factors, f.number?.isSome = true → f.isZero = false ∧ f.isOne = false) ∧
      (e.factors.filter Expr.isScalarFactor).Pairwise (fun f g => f.base.compare g.base = .lt) ∧
      ∀ f ∈ e.factors.dropLast, f.isMatrixFactor = false) : s.Flat where
  sum {e l} he hkind f hf := by
    have hchildren := List.all_eq_true.1 (hsum e (Array.mem_toList_iff.2 (Array.mem_of_getElem? he)))
    simpa using hchildren f (by simpa [Expr.children, hkind, Kind.children] using hf)
  product {e} he h := by
    obtain ⟨hargument, hliteral, hcoefficient, hbases, hmatrix⟩ :=
      hproduct e (Array.mem_toList_iff.2 (Array.mem_of_getElem? he)) h
    refine ⟨fun t a hkind => hargument a ?_, hliteral, hcoefficient, hbases, hmatrix⟩
    simp [Expr.children, hkind, Kind.children]

/-- Needless powers are not there, and sums are canonical as long as no sum has a sum for a term and
products are canonical. -/
structure Summed (s : Store) : Prop where
  /-- Needless powers are not there. -/
  power : ∀ {e b n : Expr}, s.Knows e → e.power? = some (b, n) →
    b.isOne = false ∧ n.isZero = false ∧ n.isOne = false
  /-- Sums are canonical. -/
  sum : s.Flat → ∀ {e : Expr} {l : List Expr}, s.Knows e → e.kind = .sum l → Expr.IsCanonicalSum s l

namespace Summed

lemma inForm (h : s.Summed) (hs : s.WellFormed) (hb : s.Builtin) (hflat : s.Flat) : s.InForm :=
  ⟨hs, hb, h.power, hflat, h.sum hflat⟩

/-- A new node may be added that is no needless power, and canonical if it is a sum. -/
lemma intern (h : s.Summed)
    (hpower : ∀ e b n : Expr, e.kind = kind → e.power? = some (b, n) →
      b.isOne = false ∧ n.isZero = false ∧ n.isOne = false)
    (hsum : s.Flat → ∀ l, kind = .sum l → Expr.IsCanonicalSum s l) : (s.intern domain kind).2.Summed where
  power he hp := by
    rcases knows_of_knows_intern he with he | rfl
    · exact h.power he hp
    · exact hpower _ _ _ rfl hp
  sum hflat e l he hkind := by
    have hle := s.le_intern domain kind
    rcases knows_of_knows_intern he with he | rfl
    · exact (h.sum (hflat.anti hle) he hkind).mono hle
    · exact (hsum (hflat.anti hle) l hkind).mono hle

lemma of_nodes (hle : s ≤ t) (hnodes : t.nodes = s.nodes) (h : s.Summed) : t.Summed where
  power he := h.power ((knows_iff_of_nodes hnodes).1 he)
  sum hflat _ _ he hkind := (h.sum (hflat.anti hle) ((knows_iff_of_nodes hnodes).1 he) hkind).mono hle

end Summed

end Store

/-! ## Steps of sums -/

namespace Expr

variable {s t u : Store} {d : ℕ} {e k : Expr} {l : List Expr}
variable {product : List Expr → Build Expr} [∀ l, Growing (product l)]

/-- A coefficient other than zero makes a multiple. -/
lemma isMultiple_scaledTerm (hproduct : Chains d s product) (hle : s ≤ t) (ht : Good t) (hk : t.Knows k)
    (hbare : AreBare s k.factors) {c : Number} (hzero : c.isZero = false) :
    Sound Good d t (scaledTerm product k c) fun e u => u.Knows e ∧ k.IsMultiple e := by
  refine (sound_scaledTerm_of_bare hproduct hle ht hk hbare hzero).imp fun e u hle' he => ⟨he.1, ?_⟩
  rcases he.2 with ⟨-, rfl⟩ | ⟨-, f, m, hf, hm, -, hcoefficient, hchained⟩
  · exact .inl rfl
  · have hlength : 2 ≤ (f :: k.factors).length := Nat.succ_le_succ k.length_factors_pos
    have hfactors : f.factors = [f] := factors_of_isProduct (by rw [isProduct, kind_of_number? hm])
    refine .inr ⟨hchained.isProduct hlength, f, hcoefficient, ?_⟩
    rw [hchained.factors_eq, List.flatMap_cons, hfactors, hbare.flatMap_factors]
    rfl

/-- Terms are multiples of different expressions, in the order of the groups. -/
lemma areMultiples_scaledTerms (hproduct : Chains d s product) (hle : s ≤ t) (ht : Good t)
    {groups : List (Expr × Number.Tracked)} (h : ∀ g ∈ groups, t.Knows g.1 ∧ AreBare s g.1.factors) :
    Sound Good d t (scaledTerms product groups) fun l u => ∃ pairs : List (Expr × Expr),
      l = pairs.map Prod.fst ∧ (pairs.map Prod.snd).Sublist (groups.map Prod.fst) ∧
      ∀ p ∈ pairs, u.Knows p.2 ∧ (∀ f ∈ p.2.factors, f.number? = none) ∧ p.2.IsMultiple p.1 := by
  induction groups generalizing t with
  | nil => exact .pure ht ⟨[], rfl, .refl _, by simp⟩
  | cons g groups ih =>
    obtain ⟨k, total⟩ := g
    rw [List.forall_mem_cons] at h
    have hrest {u : Store} (hle' : t ≤ u) (g : Expr × Number.Tracked) (hg : g ∈ groups) :
        u.Knows g.1 ∧ AreBare s g.1.factors := ⟨(h.2 g hg).1.mono hle', (h.2 g hg).2⟩
    rw [scaledTerms]
    refine (sound_settle ht total d).bind fun c u hu hle' _ => ?_
    split
    · refine (ih (hle.trans hle') hu (hrest hle')).imp fun l v hle'' hl => ?_
      obtain ⟨pairs, hpairs, hsub, hmultiple⟩ := hl
      exact ⟨pairs, hpairs, hsub.cons _, hmultiple⟩
    · rename_i hzero
      refine (isMultiple_scaledTerm hproduct (hle.trans hle') hu (h.1.1.mono hle') h.1.2
        (by simpa using hzero)).bind fun e v hv hle'' he => ?_
      have htv : t ≤ v := hle'.trans hle''
      refine (ih (hle.trans htv) hv (hrest htv)).bind fun l w hw hle₃ hl => .pure hw ?_
      obtain ⟨pairs, rfl, hsub, hmultiple⟩ := hl
      exact ⟨(e, k) :: pairs, rfl, hsub.cons_cons _, List.forall_mem_cons.2
        ⟨⟨(h.1.1.mono htv).mono hle₃, h.1.2.number, he.2⟩, hmultiple⟩⟩

/-- The literals are added up to one. -/
lemma sound_constant [Upkeep] (hs : Good s) (total : Option Number.Tracked) :
    Sound Good d s (total.mapM fun total => do number (← Build.settle total)) fun o t =>
      t.Knows o ∧ ∀ c ∈ o, c.number?.isSome = true := by
  cases total with
  | none => exact .pure hs ⟨by simp, by simp⟩
  | some total =>
    refine Sound.map (Q := fun f t => t.Knows f ∧ f.number?.isSome = true) ?_ fun f t _ hf =>
      ⟨by simpa using hf.1, by simpa using hf.2⟩
    refine (yields_settle hs total d).bind fun c t ht _ _ => (sound_number ht c).imp fun f u _ hf => ⟨hf.1, ?_⟩
    obtain ⟨m, hm, -⟩ := hf.2.2
    simp [hm]

/-- A sum of terms is a literal if there are none, the only term, or a new sum. -/
lemma sound_ofTerms (hs : Good s) {constant : Option Expr} (hconstant : ∀ c ∈ constant, c.number?.isSome = true)
    (hl : s.Knows l) : Sound Good d s (ofTerms constant l) fun e _ =>
      e.number?.isSome = true ∨ l = [e] ∨ 2 ≤ l.length ∧ e.kind = .sum l := by
  unfold ofTerms
  split
  · cases constant with
    | none => exact (sound_number hs _).imp fun e _ _ h => .inl (by
        obtain ⟨n, hn, -⟩ := h.2.2
        simp [hn])
    | some c => exact .pure hs (.inl (hconstant c rfl))
  · exact .pure hs (.inr (.inl rfl))
  · rename_i hne hne'
    refine (sound_sumDomain hs l d).bind fun domain t ht hle hdomain => ?_
    obtain ⟨hwf, hknown, hcode⟩ := ht.wellFormed.intern (admits_sum (hl.mono hle) hdomain)
    have hkind := hwf.kind_eq_sum hknown ((hl.mono hle).mono (t.le_intern _ _)) hcode
    refine ⟨good_store.2 hwf, .inr (.inr ⟨?_, hkind⟩)⟩
    obtain _ | ⟨a, _ | ⟨b, l⟩⟩ := l
    · exact absurd rfl hne
    · exact absurd rfl (hne' a)
    · simp

lemma IsSplitTerm.isMultiple {p : Expr × Number} (h : IsSplitTerm s t e p) : p.1.IsMultiple e := by
  rcases h.multiple with ⟨rfl, -⟩ | ⟨hproduct, c, hc, -, hl⟩
  · exact .inl rfl
  · exact .inr ⟨hproduct, c, hc, hl⟩

/-- A multiple is no sum, unless it is what it is a multiple of. -/
lemma IsMultiple.isSum (h : k.IsMultiple e) : e = k ∨ e.kind.isSum = false := by
  rcases h with rfl | ⟨hproduct, -⟩
  · exact .inl rfl
  · obtain ⟨t, a, hkind, -⟩ := exists_of_isProduct hproduct
    exact .inr (by rw [hkind]; rfl)

/-- Where sums and products are canonical, a new sum is canonical, and no term of it is a sum if none of
the terms that are added is a multiple of a sum. -/
lemma sound_sumWith_of_inForm (h : s.InForm) (hyields : YieldsAll product) (hproduct : Chains d s product)
    (hinput : s.Knows l) : Sound Good d s (sumWith product l) fun e t => ∀ terms, e.kind = .sum terms →
      IsCanonicalSum t terms ∧
        ((∀ a ∈ nonLiterals (allTerms l), ∀ k : Expr, k.IsMultiple a → k.kind.isSum = false) →
          ∀ f ∈ terms, f.kind.isSum = false) := by
  have hs : Good s := good_store.2 h.wellFormed
  have hothers : ∀ a ∈ nonLiterals (allTerms l), s.Knows a ∧ a.number? = none := fun a ha => by
    obtain ⟨hmem, hnumber⟩ := List.mem_filter.1 ha
    exact ⟨knows_allTerms h.wellFormed hinput a hmem, by simpa using hnumber⟩
  unfold sumWith
  refine (sound_constant hs _).bind fun constant s₁ hs₁ h₁ hconstant => ?_
  refine (sound_sumDomain hs₁ _ d).bind fun _ s₂ hs₂ h₂ _ => ?_
  refine (Sound.mapM (P := fun p t => ∃ a ∈ nonLiterals (allTerms l), IsSplitTerm s t a p)
    (fun p t u hle ⟨a, ha, hp⟩ => ⟨a, ha, hp.mono hle⟩) _ hs₂ fun a ha t ht hle =>
      (sound_splitCoefficient_of_knows h hproduct (h₁.trans (h₂.trans hle)) ht (hothers a ha).1
        (hothers a ha).2).imp fun p _ _ hp => ⟨a, ha, hp⟩).bind fun split s₃ hs₃ h₃ hsplit => ?_
  have hle₃ : s ≤ s₃ := h₁.trans (h₂.trans h₃)
  -- Each group stands under a product of bare factors that some term is a multiple of.
  have hgroups : ∀ g ∈ gather Number.Tracked.of (.combine .add) split, s₃.Knows g.1 ∧
      AreBare s g.1.factors ∧ ∃ a ∈ nonLiterals (allTerms l), g.1.IsMultiple a :=
    gather_keys_forall (P := fun k => s₃.Knows k ∧ AreBare s k.factors ∧
      ∃ a ∈ nonLiterals (allTerms l), k.IsMultiple a) fun p hp => by
        obtain ⟨a, ha, hterm⟩ := hsplit p hp
        exact ⟨hterm.knows, hterm.bare, a, ha, hterm.isMultiple⟩
  have horder : (gather Number.Tracked.of (.combine .add) split).Pairwise
      fun p q => p.1.compare q.1 = .lt :=
    pairwise_gather_of_knows hs₃.wellFormed fun p hp => (hsplit p hp).elim fun _ h => h.2.knows
  refine ((yields_scaledTerms hyields hs₃ (fun g hg => (hgroups g hg).1) d).and_of fun _ : True =>
    areMultiples_scaledTerms hproduct hle₃ hs₃ fun g hg =>
      ⟨(hgroups g hg).1, (hgroups g hg).2.1⟩).bind fun scaled s₄ hs₄ h₄ hscaled => ?_
  obtain ⟨pairs, rfl, hsub, hpairs⟩ := hscaled.2 trivial
  have hconstant₄ : s₄.Knows constant := hconstant.1.mono (h₂.trans (h₃.trans h₄))
  have hfiltered : s₄.Knows (constant.filter fun c => !c.isZero).toList :=
    Knows.toList fun c hc => hconstant₄ c (Option.mem_filter_iff.1 hc).1
  -- Scaling drops the groups that vanish, and keeps the keys of the others.
  have hkeys : ∀ p ∈ pairs, AreBare s p.2.factors ∧ ∃ a ∈ nonLiterals (allTerms l), p.2.IsMultiple a :=
    fun p hp => by
      obtain ⟨g, hg, hkey⟩ := List.mem_map.1 (hsub.subset (List.mem_map_of_mem hp))
      exact hkey ▸ (hgroups g hg).2
  refine (sound_ofTerms hs₄ hconstant.2 (Store.knows_append.2 ⟨hfiltered, hscaled.1⟩)).imp
    fun e t hle he terms hkind => ?_
  rcases he with hnumber | hsingle | ⟨hlength, hsum⟩
  · obtain ⟨n, hn⟩ := Option.isSome_iff_exists.1 hnumber
    rw [kind_of_number? hn] at hkind
    cases hkind
  · -- A sum that is the only term has been there before.
    have hmem : e ∈ (constant.filter fun c => !c.isZero).toList ++ pairs.map Prod.fst := by simp [hsingle]
    rcases List.mem_append.1 hmem with hmem | hmem
    · have hnumber := hconstant.2 e (Option.mem_filter_iff.1 (Option.mem_toList.1 hmem)).1
      obtain ⟨n, hn⟩ := Option.isSome_iff_exists.1 hnumber
      rw [kind_of_number? hn] at hkind
      cases hkind
    · obtain ⟨p, hp, rfl⟩ := List.mem_map.1 hmem
      rcases (hpairs p hp).2.2.isSum with hkey | hsum
      · have hfactors : p.1.factors = [p.1] := factors_of_isProduct (by rw [isProduct, hkind])
        have hknown : s.Knows p.1 := by
          have hbare := (hkeys p hp).1.knows
          rw [← hkey, hfactors] at hbare
          exact hbare _ (List.mem_singleton_self _)
        exact ⟨(h.sum hknown hkind).mono (hle₃.trans (h₄.trans hle)), fun _ => h.flat.sum hknown hkind⟩
      · rw [hkind] at hsum
        cases hsum
  · obtain rfl := Kind.sum.inj (hsum.symm.trans hkind)
    -- A new sum: the constant comes first, and the order of the groups is left to the terms.
    refine ⟨⟨hlength, _, pairs, rfl, fun c hc => ?_, fun p hp => ?_, ?_⟩, fun hmultiple => ?_⟩
    · obtain ⟨hc, hzero⟩ := Option.mem_filter_iff.1 hc
      exact ⟨hconstant.2 c hc, by simpa using hzero⟩
    · exact ⟨(hpairs p hp).1.mono hle, (hpairs p hp).2⟩
    · rw [← List.pairwise_map (R := fun b c : Expr => b.compare c = .lt)] at horder ⊢
      exact horder.sublist hsub
    · refine List.forall_mem_append.2 ⟨fun c hc => ?_, List.forall_mem_map.2 fun p hp => ?_⟩
      · have hnumber := hconstant.2 c (Option.mem_filter_iff.1 (Option.mem_toList.1 hc)).1
        obtain ⟨n, hn⟩ := Option.isSome_iff_exists.1 hnumber
        rw [kind_of_number? hn]
        rfl
      · rcases (hpairs p hp).2.2.isSum with hkey | hsum
        · obtain ⟨a, ha, hk⟩ := (hkeys p hp).2
          rw [hkey]
          exact hmultiple a ha _ hk
        · exact hsum

end Expr

/-- That sums are canonical is kept up along with the invariant, unless there are custom domains. -/
@[reducible] def Upkeep.summing : Upkeep where
  Holds s := s.Builtin → s.Summed
  since := 0
  since_le _ := Nat.zero_le _
  of_nodes hle hnodes h hb := (h (hb.anti hle)).of_nodes hle hnodes
  intern {s domain kind} _ _ hkind _ h hb := by
    simp only [Kind.isPlain, Bool.and_eq_true, Bool.not_eq_true'] at hkind
    refine (h (hb.anti (s.le_intern domain kind))).intern
      (fun e b n he hpower => Expr.power_of_isFormed (he ▸ hkind.2) hpower) fun _ l hl => ?_
    rw [hl] at hkind
    cases hkind.1.2

section Summing

local instance : Upkeep := Upkeep.summing

namespace Expr

variable {s : Store} {d : ℕ}
variable {product : List Expr → Build Expr} [∀ l, Growing (product l)]

/-- Sums keep up that sums are canonical, if canonical products are chained as they are. -/
lemma yields_sumWith_of_chains (hproduct : YieldsAll product)
    (hchains : ∀ (d : ℕ) (s : Store), s.InForm → Chains d s product) : YieldsAll (sumWith product) := by
  intro s input hs hinput d
  have hall := knows_allTerms hs.wellFormed hinput
  unfold sumWith
  refine (sound_constant hs _).bind fun constant s₁ hs₁ h₁ hconstant => ?_
  refine (sound_sumDomain hs₁ _ d).bind fun _ s₂ hs₂ h₂ _ => ?_
  have hothers : s₂.Knows (nonLiterals (allTerms input)) :=
    (hall.of_subset List.filter_sublist.subset).mono (h₁.trans h₂)
  refine (Sound.mapM (P := fun (p : Expr × Number) t => t.Knows p ∧ (s₂.InForm → AreBare s₂ p.1.factors))
    (fun p t u hle hp => ⟨hp.1.mono hle, hp.2⟩) _ hs₂ fun e he t ht hle => ?_).bind
    fun split s₃ hs₃ h₃ hsplit => ?_
  · have hnumber : e.number? = none := by
      simpa [nonLiterals] using (List.mem_filter.1 he).2
    refine ((yields_splitCoefficient hproduct ht ((hothers e he).mono hle) d).and_of fun hform =>
      sound_splitCoefficient_of_knows hform (hchains d s₂ hform) hle (good_store.2 ht.wellFormed)
        (hothers e he) hnumber).imp fun p u _ hp => ⟨hp.1, fun hform => (hp.2 hform).bare⟩
  have hgroups : ∀ g ∈ gather Number.Tracked.of (.combine .add) split, s₃.Knows g.1 :=
    gather_keys_forall fun p hp => (hsplit p hp).1.1
  refine ((yields_scaledTerms hproduct hs₃ hgroups d).and_of fun hform =>
    areMultiples_scaledTerms (hchains d s₂ hform) h₃ (good_store.2 hs₃.wellFormed) fun g hg =>
      ⟨hgroups g hg, gather_keys_forall (P := fun k => AreBare s₂ k.factors)
        (fun p hp => (hsplit p hp).2 hform) g hg⟩).bind
    fun scaled s₄ hs₄ h₄ hscaled => ?_
  have hconstant' : s₄.Knows constant := hconstant.1.mono (h₂.trans (h₃.trans h₄))
  have hfiltered : s₄.Knows (constant.filter fun c => !c.isZero).toList :=
    Knows.toList fun e he => hconstant' e (Option.mem_filter_iff.1 he).1
  refine yields_ofTerms_of hs₄ hconstant' (Store.knows_append.2 ⟨hfiltered, hscaled.1⟩)
    (fun t domain ht hle _ hlength hb => ?_) d
  have hle' := t.le_intern domain
    (.sum ((constant.filter fun c => !c.isZero).toList ++ scaled))
  refine (ht.holds (hb.anti hle')).intern (fun e b n he hpower => ?_) fun hflat l hl => ?_
  · simp [power?, he] at hpower
  · obtain rfl := Kind.sum.inj hl
    -- The condition on the later store holds of the earlier one, where the terms were split.
    have hs₂t : s₂ ≤ t := h₃.trans (h₄.trans hle)
    have hb₂ := (hb.anti hle').anti hs₂t
    have hform : s₂.InForm := (hs₂.holds hb₂).inForm hs₂.wellFormed hb₂ (hflat.anti hs₂t)
    obtain ⟨pairs, rfl, hsub, hpairs⟩ := hscaled.2 hform
    refine ⟨hlength, _, pairs, rfl, fun c hc => ?_, fun p hp => ⟨(hpairs p hp).1.mono hle, (hpairs p hp).2⟩, ?_⟩
    · obtain ⟨hc, hzero⟩ := Option.mem_filter_iff.1 hc
      exact ⟨hconstant.2 c hc, by simpa using hzero⟩
    · have horder : (gather Number.Tracked.of (.combine .add) split).Pairwise
          fun p q => p.1.compare q.1 = .lt :=
        pairwise_gather_of_knows hs₃.wellFormed fun p hp => (hsplit p hp).1.1
      rw [← List.pairwise_map (R := fun b c : Expr => b.compare c = .lt)] at horder ⊢
      exact horder.sublist hsub

/-- Applications that multiply nothing but numbers and matrices are neither powers nor sums. -/
lemma ledBy_summing : Upkeep.LedBy fun _ e => e.function? = none :=
  ledBy_nonfunctions fun {s domain t a} hs _ h hb => by
    refine (hs.holds (hb.anti (s.le_intern domain (.apply t a)))).intern (fun e b n he hpower => ?_)
      fun _ _ hl => nomatch hl
    obtain ⟨_, _, he', hfunction, -⟩ := power?_eq_some.1 hpower
    rw [he, Kind.apply.injEq] at he'
    rw [function?, he'.1, hfunction] at h
    cases h

end Expr

instance : Upkeep.Products where
  yields_productAux := Expr.ledBy_summing.yields_productAux fun depth hproduct =>
    Expr.yields_sumWith_of_chains hproduct fun _ _ h => Expr.chains_productAux h depth
  yields_sum := by
    have hproducts := Expr.ledBy_summing.yields_productAux fun depth hproduct =>
      Expr.yields_sumWith_of_chains hproduct fun _ _ h => Expr.chains_productAux h depth
    refine Expr.yields_sumWith_of_chains (Expr.yields_canonicalProduct_of hproducts) fun d s h => ?_
    exact Expr.chains_productAux h d

namespace Store.Reachable

variable {s : Store} {e : Expr}

/-- In every store that can be reached, sums are canonical as long as no sum has a sum for a term
and products are canonical, unless there are custom domains. -/
lemma summed (h : s.Reachable) (hb : s.Builtin) : s.Summed := by
  have hblank {s : Store} (hs : s.Blank) : s.Summed := by
    have hsymbol {e : Expr} (he : s.Knows e) {kind : Kind} (hkind : e.kind = kind)
        (hcode : kind.code ≠ none) : False := by
      obtain ⟨name, hname⟩ := hs.exists_symbol he
      rw [← hkind, hname] at hcode
      exact hcode rfl
    refine ⟨fun he hpower => ?_, fun _ e l he hkind => (hsymbol he hkind (by simp [Kind.code])).elim⟩
    obtain ⟨t, a, hkind, -⟩ := Expr.power?_eq_some.1 hpower
    exact (hsymbol he hkind (by simp [Kind.code])).elim
  exact (h.good fun hs _ => hblank hs).holds hb

/-- **What sums are made of.**  In every store that can be reached and has no custom domains, where
no sum has a sum for a term and products are canonical, a sum has two or more terms, of which only
the first may be a literal.  No term is zero or has the coefficient zero.  Without their
coefficients, the terms that are no literals are different expressions in ascending order. -/
theorem sum_terms (h : s.Reachable) (hb : s.Builtin) (hflat : s.Flat) (he : s.Knows e)
    {terms : List Expr} (hkind : e.kind = .sum terms) :
    2 ≤ terms.length ∧ (∀ t ∈ terms.tail, t.number? = none) ∧
      (∀ t ∈ terms, ∀ f ∈ t.factors, f.isZero = false) ∧
      ∃ keys : List Expr, s.Knows keys ∧ (∀ k ∈ keys, ∀ f ∈ k.factors, f.number? = none) ∧
        List.Forall₂ Expr.IsMultiple keys (Expr.nonLiterals terms) ∧
        keys.Pairwise fun k k' => k.compare k' = .lt := by
  obtain ⟨hlength, constant, pairs, rfl, hconstant, hpairs, horder⟩ := (h.summed hb).sum hflat he hkind
  have hnumber : ∀ t ∈ pairs.map Prod.fst, t.number? = none :=
    List.forall_mem_map.2 fun p hp => (hpairs p hp).2.2.number? (hpairs p hp).2.1
  refine ⟨hlength, ?_, ?_, pairs.map Prod.snd, ?_, ?_, ?_, List.pairwise_map.2 horder⟩
  · cases constant with
    | none => exact fun t ht => hnumber t (List.mem_of_mem_tail ht)
    | some c => exact hnumber
  · refine List.forall_mem_append.2 ⟨fun c hc => ?_, List.forall_mem_map.2 fun p hp =>
      (hpairs p hp).2.2.isZero (hpairs p hp).2.1⟩
    obtain ⟨hc, hzero⟩ := hconstant c (by simpa using hc)
    obtain ⟨n, hn⟩ := Option.isSome_iff_exists.1 hc
    rw [Expr.factors_of_isProduct (by rw [Expr.isProduct, Expr.kind_of_number? hn])]
    simpa using hzero
  · exact List.forall_mem_map.2 fun p hp => (hpairs p hp).1
  · exact List.forall_mem_map.2 fun p hp => (hpairs p hp).2.1
  · rw [Expr.nonLiterals_append (fun c hc => (hconstant c hc).1) hnumber, List.forall₂_map_left_iff,
      List.forall₂_map_right_iff, List.forall₂_same]
    exact fun p hp => (hpairs p hp).2.2

/-- In `2 + 2 * i` the second term is a multiple of `i`. -/
theorem sum_terms_linear :
    let s₁ := finalState ((Operation.number (.int 2)).run 9 initial)
    let s₂ := finalState ((Operation.product [s₁.nodes[50]!, s₁.nodes[0]!]).run 9 s₁)
    let s := finalState ((Operation.sum [s₂.nodes[50]!, s₂.nodes[52]!]).run 9 s₂)
    let e := s.nodes[53]!
    initial.Reaches s ∧ s.Builtin ∧ s.Flat ∧ s.Knows e ∧ ∃ (terms : List Expr) (k t : Expr),
      e.kind = .sum terms ∧ 2 ≤ terms.length ∧ Expr.nonLiterals terms = [t] ∧ k.IsMultiple t := by
  intro s₁ s₂ s e
  have hsum {s : Store} {e : Expr} (h : s.Reachable) (hb : s.Builtin) (hflat : s.Flat)
      (he : s.Knows e) (hkind : e.kind.isSum = true)
      (hterm : (Expr.nonLiterals e.children).length = 1) : ∃ (terms : List Expr) (k t : Expr),
      e.kind = .sum terms ∧ 2 ≤ terms.length ∧ Expr.nonLiterals terms = [t] ∧ k.IsMultiple t := by
    obtain ⟨terms, hkind⟩ : ∃ terms, e.kind = .sum terms := by
      cases hk : e.kind <;> simp [hk, Kind.isSum] at hkind ⊢
    obtain ⟨hlength, -, -, keys, -, -, hkeys, -⟩ := sum_terms h hb hflat he hkind
    rw [Expr.children, hkind, Kind.children, List.length_eq_one_iff] at hterm
    obtain ⟨t, ht⟩ := hterm
    rw [ht] at hkeys
    obtain ⟨k, -, hk, -⟩ := List.forall₂_cons_right_iff.1 hkeys
    exact ⟨terms, k, t, hkind, hlength, ht, hk⟩
  have h₁ : initial.Reaches s₁ := .step _ 9 .refl trivial
  have h₂ : initial.Reaches s₂ :=
    .step _ 9 h₁ (h₁.knows_getElem!_pair (by decide +kernel) (by decide +kernel))
  have h : initial.Reaches s :=
    .step _ 9 h₂ (h₂.knows_getElem!_pair (by decide +kernel) (by decide +kernel))
  have hb : s.Builtin := .of_nodes (by decide +kernel)
  have hflat : s.Flat := .of_nodes (by decide +kernel) (by decide +kernel)
  have he : s.Knows e := h.knows_getElem! (by decide +kernel)
  exact ⟨h, hb, hflat, he, hsum h.reachable hb hflat he (by decide +kernel) (by decide +kernel)⟩

end Store.Reachable

end Summing

namespace Store.Reachable

variable {s : Store} {e : Expr}

/-- **When sums stay spliced.**  In such a store, let the sum of known terms be a sum again.  It is
canonical, and if none of the terms that are added is a multiple of a sum, then none of its terms is a
sum. -/
theorem sum_spliced (h : s.Reachable) (hb : s.Builtin) (hflat : s.Flat) {l : List Expr}
    (hl : s.Knows l) {d : ℕ} {t : Store} (hrun : Expr.sum l d s = .ok e t) {terms : List Expr}
    (hkind : e.kind = .sum terms) : Expr.IsCanonicalSum t terms ∧
      ((∀ a ∈ Expr.nonLiterals (Expr.allTerms l), ∀ k : Expr, k.IsMultiple a → k.kind.isSum = false) →
        ∀ f ∈ terms, f.kind.isSum = false) := by
  have hform : s.InForm := (h.summed hb).inForm h.wellFormed hb hflat
  have hproduct : Expr.Chains d s Expr.canonicalProduct := Expr.chains_productAux hform d
  have hsum := Expr.sound_sumWith_of_inForm hform Expr.yields_canonicalProduct hproduct hl
  exact (hsum.of_ok hrun).2 terms hkind

end Store.Reachable

end TermGraph
