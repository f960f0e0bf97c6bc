import TermGraph.Proofs.Ring.Values

/-!
# The value of products in a ring

Products splice the products among their factors, pull the scalars to the front, merge powers of
one base and cancel matrices next to their inverses.  Only scalars change places, and they are
central, so the value in a ring that need not be commutative stays what it is.

* `Expr.ValuedAt ν v e`: `e` is ordinary, and its value is `v`.
* `Expr.MultipliesAll`, `Expr.MultipliesPair`: functions whose results are products of values.
* `Expr.multipliesAll_chainWith`: matrix products keep the order of their factors.
* `Expr.multipliesAll_productAux`: canonical products.
-/

namespace TermGraph

open Store (Knows)

/-- It is enough to show what a run ensures from a store in `P`. -/
lemma Ensures.of_mem {σ α : Type} [HoldsStore σ] {P : LowerSet Store} {d : ℕ} {s : σ} {x : Run σ α}
    {Q : α → σ → Prop} [Growing x] (h : store s ∈ P → Ensures P d s x Q) : Ensures P d s x Q :=
  fun a t hrun ht => h (P.lower (Growing.le_of_ok hrun) ht) a t hrun ht

namespace Expr

/-- The application that was asked for, if it has a domain. -/
lemma delivers_rawApply {P : LowerSet Store} (hP : P ≤ Store.exactStores) {s : Store} {d : ℕ}
    {t a : Expr} (hs : Good s) (ht : s.Knows t) (ha : s.Knows a) :
    Delivers P d s (rawApply t a) fun e _ => e.kind = .apply t a where
  yields := yields_rawApply hs ht ha d
  ensures := by
    cases hdomain : applyDomain? t a with
    | none =>
      intro e u hrun _
      unfold rawApply applyDomain at hrun
      rw [hdomain] at hrun
      cases hrun
    | some domain =>
      exact ((achieves_rawApply hs ht ha (P := fun _ => True) ⟨domain, hdomain, trivial⟩).ensures
        hP).imp fun e _ _ _ he => he.1

variable {R : Type*} [Ring R] {ν : Expr → R} {s : Store} {d : ℕ} {v w : R} {e t a b n : Expr}
  {l : List Expr}

/-- The expression is ordinary, and its value is `v`. -/
structure ValuedAt (ν : Expr → R) (v : R) (e : Expr) : Prop where
  /-- It is ordinary. -/
  ordinary : e.Ordinary
  /-- Its value is `v`. -/
  valueIn : e.valueIn ν = v

lemma Ordinary.valuedAt (h : e.Ordinary) : ValuedAt ν (e.valueIn ν) e := ⟨h, rfl⟩

lemma valuedAt_literal {k : ℤ} (h : IsLiteral k e) : ValuedAt ν (k : R) e :=
  ⟨.of_literal h, valueIn_literal h⟩

/-- A function of two expressions gives their product. -/
def MultipliesPair (ν : Expr → R) (d : ℕ) (pair : Expr → Expr → Build Expr) : Prop :=
  ∀ (s : Store) (v w : R) (a b : Expr), Good s → s.Knows a → s.Knows b → ValuedAt ν v a →
    ValuedAt ν w b → Ensures (Store.valued ν) d s (pair a b) fun e _ => ValuedAt ν (v * w) e

/-- A function of expressions gives their product in order. -/
def MultipliesAll (ν : Expr → R) (d : ℕ) (product : List Expr → Build Expr) : Prop :=
  ∀ (s : Store) (l : List Expr), Good s → s.Knows l → (∀ e ∈ l, e.Ordinary) →
    Ensures (Store.valued ν) d s (product l) fun e _ => ValuedAt ν (l.map (valueIn ν)).prod e

lemma ensures_number (hs : Good s) {c : Number} {k : ℤ} (h : c.IsInt k) :
    Ensures (Store.valued ν) d s (number c) fun e _ => ValuedAt ν (k : R) e :=
  ((achieves_number hs h).ensures Store.valued_le).imp fun _ _ _ _ he => valuedAt_literal he

lemma ensures_one (hs : Good s) :
    Ensures (Store.valued ν) d s one fun e _ => ValuedAt ν (1 : R) e :=
  ((achieves_one hs).ensures Store.valued_le).imp fun _ _ _ _ he => by
    simpa using valuedAt_literal (ν := ν) he

/-! ## Applications in a row -/

section Folds

lemma multipliesPair_rawApply : MultipliesPair ν d rawApply := by
  intro s v w t a hs hknown hknown' ht ha e u hrun hu
  have happly := delivers_rawApply (P := Store.valued ν) (d := d) Store.valued_le hs hknown hknown'
  obtain ⟨-, hknowne⟩ := happly.yields.of_ok hrun
  have hkind := happly.ensures e u hrun hu
  have hm := ht.ordinary.multiplies ha.ordinary (good_store.1 hs) hknown
  have hlinear := Store.closed_of_mem hu e hknowne (by rw [isProduct, hkind]; exact hm)
  exact ⟨.of_product hkind hm hlinear ht.ordinary ha.ordinary,
    by rw [valueIn_product hkind hm, ht.valueIn, ha.valueIn]⟩

variable {pair : Expr → Expr → Build Expr} [∀ a b, Growing (pair a b)]

lemma ensures_foldlM (hpair : YieldsBoth pair) (hmul : MultipliesPair ν d pair) (hs : Good s)
    (ha : ValuedAt ν v a) (h : ∀ e ∈ l, e.Ordinary) (hknown : s.Knows a) (hknown' : s.Knows l) :
    Ensures (Store.valued ν) d s (l.foldlM pair a)
      fun e _ => ValuedAt ν (v * (l.map (valueIn ν)).prod) e := by
  induction l generalizing s v a with
  | nil => exact .pure (by simpa using ha)
  | cons b l ih =>
    rw [List.forall_mem_cons] at h
    rw [Store.knows_cons] at hknown'
    rw [List.foldlM_cons, List.map_cons, List.prod_cons, ← mul_assoc]
    refine Delivers.bind ⟨hpair s a b hs hknown hknown'.1 d,
      hmul s v _ a b hs hknown hknown'.1 ha h.1.valuedAt⟩ fun e t ht hle he _ hvalue => ?_
    exact ih ht hvalue h.2 he (hknown'.2.mono hle)

lemma multipliesAll_foldProduct (hpair : YieldsBoth pair) (hmul : MultipliesPair ν d pair) :
    MultipliesAll ν d (foldProduct pair) := by
  intro s l hs hknown h
  unfold foldProduct
  split
  · simpa using ensures_one hs
  · rename_i a l
    rw [Store.knows_cons] at hknown
    rw [List.forall_mem_cons] at h
    exact ensures_foldlM hpair hmul hs h.1.valuedAt h.2 hknown.1 hknown.2

end Folds

/-! ## Matrix products -/

section Chains

/-- Neighbours that cancel are inverse to each other. -/
lemma mul_eq_one_of_cancels (hs : s.WellFormed) (hν : s.Respects ν) (ha : s.Knows a)
    (hb : s.Knows b) (h : cancels a b = true) : a.valueIn ν * b.valueIn ν = 1 := by
  have hinner {x y : Expr} (hx : s.Knows x) (hkind : x.kind = .inverse y) : s.Knows y :=
    hs.children hx y (by simp [children, Kind.children, hkind])
  rw [cancels, Bool.or_eq_true] at h
  rcases h with h | h <;> split at h
  · rename_i inner hkind
    obtain rfl := Store.WellFormed.eq_of_ordinal (hinner hb hkind) ha (beq_iff_ordinal.1 h)
    exact (hν.inverse b inner hb hkind).2
  · cases h
  · rename_i inner hkind
    obtain rfl := Store.WellFormed.eq_of_ordinal (hinner ha hkind) hb (beq_iff_ordinal.1 h)
    exact (hν.inverse a inner ha hkind).1
  · cases h

/-- Ordinary factors, last one first, with the product `v`. -/
def ReducesTo (ν : Expr → R) (v : R) (reversed : List Expr) : Prop :=
  (∀ e ∈ reversed, e.Ordinary) ∧ (reversed.reverse.map (valueIn ν)).prod = v

lemma ReducesTo.cons {reversed : List Expr} (h : ReducesTo ν v reversed) (he : e.Ordinary) :
    ReducesTo ν (v * e.valueIn ν) (e :: reversed) :=
  ⟨List.forall_mem_cons.2 ⟨he, h.1⟩, by simp [← h.2]⟩

lemma ensures_pushFactor (hs : Good s) {reversed : List Expr} (h : ReducesTo ν v reversed)
    (he : e.Ordinary) (hknown : s.Knows reversed) (hknown' : s.Knows e) :
    Ensures (Store.valued ν) d s (pushFactor reversed e)
      fun r _ => ReducesTo ν (v * e.valueIn ν) r := by
  refine .of_mem fun hmem => ?_
  unfold pushFactor
  split
  · exact .pure (h.cons he)
  · rename_i last rest
    rw [Store.knows_cons] at hknown
    have hlast := List.forall_mem_cons.1 h.1
    refine .ite (fun hcancels => .pure ⟨hlast.2, ?_⟩) fun _ => ?_
    · rw [← h.2, List.reverse_cons, List.map_append, List.prod_append, mul_assoc]
      simp [mul_eq_one_of_cancels (good_store.1 hs) (Store.respects_of_mem hmem) hknown.1 hknown'
        hcancels]
    · rw [hlast.1.matrix?, he.matrix?]
      exact .pure (h.cons he)

lemma ensures_foldlM_pushFactor (hs : Good s) {reversed : List Expr} (h : ReducesTo ν v reversed)
    (hl : ∀ e ∈ l, e.Ordinary) (hknown : s.Knows reversed) (hknown' : s.Knows l) :
    Ensures (Store.valued ν) d s (l.foldlM pushFactor reversed)
      fun r _ => ReducesTo ν (v * (l.map (valueIn ν)).prod) r := by
  induction l generalizing s v reversed with
  | nil => exact .pure (by simpa using h)
  | cons e l ih =>
    rw [List.forall_mem_cons] at hl
    rw [Store.knows_cons] at hknown'
    rw [List.foldlM_cons, List.map_cons, List.prod_cons, ← mul_assoc]
    refine Delivers.bind ⟨yields_pushFactor hs hknown hknown'.1 d,
      ensures_pushFactor hs h hl.1 hknown hknown'.1⟩ fun r t ht hle hr _ hvalue => ?_
    exact ih ht hvalue hl.2 hr (hknown'.2.mono hle)

lemma ensures_ofChain (hs : Good s) (h : ∀ e ∈ l, e.Ordinary) (hknown : s.Knows l) :
    Ensures (Store.valued ν) d s (ofChain l) fun e _ => ValuedAt ν (l.map (valueIn ν)).prod e := by
  obtain _ | ⟨a, _ | ⟨b, rest⟩⟩ := l
  · simpa [ofChain] using ensures_one hs
  · exact .pure (by simpa using (h a (by simp)).valuedAt)
  · change Ensures _ d s (Build.intern .matrices (.chain (a :: b :: rest))) _
    generalize a :: b :: rest = factors at h hknown
    have hadm := admits_chain hknown
    refine ((achieves_intern (Q := fun e => e.kind = .chain factors ∧ e.domain = .matrices) hs hadm
      fun e u hu hle he hcode => ?_).ensures Store.valued_le).imp fun e _ _ _ he => ?_
    · have hkind := hu.kind_eq_chain he (hknown.mono hle) hcode
      have htyped := (hu.admits he).typed
      rw [hkind] at htyped
      exact ⟨hkind, htyped⟩
    · exact ⟨.of_chain he.1 (by rw [he.2]; rfl) h, valueIn_chain he.1⟩

/-- A matrix product keeps the order of its factors; the scalars among them are central. -/
lemma multipliesAll_chainWith {product : List Expr → Build Expr} [∀ l, Growing (product l)]
    (hmul : MultipliesAll ν d product) : MultipliesAll ν d (chainWith product) := by
  intro s l hs hknown h
  refine .of_mem fun hmem => ?_
  obtain ⟨hall, hprod⟩ := allChainFactorsOnto_spec (ν := ν) h
  have hknown := knows_allChainFactorsOnto (good_store.1 hs) hknown
  rw [← hprod, prod_eq_of_central (p := fun e => e.domain.isScalar)
    fun e he => (Store.respects_of_mem hmem).central e (hknown e he)]
  unfold chainWith
  dsimp only
  generalize allChainFactorsOnto l [] = all at hall hknown
  have hmatrices : s.Knows (all.filter fun e => !e.domain.isScalar) :=
    hknown.of_subset List.filter_sublist.subset
  have hscalars : s.Knows (all.filter fun e => e.domain.isScalar) :=
    hknown.of_subset List.filter_sublist.subset
  have hpush : Delivers (Store.valued ν) d s
      ((all.filter fun e => !e.domain.isScalar).foldlM pushFactor [])
      fun r _ => ReducesTo ν ((all.filter fun e => !e.domain.isScalar).map (valueIn ν)).prod r := by
    refine ⟨Yields.foldlM hs Store.knows_nil _ (fun r e he t ht hle hr =>
      yields_pushFactor ht hr ((hmatrices e he).mono hle)) d, ?_⟩
    simpa using ensures_foldlM_pushFactor (ν := ν) (v := 1) (d := d) hs ⟨by simp, by simp⟩
      (fun e he => hall e (List.mem_filter.1 he).1) Store.knows_nil hmatrices
  refine hpush.bind fun reversed t ht hle hreversed _ hreduced => ?_
  have hchain : Delivers (Store.valued ν) d t (ofChain reversed.reverse)
      fun e _ => ValuedAt ν ((all.filter fun e => !e.domain.isScalar).map (valueIn ν)).prod e := by
    have hknown : t.Knows reversed.reverse := by simpa using hreversed
    refine ⟨yields_ofChain ht hknown (fun _ => yields_intern ht (admits_chain hknown)) d, ?_⟩
    rw [← hreduced.2]
    exact ensures_ofChain ht (fun e he => hreduced.1 e (List.mem_reverse.1 he))
      (by simpa using hreversed)
  refine hchain.bind fun matrix u hu hle' hmatrix _ hvalue => ?_
  refine .ite (fun hempty => .pure ?_) fun _ => ?_
  · rw [List.isEmpty_iff.1 hempty]
    simpa using hvalue
  · have hordinary : ∀ e ∈ (all.filter fun e => e.domain.isScalar) ++ [matrix], e.Ordinary :=
      List.forall_mem_append.2 ⟨fun e he => hall e (List.mem_filter.1 he).1,
        by simpa using hvalue.ordinary⟩
    have hvalues := hmul u _ hu (Store.knows_append.2
      ⟨(hscalars.mono hle).mono hle', by simpa using hmatrix⟩) hordinary
    simpa [hvalue.valueIn] using hvalues

end Chains

/-! ## Powers -/

section Powers

variable {k : ℕ}

lemma ensures_power (hs : Good s) (hb : ValuedAt ν v b) (hn : IsLiteral k n) (hknown : s.Knows b)
    (hknown' : s.Knows n) :
    Ensures (Store.valued ν) d s (Expr.power b n) fun e _ => ValuedAt ν (v ^ k) e := by
  unfold Expr.power
  refine ((achieves_builtin hs .pow).delivers Store.valued_le).bind
    fun t s₁ hs₁ h₁ hknownt _ ht => ?_
  refine ((achieves_pair hs₁ (hknown.mono h₁) (hknown'.mono h₁)).delivers Store.valued_le).bind
    fun a s₂ hs₂ h₂ hknowna _ ha => ?_
  unfold powerOf
  refine .ite (fun htrivial => ?_) fun htrivial => .ite (fun hone => ?_) fun _ => ?_
  · rw [Bool.or_eq_true] at htrivial
    have hone : v ^ k = 1 := by
      rcases htrivial with hzero | hone
      · rw [hn.isZero, Nat.cast_eq_zero] at hzero
        rw [hzero, pow_zero]
      · have hliteral := hb.ordinary.literal (by
          unfold isOne at hone
          cases hnumber : b.number? <;> simp_all)
        rw [hliteral.isOne] at hone
        rw [← hb.valueIn, valueIn_literal hliteral, hone, Int.cast_one, one_pow]
    rw [hone]
    exact ensures_one hs₂
  · rw [hn.isOne, Nat.cast_eq_one] at hone
    rw [hone, pow_one]
    exact .pure hb
  · have happly := delivers_rawApply (d := d) (P := Store.valued ν) Store.valued_le hs₂
      (hknownt.mono h₂) hknowna
    intro e u hrun hu
    obtain ⟨hgood, hknowne⟩ := happly.yields.of_ok hrun
    have hpower : e.power? = some (b, n) :=
      power?_eq_some.2 ⟨t, a, happly.ensures e u hrun hu, ht, ha⟩
    have hdomain := (domain_of_power? (good_store.1 hgood) hknowne hpower).1
    exact ⟨.of_power hpower (by rw [hdomain]; rfl) hb.ordinary hn,
      by rw [valueIn_power hpower hn, hb.valueIn]⟩

/-- The value of a scalar factor as a power. -/
noncomputable def splitValue (ν : Expr → R) (p : Expr × Expr) : R :=
  p.1.valueIn ν ^ p.2.intValue.toNat

/-- The value of a base to the sum of the exponents that were gathered for it. -/
noncomputable def groupValue (ν : Expr → R) (g : Expr × List Expr) : R :=
  g.1.valueIn ν ^ (g.2.map fun e => e.intValue.toNat).sum

lemma ensures_splitPower (hs : Good s) (he : e.Ordinary) :
    Ensures (Store.valued ν) d s (splitPower e) fun p _ =>
      p.1.Ordinary ∧ Meaning.AreExponents [p.2] ∧ splitValue ν p = e.valueIn ν := by
  unfold splitPower
  cases hpower : e.power? with
  | some p =>
    obtain ⟨b, n⟩ := p
    obtain ⟨hb, k, hn⟩ := he.power hpower
    refine .pure ⟨hb, ?_, ?_⟩
    · simpa [Meaning.AreExponents, hn.intValue] using hn
    · rw [valueIn_power hpower hn, splitValue, hn.intValue, Int.toNat_natCast]
  | none =>
    refine ((achieves_one hs).delivers Store.valued_le).bind fun n t _ _ _ _ hn => .pure ⟨he, ?_, ?_⟩
    · simpa [Meaning.AreExponents, hn.intValue] using hn
    · simp [splitValue, hn.intValue]

/-- Gathering keeps the product of central values. -/
lemma prod_groupValue {items : List (Expr × Expr)} (hsep : Separated items)
    (hcentral : ∀ p ∈ items, splitValue ν p ∈ Subring.center R) :
    ((groups items).map (groupValue ν)).prod = (items.map (splitValue ν)).prod := by
  have hperm := (flatMap_groups hsep).map (splitValue ν)
  have hcommute : (items.map (splitValue ν)).Pairwise Commute := by
    refine List.pairwise_of_forall_mem_list fun x hx y _ => ?_
    obtain ⟨p, hp, rfl⟩ := List.mem_map.1 hx
    exact (Subring.mem_center_iff.1 (hcentral p hp) y).symm
  rw [hperm.symm.prod_eq' hcommute]
  induction groups items with
  | nil => rfl
  | cons g gs ih =>
    rw [List.map_cons, List.prod_cons, ih, List.flatMap_cons, List.map_append, List.prod_append,
      List.map_map]
    congr 1
    simp only [groupValue, Function.comp_def, splitValue]
    induction g.2 with
    | nil => simp
    | cons n ns ihn => rw [List.map_cons, List.sum_cons, pow_add, ihn, List.map_cons, List.prod_cons]

/-- The bases are ordinary, and the exponents natural numbers. -/
def AreOrdinaryPowers (groups : List (Expr × List Expr)) : Prop :=
  ∀ g ∈ groups, g.1.Ordinary ∧ Meaning.AreExponents g.2 ∧ g.2 ≠ []

lemma ensures_raisedBase (hs : Good s) (hb : ValuedAt ν v b) (hn : IsLiteral k n)
    (hknown : s.Knows b) (hknown' : s.Knows n) :
    Ensures (Store.valued ν) d s (raisedBase b n) fun e _ => ValuedAt ν (v ^ k) e := by
  unfold raisedBase
  refine .ite (fun hone => .pure ?_) fun _ => ensures_power hs hb hn hknown hknown'
  rw [hn.isOne, Nat.cast_eq_one] at hone
  rwa [hone, pow_one]

variable {sum : List Expr → Build Expr} [∀ l, Growing (sum l)]

/-- The powers of the bases multiply to the values of the groups. -/
lemma ensures_raisedBases (hsum : YieldsAll sum) (hadds : AddsLiterals d sum) (hs : Good s)
    {groups : List (Expr × List Expr)} (h : AreOrdinaryPowers groups) (hknown : s.Knows groups) :
    Ensures (Store.valued ν) d s (raisedBases sum groups) fun l _ =>
      (∀ e ∈ l, e.Ordinary) ∧ (l.map (valueIn ν)).prod = (groups.map (groupValue ν)).prod := by
  induction groups generalizing s with
  | nil => exact .pure ⟨by simp, rfl⟩
  | cons group groups ih =>
    obtain ⟨base, exponents⟩ := group
    obtain ⟨hbase, hexponents, hne⟩ := h (base, exponents) (by simp)
    have hgroups : AreOrdinaryPowers groups := fun g hg => h g (by simp [hg])
    simp only [Store.knows_cons, Store.knows_pair] at hknown
    have hexponent : Achieves d s (sum exponents)
        (IsLiteral ((exponents.map fun e => e.intValue.toNat).sum : ℕ)) := by
      rw [← hexponents.sum_intValue]
      exact ⟨hsum s exponents hs hknown.1.2 d, hadds s exponents hs hexponents.areLiterals hne⟩
    rw [raisedBases, List.map_cons, List.prod_cons]
    refine (hexponent.delivers Store.valued_le).bind fun n t ht hle hknown' _ hn => ?_
    refine .ite (fun hzero => ?_) fun _ => ?_
    · rw [hn.isZero, Nat.cast_eq_zero] at hzero
      rw [groupValue, hzero, pow_zero, one_mul]
      exact ih ht hgroups (hknown.2.mono hle)
    · refine Delivers.bind ⟨yields_raisedBase ht (hknown.1.1.mono hle) hknown' d,
        ensures_raisedBase ht hbase.valuedAt hn (hknown.1.1.mono hle) hknown'⟩
        fun e u hu hle' _ _ he => ?_
      have hknown := (hknown.2.mono hle).mono hle'
      refine Delivers.bind ⟨yields_raisedBases hsum hu hknown d, ih hu hgroups hknown⟩
        fun l w _ _ _ _ hl => .pure ⟨List.forall_mem_cons.2 ⟨he.ordinary, hl.1⟩, ?_⟩
      rw [List.map_cons, List.prod_cons, he.valueIn, hl.2, groupValue]

/-- What splitting makes of a list of factors. -/
lemma splitPowers_spec {split : List (Expr × Expr)} (h : List.Forall₂ (fun e p =>
      p.1.Ordinary ∧ Meaning.AreExponents [p.2] ∧ splitValue ν p = e.valueIn ν) l split) :
    (∀ p ∈ split, p.1.Ordinary ∧ Meaning.AreExponents [p.2]) ∧
      split.map (splitValue ν) = l.map (valueIn ν) := by
  induction h with
  | nil => simp
  | cons hp _ ih =>
    rw [List.forall_mem_cons, List.map_cons, List.map_cons, hp.2.2, ih.2]
    exact ⟨⟨⟨hp.1, hp.2.1⟩, ih.1⟩, rfl⟩

/-- Merging the powers of central factors keeps the product. -/
lemma delivers_mergePowers (hsum : YieldsAll sum) (hadds : AddsLiterals d sum) (hs : Good s)
    (h : ∀ e ∈ l, e.Ordinary) (hcentral : ∀ e ∈ l, e.valueIn ν ∈ Subring.center R)
    (hknown : s.Knows l) :
    Delivers (Store.valued ν) d s (mergePowers sum l) fun m _ =>
      (∀ e ∈ m, e.Ordinary) ∧ (m.map (valueIn ν)).prod = (l.map (valueIn ν)).prod where
  yields := yields_mergePowers hsum hs hknown d
  ensures := by
    unfold mergePowers
    have hsplits : Delivers (Store.valued ν) d s (l.mapM splitPower) fun split _ =>
        True ∧ List.Forall₂ (fun e p => p.1.Ordinary ∧ Meaning.AreExponents [p.2] ∧
          splitValue ν p = e.valueIn ν) l split :=
      ⟨Yields.mapM hs l (fun e he t ht hle => yields_splitPower ht ((hknown e he).mono hle)) d,
        Delivers.mapM (I := fun _ => True) hs trivial l fun e he t ht hle _ =>
          ⟨yields_splitPower ht ((hknown e he).mono hle) d,
            (ensures_splitPower ht (h e he)).imp fun _ _ _ _ hp => ⟨trivial, hp⟩⟩⟩
    refine hsplits.bind fun split t ht _ hsplit _ hpowers => ?_
    obtain ⟨hpair, hmap⟩ := splitPowers_spec hpowers.2
    have hsep : Separated split := fun p hp q hq hordinal =>
      Store.WellFormed.eq_of_ordinal (hsplit p hp).1 (hsplit q hq).1 hordinal
    have hgroups : AreOrdinaryPowers (groups split) := by
      refine gather_forall (P := Ordinary) (Q := fun es => Meaning.AreExponents es ∧ es ≠ [])
        (fun p hp => (hpair p hp).1) (fun p hp => ⟨(hpair p hp).2, by simp⟩) fun es p hp hes => ?_
      exact ⟨List.forall_mem_append.2 ⟨hes.1, (hpair p hp).2⟩, by simp⟩
    have hknown' : t.Knows (groups split) := by
      refine gather_forall (fun p hp => (hsplit p hp).1) (fun p hp => ?_) fun es p hp hes => ?_
      · simpa using (hsplit p hp).2
      · exact Store.knows_append.2 ⟨hes, by simpa using (hsplit p hp).2⟩
    refine (ensures_raisedBases hsum hadds ht hgroups hknown').imp fun m _ _ _ hm => ?_
    refine ⟨hm.1, ?_⟩
    rw [hm.2, prod_groupValue hsep fun p hp => ?_, hmap]
    obtain ⟨e, he, hvalue⟩ := List.mem_map.1 (hmap ▸ List.mem_map_of_mem hp)
    exact hvalue ▸ hcentral e he

end Powers

/-! ## Products -/

section Products

/-- The literals among ordinary factors are integers. -/
lemma isInt_literals (h : ∀ e ∈ l, e.Ordinary) : List.Forall₂ Number.IsInt (literals l)
    ((l.filter fun e => e.number?.isSome).map intValue) := by
  rw [literals_eq_filter]
  exact AreLiterals.forall₂ fun e he =>
    (h e (List.mem_filter.1 he).1).literal (List.mem_filter.1 he).2

lemma achieves_settle_coefficient (hs : Good s) (h : ∀ e ∈ l, e.Ordinary) :
    Achieves d s (Build.settle (coefficient l)) fun n => n.IsInt (literalProduct l) :=
  ⟨yields_settle hs _ d, (exact_settle _).imp fun _ _ _ _ hn =>
    hn.1 ▸ isInt_prod_literals (isInt_literals h) hn.2⟩

/-- Factors that are no matrices are scalars. -/
lemma Ordinary.isScalar (h : e.Ordinary) (hmatrix : e.isMatrixFactor = false) :
    e.domain.isScalar = true := by
  cases hnumber : e.number?.isSome with
  | true => exact (h.literal hnumber).real.isScalar
  | false => simp_all [isMatrixFactor]

lemma delivers_coefficientFactor (hs : Good s) {c : Number} {k : ℤ} (h : c.IsInt k) :
    Delivers (Store.valued ν) d s (coefficientFactor c) fun front _ =>
      (∀ e ∈ front, e.Ordinary) ∧ (front.map (valueIn ν)).prod = k ∧ (front = [] → k = 1) where
  yields := yields_coefficientFactor hs c d
  ensures := by
    unfold coefficientFactor
    refine .ite (fun hone => ?_) fun _ => ?_
    · rw [h.isOne] at hone
      exact .pure (by simp [hone])
    · refine ((achieves_number hs h).delivers Store.valued_le).bind fun e t _ _ _ _ he => .pure ?_
      simpa [valueIn_literal he] using Ordinary.of_literal he

/-- The chain of a coefficient and other factors. -/
lemma ensures_leftChain (hs : Good s) {c : Number} (h : ∀ e ∈ l, e.Ordinary) (hknown : s.Knows l)
    (hc : l = [] → c.IsInt 1) :
    Ensures (Store.valued ν) d s (leftChain c l)
      fun e _ => ValuedAt ν (l.map (valueIn ν)).prod e := by
  cases l with
  | nil => simpa [leftChain] using ensures_number (ν := ν) (d := d) hs (hc rfl)
  | cons a l =>
    rw [Store.knows_cons] at hknown
    rw [List.forall_mem_cons] at h
    exact ensures_foldlM (fun _ _ _ hs ht ha => yields_rawApply hs ht ha) multipliesPair_rawApply hs
      h.1.valuedAt h.2 hknown.1 hknown.2

/-- A coefficient of zero is the whole product. -/
lemma ensures_zero (hs : Good s) {c : Number} (hc : c.IsInt (literalProduct l))
    (hzero : c.isZero = true) (hprod : (l.map (valueIn ν)).prod = (literalProduct l : R) * w) :
    Ensures (Store.valued ν) d s (Expr.number c)
      fun e _ => ValuedAt ν (l.map (valueIn ν)).prod e := by
  have hzero := hc.isZero.1 hzero
  rw [hprod, hzero, Int.cast_zero, zero_mul]
  rw [hzero] at hc
  simpa using ensures_number (ν := ν) (d := d) hs hc

lemma multipliesAll_assemble {sum : List Expr → Build Expr} [∀ l, Growing (sum l)]
    (hsum : YieldsAll sum) (hadds : AddsLiterals d sum) : MultipliesAll ν d (assemble sum) := by
  intro s l hs hknown h
  refine .of_mem fun hmem => ?_
  have hcentral : ∀ e ∈ l, e.domain.isScalar = true → e.valueIn ν ∈ Subring.center R :=
    fun e he => (Store.respects_of_mem hmem).central e (hknown e he)
  have hprod := prod_eq_parts h hcentral
  unfold assemble
  refine ((achieves_settle_coefficient hs h).delivers Store.valued_le).bind
    fun c t ht hle _ _ hc => ?_
  refine .ite (fun hzero => ensures_zero ht hc hzero hprod) fun _ => ?_
  refine (delivers_mergePowers hsum hadds ht (l := l.filter isScalarFactor)
    (fun e he => h e (List.mem_filter.1 he).1) (fun e he => ?_)
    ((hknown.of_subset List.filter_sublist.subset).mono hle)).bind
    fun scalars u hu hle' hscalars _ hmerged => ?_
  · obtain ⟨hmem, hscalar⟩ := List.mem_filter.1 he
    exact hcentral e hmem (by simp_all [isScalarFactor])
  refine (delivers_coefficientFactor hu hc).bind fun front w hw hle'' hfront _ hvalue => ?_
  rw [hprod, ← hmerged.2, ← hvalue.2.1, ← mul_assoc, ← List.prod_append, ← List.map_append,
    ← List.prod_append, ← List.map_append]
  refine ensures_leftChain hw ?_ ?_ fun hnil => ?_
  · simp only [List.forall_mem_append]
    exact ⟨⟨hvalue.1, hmerged.1⟩, fun e he => h e (List.mem_filter.1 he).1⟩
  · simp only [Store.knows_append]
    exact ⟨⟨hfront, hscalars.mono hle''⟩,
      (hknown.of_subset List.filter_sublist.subset).mono (hle.trans (hle'.trans hle''))⟩
  · simp only [List.append_eq_nil_iff] at hnil
    rwa [hvalue.2.2 hnil.1.1] at hc

/-- Multiplying the matrices of a product into one keeps its value. -/
lemma delivers_mergeMatrices {product : List Expr → Build Expr} [∀ l, Growing (product l)]
    (hproduct : YieldsAll product) (hmul : MultipliesAll ν d product) (hs : Good s)
    (h : ∀ e ∈ l, e.Ordinary) (hknown : s.Knows l) :
    Delivers (Store.valued ν) d s (mergeMatrices product l) fun m _ =>
      (∀ e ∈ m, e.Ordinary) ∧ (m.map (valueIn ν)).prod = (l.map (valueIn ν)).prod where
  yields := yields_mergeMatrices hproduct hs hknown d
  ensures := by
    refine .of_mem fun hmem => ?_
    unfold mergeMatrices
    refine .ite (fun _ => ?_) fun _ => .pure ⟨h, rfl⟩
    have hmatrices : s.Knows (l.filter isMatrixFactor) :=
      hknown.of_subset List.filter_sublist.subset
    refine Delivers.bind ⟨yields_chainWith hproduct s _ hs hmatrices d,
      multipliesAll_chainWith hmul s _ hs hmatrices fun e he => h e (List.mem_filter.1 he).1⟩
      fun e t _ _ _ _ he => .pure ?_
    obtain ⟨hfactors, hprod⟩ := he.ordinary.factors_spec (ν := ν)
    refine ⟨List.forall_mem_append.2 ⟨fun e he => h e (List.mem_filter.1 he).1, hfactors⟩, ?_⟩
    rw [prod_eq_of_central (l := l) (p := fun e => !e.isMatrixFactor) fun e he hmatrix =>
      (Store.respects_of_mem hmem).central e (hknown e he) ((h e he).isScalar (by simpa using hmatrix))]
    simp [hprod, he.valueIn]

/-- A canonical product has the product of the values of its factors as its value. -/
lemma multipliesAll_productAux (depth : ℕ) : MultipliesAll ν d (productAux depth) := by
  induction depth with
  | zero =>
    intro s l _ _ _
    unfold productAux
    exact .throw _
  | succ depth ih =>
    intro s l hs hknown h
    obtain ⟨hfactors, hprod⟩ := flatMap_factors_spec (ν := ν) h
    have hknown' : s.Knows (l.flatMap factors) := by
      intro e he
      obtain ⟨f, hf, hmem⟩ := List.mem_flatMap.1 he
      exact knows_factors (good_store.1 hs) (hknown f hf) e hmem
    refine .of_mem fun hmem => ?_
    have hparts := prod_eq_parts hfactors fun e he =>
      (Store.respects_of_mem hmem).central e (hknown' e he)
    rw [← hprod]
    unfold productAux
    refine ((achieves_settle_coefficient hs hfactors).delivers Store.valued_le).bind
      fun c t ht hle _ _ hc => ?_
    refine .ite (fun hzero => ensures_zero ht hc hzero hparts) fun _ => ?_
    have hyields : YieldsBoth fun a b => applyDomain a b >>= fun _ => productAux depth [a, b] :=
      fun s a b hs ha hb =>
      (yields_applyDomain hs a b).bind fun _ t ht hle _ => yields_productAux depth t _ ht (by grind)
    have hpair : MultipliesPair ν d
        fun a b => applyDomain a b >>= fun _ => productAux depth [a, b] := by
      intro s v w a b hs hknown hknown' ha hb
      refine Delivers.bind (Q := fun _ _ => True) ⟨yields_applyDomain hs a b d, fun _ _ _ _ => trivial⟩
        fun _ t ht hle _ _ _ => ?_
      have hmul := ih t [a, b] ht (by grind) (by simpa using ⟨ha.ordinary, hb.ordinary⟩)
      simpa [ha.valueIn, hb.valueIn] using hmul
    refine (delivers_mergeMatrices (yields_foldProduct hyields)
      (multipliesAll_foldProduct hyields hpair) ht hfactors (hknown'.mono hle)).bind
      fun m u hu _ hm _ hmerged => ?_
    rw [← hmerged.2]
    exact multipliesAll_assemble (yields_sumWith (yields_productAux depth))
      (fun s l hs h hne => exact_sumWith_literals hs h hne) u m hu hm hmerged.1

lemma multipliesAll_canonicalProduct : MultipliesAll ν d canonicalProduct := by
  intro s l hs hknown h
  unfold canonicalProduct
  exact .read (multipliesAll_productAux d s l hs hknown h)

end Products

end Expr

end TermGraph
