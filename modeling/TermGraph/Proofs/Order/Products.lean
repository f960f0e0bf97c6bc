import TermGraph.Proofs.Order.Repetition
import TermGraph.Proofs.Polynomial.Monomial

/-!
# Products in any order

The canonical product of graded operands with at most one matrix among their factors, and later the
product of other operands with the same factors in any order.  The literals multiply to the same
coefficient, the scalar factors are gathered under the same bases in the same order, and for each base
the exponents add up to the same node, so the chain that is built is the same.

* `Expr.SumsAgree`, `Expr.ExponentsAgree`, `Expr.ProductsAgree`: functions for sums and products that
  give results, and the same ones later and in another order.
* `Expr.repeats_mergePowers`: scalar factors in any order.
* `Expr.productsAgree_of_exponentsAgree`: the order of factors does not matter if the order of exponents
  does not.
-/

namespace TermGraph

open Store (Knows)

namespace Expr

variable {s : Store} {d k : ℕ} {P : Prop}

/-! ## Agreement -/

/-- `f` adds up operands, and later `g` adds them up to the same node, in whatever order. -/
def SumsAgree (d k : ℕ) (f g : List Expr → Build Expr) : Prop :=
  ∀ (P : Prop) (s : Store) (l l' : List Expr), Good s → s.Knows l → (∀ e ∈ l, Fits P k e) →
    l.Perm l' → Repeats d s (f l) (g l') (Fits P k) Eq

/-- `f` adds up exponents, and later `g` adds them up to the same node, in whatever order. -/
def ExponentsAgree (d k : ℕ) (f g : List Expr → Build Expr) : Prop :=
  ∀ (s : Store) (l l' : List Expr), Good s → s.Knows l → l ≠ [] → (∀ n ∈ l, IsExponent k n) →
    l.Perm l' → Repeats d s (f l) (g l') (IsExponent k) Eq

/-- `f` multiplies operands with at most one matrix, and later `g` multiplies operands with the same
factors to the same node. -/
def ProductsAgree (d k : ℕ) (f g : List Expr → Build Expr) : Prop :=
  ∀ (P : Prop) (s : Store) (l l' : List Expr), Good s → s.Knows l → (∀ e ∈ l, Fits P k e) →
    ((l.flatMap factors).filter isMatrixFactor).length ≤ 1 →
      (l.flatMap factors).Perm (l'.flatMap factors) → Repeats d s (f l) (g l') (Fits P k) Eq

/-! ## Coefficients -/

lemma repeats_settle (hs : Good s) {total total' : Number.Tracked} {c : ℤ}
    (h : total.kept = true → total.value.IsInt c) (h' : total'.kept = true → total'.value.IsInt c) :
    Repeats d s (Build.settle total) (Build.settle total') (·.IsInt c) Eq where
  yields := yields_settle hs total d
  exact := (exact_settle total).imp fun n t _ _ hn => by
    rw [hn.1]
    exact ⟨h hn.2, (Later.settle total').imp fun n' hn' => hn'.1 ▸ (h hn.2).eq (h' hn'.2)⟩

/-- The value of the literals among some operands. -/
def literalValues (l : List Expr) : List ℤ :=
  (literals l).map Number.intValue

lemma perm_literalValues {l l' : List Expr} (h : l.Perm l') :
    (literalValues l).Perm (literalValues l') :=
  (h.filterMap number?).map _

/-- Literals are the integers of their values. -/
lemma forall₂_literalValues {l : List Expr} (h : ∀ e ∈ l, IsDiscrete e) :
    List.Forall₂ Number.IsInt (literals l) (literalValues l) := by
  refine List.forall₂_map_right_iff.2 (List.forall₂_same.2 fun n hn => ?_)
  obtain ⟨e, he, hnumber⟩ := List.mem_filterMap.1 hn
  obtain ⟨n', hn', hint⟩ := (h e he (by simp [hnumber])).number
  obtain rfl : n' = n := Option.some.inj (hn'.symm.trans hnumber)
  exact hint.intValue ▸ hint

/-- Literals in any order multiply to the same coefficient. -/
lemma repeats_coefficient (hs : Good s) {l l' : List Expr} (h : ∀ e ∈ l, IsDiscrete e)
    (hperm : l.Perm l') :
    Repeats d s (Build.settle (coefficient l)) (Build.settle (coefficient l'))
      (fun n => n.IsInt (literalValues l).prod) Eq := by
  refine repeats_settle hs (isInt_prod_literals (forall₂_literalValues h)) fun hkept => ?_
  rw [(perm_literalValues hperm).prod_eq]
  exact isInt_prod_literals (forall₂_literalValues fun e he => h e (hperm.symm.subset he)) hkept

lemma repeats_coefficientFactor (hs : Good s) {n : Number} {c : ℤ} (h : n.IsInt c) :
    Repeats d s (coefficientFactor n) (coefficientFactor n) (fun l => ∀ e ∈ l, Fits True k e) Eq where
  yields := yields_coefficientFactor hs n d
  exact := by
    unfold coefficientFactor
    split
    · exact .pure ⟨by simp, .pure rfl⟩
    · refine (repeats_number hs h).bind_eq fun e t _ _ _ he => .pure ⟨?_, .pure rfl⟩
      simpa using .of_literal he

/-! ## Powers -/

lemma Fits.isReal {k : ℕ} {e : Expr} (h : Fits True k e) : e.IsReal := by
  have hscalar := h.isScalar trivial
  rcases h.graded.numeric with hd | hd | hd
  · exact .inl hd
  · exact .inr hd
  · rw [hd] at hscalar
    cases hscalar

lemma IsExponent.fits {n : Expr} (h : IsExponent k n) : Fits True (k - 1) n :=
  ⟨h.graded, fun _ => h.isScalar⟩

/-- A power of a graded scalar, in the same way each time. -/
lemma repeats_power (hs : Good s) {b n : Expr} (hb : Fits True k b) (hn : IsExponent k n)
    (hknown : s.Knows b) (hknown' : s.Knows n) :
    Repeats d s (power b n) (power b n) (Fits True k) Eq where
  yields := yields_power hs hknown hknown' d
  exact := by
    unfold power
    have htarget : Repeats d s (ofFunction (.builtin .pow)) (ofFunction (.builtin .pow))
        (fun e => e.kind = .function (.builtin .pow)) Eq :=
      (achieves_builtin hs .pow).repeats fun _ _ ht he hkind => .intern ht he (by rw [hkind]) rfl _
    refine htarget.bind_eq fun t s₁ hs₁ h₁ hknownt ht => ?_
    have hargument : Repeats d s₁ (tuple [b, n]) (tuple [b, n])
        (fun e => e.kind = .tuple [b, n]) Eq :=
      (achieves_pair hs₁ (hknown.mono h₁) (hknown'.mono h₁)).repeats
        fun _ _ ht he hkind => .intern ht he (by rw [hkind]) rfl _
    refine hargument.bind_eq fun a s₂ hs₂ h₂ hknowna ha => ?_
    unfold powerOf
    split
    · exact (repeats_one hs₂).exact.imp fun e _ _ _ he => ⟨.of_literal he.1, he.2⟩
    · split
      · exact .pure ⟨hb, .pure rfl⟩
      · have htyped := ((good_store.1 hs₁).admits hknownt).typed
        rw [ht] at htyped
        have hdomain := applyDomain?_pow ht htyped ha hb.isReal hn.fits.isReal
        have happly : Repeats d s₂ (rawApply t a) (rawApply t a)
            (fun e => e.kind = .apply t a ∧ e.domain = .reals) Eq :=
          (achieves_rawApply hs₂ (hknownt.mono h₂) hknowna (P := (· = .reals))
            ⟨.reals, hdomain, rfl⟩).repeats fun _ _ ht he h => later_rawApply ht he h.1
        refine happly.exact.imp fun e _ _ _ he => ⟨⟨?_, fun _ => ?_⟩, he.2⟩
        · exact .of_power (power?_eq_some.2 ⟨t, a, he.1.1, ht, ha⟩) he.1.2 hb.graded
            (hb.isScalar trivial) hn
        · rw [he.1.2]
          rfl

lemma repeats_raisedBase (hs : Good s) {b n : Expr} (hb : Fits True k b) (hn : IsExponent k n)
    (hknown : s.Knows b) (hknown' : s.Knows n) :
    Repeats d s (raisedBase b n) (raisedBase b n) (Fits True k) Eq where
  yields := yields_raisedBase hs hknown hknown' d
  exact := by
    unfold raisedBase
    split
    · exact .pure ⟨hb, .pure rfl⟩
    · exact (repeats_power hs hb hn hknown hknown').exact

/-- A scalar factor is split into a graded base and an exponent. -/
lemma repeats_splitPower (hs : Good s) {e : Expr} (he : s.Knows e) (h : Fits True k e) :
    Repeats d s (splitPower e) (splitPower e)
      (fun p => Fits True k p.1 ∧ IsExponent k p.2) Eq where
  yields := yields_splitPower hs he d
  exact := by
    unfold splitPower
    split
    · rename_i b n hpower
      obtain ⟨⟨hb, hscalar⟩, hn⟩ := h.graded.power hpower
      exact .pure ⟨⟨⟨hb, fun _ => hscalar⟩, hn⟩, .pure rfl⟩
    · refine (repeats_one hs).bind_eq fun n t _ _ _ hn => .pure ⟨⟨h, ?_⟩, .pure rfl⟩
      obtain ⟨m, hm, -⟩ := hn.number
      exact ⟨.of_literal hn, hn.real.isScalar, fun hnone => by simp [hm] at hnone⟩

variable {f g : List Expr → Build Expr} [∀ l, Growing (f l)] [∀ l, Growing (g l)]

/-- Bases to the sums of their exponents, which may come in any order. -/
lemma repeats_raisedBases (hf : YieldsAll f) (hfg : ExponentsAgree d k f g) (hs : Good s)
    {groups groups' : List (Expr × List Expr)}
    (hgroups : List.Forall₂ (fun p q => p.1 = q.1 ∧ p.2.Perm q.2) groups groups')
    (hknown : s.Knows groups) (hbase : ∀ p ∈ groups, Fits True k p.1)
    (hexponents : ∀ p ∈ groups, p.2 ≠ [] ∧ ∀ n ∈ p.2, IsExponent k n) :
    Repeats d s (raisedBases f groups) (raisedBases g groups') (fun l => ∀ e ∈ l, Fits True k e) Eq
    where
  yields := yields_raisedBases hf hs hknown d
  exact := by
    induction hgroups generalizing s with
    | nil => exact .pure ⟨by simp, .pure rfl⟩
    | @cons p q groups groups' hpq _ ih =>
      obtain ⟨b, ns⟩ := p
      obtain ⟨_, ns'⟩ := q
      obtain ⟨rfl, hperm⟩ := hpq
      simp only [Store.knows_cons, Store.knows_pair] at hknown
      rw [List.forall_mem_cons] at hbase hexponents
      rw [raisedBases, raisedBases]
      refine (hfg s ns ns' hs hknown.1.2 hexponents.1.1 hexponents.1.2 hperm).bind_eq
        fun n t ht hle hknownn hn => ?_
      have hknownt := hknown.2.mono hle
      split
      · exact ih ht hknownt hbase.2 hexponents.2
      · refine (repeats_raisedBase ht hbase.1 hn (hknown.1.1.mono hle) hknownn).bind_eq
          fun e u hu hle' _ he => ?_
        have hrest : Repeats d u (raisedBases f groups) (raisedBases g groups')
            (fun l => ∀ e ∈ l, Fits True k e) Eq :=
          ⟨yields_raisedBases hf hu (hknownt.mono hle') d,
            ih hu (hknownt.mono hle') hbase.2 hexponents.2⟩
        refine hrest.bind_eq fun l v _ _ _ hl => .pure ⟨?_, .pure rfl⟩
        exact List.forall_mem_cons.2 ⟨he, hl⟩

/-- Scalar factors in any order are merged into the same powers. -/
lemma repeats_mergePowers (hf : YieldsAll f) (hfg : ExponentsAgree d k f g) (hs : Good s)
    {l l' : List Expr} (hperm : l.Perm l') (hknown : s.Knows l) (h : ∀ e ∈ l, Fits True k e) :
    Repeats d s (mergePowers f l) (mergePowers g l') (fun l => ∀ e ∈ l, Fits True k e) Eq where
  yields := yields_mergePowers hf hs hknown d
  exact := by
    unfold mergePowers
    refine (Repeats.mapM hs hperm fun e he t ht hle =>
      repeats_splitPower ht ((hknown e he).mono hle) (h e he)).bind (fun _ => .refl _)
      fun split split' t ht _ hsplit hfits hperm' => ?_
    have hgroups := forall₂_groups (good_store.1 ht) hperm' (fun p hp => (hsplit p hp).1)
      fun p hp => (hfits p hp).1.graded.literal
    refine (repeats_raisedBases hf hfg ht hgroups ?_ ?_ ?_).exact
    · refine gather_forall (fun p hp => (hsplit p hp).1) (fun p hp => ?_) fun es p hp hes => ?_
      · simpa using (hsplit p hp).2
      · exact Store.knows_append.2 ⟨hes, by simpa using (hsplit p hp).2⟩
    · exact gather_keys_forall fun p hp => (hfits p hp).1
    · intro p hp
      refine ⟨(mem_groups hp).2, fun n hn => ?_⟩
      obtain ⟨q, hq, rfl⟩ := List.mem_map.1 ((mem_groups hp).1 n hn)
      exact (hfits q hq).2

/-! ## Chains -/

/-- Applying factors one after the other, in the same way each time. -/
lemma repeats_foldlM_rawApply (hs : Good s) {e : Expr} {rest : List Expr} (he : s.Knows e)
    (hrest : s.Knows rest) (h : ∀ f ∈ e :: rest, Fits P k f)
    (hscalar : ∀ f ∈ (e :: rest).dropLast, f.domain.isScalar = true) :
    Exact d s (rest.foldlM rawApply e) fun f t =>
      Fits P k f ∧ Later t (rest.foldlM rawApply e) (Eq f) := by
  induction rest generalizing s e with
  | nil => exact .pure ⟨h e (by simp), .pure rfl⟩
  | cons a rest ih =>
    rw [Store.knows_cons] at hrest
    rw [List.forall_mem_cons, List.forall_mem_cons] at h
    have hes : e.domain.isScalar = true := hscalar e (by simp)
    have henumeric := h.1.graded.numeric
    have hanumeric := h.2.1.graded.numeric
    rw [List.foldlM_cons]
    refine (repeats_rawApply hs he hrest.1 henumeric hanumeric).bind_eq fun f t ht hle hf hspec => ?_
    obtain ⟨hkind, hnumeric, hiff⟩ := hspec
    have hm : multiplies e a = true := by
      simp [multiplies, function?_of_isLinear (good_store.1 hs) he henumeric.isLinear,
        henumeric.isLinear, hanumeric.isLinear]
    have hfits : Fits P k f :=
      ⟨.of_product hkind hm hnumeric h.1.graded h.2.1.graded hes fun hfs => (hiff.1 hfs).2,
        fun hP => hiff.2 ⟨hes, h.2.1.isScalar hP⟩⟩
    refine ih ht hf (hrest.2.mono hle) (List.forall_mem_cons.2 ⟨hfits, h.2.2⟩) ?_
    cases rest with
    | nil => simp
    | cons b rest =>
      simp only [List.dropLast_cons_cons, List.forall_mem_cons] at hscalar ⊢
      exact ⟨hiff.2 ⟨hes, hscalar.2.1⟩, hscalar.2.2⟩

/-- The chain of some factors of which only the last may be a matrix. -/
lemma repeats_leftChain (hs : Good s) {l : List Expr} (hl : s.Knows l) (h : ∀ e ∈ l, Fits P k e)
    (hscalar : ∀ e ∈ l.dropLast, e.domain.isScalar = true) {n : Number} {c : ℤ} (hn : n.IsInt c) :
    Repeats d s (leftChain n l) (leftChain n l) (Fits P k) Eq where
  yields := yields_leftChain hs hl n d
  exact := by
    cases l with
    | nil => exact (repeats_number hs hn).exact.imp fun e _ _ _ he => ⟨.of_literal he.1, he.2⟩
    | cons e rest =>
      rw [Store.knows_cons] at hl
      exact repeats_foldlM_rawApply hs hl.1 hl.2 h hscalar

/-! ## Products -/

/-- Lists of at most one item have one order. -/
lemma eq_of_perm_of_length_le_one {α : Type} {l l' : List α} (h : l.Perm l') (hl : l.length ≤ 1) :
    l = l' := by
  match l, hl with
  | [], _ => exact h.nil_eq
  | [a], _ => exact (List.singleton_perm.1 h)

/-- Factors of which at most one is a matrix, in any order. -/
lemma repeats_assemble (hf : YieldsAll f) (hfg : ExponentsAgree d k f g) (hs : Good s)
    {l l' : List Expr} (hperm : l.Perm l') (hknown : s.Knows l) (h : ∀ e ∈ l, Fits P k e)
    (hmatrices : (l.filter isMatrixFactor).length ≤ 1) :
    Repeats d s (assemble f l) (assemble g l') (Fits P k) Eq where
  yields := yields_assemble hf s l hs hknown d
  exact := by
    unfold assemble
    refine (repeats_coefficient hs (fun e he => (h e he).graded.literal) hperm).bind_eq
      fun n t ht hle _ hn => ?_
    split
    · exact (repeats_number ht hn).exact.imp fun e _ _ _ he => ⟨.of_literal he.1, he.2⟩
    have hsub {p : Expr → Bool} {u : Store} (hle' : s ≤ u) : u.Knows (l.filter p) :=
      (hknown.of_subset List.filter_sublist.subset).mono hle'
    have hscalars : ∀ e ∈ l.filter isScalarFactor, Fits True k e := fun e he => by
      have hfactor := (List.mem_filter.1 he).2
      simp only [isScalarFactor, Bool.and_eq_true] at hfactor
      exact ⟨(h e (List.mem_filter.1 he).1).graded, fun _ => hfactor.2⟩
    refine (repeats_mergePowers hf hfg ht (hperm.filter _) (hsub hle) hscalars).bind_eq
      fun scalars u hu hle' hknown' hscalars' => ?_
    refine (repeats_coefficientFactor (k := k) hu hn).bind_eq
      fun front v hv hle'' hknown'' hfront => ?_
    -- With at most one matrix, the matrices come in one order only.
    rw [← eq_of_perm_of_length_le_one (hperm.filter isMatrixFactor) hmatrices]
    have hleading : ∀ e ∈ front ++ scalars, Fits True k e :=
      List.forall_mem_append.2 ⟨hfront, hscalars'⟩
    refine (repeats_leftChain hv ?_ (List.forall_mem_append.2 ⟨fun e he => ?_, fun e he => ?_⟩)
      (fun e he => ?_) hn).exact
    · exact Store.knows_append.2 ⟨Store.knows_append.2 ⟨hknown'', hknown'.mono hle''⟩,
        hsub (hle.trans (hle'.trans hle''))⟩
    · exact ⟨(hleading e he).graded, fun _ => (hleading e he).isScalar trivial⟩
    · exact h e (List.mem_filter.1 he).1
    · exact (hleading e (mem_of_mem_dropLast hmatrices he)).isScalar trivial

/-- With at most one matrix there is nothing to merge. -/
lemma mergeMatrices_of_length {l : List Expr} (h : (l.filter isMatrixFactor).length ≤ 1)
    (product : List Expr → Build Expr) : mergeMatrices product l = pure l := by
  simp only [mergeMatrices, Nat.not_lt.2 h, if_false]

/-- If the order of exponents does not matter, the order of factors does not. -/
lemma productsAgree_of_exponentsAgree {depth depth' : ℕ}
    (h : ExponentsAgree d k (sumWith (productAux depth)) (sumWith (productAux depth'))) :
    ProductsAgree d k (productAux (depth + 1)) (productAux (depth' + 1)) := by
  intro P s l l' hs hknown hl hmatrices hperm
  refine ⟨yields_productAux (depth + 1) s l hs hknown d, ?_⟩
  have hfactors : ∀ e ∈ l.flatMap factors, Fits P k e := fun e he => by
    obtain ⟨e', he', hmem⟩ := List.mem_flatMap.1 he
    exact (hl e' he').factors e hmem
  have hknown' : s.Knows (l.flatMap factors) := fun e he => by
    obtain ⟨e', he', hmem⟩ := List.mem_flatMap.1 he
    exact knows_factors (good_store.1 hs) (hknown e' he') e hmem
  unfold productAux
  refine (repeats_coefficient hs (fun e he => (hfactors e he).graded.literal) hperm).bind_eq
    fun n t ht hle _ hn => ?_
  split
  · exact (repeats_number ht hn).exact.imp fun e _ _ _ he => ⟨.of_literal he.1, he.2⟩
  · have hmatrices' : ((l'.flatMap factors).filter isMatrixFactor).length ≤ 1 := by
      rwa [← (hperm.filter isMatrixFactor).length_eq]
    simp only [mergeMatrices_of_length hmatrices, mergeMatrices_of_length hmatrices', pure_bind]
    exact (repeats_assemble (yields_sumWith (yields_productAux depth)) h ht hperm
      (hknown'.mono hle) hfactors hmatrices).exact

end Expr

end TermGraph
