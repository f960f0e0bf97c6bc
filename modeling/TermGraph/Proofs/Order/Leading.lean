import TermGraph.Proofs.Order.Domains
import TermGraph.Proofs.Store.Sharing

/-!
# Scalars lead

In a store without custom domains, the target of every product is a scalar: products are made by
applying scalars one after the other and a matrix, if there is one, at the end.  So the factors of an
expression hold at most one matrix.

* `Store.Led s`: the targets of products are scalars, unless there are custom domains.
* `Upkeep.LedBy P`: what products can harm is kept up if the targets of products have the property
  `P`.  Products are made from factors of which all but the last have it.
* `Upkeep.leading`: that the targets of products are scalars is kept up along with the invariant.
* `Store.Reachable.led`: it holds of every store that can be reached.
* `Expr.length_matrixFactors`: an expression of such a store has at most one matrix among its factors.
-/

namespace TermGraph

open Store (Knows)

/-- All but the last of some items are among the first ones, or all but the last of the others. -/
lemma mem_dropLast_append {α : Type} {l m : List α} {a : α} (h : a ∈ (l ++ m).dropLast) :
    a ∈ l ∨ a ∈ m.dropLast := by
  cases m with
  | nil =>
    rw [List.append_nil] at h
    exact .inl (List.mem_of_mem_dropLast h)
  | cons b m =>
    rw [List.dropLast_append_of_ne_nil (by simp), List.mem_append] at h
    exact h

/-- All but the last of some items followed by at most one more. -/
lemma mem_of_mem_dropLast {α : Type} {l m : List α} {a : α} (hm : m.length ≤ 1)
    (h : a ∈ (l ++ m).dropLast) : a ∈ l := by
  rcases mem_dropLast_append h with h | h
  · exact h
  · have hpos := List.length_pos_of_mem h
    rw [List.length_dropLast] at hpos
    omega

namespace Store

variable {s t : Store} {domain : Domain} {kind : Kind} {e : Expr}

/-- What is known after a request is the node that was made, or was known before. -/
lemma knows_of_knows_intern (h : (s.intern domain kind).2.Knows e) :
    s.Knows e ∨ e = .node s.nodes.size domain kind := by
  have hpush {table : Std.TreeMap (List ℕ) Expr}
      (h : Knows { s with nodes := s.nodes.push (.node s.nodes.size domain kind), table := table } e) :
      s.Knows e ∨ e = .node s.nodes.size domain kind := by
    rw [knows_iff_getElem?, Array.getElem?_push] at h
    split at h
    · cases h
      exact .inr rfl
    · exact .inl h
  rw [intern] at h
  split at h
  · exact hpush h
  · split at h
    · exact .inl h
    · exact hpush h

/-- Unless there are custom domains, the targets of products are scalars. -/
def Led (s : Store) : Prop :=
  s.Builtin → ∀ e t a : Expr, s.Knows e → e.kind = .apply t a → Expr.multiplies t a = true →
    t.domain.isScalar = true

lemma Led.of_nodes (hnodes : t.nodes = s.nodes) (h : s.Led) : t.Led := by
  have hknows {e : Expr} : t.Knows e ↔ s.Knows e := knows_iff_of_nodes hnodes
  intro hb e t' a he
  exact h (fun e' he' => hb e' (hknows.2 he')) e t' a (hknows.1 he)

/-- A new node keeps it up if it is no product, or one with a scalar for its target. -/
lemma Led.intern (h : s.Led) (hkind : s.Builtin → ∀ t a, kind = .apply t a →
      Expr.multiplies t a = true → t.domain.isScalar = true) : (s.intern domain kind).2.Led := by
  intro hb e t a he hk hm
  have hb' := hb.anti (le_intern domain kind s)
  rcases knows_of_knows_intern he with he | rfl
  · exact h hb' e t a he hk hm
  · exact hkind hb' t a hk hm

/-- Where nothing has been built, there are no products. -/
lemma Blank.led (h : s.Blank) : s.Led := by
  intro _ e t a he hkind
  obtain ⟨name, hsymbol⟩ := h.exists_symbol he
  rw [hkind] at hsymbol
  cases hsymbol

end Store

namespace Expr

variable {s : Store} {e : Expr}

/-- Unless there are custom domains, an expression has at most one matrix among its factors. -/
lemma length_matrixFactors (hs : s.WellFormed) (hled : s.Led) (hb : s.Builtin) (he : s.Knows e) :
    (e.factors.filter isMatrixFactor).length ≤ 1 := by
  induction hsize : sizeOf e using Nat.strongRecOn generalizing e with
  | _ n ih =>
    subst hsize
    have hsingle (f : Expr) : ([f].filter isMatrixFactor).length ≤ 1 := List.length_filter_le _ _
    have hchildren := hs.children he
    obtain ⟨ordinal, domain, kind⟩ := e
    cases kind with
    | apply t a =>
      simp only [children, Kind.children, Expr.kind, Store.knows_cons] at hchildren
      by_cases hm : multiplies t a = true
      · -- The target is a scalar, and then so are its factors.
        have hscalar := isScalar_of_mem_factors hs hb hchildren.1 (hled hb _ t a he rfl hm)
        have hnone : t.factors.filter isMatrixFactor = [] :=
          List.filter_eq_nil_iff.2 fun f hf => by simp [isMatrixFactor, hscalar f hf]
        rw [factors_apply _ _ hm, List.filter_append, hnone, List.nil_append]
        exact ih _ (sizeOf_lt_of_mem_children (by simp [children, Kind.children, Expr.kind]))
          hchildren.2.1 rfl
      · rw [factors, factorsOnto, if_neg hm]
        exact hsingle _
    | _ => exact hsingle _

end Expr

/-! ## Scalar factors -/

namespace Expr

variable [Upkeep] {s : Store} {d : ℕ}

/-- The node of a literal is a literal with the same structure. -/
lemma sound_number (hs : Good s) (n : Number) :
    Sound Good d s (number n) fun e t => t.Knows e ∧ e.domain.isScalar = true ∧
      ∃ m, e.number? = some m ∧ m.code = n.code := by
  refine sound_plain hs
    ⟨by simp [Kind.children], fun _ h => h.elim, rfl, by simp [Kind.index?]⟩ rfl trivial
    fun e t ht _ he hcode => ?_
  obtain ⟨m, hkind, hm⟩ := Kind.exists_number_of_code hcode
  have hnumber : e.number? = some m := by rw [number?, hkind]
  exact ⟨he, isScalar_of_number ht he (by simp [hnumber]), m, hnumber, hm⟩

/-- Powers of scalars are scalars, and the power of a base other than one to an exponent other than
zero and one is a node of its own. -/
lemma sound_power (hs : Good s) {base exponent : Expr} (hb : s.Knows base) (he : s.Knows exponent) :
    Sound Good d s (power base exponent) fun e t => t.Knows e ∧
      (base.domain.isScalar = true → e.domain.isScalar = true) ∧
      ((exponent.isZero || base.isOne) = false → exponent.isOne = false →
        e.power? = some (base, exponent)) := by
  unfold power
  refine (sound_ofFunction hs (by simp) d).bind fun t s₁ hs₁ h₁ ht => ?_
  have htkind := Kind.eq_builtin_of_code ht.2
  refine (sound_pair hs₁ (hb.mono h₁) (he.mono h₁) d).bind fun a s₂ hs₂ h₂ ha => ?_
  unfold powerOf
  split
  · rename_i htrivial
    exact (sound_number hs₂ (.int 1)).imp fun e t _ h => ⟨h.1, fun _ => h.2.1, by simp [htrivial]⟩
  · rename_i hproper
    split
    · rename_i hone
      exact .pure hs₂ ⟨(hb.mono h₁).mono h₂, id, by simp [hone]⟩
    · rename_i hone
      have hplain : (Kind.apply t a).isPlain = true :=
        isPlain_power (by rw [function?, htkind]) ha.2 hproper hone
      have ht₂ := ht.1.mono h₂
      unfold rawApply
      refine (sound_applyDomain hs₂ t a d).bind fun domain s₃ hs₃ h₃ hdomain => ?_
      refine sound_plain hs₃ (admits_apply (ht₂.mono h₃) (ha.1.mono h₃) hdomain) hplain trivial
        fun e u hu hle he hcode => ?_
      have hkind := hu.kind_eq_apply he ((ht₂.mono h₃).mono hle) ((ha.1.mono h₃).mono hle) hcode
      have hpower := power?_eq_some.2 ⟨t, a, hkind, htkind, ha.2⟩
      exact ⟨he, fun _ => by rw [(domain_of_power? hu he hpower).1]; rfl, fun _ _ => hpower⟩

/-- The base of a scalar factor is a scalar. -/
lemma sound_splitPower (hs : Good s) {factor : Expr} (h : s.Knows factor)
    (hscalar : factor.domain.isScalar = true) :
    Sound Good d s (splitPower factor) fun p t => t.Knows p ∧ p.1.domain.isScalar = true := by
  unfold splitPower
  split
  · rename_i base exponent hpower
    have hknown := knows_power? hs.wellFormed h hpower
    exact .pure hs ⟨hknown, (domain_of_power? hs.wellFormed h hpower).2.1⟩
  · refine (yields_one hs d).bind fun n t ht hle hn => ?_
    exact .pure ht ⟨⟨h.mono hle, hn⟩, hscalar⟩

variable {sum : List Expr → Build Expr} [∀ l, Growing (sum l)]

lemma sound_raisedBases (hsum : YieldsAll sum) (hs : Good s) {groups : List (Expr × List Expr)}
    (h : s.Knows groups) (hscalar : ∀ g ∈ groups, g.1.domain.isScalar = true) :
    Sound Good d s (raisedBases sum groups) fun l t =>
      t.Knows l ∧ ∀ e ∈ l, e.domain.isScalar = true := by
  induction groups generalizing s with
  | nil => exact .pure hs ⟨by simp, by simp⟩
  | cons group groups ih =>
    obtain ⟨base, exponents⟩ := group
    simp only [Store.knows_cons, Store.knows_pair] at h
    rw [List.forall_mem_cons] at hscalar
    obtain ⟨⟨hbase, hexponents⟩, hgroups⟩ := h
    rw [raisedBases]
    refine (hsum s exponents hs hexponents d).bind fun exponent t ht hle hexponent => ?_
    split
    · exact ih ht (hgroups.mono hle) hscalar.2
    have hraised : Sound Good d t (raisedBase base exponent) fun e u =>
        u.Knows e ∧ e.domain.isScalar = true := by
      unfold raisedBase
      split
      · exact .pure ht ⟨hbase.mono hle, hscalar.1⟩
      · exact (sound_power ht (hbase.mono hle) hexponent).imp fun e u _ he => ⟨he.1, he.2.1 hscalar.1⟩
    refine hraised.bind fun e u hu hle' he => ?_
    refine (ih hu ((hgroups.mono hle).mono hle') hscalar.2).bind fun l v hv hle'' hl => ?_
    exact .pure hv ⟨Store.knows_cons.2 ⟨he.1.mono hle'', hl.1⟩, List.forall_mem_cons.2 ⟨he.2, hl.2⟩⟩

/-- Merged powers of scalars are scalars. -/
lemma sound_mergePowers (hsum : YieldsAll sum) (hs : Good s) {scalars : List Expr}
    (h : s.Knows scalars) (hscalar : ∀ e ∈ scalars, e.domain.isScalar = true) :
    Sound Good d s (mergePowers sum scalars) fun l t =>
      t.Knows l ∧ ∀ e ∈ l, e.domain.isScalar = true := by
  unfold mergePowers
  refine (Sound.mapM (P := fun (p : Expr × Expr) t => t.Knows p ∧ p.1.domain.isScalar = true)
    (fun p t u hle hp => ⟨hp.1.mono hle, hp.2⟩) scalars hs fun e he t ht hle =>
      sound_splitPower ht ((h e he).mono hle) (hscalar e he)).bind fun split t ht _ hsplit => ?_
  refine sound_raisedBases hsum ht ?_
    (gather_keys_forall (P := fun e => e.domain.isScalar = true) fun p hp => (hsplit p hp).2)
  refine gather_forall (fun p hp => (hsplit p hp).1.1) (fun p hp => ?_) fun es p hp hes => ?_
  · simpa using (hsplit p hp).1.2
  · exact Store.knows_append.2 ⟨hes, by simpa using (hsplit p hp).1.2⟩

end Expr

/-! ## Products -/

/-- A property that the targets of products have, and that suffices for what is kept up: scalars have
it, and so do all but the last of the factors that no literals or scalars are. -/
structure Upkeep.LedBy [Upkeep] (P : Store → Expr → Prop) : Prop where
  /-- Once it holds, it continues to hold. -/
  mono : ∀ {s t : Store} {e : Expr}, s ≤ t → P s e → P t e
  /-- Scalars have it. -/
  scalar : ∀ {s : Store} {e : Expr}, Good s → s.Knows e → e.domain.isScalar = true → P s e
  /-- A product has it if both its sides do. -/
  product : ∀ {s : Store} {e t a : Expr}, Good s → s.Knows e → e.kind = .apply t a → P s t → P s a →
    P s e
  /-- All but the last of the matrices that are multiplied have it. -/
  factors : ∀ {s : Store} {e : Expr}, Good s → s.Knows e →
    ∀ f ∈ (e.factors.filter Expr.isMatrixFactor).dropLast, P s f
  /-- Where the target has it, an application keeps up what is kept up. -/
  intern : ∀ {s : Store} {domain : Domain} {t a : Expr}, Good s → s.Admits domain (.apply t a) →
    P s t → Upkeep.Holds (s.intern domain (.apply t a)).2

namespace Upkeep.LedBy

open TermGraph.Expr

variable [Upkeep] {P : Store → Expr → Prop} (hled : LedBy P) {s : Store} {d : ℕ}

include hled

lemma sound_rawApply (hs : Good s) {target argument : Expr} (ht : s.Knows target)
    (ha : s.Knows argument) (h : P s target) :
    Sound Good d s (rawApply target argument) fun e t =>
      t.Knows e ∧ e.kind = .apply target argument := by
  unfold rawApply
  refine (sound_applyDomain hs target argument d).bind fun domain t hgood hle hdomain => ?_
  have ht' : t.Knows target := ht.mono hle
  have ha' : t.Knows argument := ha.mono hle
  have hadm := admits_apply ht' ha' hdomain
  obtain ⟨hwf, hknown, hcode⟩ := hgood.wellFormed.intern hadm
  have hle' := t.le_intern domain (.apply target argument)
  exact ⟨.of_wellFormed hwf (hled.intern hgood hadm (hled.mono hle h)), hknown,
    hwf.kind_eq_apply hknown (ht'.mono hle') (ha'.mono hle') hcode⟩

/-- Factors can be applied one after the other if all but the last have the property. -/
lemma yields_foldlM_rawApply (hs : Good s) {e : Expr} {rest : List Expr} (he : s.Knows e)
    (hrest : s.Knows rest) (h : ∀ f ∈ (e :: rest).dropLast, P s f) :
    Yields s (rest.foldlM rawApply e) := by
  induction rest generalizing s e with
  | nil => exact .pure hs he
  | cons a rest ih =>
    intro d
    rw [Store.knows_cons] at hrest
    rw [List.foldlM_cons]
    refine (hled.sound_rawApply hs he hrest.1 (h e (by simp))).bind fun f t ht hle hf => ?_
    refine ih ht hf.1 (hrest.2.mono hle) ?_ d
    cases rest with
    | nil => simp
    | cons b rest =>
      simp only [List.dropLast_cons_cons, List.forall_mem_cons] at h ⊢
      exact ⟨hled.product ht hf.1 hf.2 (hled.mono hle h.1) (hled.mono hle h.2.1),
        fun g hg => hled.mono hle (h.2.2 g hg)⟩

/-- Matrices are multiplied into one. -/
lemma sound_mergeMatrices {product : List Expr → Build Expr} [∀ l, Growing (product l)]
    (hproduct : YieldsAll product) (hs : Good s) {factors : List Expr} (h : s.Knows factors) :
    Sound Good d s (mergeMatrices product factors) fun l t =>
      t.Knows l ∧ ∀ f ∈ (l.filter isMatrixFactor).dropLast, P t f := by
  unfold mergeMatrices
  simp only
  split
  · refine (yields_chainWith hproduct s _ hs (h.of_subset List.filter_sublist.subset) d).bind
      fun e t ht hle he => .pure ht ⟨?_, ?_⟩
    · exact Store.knows_append.2
        ⟨(h.of_subset List.filter_sublist.subset).mono hle, knows_factors ht.wellFormed he⟩
    · have hnone : (factors.filter fun e => !e.isMatrixFactor).filter isMatrixFactor = [] :=
        List.filter_eq_nil_iff.2 fun f hf => by simpa using (List.mem_filter.1 hf).2
      rw [List.filter_append, hnone, List.nil_append]
      exact hled.factors ht he
  · refine .pure hs ⟨h, fun f hf => ?_⟩
    have hlength := List.length_pos_of_mem hf
    rw [List.length_dropLast] at hlength
    omega

variable {sum : List Expr → Build Expr} [∀ l, Growing (sum l)]

lemma yields_assemble (hsum : YieldsAll sum) (hs : Good s) {factors : List Expr}
    (h : s.Knows factors) (hmatrices : ∀ f ∈ (factors.filter isMatrixFactor).dropLast, P s f) :
    Yields s (assemble sum factors) := by
  intro d
  have hsub {p : Expr → Bool} : s.Knows (factors.filter p) := h.of_subset List.filter_sublist.subset
  unfold assemble
  refine (yields_settle hs _ d).bind fun c t ht hle _ => ?_
  split
  · exact yields_number ht c d
  have hscalar : ∀ e ∈ factors.filter isScalarFactor, e.domain.isScalar = true := fun e he => by
    have hfactor := (List.mem_filter.1 he).2
    simp only [isScalarFactor, Bool.and_eq_true] at hfactor
    exact hfactor.2
  refine (sound_mergePowers hsum ht (hsub.mono hle) hscalar).bind fun scalars u hu hle' hscalars => ?_
  have hfront : Sound Good d u (coefficientFactor c) fun l v =>
      v.Knows l ∧ ∀ e ∈ l, e.domain.isScalar = true := by
    unfold coefficientFactor
    split
    · exact .pure hu ⟨by simp, by simp⟩
    · refine (sound_number hu c).bind fun e v hv _ he => ?_
      exact .pure hv ⟨by simpa using he.1, by simpa using he.2.1⟩
  refine hfront.bind fun front v hv hle'' hfront => ?_
  have hmono := hle.trans (hle'.trans hle'')
  have hleft : v.Knows (front ++ scalars) := Store.knows_append.2 ⟨hfront.1, hscalars.1.mono hle''⟩
  have hknown : v.Knows (front ++ scalars ++ factors.filter isMatrixFactor) :=
    Store.knows_append.2 ⟨hleft, hsub.mono hmono⟩
  have hleading : ∀ e ∈ (front ++ scalars ++ factors.filter isMatrixFactor).dropLast, P v e := by
    intro e he
    rcases mem_dropLast_append he with hmem | hmem
    · refine hled.scalar hv (hleft e hmem) ?_
      exact (List.mem_append.1 hmem).elim (hfront.2 e) (hscalars.2 e)
    · exact hled.mono hmono (hmatrices e hmem)
  unfold leftChain
  split
  · exact yields_number hv c d
  · rename_i first rest hitems
    rw [hitems] at hknown hleading
    rw [Store.knows_cons] at hknown
    exact hled.yields_foldlM_rawApply hv hknown.1 hknown.2 hleading d

/-- Canonical products keep up what the targets of products suffice for, where sums do. -/
lemma yields_productAux
    (hsums : ∀ depth, YieldsAll (productAux depth) → YieldsAll (sumWith (productAux depth)))
    (depth : ℕ) : YieldsAll (productAux depth) := by
  induction depth with
  | zero =>
    intro s input hs _
    unfold productAux
    exact .throw hs _
  | succ depth ih =>
    intro s input hs hinput d
    have hfactors : s.Knows (input.flatMap Expr.factors) := by
      intro e he
      obtain ⟨c, hc, hmem⟩ := List.mem_flatMap.1 he
      exact knows_factors hs.wellFormed (hinput c hc) e hmem
    unfold productAux
    refine (yields_settle hs _ d).bind fun c t ht hle _ => ?_
    split
    · exact yields_number ht c d
    refine (hled.sound_mergeMatrices (yields_foldProduct fun s a b hs ha hb => ?_) ht
      (hfactors.mono hle)).bind fun merged u hu hle' hmerged => ?_
    · refine (yields_applyDomain hs a b).bind fun _ t ht hle _ => ih t _ ht ?_
      grind
    · exact hled.yields_assemble (hsums depth ih) hu hmerged.1 hmerged.2 d

lemma products [Upkeep.Sums] : Upkeep.Products :=
  products_of (hled.yields_productAux fun _ => yields_sumWith)

end Upkeep.LedBy

/-! ## Scalars as targets -/

/-- The targets of products stay scalars. -/
@[reducible] def Upkeep.leading : Upkeep where
  Holds := Store.Led
  since := 0
  since_le _ := Nat.zero_le _
  of_nodes _ := Store.Led.of_nodes
  intern _ _ hkind _ h := h.intern fun _ t a hk hm => by
    subst hk
    simp [Kind.isPlain, Kind.isProduct, hm] at hkind

section Leading

local instance : Upkeep := Upkeep.leading

/-- Sums are no products. -/
instance : Upkeep.Sums := ⟨fun _ _ _ h => h.intern fun _ _ _ hkind => by cases hkind⟩

namespace Expr

/-- Unless there are custom domains, products of scalars are scalars, and there is one matrix at most. -/
lemma ledBy_scalars : Upkeep.LedBy fun s e => s.Builtin → e.domain.isScalar = true where
  mono hle h hb := h (hb.anti hle)
  scalar _ _ h _ := h
  product {s e t a} hs he hkind ht ha hb := by
    have hchildren := hs.wellFormed.children he
    simp only [children, hkind, Kind.children, Store.knows_cons] at hchildren
    have hnumeric {g : Expr} (hg : s.Knows g) (hscalar : g.domain.isScalar = true) :
        g.domain.IsNumeric :=
      Domain.isNumeric_of_isLinear (hb g hg) (Domain.isLinear_of_isScalar (hb g hg) hscalar)
    exact (domain_of_apply hs.wellFormed he hkind (hnumeric hchildren.1 (ht hb))
      (hnumeric hchildren.2.1 (ha hb))).2.2 ⟨ht hb, ha hb⟩
  factors {s e} hs he f hf hb := by
    have hlength := length_matrixFactors hs.wellFormed hs.holds hb he
    have hpos := List.length_pos_of_mem hf
    rw [List.length_dropLast] at hpos
    omega
  intern {s domain t a} hs hadm h := by
    have hled : s.Led := hs.holds
    refine hled.intern fun hb t' a' hkind _ => ?_
    cases hkind
    exact h hb

end Expr

instance : Upkeep.Products := Expr.ledBy_scalars.products

/-- In every store that can be reached, scalars lead. -/
lemma Store.Reachable.led {s : Store} (h : s.Reachable) : s.Led :=
  (h.good fun hs => hs.led).holds

end Leading

end TermGraph
