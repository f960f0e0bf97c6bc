import TermGraph.Proofs.Order.Commutation
import TermGraph.Proofs.Typing.Ranks

/-!
# Sums and products of expressions with a rank

Sums and products of scalars and matrices succeed, keep the rank, and are scalars if their operands
are.  Here literals may be doubles, and nothing is said about values.

Sums multiply terms by coefficients and products add up exponents, so the two are treated together, by
induction on the rank: exponents have a smaller rank than the power.

* `Expr.Exponent k n`: `n` may be the exponent in a power of rank `k`.
* `Expr.Adding`, `Expr.Multiplying`: functions that add up exponents, and that multiply operands with at
  most one matrix.
* `Expr.Suits.multiplying_productAux`, `Expr.Suits.achieves_sum`: products and sums do.
* `Expr.Suits.achieves_chainWith`, `Expr.Suits.achieves_canonicalProduct`: so do products of several
  matrices.
-/

namespace TermGraph

open Store (Knows)

namespace Kind

/-- A node with the structure of a matrix operation is one with the same operands. -/
lemma isMatrixOperation_of_code {k k' : Kind} (hk : k.isMatrixOperation = true)
    (h : k'.code = k.code) : k'.isMatrixOperation = true ∧
      k'.children.map Expr.ordinal = k.children.map Expr.ordinal := by
  cases k <;> simp [isMatrixOperation] at hk <;> cases k' <;>
    simp_all [code, isMatrixOperation, children]

end Kind

/-- A node with the structure of a literal is a literal, and real. -/
lemma Store.WellFormed.literal_of_code {s : Store} (hs : s.WellFormed) {e : Expr} (he : s.Knows e)
    {m : Number} (h : e.kind.code = (Kind.number m).code) :
    e.number?.isSome = true ∧ e.IsReal := by
  obtain ⟨m', hkind, -⟩ := Kind.exists_number_of_code h
  have htyped := (hs.admits he).typed
  rw [hkind, Kind.Typed] at htyped
  refine ⟨by simp [Expr.number?, hkind], ?_⟩
  rw [Expr.IsReal, htyped]
  split
  · exact .inl rfl
  · exact .inr rfl

namespace Expr

/-- What a list is related to item by item is related to its items. -/
lemma exists_of_forall₂ {α β : Type} {R : α → β → Prop} {l : List α} {l' : List β}
    (h : List.Forall₂ R l l') : ∀ b ∈ l', ∃ a ∈ l, R a b := by
  induction h with
  | nil => simp
  | cons hab _ ih =>
    refine List.forall_mem_cons.2 ⟨⟨_, by simp, hab⟩, fun b hb => ?_⟩
    obtain ⟨a, ha, hR⟩ := ih b hb
    exact ⟨a, by simp [ha], hR⟩

variable {s : Store} {d j k : ℕ} {P : Prop} {e t a b n : Expr} {l : List Expr}

/-! ## Literals and powers -/

/-- An exponent in an expression of rank `k`: a literal, or a scalar of a smaller rank. -/
structure Exponent (k : ℕ) (n : Expr) : Prop where
  /-- It is a scalar. -/
  isScalar : n.domain.isScalar = true
  /-- It has a rank, which is smaller unless it is a literal. -/
  ranked : ∃ j ≤ k, (n.number? = none → j < k) ∧ Ranked j n

namespace Exponent

lemma isReal (h : Exponent k n) : n.IsReal := by
  obtain ⟨_, -, -, hn⟩ := h.ranked
  exact hn.isReal h.isScalar

lemma of_number (hnumber : n.number?.isSome = true) (hreal : n.IsReal) : Exponent k n :=
  ⟨hreal.isScalar, 0, k.zero_le, fun h => by simp [h] at hnumber, .literal hnumber hreal⟩

/-- The exponent in a power. -/
lemma of_power (h : Ranked k e) (hpower : e.power? = some (b, n)) : Exponent k n :=
  ⟨(h.of_power hpower).2.1, (h.of_power hpower).2.2⟩

/-- In the smallest rank, exponents are literals. -/
lemma isSome (h : Exponent 0 n) : n.number?.isSome = true := by
  obtain ⟨j, -, hlt, -⟩ := h.ranked
  exact Option.isSome_iff_ne_none.2 fun hnone => absurd (hlt hnone) (Nat.not_lt_zero j)

/-- In other ranks, exponents are scalars of the rank before. -/
lemma suits (h : Exponent (k + 1) n) : Suits True k n := by
  obtain ⟨j, hle, hlt, hn⟩ := h.ranked
  refine ⟨?_, fun _ => h.isScalar⟩
  cases hnumber : n.number? with
  | none => exact hn.mono (Nat.lt_succ_iff.1 (hlt hnumber))
  | some m => exact .literal (by simp [hnumber]) h.isReal

end Exponent

namespace Suits

/-- A literal. -/
lemma of_number (hnumber : e.number?.isSome = true) (hreal : e.IsReal) : Suits P k e :=
  ⟨.literal hnumber hreal, fun _ => hreal.isScalar⟩

/-- A literal has been made. -/
lemma achieves_literal (hs : Good s) (m : Number) :
    Achieves d s (number m) fun e => e.number?.isSome = true ∧ e.IsReal := by
  have hadm : s.Admits (if m.isInt then .integers else .reals) (.number m) :=
    ⟨by simp [Kind.children], fun _ h => h.elim, rfl, by simp [Kind.index?]⟩
  exact achieves_intern hs hadm fun e t ht _ he hcode => ht.literal_of_code he hcode

lemma achieves_number (hs : Good s) (m : Number) : Achieves d s (number m) (Suits P k) :=
  (achieves_literal hs m).imp fun _ he => .of_number he.1 he.2

lemma achieves_one (hs : Good s) : Achieves d s one (Suits P k) :=
  achieves_number hs _

lemma achieves_zero (hs : Good s) : Achieves d s zero (Suits P k) :=
  achieves_number hs _

lemma achieves_settle (hs : Good s) (total : Number.Tracked) :
    Achieves d s (Build.settle total) fun _ => True :=
  ⟨yields_settle hs total d, (exact_settle total).imp fun _ _ _ _ _ => trivial⟩

/-- A power of a scalar, for the node of the power function and the pair of base and exponent. -/
lemma achieves_powerOf (hs : Good s) (ht : t.kind = .function (.builtin .pow))
    (ha : a.kind = .tuple [b, n]) (hknownt : s.Knows t) (hknowna : s.Knows a) (hb : Suits True k b)
    (hn : Exponent k n) : Achieves d s (powerOf t a b n) (Suits True k) := by
  have hknownb : s.Knows b := by
    have hchildren := (good_store.1 hs).children hknowna
    rw [children, ha, Kind.children, Store.knows_cons] at hchildren
    exact hchildren.1
  unfold powerOf
  split
  · exact achieves_one hs
  split
  · exact .pure hs hknownb hb
  · have htyped := ((good_store.1 hs).admits hknownt).typed
    rw [ht] at htyped
    refine (achieves_rawApply hs hknownt hknowna (P := (· = .reals))
      ⟨.reals, applyDomain?_pow ht htyped ha hb.isReal hn.isReal, rfl⟩).imp fun e he => ?_
    obtain ⟨j, hle, hlt, hranked⟩ := hn.ranked
    refine ⟨.power (power?_eq_some.2 ⟨t, a, he.1, ht, ha⟩) he.2 (hb.isScalar trivial) hn.isScalar hle
      hlt hb.ranked hranked, fun _ => ?_⟩
    rw [he.2]
    rfl

lemma achieves_power (hs : Good s) (hb : Suits True k b) (hn : Exponent k n) (hknown : s.Knows b)
    (hknown' : s.Knows n) : Achieves d s (power b n) (Suits True k) where
  yields := yields_power hs hknown hknown' d
  exact := by
    unfold power
    refine (achieves_builtin hs .pow).bind fun t s₁ hs₁ h₁ hknownt _ ht => ?_
    refine (achieves_pair hs₁ (hknown.mono h₁) (hknown'.mono h₁)).bind
      fun a s₂ hs₂ h₂ hknowna _ ha => ?_
    exact (achieves_powerOf hs₂ ht ha (hknownt.mono h₂) hknowna hb hn).exact

lemma achieves_raisedBase (hs : Good s) (hb : Suits True k b) (hn : Exponent k n)
    (hknown : s.Knows b) (hknown' : s.Knows n) : Achieves d s (raisedBase b n) (Suits True k) := by
  unfold raisedBase
  split
  · exact .pure hs hknown hb
  · exact achieves_power hs hb hn hknown hknown'

/-- A scalar factor is split into a base and an exponent. -/
lemma achieves_splitPower (hs : Good s) (he : s.Knows e) (h : Suits True k e) :
    Achieves d s (splitPower e) fun p => Suits True k p.1 ∧ Exponent k p.2 where
  yields := yields_splitPower hs he d
  exact := by
    unfold splitPower
    split
    · rename_i b n hpower
      obtain ⟨⟨hb, hscalar⟩, -⟩ := h.ranked.of_power hpower
      exact .pure ⟨⟨hb, fun _ => hscalar⟩, .of_power h.ranked hpower⟩
    · exact (achieves_literal hs _).bind fun n t _ _ _ _ hn => .pure ⟨h, .of_number hn.1 hn.2⟩

end Suits

/-! ## Products with at most one matrix -/

/-- `f` adds up exponents. -/
def Adding (d k : ℕ) (f : List Expr → Build Expr) : Prop :=
  ∀ (s : Store) (l : List Expr), Good s → s.Knows l → l ≠ [] → (∀ n ∈ l, Exponent k n) →
    Achieves d s (f l) (Exponent k)

/-- `f` multiplies operands with at most one matrix. -/
def Multiplying (d k : ℕ) (f : List Expr → Build Expr) : Prop :=
  ∀ (P : Prop) (s : Store) (l : List Expr), Good s → s.Knows l → (∀ e ∈ l, Suits P k e) →
    ((l.flatMap factors).filter isMatrixFactor).length ≤ 1 → Achieves d s (f l) (Suits P k)

namespace Suits

section Products

variable {f : List Expr → Build Expr} [∀ l, Growing (f l)]

/-- Bases to the sums of their exponents. -/
lemma achieves_raisedBases (hf : YieldsAll f) (hadd : Adding d k f) (hs : Good s)
    {groups : List (Expr × List Expr)} (hknown : s.Knows groups)
    (hbase : ∀ p ∈ groups, Suits True k p.1)
    (hexponents : ∀ p ∈ groups, p.2 ≠ [] ∧ ∀ n ∈ p.2, Exponent k n) :
    Achieves d s (raisedBases f groups) fun l => ∀ e ∈ l, Suits True k e where
  yields := yields_raisedBases hf hs hknown d
  exact := by
    induction groups generalizing s with
    | nil => exact .pure (by simp)
    | cons p groups ih =>
      obtain ⟨b, ns⟩ := p
      simp only [Store.knows_cons, Store.knows_pair] at hknown
      rw [List.forall_mem_cons] at hbase hexponents
      rw [raisedBases]
      refine (hadd s ns hs hknown.1.2 hexponents.1.1 hexponents.1.2).bind
        fun n t ht hle hknownn _ hn => ?_
      have hknownt := hknown.2.mono hle
      split
      · exact ih ht hknownt hbase.2 hexponents.2
      · refine (achieves_raisedBase ht hbase.1 hn (hknown.1.1.mono hle) hknownn).bind
          fun e u hu hle' _ _ he => ?_
        have hrest : Achieves d u (raisedBases f groups) fun l => ∀ e ∈ l, Suits True k e :=
          ⟨yields_raisedBases hf hu (hknownt.mono hle') d,
            ih hu (hknownt.mono hle') hbase.2 hexponents.2⟩
        exact hrest.bind fun l v _ _ _ _ hl => .pure (List.forall_mem_cons.2 ⟨he, hl⟩)

/-- Scalar factors are merged into powers. -/
lemma achieves_mergePowers (hf : YieldsAll f) (hadd : Adding d k f) (hs : Good s)
    (hknown : s.Knows l) (h : ∀ e ∈ l, Suits True k e) :
    Achieves d s (mergePowers f l) fun l => ∀ e ∈ l, Suits True k e where
  yields := yields_mergePowers hf hs hknown d
  exact := by
    unfold mergePowers
    refine (Achieves.mapM hs l fun e he t ht hle =>
      achieves_splitPower ht ((hknown e he).mono hle) (h e he)).bind
      fun split t ht _ hsplit _ hsuits => ?_
    have hsuits' : ∀ p ∈ split, Suits True k p.1 ∧ Exponent k p.2 := fun p hp =>
      let ⟨_, _, h⟩ := exists_of_forall₂ hsuits p hp
      h
    refine (achieves_raisedBases hf hadd ht ?_ ?_ ?_).exact
    · refine gather_forall (fun p hp => (hsplit p hp).1) (fun p hp => ?_) fun es p hp hes => ?_
      · simpa using (hsplit p hp).2
      · exact Store.knows_append.2 ⟨hes, by simpa using (hsplit p hp).2⟩
    · exact gather_keys_forall fun p hp => (hsuits' p hp).1
    · refine fun p hp => (gather_forall (P := Suits True k)
        (Q := fun ns : List Expr => ns ≠ [] ∧ ∀ n ∈ ns, Exponent k n)
        (fun p hp => (hsuits' p hp).1) (fun p hp => ?_) (fun ns p hp hns => ?_) p hp).2
      · simpa using (hsuits' p hp).2
      · exact ⟨by simp, List.forall_mem_append.2 ⟨hns.2, by simpa using (hsuits' p hp).2⟩⟩

/-- Applying factors one after the other, of which only the last may be a matrix. -/
lemma exact_foldlM_rawApply (hs : Good s) {rest : List Expr} (he : s.Knows e)
    (hrest : s.Knows rest) (h : ∀ f ∈ e :: rest, Suits P k f)
    (hscalar : ∀ f ∈ (e :: rest).dropLast, f.domain.isScalar = true) :
    Exact d s (rest.foldlM rawApply e) fun f _ => Suits P k f := by
  induction rest generalizing s e with
  | nil => exact .pure (h e (by simp))
  | cons a rest ih =>
    rw [Store.knows_cons] at hrest
    rw [List.forall_mem_cons, List.forall_mem_cons] at h
    have hes : e.domain.isScalar = true := hscalar e (by simp)
    have henumeric := h.1.ranked.numeric
    have hanumeric := h.2.1.ranked.numeric
    rw [List.foldlM_cons]
    refine (achieves_rawApply hs he hrest.1 (applyDomain?_numeric henumeric hanumeric)).bind
      fun f t ht hle hf _ hspec => ?_
    obtain ⟨hkind, hnumeric, hiff⟩ := hspec
    have hm : multiplies e a = true := by
      simp [multiplies, h.1.ranked.function?, henumeric.isLinear, hanumeric.isLinear]
    have hsuits : Suits P k f :=
      ⟨.product hkind hm hnumeric hes (fun hfs => (hiff.1 hfs).2) h.1.ranked h.2.1.ranked,
        fun hP => hiff.2 ⟨hes, h.2.1.isScalar hP⟩⟩
    refine ih ht hf (hrest.2.mono hle) (List.forall_mem_cons.2 ⟨hsuits, h.2.2⟩) ?_
    cases rest with
    | nil => simp
    | cons b rest =>
      simp only [List.dropLast_cons_cons, List.forall_mem_cons] at hscalar ⊢
      exact ⟨hiff.2 ⟨hes, hscalar.2.1⟩, hscalar.2.2⟩

/-- The chain of some factors of which only the last may be a matrix. -/
lemma achieves_leftChain (hs : Good s) (hl : s.Knows l) (h : ∀ e ∈ l, Suits P k e)
    (hscalar : ∀ e ∈ l.dropLast, e.domain.isScalar = true) (m : Number) :
    Achieves d s (leftChain m l) (Suits P k) where
  yields := yields_leftChain hs hl m d
  exact := by
    cases l with
    | nil => exact (achieves_number hs m).exact
    | cons e rest =>
      rw [Store.knows_cons] at hl
      exact exact_foldlM_rawApply hs hl.1 hl.2 h hscalar

lemma achieves_coefficientFactor (hs : Good s) (m : Number) :
    Achieves d s (coefficientFactor m) fun l => ∀ e ∈ l, Suits True k e where
  yields := yields_coefficientFactor hs m d
  exact := by
    unfold coefficientFactor
    split
    · exact .pure (by simp)
    · exact (achieves_number hs m).bind fun e t _ _ _ _ he => .pure (by simpa using he)

/-- Factors of which at most one is a matrix. -/
lemma achieves_assemble (hf : YieldsAll f) (hadd : Adding d k f) (hs : Good s) (hknown : s.Knows l)
    (h : ∀ e ∈ l, Suits P k e) (hmatrices : (l.filter isMatrixFactor).length ≤ 1) :
    Achieves d s (assemble f l) (Suits P k) where
  yields := yields_assemble hf s l hs hknown d
  exact := by
    unfold assemble
    refine (achieves_settle hs _).bind fun m t ht hle _ _ _ => ?_
    split
    · exact (achieves_number ht m).exact
    have hsub {p : Expr → Bool} {u : Store} (hle' : s ≤ u) : u.Knows (l.filter p) :=
      (hknown.of_subset List.filter_sublist.subset).mono hle'
    have hscalars : ∀ e ∈ l.filter isScalarFactor, Suits True k e := fun e he => by
      have hfactor := (List.mem_filter.1 he).2
      simp only [isScalarFactor, Bool.and_eq_true] at hfactor
      exact ⟨(h e (List.mem_filter.1 he).1).ranked, fun _ => hfactor.2⟩
    refine (achieves_mergePowers hf hadd ht (hsub hle) hscalars).bind
      fun scalars u hu hle' hknown' _ hscalars' => ?_
    refine (achieves_coefficientFactor (k := k) hu m).bind
      fun front v hv hle'' hknown'' _ hfront => ?_
    have hleading : ∀ e ∈ front ++ scalars, Suits True k e :=
      List.forall_mem_append.2 ⟨hfront, hscalars'⟩
    refine (achieves_leftChain hv ?_ (List.forall_mem_append.2
      ⟨fun e he => (hleading e he).of_scalar, fun e he => h e (List.mem_filter.1 he).1⟩)
      (fun e he => (hleading e (mem_of_mem_dropLast hmatrices he)).isScalar trivial) m).exact
    exact Store.knows_append.2 ⟨Store.knows_append.2 ⟨hknown'', hknown'.mono hle''⟩,
      hsub (hle.trans (hle'.trans hle''))⟩

end Products

/-- The factors of some operands. -/
lemma flatMap_factors (h : ∀ e ∈ l, Suits P k e) : ∀ f ∈ l.flatMap Expr.factors, Suits P k f :=
  fun f hf => by
    obtain ⟨e, he, hmem⟩ := List.mem_flatMap.1 hf
    exact (h e he).factors f hmem

lemma knows_flatMap_factors (hs : s.WellFormed) (hl : s.Knows l) : s.Knows (l.flatMap Expr.factors) :=
  fun f hf => by
    obtain ⟨e, he, hmem⟩ := List.mem_flatMap.1 hf
    exact knows_factors hs (hl e he) f hmem

/-- If exponents can be added up, operands with at most one matrix can be multiplied. -/
lemma multiplying_succ {depth : ℕ} (h : Adding d k (sumWith (productAux depth))) :
    Multiplying d k (productAux (depth + 1)) := by
  intro P s l hs hknown hl hmatrices
  refine ⟨yields_productAux (depth + 1) s l hs hknown d, ?_⟩
  unfold productAux
  refine (achieves_settle hs _).bind fun m t ht hle _ _ _ => ?_
  split
  · exact (achieves_number ht m).exact
  · simp only [mergeMatrices, Nat.not_lt.2 hmatrices, if_false, pure_bind]
    exact (achieves_assemble (yields_sumWith (yields_productAux depth)) h ht
      ((knows_flatMap_factors (good_store.1 hs) hknown).mono hle) (flatMap_factors hl) hmatrices).exact

/-! ## Sums -/

section Sums

variable {p : List Expr → Build Expr} [∀ l, Growing (p l)]

/-- A term is split into a coefficient and the rest. -/
lemma achieves_splitCoefficient (hp : YieldsAll p) (hmul : Multiplying d k p) (hs : Good s)
    (he : s.Knows e) (h : Suits P k e) :
    Achieves d s (splitCoefficient p e) fun r => Suits P k r.1 where
  yields := yields_splitCoefficient hp hs he d
  exact := by
    unfold splitCoefficient
    split
    · split
      · rename_i first rest hfactors
        have hknown := knows_factors (good_store.1 hs) he
        have hsuits := h.factors
        have hmatrices := h.ranked.length_matrixFactors
        have hflat : rest.flatMap Expr.factors = rest := by
          rw [List.flatMap_congr fun f hf => factors_of_mem_factors (e := e) (by simp [hfactors, hf])]
          simp
        rw [hfactors] at hknown hsuits hmatrices
        rw [Store.knows_cons] at hknown
        rw [List.forall_mem_cons] at hsuits
        split
        · have hlength : ((rest.flatMap Expr.factors).filter isMatrixFactor).length ≤ 1 := by
            rw [hflat]
            exact ((List.sublist_cons_self first rest).filter _).length_le.trans hmatrices
          exact (hmul P s rest hs hknown.2 hsuits.2 hlength).bind fun r t _ _ _ _ hr => .pure hr
        · exact .pure h
      · exact .pure h
    · exact .pure h

lemma achieves_scaledTerm (hp : YieldsAll p) (hmul : Multiplying d k p) (hs : Good s)
    (he : s.Knows e) (h : Suits P k e) (m : Number) :
    Achieves d s (scaledTerm p e m) (Suits P k) where
  yields := yields_scaledTerm hp hs he m d
  exact := by
    unfold scaledTerm
    split
    · exact .pure h
    · refine (achieves_number (P := True) (k := k) hs m).bind fun f t ht hle hknown _ hf => ?_
      have hlength : (([f, e].flatMap Expr.factors).filter isMatrixFactor).length ≤ 1 := by
        simpa [hf.filter_isMatrixFactor] using h.ranked.length_matrixFactors
      exact (hmul P t [f, e] ht (by grind) (by simpa using ⟨hf.of_scalar, h⟩) hlength).exact

lemma achieves_scaledTerms (hp : YieldsAll p) (hmul : Multiplying d k p) (hs : Good s)
    {groups : List (Expr × Number.Tracked)} (hknown : ∀ g ∈ groups, s.Knows g.1)
    (h : ∀ g ∈ groups, Suits P k g.1) :
    Achieves d s (scaledTerms p groups) fun l => ∀ e ∈ l, Suits P k e where
  yields := yields_scaledTerms hp hs hknown d
  exact := by
    induction groups generalizing s with
    | nil => exact .pure (by simp)
    | cons g groups ih =>
      obtain ⟨e, total⟩ := g
      rw [List.forall_mem_cons] at hknown h
      have hknown' {u : Store} (hle : s ≤ u) : ∀ g ∈ groups, u.Knows g.1 := fun g hg =>
        (hknown.2 g hg).mono hle
      rw [scaledTerms]
      refine (achieves_settle hs total).bind fun m t ht hle _ _ _ => ?_
      split
      · exact ih ht (hknown' hle) h.2
      · refine (achieves_scaledTerm hp hmul ht (hknown.1.mono hle) h.1 m).bind
          fun f u hu hle' _ _ hf => ?_
        have hrest : Achieves d u (scaledTerms p groups) fun l => ∀ e ∈ l, Suits P k e :=
          ⟨yields_scaledTerms hp hu (hknown' (hle.trans hle')) d, ih hu (hknown' (hle.trans hle')) h.2⟩
        exact hrest.bind fun l v _ _ _ _ hl => .pure (List.forall_mem_cons.2 ⟨hf, hl⟩)

/-- The constant of a sum is a literal, if there is one. -/
lemma achieves_constant (hs : Good s) (total : Option Number.Tracked) :
    Achieves d s (total.mapM fun total => do number (← Build.settle total)) fun constant =>
      constant.isSome = total.isSome ∧ ∀ c ∈ constant, c.number?.isSome = true ∧ c.IsReal where
  yields := by
    refine Yields.optionMapM hs _ (fun total => ?_) d
    exact (yields_settle hs total).bind fun n t ht _ _ => yields_number ht n
  exact := by
    cases total with
    | none => exact .pure (by simp)
    | some total =>
      rw [Option.mapM_some, Run.map_eq_bind]
      simp only [bind_assoc]
      refine (achieves_settle hs total).bind fun m t ht _ _ _ _ => ?_
      exact (achieves_literal ht m).bind fun c u _ _ _ _ hc => .pure (by simpa using hc)

/-- The sum of some terms. -/
lemma achieves_ofTerms (hs : Good s) {constant : Option Expr} (hconstant : s.Knows constant)
    (hl : s.Knows l) (hc : ∀ c ∈ constant, Suits P k c) (h : ∀ e ∈ l, Suits P k e) :
    Achieves d s (ofTerms constant l) (Suits P k) where
  yields := yields_ofTerms hs hconstant hl d
  exact := by
    unfold ofTerms
    split
    · cases constant with
      | none => exact (achieves_zero hs).exact
      | some c => exact .pure (hc c rfl)
    · rename_i term
      exact .pure (h term (by simp))
    · obtain ⟨domain, hdomain, hnumeric, hscalar⟩ :=
        sumDomain_numeric fun e he => (h e he).ranked.numeric
      rw [hdomain]
      show Exact d s (Build.intern domain (.sum l)) fun e _ => Suits P k e
      refine (achieves_intern hs (admits_sum hl hdomain) fun e u hu hle he hcode => ?_).exact
      have hkind := hu.kind_eq_sum he (hl.mono hle) hcode
      have htyped := (hu.admits he).typed
      rw [hkind, Kind.Typed, hdomain, Except.ok.injEq] at htyped
      refine ⟨.sum hkind (htyped ▸ hnumeric) (htyped ▸ hscalar.1) fun c hc => (h c hc).ranked, ?_⟩
      rw [← htyped, hscalar]
      exact fun hP c hc => (h c hc).isScalar hP

/-- Sums of scalars and matrices. -/
lemma achieves_sumWith (hp : YieldsAll p) (hmul : Multiplying d k p) (hs : Good s)
    (hknown : s.Knows l) (h : ∀ e ∈ l, Suits P k e) :
    Achieves d s (sumWith p l) (Suits P k) where
  yields := yields_sumWith hp s l hs hknown d
  exact := by
    have hall : ∀ e ∈ allTerms l, Suits P k e := fun e he => by
      rw [allTerms_eq_flatMap] at he
      obtain ⟨e', he', hmem⟩ := List.mem_flatMap.1 he
      exact (h e' he').terms e hmem
    have hothers : ∀ e ∈ nonLiterals (allTerms l), Suits P k e := fun e he =>
      hall e (List.mem_filter.1 he).1
    have hknown' : s.Knows (nonLiterals (allTerms l)) :=
      (knows_allTerms (good_store.1 hs) hknown).of_subset List.filter_sublist.subset
    unfold sumWith
    refine (achieves_constant hs _).bind fun constant s₁ hs₁ h₁ hknown₁ _ hconstant => ?_
    have hc : ∀ c ∈ constant, Suits P k c := fun c hc =>
      .of_number (hconstant.2 c hc).1 (hconstant.2 c hc).2
    obtain ⟨domain, hdomain, -⟩ := sumDomain_numeric (l := constant.toList ++ nonLiterals (allTerms l))
      (List.forall_mem_append.2 ⟨fun c hc' => (hc c (by simpa using hc')).ranked.numeric,
        fun c hc' => (hothers c hc').ranked.numeric⟩)
    simp only [hdomain, Build.ofExcept, pure_bind]
    refine (Achieves.mapM hs₁ _ fun e he t ht hle => achieves_splitCoefficient hp hmul ht
      ((hknown' e he).mono (h₁.trans hle)) (hothers e he)).bind
      fun split s₂ hs₂ h₂ hknown₂ _ hsplit => ?_
    have hsplit' : ∀ r ∈ split, Suits P k r.1 := fun r hr => by
      obtain ⟨_, _, h⟩ := exists_of_forall₂ hsplit r hr
      exact h
    refine (achieves_scaledTerms hp hmul hs₂ (gather_keys_forall fun r hr => (hknown₂ r hr).1)
      (gather_keys_forall hsplit')).bind fun scaled s₃ hs₃ h₃ hknown₃ _ hscaled => ?_
    have hknown₄ : s₃.Knows constant := hknown₁.mono (h₂.trans h₃)
    refine (achieves_ofTerms hs₃ hknown₄ ?_ hc ?_).exact
    · refine Store.knows_append.2 ⟨Knows.toList fun e he => ?_, hknown₃⟩
      exact hknown₄ e (Option.mem_filter_iff.1 he).1
    · refine List.forall_mem_append.2 ⟨fun e he => ?_, hscaled⟩
      exact hc e (Option.mem_filter_iff.1 (Option.mem_toList.1 he)).1

/-- In the smallest rank, exponents are added up without products. -/
lemma adding_zero (hp : YieldsAll p) : Adding d 0 (sumWith p) := by
  intro s l hs hknown hne hl
  refine ⟨yields_sumWith hp s l hs hknown d, ?_⟩
  have hterms : allTerms l = l := by
    rw [allTerms_eq_flatMap, List.flatMap_congr fun n hn => terms_of_kind_ne fun items hkind => by
      simpa [number?, hkind] using (hl n hn).isSome]
    simp
  have hothers : nonLiterals l = [] :=
    List.filter_eq_nil_iff.2 fun n hn => by
      obtain ⟨m, hm⟩ := Option.isSome_iff_exists.1 (hl n hn).isSome
      simp [hm]
  have hcombine : (combine .add (literals l)).isSome = true := by
    obtain ⟨n, rest, rfl⟩ := List.exists_cons_of_ne_nil hne
    obtain ⟨m, hm⟩ := Option.isSome_iff_exists.1 (hl n (by simp)).isSome
    simp [literals, hm, combine]
  unfold sumWith
  simp only [hterms, hothers]
  refine (achieves_constant hs _).bind fun constant t _ _ _ _ hconstant => ?_
  obtain ⟨c, rfl⟩ := Option.isSome_iff_exists.1 (hconstant.1.trans hcombine)
  obtain ⟨hnumber, hreal⟩ := hconstant.2 c rfl
  have hdomain : sumDomain ((some c).toList ++ []) = .ok c.domain := rfl
  have hsum : ofTerms (some c) (((some c).filter fun c => !c.isZero).toList ++ []) = pure c := by
    cases hzero : c.isZero <;> simp [ofTerms, Option.filter, hzero]
  rw [hdomain, List.mapM_nil]
  simp only [Build.ofExcept, gather, sortBy, Sorting.sort, scaledTerms, pure_bind, hsum]
  exact .pure (.of_number hnumber hreal)

/-- In other ranks, exponents are scalars of the rank before. -/
lemma adding_succ (hp : YieldsAll p) (hmul : Multiplying d k p) : Adding d (k + 1) (sumWith p) :=
  fun _ _ hs hknown _ hl =>
    (achieves_sumWith hp hmul hs hknown fun n hn => (hl n hn).suits).imp fun _ hn =>
      ⟨hn.isScalar trivial, k, k.le_succ, fun _ => k.lt_succ_self, hn.ranked⟩

end Sums

/-- Operands of rank `k` with at most one matrix can be multiplied at depths above `k`. -/
lemma multiplying_productAux {depth : ℕ} (hdepth : k < depth) : Multiplying d k (productAux depth) := by
  induction k generalizing depth with
  | zero =>
    obtain ⟨n, rfl⟩ : ∃ n, depth = n + 1 := ⟨depth - 1, by omega⟩
    exact multiplying_succ (adding_zero (yields_productAux n))
  | succ k ih =>
    obtain ⟨n, rfl⟩ : ∃ n, depth = n + 1 := ⟨depth - 1, by omega⟩
    exact multiplying_succ (adding_succ (yields_productAux n) (ih (by omega)))

lemma adding_productAux {depth : ℕ} (hdepth : k ≤ depth) :
    Adding d k (sumWith (productAux depth)) := by
  cases k with
  | zero => exact adding_zero (yields_productAux depth)
  | succ k => exact adding_succ (yields_productAux depth) (multiplying_productAux hdepth)

lemma multiplying_canonicalProduct (hd : k < d) : Multiplying d k canonicalProduct :=
  fun P s l hs hknown hl hmatrices =>
    ⟨yields_canonicalProduct s l hs hknown d,
      (multiplying_productAux hd P s l hs hknown hl hmatrices).exact.of_run_eq
        (canonicalProduct_apply l d s)⟩

/-- Sums of operands of rank `k` at depths above `k`. -/
lemma achieves_sum (hd : k < d) (hs : Good s) (hknown : s.Knows l) (h : ∀ e ∈ l, Suits P k e) :
    Achieves d s (sum l) (Suits P k) :=
  achieves_sumWith yields_canonicalProduct (multiplying_canonicalProduct hd) hs hknown h

/-! ## Products of matrices in order -/

/-- `f` multiplies a scalar and one more operand. -/
def Pairing (d k : ℕ) (f : Expr → Expr → Build Expr) : Prop :=
  ∀ (P : Prop) (s : Store) (a b : Expr), Good s → s.Knows a → s.Knows b → Suits True k a →
    Suits P k b → Achieves d s (f a b) (Suits P k)

/-- A scalar and another operand have at most one matrix among their factors. -/
lemma length_matrixFactors_pair (ha : Suits True k a) (hb : Suits P k b) :
    (([a, b].flatMap Expr.factors).filter isMatrixFactor).length ≤ 1 := by
  simpa [ha.filter_isMatrixFactor] using hb.ranked.length_matrixFactors

/-- Pushing a factor that is no constant matrix changes the list only. -/
lemma pushFactor_eq_pure {reversed : List Expr} {factor : Expr} (hfactor : Ranked k factor)
    (hreversed : ∀ c ∈ reversed, Ranked k c) :
    ∃ l, pushFactor reversed factor = pure l ∧ l ⊆ factor :: reversed := by
  unfold pushFactor
  split
  · exact ⟨[factor], rfl, by simp⟩
  · rename_i last rest
    split
    · exact ⟨rest, rfl, fun c hc => by simp [hc]⟩
    · exact ⟨factor :: last :: rest, by rw [hfactor.matrix?]; cases last.matrix? <;> rfl, by simp⟩

lemma foldlM_pushFactor_eq_pure {reversed : List Expr} (h : ∀ c ∈ l, Ranked k c)
    (hreversed : ∀ c ∈ reversed, Ranked k c) :
    ∃ m, l.foldlM pushFactor reversed = pure m ∧ m ⊆ l ++ reversed := by
  induction l generalizing reversed with
  | nil => exact ⟨reversed, rfl, by simp⟩
  | cons factor l ih =>
    rw [List.forall_mem_cons] at h
    obtain ⟨m, hm, hsub⟩ := pushFactor_eq_pure h.1 hreversed
    have hmranked : ∀ c ∈ m, Ranked k c := fun c hc => by
      rcases List.mem_cons.1 (hsub hc) with rfl | hc
      · exact h.1
      · exact hreversed c hc
    obtain ⟨m', hm', hsub'⟩ := ih h.2 hmranked
    refine ⟨m', by rw [List.foldlM_cons, hm, pure_bind, hm'], fun c hc => ?_⟩
    rcases List.mem_append.1 (hsub' hc) with hc | hc
    · simp [hc]
    · rcases List.mem_cons.1 (hsub hc) with rfl | hc
      · simp
      · simp [hc]

/-- The node of a matrix operation. -/
lemma achieves_matrixOperation (hs : Good s) {kind : Kind} (hkind : kind.isMatrixOperation = true)
    (hknown : s.Knows kind.children) (h : ∀ c ∈ kind.children, Ranked k c) :
    Achieves d s (Build.intern .matrices kind) (Ranked k) := by
  have hadm : s.Admits .matrices kind := by
    cases kind <;> simp [Kind.isMatrixOperation] at hkind <;>
      exact ⟨hknown, fun _ h => h.elim, rfl, by simp [Kind.index?]⟩
  refine achieves_intern hs hadm fun e t ht hle he hcode => ?_
  obtain ⟨hoperation, hordinals⟩ := Kind.isMatrixOperation_of_code hkind hcode
  have hchildren := Store.WellFormed.eq_of_ordinals (ht.children he) (hknown.mono hle) hordinals
  refine .matrix hoperation ?_ (hchildren ▸ h)
  have htyped := (ht.admits he).typed
  cases hk : e.kind <;> simp [hk, Kind.isMatrixOperation] at hoperation <;>
    simpa [hk, Kind.Typed] using htyped

/-- The product of a reduced chain. -/
lemma achieves_ofChain (hs : Good s) (hknown : s.Knows l) (h : ∀ c ∈ l, Ranked k c) :
    Achieves d s (ofChain l) (Ranked k) := by
  unfold ofChain
  split
  · exact (achieves_one (P := False) hs).imp fun _ he => he.ranked
  · exact .pure hs (by simpa using hknown) (h _ (by simp))
  · exact achieves_matrixOperation hs rfl hknown h

section Chains

variable {f : Expr → Expr → Build Expr} [∀ a b, Growing (f a b)]

/-- A scalar times more scalars and a last operand. -/
lemma exact_foldlM_pairing (hf : Pairing d k f) (hs : Good s) {last : Expr} (he : s.Knows e)
    (hknown : s.Knows (l ++ [last])) (hsuits : Suits True k e) (hl : ∀ a ∈ l, Suits True k a)
    (hlast : Suits P k last) : Exact d s ((l ++ [last]).foldlM f e) fun r _ => Suits P k r := by
  induction l generalizing s e with
  | nil =>
    rw [List.nil_append, List.foldlM_cons]
    exact (hf P s e last hs he (by simpa using hknown) hsuits hlast).bind
      fun r t _ _ _ _ hr => .pure hr
  | cons a l ih =>
    rw [List.cons_append, Store.knows_cons] at hknown
    rw [List.forall_mem_cons] at hl
    rw [List.cons_append, List.foldlM_cons]
    exact (hf True s e a hs he hknown.1 hsuits hl.1).bind fun r t ht hle hr _ hrsuits =>
      ih ht hr (hknown.2.mono hle) hrsuits hl.2

/-- Scalars and a last operand are multiplied one after the other. -/
lemma achieves_foldProduct (hyields : YieldsBoth f) (hf : Pairing d k f) (hs : Good s)
    {last : Expr} (hknown : s.Knows (l ++ [last])) (hl : ∀ e ∈ l, Suits True k e)
    (hlast : Suits P k last) : Achieves d s (foldProduct f (l ++ [last])) (Suits P k) where
  yields := yields_foldProduct hyields s _ hs hknown d
  exact := by
    cases l with
    | nil => exact .pure hlast
    | cons e l =>
      rw [List.cons_append, Store.knows_cons] at hknown
      rw [List.forall_mem_cons] at hl
      exact exact_foldlM_pairing hf hs hknown.1 hknown.2 hl.1 hl.2 hlast

/-- A product of scalars and matrices in order. -/
lemma achieves_chainWith (hyields : YieldsBoth f) (hf : Pairing d k f) (hs : Good s)
    (hknown : s.Knows l) (h : ∀ c ∈ l, Ranked k c) :
    Achieves d s (chainWith (foldProduct f) l) (Ranked k) where
  yields := yields_chainWith (yields_foldProduct hyields) s l hs hknown d
  exact := by
    have hall := Ranked.allChainFactorsOnto h
    have hknown := knows_allChainFactorsOnto (good_store.1 hs) hknown
    unfold chainWith
    dsimp only
    generalize allChainFactorsOnto l [] = all at hall hknown
    have hmatrices : ∀ c ∈ all.filter fun e => !e.domain.isScalar, Ranked k c := fun c hc =>
      hall c (List.mem_filter.1 hc).1
    obtain ⟨reversed, hreversed, hsub⟩ :=
      foldlM_pushFactor_eq_pure hmatrices (List.forall_mem_nil (Ranked k))
    have hmem {c : Expr} (hc : c ∈ reversed.reverse) : c ∈ all := by
      have hc := hsub (List.mem_reverse.1 hc)
      rw [List.append_nil] at hc
      exact (List.mem_filter.1 hc).1
    rw [hreversed, pure_bind]
    refine (achieves_ofChain hs (fun c hc => hknown c (hmem hc)) fun c hc => hall c (hmem hc)).bind
      fun matrix t ht hle hmatrix _ hranked => ?_
    split
    · exact .pure hranked
    · have hscalars : t.Knows (all.filter fun e => e.domain.isScalar) :=
        (hknown.of_subset List.filter_sublist.subset).mono hle
      refine ((achieves_foldProduct (P := False) hyields hf ht (Store.knows_append.2
        ⟨hscalars, by simpa using hmatrix⟩) (fun c hc => ?_) ⟨hranked, False.elim⟩).exact).imp
        fun _ _ _ _ he => he.ranked
      have hc := List.mem_filter.1 hc
      exact ⟨hall c hc.1, fun _ => hc.2⟩

end Chains

/-! ## Products of any operands -/

/-- The function for the product of two operands that products of several matrices use. -/
lemma pairing_productAux {depth : ℕ} (hdepth : k < depth) :
    Pairing d k fun a b => applyDomain a b >>= fun _ => productAux depth [a, b] := by
  intro P s a b hs hknown hknown' ha hb
  obtain ⟨domain, hdomain, -⟩ := applyDomain?_numeric ha.ranked.numeric hb.ranked.numeric
  have happly : applyDomain a b = pure domain := by rw [applyDomain, hdomain]
  simp only [happly, pure_bind]
  exact multiplying_productAux hdepth P s [a, b] hs (by simpa using ⟨hknown, hknown'⟩)
    (by simpa using ⟨ha.of_scalar, hb⟩) (length_matrixFactors_pair ha hb)

/-- Products of operands of rank `k` at depths above `k + 1`. -/
lemma achieves_productAux {depth : ℕ} (hdepth : k < depth) (hs : Good s) (hknown : s.Knows l)
    (h : ∀ e ∈ l, Suits P k e) : Achieves d s (productAux (depth + 1) l) (Suits P k) := by
  by_cases hmatrices : ((l.flatMap Expr.factors).filter isMatrixFactor).length ≤ 1
  · exact multiplying_productAux (by omega) P s l hs hknown h hmatrices
  refine ⟨yields_productAux (depth + 1) s l hs hknown d, ?_⟩
  have hfactors := flatMap_factors h
  have hknown' := knows_flatMap_factors (good_store.1 hs) hknown
  unfold productAux
  dsimp only
  generalize l.flatMap Expr.factors = factors at hmatrices hfactors hknown'
  -- The product is no scalar, as there are several matrices among its factors.
  have hP : ¬P := fun hP => hmatrices <| by
    rw [List.filter_eq_nil_iff.2 fun f hf => by simp [isMatrixFactor, (hfactors f hf).isScalar hP]]
    simp
  have hsuits {e : Expr} (he : Suits False k e) : Suits P k e := ⟨he.ranked, fun h => absurd h hP⟩
  refine (achieves_settle hs _).bind fun m t ht hle _ _ _ => ?_
  split
  · exact (achieves_number ht m).exact
  have hsub {p : Expr → Bool} : t.Knows (factors.filter p) :=
    (hknown'.of_subset List.filter_sublist.subset).mono hle
  rw [mergeMatrices, if_pos (not_le.1 hmatrices)]
  simp only [bind_assoc, pure_bind]
  refine (achieves_chainWith (fun s a b hs ha hb => ?_) (pairing_productAux hdepth) ht hsub
    fun c hc => (hfactors c (List.mem_filter.1 hc).1).ranked).bind
    fun combined u hu hle' hcombined _ hranked => ?_
  · refine (yields_applyDomain hs a b).bind fun _ t ht hle _ => yields_productAux depth t _ ht ?_
    grind
  have hothers : ∀ f ∈ factors.filter fun e => !e.isMatrixFactor, Suits False k f := fun f hf =>
    ⟨(hfactors f (List.mem_filter.1 hf).1).ranked, False.elim⟩
  refine (achieves_assemble (P := False) (yields_sumWith (yields_productAux depth))
    (adding_productAux hdepth.le) hu (Store.knows_append.2
      ⟨hsub.mono hle', knows_factors (good_store.1 hu) hcombined⟩)
    (List.forall_mem_append.2 ⟨hothers, (Suits.mk hranked False.elim).factors⟩) ?_).exact.imp
    fun _ _ _ _ he => hsuits he
  rw [List.filter_append, List.filter_filter]
  simpa using hranked.length_matrixFactors

lemma achieves_canonicalProduct (hd : k + 1 < d) (hs : Good s) (hknown : s.Knows l)
    (h : ∀ e ∈ l, Suits P k e) : Achieves d s (canonicalProduct l) (Suits P k) := by
  refine ⟨yields_canonicalProduct s l hs hknown d, ?_⟩
  obtain ⟨depth, rfl⟩ : ∃ n, d = n + 1 := ⟨d - 1, by omega⟩
  exact (achieves_productAux (by omega) hs hknown h).exact.of_run_eq (canonicalProduct_apply l _ s)

end Suits

end Expr

end TermGraph
