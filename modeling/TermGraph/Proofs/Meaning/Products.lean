import TermGraph.Proofs.Polynomial.Sum

/-!
# The value of products

Products are rearranged in many ways: literals are multiplied, factors with one base are gathered
and exponents are added.  None of this changes the value in a commutative ring.

A `Meaning` gives some expressions, its scalars, values in a commutative ring.  It may read symbols,
calls and summations as it likes; all it has to do is to read literals, sums, products and literal
powers as such.

* `Meaning.Denotes v e`: `e` is a scalar with value `v`.
* `Meaning.achieves_power`: a literal power of a scalar has the power as its value.
* `Meaning.achieves_productAux`: a canonical product of scalars has the product of their values.
-/

namespace TermGraph

open Store (Knows)

/-- Values of some expressions in a commutative ring. -/
structure Meaning (B : Type) [CommRing B] where
  /-- The expressions that have a value. -/
  Scalar : Expr → Prop
  /-- Their values. -/
  value : Expr → B
  /-- Scalars are real. -/
  real : ∀ {e : Expr}, Scalar e → e.IsReal
  /-- Scalars are no functions. -/
  function? : ∀ {e : Expr}, Scalar e → e.function? = none
  /-- All literals among the scalars are integers. -/
  number : ∀ {e : Expr}, Scalar e → e.number?.isSome = true → Expr.IsLiteral e.intValue e
  /-- Integer literals are scalars. -/
  literal : ∀ {k : ℤ} {e : Expr}, Expr.IsLiteral k e → Scalar e
  /-- The value of a literal. -/
  value_literal : ∀ {k : ℤ} {e : Expr}, Expr.IsLiteral k e → value e = k
  /-- Sums of scalars are scalars, and no other sums are. -/
  sum : ∀ {e : Expr} {terms : List Expr}, e.kind = .sum terms → e.IsReal →
    (Scalar e ↔ ∀ t ∈ terms, Scalar t)
  /-- The value of a sum. -/
  value_sum : ∀ {e : Expr} {terms : List Expr}, e.kind = .sum terms →
    value e = (terms.map value).sum
  /-- Products of scalars are scalars, and no other products are. -/
  product : ∀ {e t a : Expr}, e.kind = .apply t a → t.function? = none → e.IsReal →
    (Scalar e ↔ Scalar t ∧ Scalar a)
  /-- The value of a product. -/
  value_product : ∀ {e t a : Expr}, e.kind = .apply t a → t.function? = none →
    value e = value t * value a
  /-- Positive literal powers of scalars are scalars, and no other powers are. -/
  power : ∀ {e b n : Expr}, e.power? = some (b, n) → e.IsReal →
    (Scalar e ↔ Scalar b ∧ ∃ k : ℕ, 0 < k ∧ Expr.IsLiteral k n)
  /-- The value of a literal power. -/
  value_power : ∀ {e b n : Expr} {k : ℕ}, e.power? = some (b, n) → Expr.IsLiteral k n →
    value e = value b ^ k

namespace Meaning

open TermGraph.Expr

variable {B : Type} [CommRing B] (M : Meaning B) {s : Store} {d : ℕ} {v w : B} {e : Expr}
  {l : List Expr}

/-- The expression is a scalar with value `v`. -/
def Denotes (v : B) (e : Expr) : Prop :=
  M.Scalar e ∧ M.value e = v

variable {M}

lemma Denotes.scalar (h : M.Denotes v e) : M.Scalar e := h.1

lemma Denotes.value_eq (h : M.Denotes v e) : M.value e = v := h.2

lemma denotes_value (h : M.Scalar e) : M.Denotes (M.value e) e := ⟨h, rfl⟩

lemma denotes_literal {k : ℤ} (h : IsLiteral k e) : M.Denotes (k : B) e :=
  ⟨M.literal h, M.value_literal h⟩

lemma scalar_of_forall₂ {vs : List B} (h : List.Forall₂ M.Denotes vs l) :
    (∀ e ∈ l, M.Scalar e) ∧ l.map M.value = vs := by
  induction h with
  | nil => simp
  | cons he _ ih =>
    rw [List.forall_mem_cons, List.map_cons, ih.2, he.value_eq]
    exact ⟨⟨he.scalar, ih.1⟩, rfl⟩

/-! ## Factors -/

section Factors

/-- The factors of a scalar are scalars, and multiply to its value. -/
lemma factors_spec (he : M.Scalar e) :
    (∀ f ∈ e.factors, M.Scalar f) ∧ (e.factors.map M.value).prod = M.value e := by
  induction h : sizeOf e using Nat.strongRecOn generalizing e with
  | _ n ih =>
    subst h
    obtain ⟨ordinal, domain, kind⟩ := e
    cases kind with
    | apply t a =>
      by_cases hm : multiplies t a = true
      · have ht : t.function? = none := by
          simp only [multiplies, Bool.and_eq_true, Option.isNone_iff_eq_none] at hm
          exact hm.1.1
        have hta := (M.product rfl ht (M.real he)).1 he
        obtain ⟨htf, htv⟩ := ih _ (sizeOf_lt_of_mem_children (by simp [children, Kind.children, kind]))
          hta.1 rfl
        obtain ⟨haf, hav⟩ := ih _ (sizeOf_lt_of_mem_children (by simp [children, Kind.children, kind]))
          hta.2 rfl
        rw [factors_apply _ _ hm, List.map_append, List.prod_append, htv, hav,
          M.value_product (e := node ordinal domain (.apply t a)) rfl ht]
        refine ⟨fun f hf => ?_, rfl⟩
        rcases List.mem_append.1 hf with hf | hf
        · exact htf f hf
        · exact haf f hf
      · rw [factors, factorsOnto, if_neg hm]
        simpa using he
    | _ => simpa [factors, factorsOnto] using he

lemma isMatrixFactor_eq_false (h : M.Scalar e) : e.isMatrixFactor = false := by
  simp [isMatrixFactor, (M.real h).isScalar]

lemma filter_isMatrixFactor (h : ∀ e ∈ l, M.Scalar e) : l.filter isMatrixFactor = [] :=
  List.filter_eq_nil_iff.2 fun e he => by simp [isMatrixFactor_eq_false (h e he)]

lemma forall₂_literals (h : ∀ e ∈ l, M.Scalar e) : List.Forall₂ Number.IsInt (literals l)
    ((l.filter fun e => e.number?.isSome).map intValue) := by
  rw [literals_eq_filter]
  exact AreLiterals.forall₂ fun e he => M.number (h e (List.mem_filter.1 he).1) (List.mem_filter.1 he).2

/-- The literals among some scalars, and the others. -/
lemma filter_literals_perm (h : ∀ e ∈ l, M.Scalar e) :
    (l.filter (fun e => e.number?.isSome) ++ l.filter isScalarFactor).Perm l := by
  have hothers : l.filter isScalarFactor = l.filter fun e => !e.number?.isSome :=
    List.filter_congr fun e he => by simp [isScalarFactor, (M.real (h e he)).isScalar]
  rw [hothers]
  exact List.filter_append_perm _ l

lemma map_value_literals (h : ∀ e ∈ l, M.Scalar e) :
    (l.filter fun e => e.number?.isSome).map M.value =
      ((l.filter fun e => e.number?.isSome).map intValue).map (Int.cast : ℤ → B) := by
  rw [List.map_map]
  refine List.map_congr_left fun e he => ?_
  obtain ⟨hmem, hnumber⟩ := List.mem_filter.1 he
  exact M.value_literal (M.number (h e hmem) hnumber)

/-- The literals among some factors and the others multiply to the value of the product. -/
lemma prod_eq (h : ∀ e ∈ l, M.Scalar e) : (l.map M.value).prod =
    (literalProduct l : B) * ((l.filter isScalarFactor).map M.value).prod := by
  rw [← ((filter_literals_perm h).map M.value).prod_eq, List.map_append, List.prod_append,
    map_value_literals h, literalProduct, Int.cast_list_prod]

lemma achieves_settle (hs : Good s) (h : ∀ e ∈ l, M.Scalar e) :
    Achieves d s (Build.settle (coefficient l)) fun n => n.IsInt (literalProduct l) :=
  ⟨yields_settle hs _ d, (exact_settle _).imp fun _ _ _ _ hn =>
    hn.1 ▸ isInt_prod_literals (forall₂_literals h) hn.2⟩

end Factors

/-! ## Powers -/

section Powers

variable {k : ℕ} {t a b n : Expr}

/-- A literal power has the power as its value. -/
lemma achieves_powerOf (hs : Good s) (ht : t.kind = .function (.builtin .pow))
    (ha : a.kind = .tuple [b, n]) (hknownt : s.Knows t) (hknowna : s.Knows a)
    (hb : M.Denotes v b) (hn : IsLiteral k n) :
    Achieves d s (powerOf t a b n) (M.Denotes (v ^ k)) where
  yields := by
    have hchildren := (good_store.1 hs).children hknowna
    simp only [children, ha, Kind.children, Store.knows_cons] at hchildren
    exact yields_powerOf hs hknownt hknowna hchildren.1 (by rw [Expr.function?, ht]) ha d
  exact := by
    have htyped := ((good_store.1 hs).admits hknownt).typed
    rw [ht] at htyped
    unfold powerOf
    split
    · rename_i htrivial
      refine (achieves_one hs).exact.imp fun e _ _ _ he => ?_
      rw [Bool.or_eq_true] at htrivial
      have hone : v ^ k = 1 := by
        rcases htrivial with hzero | hone
        · rw [hn.isZero, Nat.cast_eq_zero] at hzero
          rw [hzero, pow_zero]
        · have hliteral := M.number hb.scalar (by
            unfold isOne at hone
            cases hnumber : b.number? <;> simp_all)
          rw [hliteral.isOne] at hone
          rw [← hb.value_eq, M.value_literal hliteral, hone, Int.cast_one, one_pow]
      simpa [hone] using denotes_literal (M := M) he
    · rename_i htrivial
      simp only [Bool.or_eq_true, not_or, hn.isZero, Nat.cast_eq_zero] at htrivial
      split
      · rename_i hone
        rw [hn.isOne, Nat.cast_eq_one] at hone
        rw [hone, pow_one]
        exact .pure hb
      · refine (achieves_rawApply hs hknownt hknowna (P := (· = .reals))
          ⟨.reals, applyDomain?_pow ht htyped ha (M.real hb.scalar) hn.real, rfl⟩).exact.imp
          fun e _ _ _ he => ?_
        have hpower : e.power? = some (b, n) := power?_eq_some.2 ⟨t, a, he.1, ht, ha⟩
        refine ⟨(M.power hpower (.inr he.2)).2 ⟨hb.scalar, k, Nat.pos_of_ne_zero htrivial.1, hn⟩, ?_⟩
        rw [M.value_power hpower hn, hb.value_eq]

lemma achieves_power (hs : Good s) (hb : M.Denotes v b) (hn : IsLiteral k n) (hknown : s.Knows b)
    (hknown' : s.Knows n) : Achieves d s (Expr.power b n) (M.Denotes (v ^ k)) where
  yields := yields_power hs hknown hknown' d
  exact := by
    unfold Expr.power
    refine (achieves_builtin hs .pow).bind fun t s₁ hs₁ h₁ hknownt _ ht => ?_
    refine (achieves_pair hs₁ (hknown.mono h₁) (hknown'.mono h₁)).bind
      fun a s₂ hs₂ h₂ hknowna _ ha => ?_
    exact (achieves_powerOf hs₂ ht ha (hknownt.mono h₂) hknowna hb hn).exact

end Powers

/-! ## Merging powers -/

section Merging

/-- A list of literals that are natural numbers. -/
def AreExponents (es : List Expr) : Prop :=
  ∀ e ∈ es, IsLiteral (e.intValue.toNat : ℤ) e

lemma AreExponents.areLiterals {es : List Expr} (h : AreExponents es) : AreLiterals es :=
  fun e he => (h e he).self

lemma AreExponents.sum_intValue {es : List Expr} (h : AreExponents es) :
    (es.map intValue).sum = ((es.map fun e => e.intValue.toNat).sum : ℕ) := by
  rw [Nat.cast_list_sum, List.map_map]
  exact congrArg List.sum (List.map_congr_left fun e he => (h e he).intValue)

/-- The value of a scalar factor as a power. -/
def splitValue (M : Meaning B) (p : Expr × Expr) : B :=
  M.value p.1 ^ p.2.intValue.toNat

/-- A factor is split into a base and an exponent with the factor as their power. -/
lemma achieves_splitPower (hs : Good s) (he : M.Scalar e) (hknown : s.Knows e) :
    Achieves d s (splitPower e) fun p =>
      M.Scalar p.1 ∧ AreExponents [p.2] ∧ splitValue M p = M.value e where
  yields := yields_splitPower hs hknown d
  exact := by
    unfold splitPower
    cases hpower : e.power? with
    | some p =>
      obtain ⟨b, n⟩ := p
      obtain ⟨hb, k, -, hn⟩ := (M.power hpower (M.real he)).1 he
      refine .pure ⟨hb, ?_, ?_⟩
      · simpa [AreExponents, hn.intValue] using hn
      · rw [M.value_power hpower hn, splitValue, hn.intValue, Int.toNat_natCast]
    | none =>
      refine (achieves_one hs).bind fun n t _ _ _ _ hn => .pure ⟨he, ?_, ?_⟩
      · simpa [AreExponents, hn.intValue] using hn
      · simp [splitValue, hn.intValue]

/-- The value of a base to the sum of the exponents that were gathered for it. -/
def groupValue (M : Meaning B) (g : Expr × List Expr) : B :=
  M.value g.1 ^ (g.2.map fun e => e.intValue.toNat).sum

/-- The bases are scalars, and the exponents natural numbers. -/
def ArePowerGroups (M : Meaning B) (groups : List (Expr × List Expr)) : Prop :=
  ∀ g ∈ groups, M.Scalar g.1 ∧ AreExponents g.2 ∧ g.2 ≠ []

/-- Gathering keeps the product. -/
lemma prod_groupValue {items : List (Expr × Expr)} (hsep : Separated items) :
    ((groups items).map (groupValue M)).prod = (items.map (splitValue M)).prod := by
  rw [← ((flatMap_groups hsep).map (splitValue M)).prod_eq]
  induction groups items with
  | nil => rfl
  | cons g gs ih =>
    rw [List.map_cons, List.prod_cons, ih, List.flatMap_cons, List.map_append, List.prod_append,
      List.map_map]
    congr 1
    simp only [groupValue, Function.comp_def, splitValue]
    induction g.2 with
    | nil => simp
    | cons n ns ihn => rw [List.map_cons, List.sum_cons, pow_add, ihn, List.map_cons, List.prod_cons]

variable {sum : List Expr → Build Expr} [∀ l, Growing (sum l)]

lemma achieves_raisedBase (hs : Good s) {k : ℕ} {b n : Expr} (hb : M.Denotes v b)
    (hn : IsLiteral k n) (hknown : s.Knows b) (hknown' : s.Knows n) :
    Achieves d s (raisedBase b n) (M.Denotes (v ^ k)) where
  yields := yields_raisedBase hs hknown hknown' d
  exact := by
    unfold raisedBase
    split
    · rename_i hone
      rw [hn.isOne, Nat.cast_eq_one] at hone
      rw [hone, pow_one]
      exact .pure hb
    · exact (achieves_power hs hb hn hknown hknown').exact

/-- The powers of the bases multiply to the values of the groups. -/
lemma achieves_raisedBases (hsum : YieldsAll sum) (hadds : AddsLiterals d sum) (hs : Good s)
    {groups : List (Expr × List Expr)} (h : ArePowerGroups M groups) (hknown : s.Knows groups) :
    Achieves d s (raisedBases sum groups) fun l =>
      (∀ e ∈ l, M.Scalar e) ∧ (l.map M.value).prod = (groups.map (groupValue M)).prod where
  yields := yields_raisedBases hsum hs hknown d
  exact := by
    induction groups generalizing s with
    | nil => exact .pure ⟨by simp, rfl⟩
    | cons group groups ih =>
      obtain ⟨base, exponents⟩ := group
      obtain ⟨hbase, hexponents, hne⟩ := h (base, exponents) (by simp)
      have hgroups : ArePowerGroups M groups := fun g hg => h g (by simp [hg])
      simp only [Store.knows_cons, Store.knows_pair] at hknown
      have hexponent : Achieves d s (sum exponents)
          (IsLiteral ((exponents.map fun e => e.intValue.toNat).sum : ℕ)) := by
        rw [← hexponents.sum_intValue]
        exact ⟨hsum s exponents hs hknown.1.2 d, hadds s exponents hs hexponents.areLiterals hne⟩
      rw [raisedBases, List.map_cons, List.prod_cons]
      refine hexponent.bind fun n t ht hle hknown' _ hn => ?_
      split
      · rename_i hzero
        rw [hn.isZero, Nat.cast_eq_zero] at hzero
        rw [groupValue, hzero, pow_zero, one_mul]
        exact ih ht hgroups (hknown.2.mono hle)
      · refine (achieves_raisedBase ht (denotes_value hbase) hn (hknown.1.1.mono hle) hknown').bind
          fun e u hu hle' _ _ he => ?_
        refine (show Achieves d u _ _ from ⟨yields_raisedBases hsum hu
          ((hknown.2.mono hle).mono hle') d, ih hu hgroups ((hknown.2.mono hle).mono hle')⟩).bind
          fun l w _ _ _ _ hl => .pure ⟨?_, ?_⟩
        · exact List.forall_mem_cons.2 ⟨he.scalar, hl.1⟩
        · rw [List.map_cons, List.prod_cons, he.value_eq, hl.2, groupValue]

/-- What splitting makes of a list of scalars. -/
lemma split_spec {split : List (Expr × Expr)} (h : List.Forall₂
      (fun e p => M.Scalar p.1 ∧ AreExponents [p.2] ∧ splitValue M p = M.value e) l split) :
    (∀ p ∈ split, M.Scalar p.1 ∧ AreExponents [p.2]) ∧
      split.map (splitValue M) = l.map M.value := by
  induction h with
  | nil => simp
  | cons hp _ ih =>
    rw [List.forall_mem_cons, List.map_cons, List.map_cons, hp.2.2, ih.2]
    exact ⟨⟨⟨hp.1, hp.2.1⟩, ih.1⟩, rfl⟩

/-- Merging powers keeps the product. -/
lemma achieves_mergePowers (hsum : YieldsAll sum) (hadds : AddsLiterals d sum) (hs : Good s)
    (h : ∀ e ∈ l, M.Scalar e) (hknown : s.Knows l) :
    Achieves d s (mergePowers sum l) fun m =>
      (∀ e ∈ m, M.Scalar e) ∧ (m.map M.value).prod = (l.map M.value).prod where
  yields := yields_mergePowers hsum hs hknown d
  exact := by
    unfold mergePowers
    refine (Achieves.mapM hs l fun e he t ht hle =>
      achieves_splitPower ht (h e he) ((hknown e he).mono hle)).bind
      fun split t ht _ hsplit _ hpowers => ?_
    obtain ⟨hpair, hmap⟩ := split_spec hpowers
    have hsep : Separated split := fun p hp q hq hordinal =>
      Store.WellFormed.eq_of_ordinal (hsplit p hp).1 (hsplit q hq).1 hordinal
    have hgroups : ArePowerGroups M (groups split) := by
      refine gather_forall (P := M.Scalar) (Q := fun es => AreExponents es ∧ es ≠ [])
        (fun p hp => (hpair p hp).1) (fun p hp => ⟨(hpair p hp).2, by simp⟩) fun es p hp hes => ?_
      refine ⟨fun e he => ?_, by simp⟩
      rcases List.mem_append.1 he with he | he
      · exact hes.1 e he
      · exact (hpair p hp).2 e he
    have hknown' : t.Knows (groups split) := by
      refine gather_forall (fun p hp => (hsplit p hp).1) (fun p hp => ?_) fun es p hp hes => ?_
      · simpa using (hsplit p hp).2
      · exact Store.knows_append.2 ⟨hes, by simpa using (hsplit p hp).2⟩
    refine (achieves_raisedBases hsum hadds ht hgroups hknown').exact.imp fun m _ _ _ hm => ?_
    exact ⟨hm.1, by rw [hm.2, prod_groupValue hsep, hmap]⟩

end Merging

/-! ## Products -/

section Products

variable {t a : Expr}

/-- The application of a scalar to a scalar is their product. -/
lemma achieves_rawApply (hs : Good s) (ht : M.Denotes v t) (ha : M.Denotes w a)
    (hknown : s.Knows t) (hknown' : s.Knows a) :
    Achieves d s (rawApply t a) (M.Denotes (v * w)) := by
  refine (Expr.achieves_rawApply hs hknown hknown'
    (applyDomain?_real (M.real ht.scalar) (M.real ha.scalar))).imp fun e he => ?_
  have hfunction := M.function? ht.scalar
  refine ⟨(M.product he.1 hfunction he.2).2 ⟨ht.scalar, ha.scalar⟩, ?_⟩
  rw [M.value_product he.1 hfunction, ht.value_eq, ha.value_eq]

lemma exact_foldlM_rawApply (hs : Good s) (h : ∀ e ∈ l, M.Scalar e) (ha : M.Denotes v a)
    (hknown : s.Knows l) (hknown' : s.Knows a) :
    Exact d s (l.foldlM rawApply a) fun e _ => M.Denotes (v * (l.map M.value).prod) e := by
  induction l generalizing s v a with
  | nil => simpa using Exact.pure (s := s) ha
  | cons b l ih =>
    rw [Store.knows_cons] at hknown
    rw [List.forall_mem_cons] at h
    rw [List.foldlM_cons, List.map_cons, List.prod_cons, ← mul_assoc]
    refine (achieves_rawApply hs ha (denotes_value h.1) hknown' hknown.1).bind
      fun e t ht hle he _ hmul => ?_
    exact ih ht h.2 hmul (hknown.2.mono hle) he

lemma achieves_coefficientFactor (hs : Good s) {c : Number} {k : ℤ} (h : c.IsInt k) :
    Achieves d s (coefficientFactor c) fun front =>
      (∀ e ∈ front, M.Scalar e) ∧ (front.map M.value).prod = k ∧ (front = [] → k = 1) where
  yields := yields_coefficientFactor hs c d
  exact := by
    unfold coefficientFactor
    split
    · rename_i hone
      rw [h.isOne] at hone
      exact .pure (by simp [hone])
    · refine (achieves_number hs h).bind fun e t _ _ _ _ he => .pure ?_
      simpa [M.value_literal he] using M.literal he

/-- The chain of a coefficient and scalars. -/
lemma exact_leftChain (hs : Good s) {c : Number} (h : ∀ e ∈ l, M.Scalar e) (hknown : s.Knows l)
    (hc : l = [] → c.IsInt 1) :
    Exact d s (leftChain c l) fun e _ => M.Denotes (l.map M.value).prod e := by
  cases l with
  | nil =>
    refine (achieves_number hs (hc rfl)).exact.imp fun e _ _ _ he => ?_
    simpa using denotes_literal (M := M) he
  | cons a l =>
    rw [Store.knows_cons] at hknown
    rw [List.forall_mem_cons] at h
    exact exact_foldlM_rawApply hs h.2 (denotes_value h.1) hknown.2 hknown.1

/-- A coefficient of zero is the whole product. -/
lemma exact_zero (hs : Good s) {c : Number} (h : ∀ e ∈ l, M.Scalar e)
    (hc : c.IsInt (literalProduct l)) (hzero : c.isZero = true) :
    Exact d s (Expr.number c) fun e _ => M.Denotes (l.map M.value).prod e := by
  refine (achieves_number hs hc).exact.imp fun e _ _ _ he => ?_
  rw [hc.isZero] at hzero
  rw [hzero] at he
  rw [prod_eq h, hzero, Int.cast_zero, zero_mul]
  simpa using denotes_literal (M := M) he

lemma achieves_assemble {sum : List Expr → Build Expr} [∀ l, Growing (sum l)]
    (hsum : YieldsAll sum) (hadds : AddsLiterals d sum) (hs : Good s) (h : ∀ e ∈ l, M.Scalar e)
    (hknown : s.Knows l) : Achieves d s (assemble sum l) (M.Denotes (l.map M.value).prod) where
  yields := yields_assemble hsum s l hs hknown d
  exact := by
    unfold assemble
    refine (achieves_settle hs h).bind fun c t ht hle _ _ hc => ?_
    split
    · rename_i hzero
      exact exact_zero ht h hc hzero
    refine (achieves_mergePowers hsum hadds ht (l := l.filter isScalarFactor)
      (fun e he => h e (List.mem_filter.1 he).1)
      ((hknown.of_subset List.filter_sublist.subset).mono hle)).bind
      fun scalars u hu hle' hscalars _ hmerged => ?_
    refine (achieves_coefficientFactor (M := M) hu hc).bind fun front w hw hle'' hfront _ hvalue => ?_
    rw [filter_isMatrixFactor h, List.append_nil, prod_eq h, ← hmerged.2, ← hvalue.2.1,
      ← List.prod_append, ← List.map_append]
    refine exact_leftChain hw (fun e he => ?_)
      (Store.knows_append.2 ⟨hfront, hscalars.mono hle''⟩) fun hnil => ?_
    · rcases List.mem_append.1 he with he | he
      · exact hvalue.1 e he
      · exact hmerged.1 e he
    · rwa [hvalue.2.2 (List.append_eq_nil_iff.1 hnil).1] at hc

lemma flatMap_factors (h : ∀ e ∈ l, M.Scalar e) : (∀ f ∈ l.flatMap factors, M.Scalar f) ∧
    ((l.flatMap factors).map M.value).prod = (l.map M.value).prod := by
  induction l with
  | nil => simp
  | cons e l ih =>
    rw [List.forall_mem_cons] at h
    obtain ⟨hfactors, hprod⟩ := factors_spec h.1
    rw [List.flatMap_cons, List.map_append, List.prod_append, hprod, (ih h.2).2, List.map_cons,
      List.prod_cons]
    refine ⟨fun f hf => ?_, rfl⟩
    rcases List.mem_append.1 hf with hf | hf
    · exact hfactors f hf
    · exact (ih h.2).1 f hf

/-- A canonical product of scalars has the product of their values. -/
lemma achieves_productAux (hs : Good s) (h : ∀ e ∈ l, M.Scalar e) (hknown : s.Knows l) (depth : ℕ) :
    Achieves d s (productAux (depth + 1) l) (M.Denotes (l.map M.value).prod) where
  yields := yields_productAux (depth + 1) s l hs hknown d
  exact := by
    obtain ⟨hfactors, hprod⟩ := flatMap_factors h
    have hknown' : s.Knows (l.flatMap factors) := by
      intro e he
      obtain ⟨f, hf, hmem⟩ := List.mem_flatMap.1 he
      exact knows_factors (good_store.1 hs) (hknown f hf) e hmem
    rw [← hprod]
    unfold productAux
    refine (achieves_settle hs hfactors).bind fun c t ht hle _ _ hc => ?_
    split
    · rename_i hzero
      exact exact_zero ht hfactors hc hzero
    · have hmerge (product : List Expr → Build Expr) :
          mergeMatrices product (l.flatMap factors) = pure (l.flatMap factors) := by
        simp [mergeMatrices, filter_isMatrixFactor hfactors]
      simp only [hmerge, pure_bind]
      exact (achieves_assemble (yields_sumWith (yields_productAux depth))
        (fun s l hs h hne => exact_sumWith_literals hs h hne) ht hfactors (hknown'.mono hle)).exact

lemma achieves_canonicalProduct (hs : Good s) (hd : 0 < d) (h : ∀ e ∈ l, M.Scalar e)
    (hknown : s.Knows l) : Achieves d s (canonicalProduct l) (M.Denotes (l.map M.value).prod) := by
  obtain ⟨depth, rfl⟩ : ∃ n, d = n + 1 := ⟨d - 1, by omega⟩
  refine ⟨yields_canonicalProduct s l hs hknown _, ?_⟩
  have hrun : canonicalProduct l (depth + 1) s = productAux (depth + 1) l (depth + 1) s := by
    simp [canonicalProduct, Run.bind_apply]
  rw [Exact, hrun]
  exact (achieves_productAux hs h hknown depth).exact

end Products

end Meaning

end TermGraph
