import Mathlib.Algebra.Ring.Subring.Basic
import TermGraph.Proofs.Meaning.Delivery
import TermGraph.Proofs.Meaning.Sums
import TermGraph.Proofs.Order.Domains

/-!
# Values in a ring

Sums, products of scalars and matrices, matrix products and natural powers are read in a ring that
need not be commutative; every other node is an atom, whose value is given.  Scalars have values in
the centre, so they may stand anywhere in a product, while matrices keep their places.

* `Expr.valueIn ν e`: the value of `e` when the atoms have the values `ν`.
* `Store.Respects ν s`: the scalars of `s` have central values, and inverses are inverse.
* `Store.Closed s`: products of linear expressions are linear.
* `Expr.Ordinary e`: the operands whose products and sums are compared with their values.
-/

namespace TermGraph

open Store (Knows)

namespace Expr

/-! ## Values -/

/-- The natural number that a literal stands for. -/
def natural? (e : Expr) : Option ℕ :=
  match e.number? with
  | some (.int n) => if 0 ≤ n.toInt then some n.toInt.toNat else none
  | _ => none

/-- Whether a node is an application of a symbol and no product. -/
def isAccess (e : Expr) : Bool :=
  match e.kind with
  | .apply target _ => target.isSymbol && !e.isProduct
  | _ => false

section Values

variable {R : Type*} [Ring R]

mutual

/-- The value of an expression for values `ν` of the atoms. -/
noncomputable def valueIn (ν : Expr → R) : Expr → R
  | .node _ _ (.number n) => (n.intValue : R)
  | .node _ _ (.sum terms) => totalIn ν terms
  | .node _ _ (.chain factors) => productIn ν factors
  | .node i d (.apply target argument) =>
    if multiplies target argument then valueIn ν target * valueIn ν argument
    else
      match target.kind with
      | .function (.builtin .pow) => powerIn ν (ν (.node i d (.apply target argument))) argument
      | _ => ν (.node i d (.apply target argument))
  | e => ν e

/-- The sum of the values of a list. -/
noncomputable def totalIn (ν : Expr → R) : List Expr → R
  | [] => 0
  | e :: es => valueIn ν e + totalIn ν es

/-- The product of the values of a list, in order. -/
noncomputable def productIn (ν : Expr → R) : List Expr → R
  | [] => 1
  | e :: es => valueIn ν e * productIn ν es

/-- The power of a pair of a base and a natural exponent; `other` for anything else. -/
noncomputable def powerIn (ν : Expr → R) (other : R) : Expr → R
  | .node _ _ (.tuple [base, exponent]) =>
    match exponent.natural? with
    | some k => valueIn ν base ^ k
    | none => other
  | _ => other

end

attribute [local simp] valueIn totalIn productIn powerIn

variable {ν : Expr → R} {e t a b n : Expr} {l : List Expr}

lemma totalIn_eq_sum (l : List Expr) : totalIn ν l = (l.map (valueIn ν)).sum := by
  induction l with
  | nil => simp
  | cons e l ih => rw [totalIn, ih, List.map_cons, List.sum_cons]

lemma productIn_eq_prod (l : List Expr) : productIn ν l = (l.map (valueIn ν)).prod := by
  induction l with
  | nil => simp
  | cons e l ih => rw [productIn, ih, List.map_cons, List.prod_cons]

lemma IsLiteral.natural? {k : ℕ} (h : IsLiteral k n) : n.natural? = some k := by
  obtain ⟨_, hn, m, rfl, hk⟩ := h.number
  simp [Expr.natural?, hn, hk]

lemma valueIn_literal {k : ℤ} (h : IsLiteral k e) : e.valueIn ν = k := by
  obtain ⟨n, hkind, hn⟩ := h.kind
  obtain ⟨ordinal, domain, kind⟩ := e
  simp only [Expr.kind] at hkind
  subst hkind
  rw [valueIn, Number.intValue, hn]

lemma valueIn_symbol {name : String} (h : e.kind = .symbol name) : e.valueIn ν = ν e := by
  obtain ⟨ordinal, domain, kind⟩ := e
  simp only [Expr.kind] at h
  subst h
  simp

lemma valueIn_inverse (h : e.kind = .inverse a) : e.valueIn ν = ν e := by
  obtain ⟨ordinal, domain, kind⟩ := e
  simp only [Expr.kind] at h
  subst h
  simp

lemma valueIn_sum (h : e.kind = .sum l) : e.valueIn ν = (l.map (valueIn ν)).sum := by
  obtain ⟨ordinal, domain, kind⟩ := e
  simp only [Expr.kind] at h
  subst h
  rw [valueIn, totalIn_eq_sum]

lemma valueIn_chain (h : e.kind = .chain l) : e.valueIn ν = (l.map (valueIn ν)).prod := by
  obtain ⟨ordinal, domain, kind⟩ := e
  simp only [Expr.kind] at h
  subst h
  rw [valueIn, productIn_eq_prod]

lemma valueIn_product (h : e.kind = .apply t a) (hm : multiplies t a = true) :
    e.valueIn ν = t.valueIn ν * a.valueIn ν := by
  obtain ⟨ordinal, domain, kind⟩ := e
  simp only [Expr.kind] at h
  subst h
  rw [valueIn, if_pos hm]

/-- Applications of symbols that are no products are atoms. -/
lemma valueIn_access (h : e.isAccess = true) : e.valueIn ν = ν e := by
  obtain ⟨ordinal, domain, kind⟩ := e
  cases kind with
  | apply t a =>
    simp only [isAccess, isProduct, Expr.kind, Bool.and_eq_true, Bool.not_eq_true'] at h
    rw [valueIn, h.2]
    cases hkind : t.kind with
    | symbol name => rfl
    | _ => simp [isSymbol, hkind] at h
  | _ => cases h

lemma valueIn_power {k : ℕ} (h : e.power? = some (b, n)) (hn : IsLiteral k n) :
    e.valueIn ν = b.valueIn ν ^ k := by
  obtain ⟨t, a, hkind, ht, ha⟩ := power?_eq_some.1 h
  obtain ⟨ordinal, domain, kind⟩ := e
  obtain ⟨ordinal', domain', kind'⟩ := a
  simp only [Expr.kind] at hkind ha
  subst hkind ha
  have hm : ¬multiplies t (node ordinal' domain' (.tuple [b, n])) = true := by
    simp [multiplies, function?, ht]
  rw [valueIn, if_neg hm]
  simp only [ht, powerIn, hn.natural?]

end Values

/-! ## Ordinary operands -/

/-- The parts of a node that its value is made of. -/
def parts (e : Expr) : List Expr :=
  match e.kind with
  | .sum terms => terms
  | .chain factors => factors
  | .apply target argument =>
    if multiplies target argument then [target, argument]
    else (e.power?.map Prod.fst).toList
  | _ => []

/-- Expressions that are linear as are their parts, all of whose literals are integers and all of
whose powers have natural exponents, without constant matrices. -/
inductive Ordinary : Expr → Prop
  | intro {e : Expr} (linear : e.domain.isLinear = true)
    (literal : e.number?.isSome = true → IsLiteral e.intValue e) (matrix? : e.matrix? = none)
    (power : ∀ b n, e.power? = some (b, n) → ∃ k : ℕ, IsLiteral k n)
    (parts : ∀ c ∈ e.parts, Ordinary c) : Ordinary e

namespace Ordinary

variable {e t a b n : Expr} {l : List Expr} {s : Store}

lemma linear (h : e.Ordinary) : e.domain.isLinear = true := by
  obtain ⟨h, -, -, -, -⟩ := h
  exact h

lemma literal (h : e.Ordinary) : e.number?.isSome = true → IsLiteral e.intValue e := by
  obtain ⟨-, h, -, -, -⟩ := h
  exact h

lemma matrix? (h : e.Ordinary) : e.matrix? = none := by
  obtain ⟨-, -, h, -, -⟩ := h
  exact h

lemma parts (h : e.Ordinary) : ∀ c ∈ e.parts, c.Ordinary := by
  obtain ⟨-, -, -, -, h⟩ := h
  exact h

lemma sum (h : e.Ordinary) (hkind : e.kind = .sum l) : ∀ c ∈ l, c.Ordinary := by
  simpa [Expr.parts, hkind] using h.parts

lemma chain (h : e.Ordinary) (hkind : e.kind = .chain l) : ∀ c ∈ l, c.Ordinary := by
  simpa [Expr.parts, hkind] using h.parts

lemma product (h : e.Ordinary) (hkind : e.kind = .apply t a) (hm : multiplies t a = true) :
    t.Ordinary ∧ a.Ordinary := by
  simpa [Expr.parts, hkind, hm] using h.parts

lemma power (h : e.Ordinary) (hpower : e.power? = some (b, n)) :
    b.Ordinary ∧ ∃ k : ℕ, IsLiteral k n := by
  obtain ⟨t, a, hkind, ht, -⟩ := power?_eq_some.1 hpower
  have hm : multiplies t a = false := by simp [multiplies, function?, ht]
  refine ⟨?_, ?_⟩
  · simpa [Expr.parts, hkind, hm, hpower] using h.parts
  · obtain ⟨-, -, -, h, -⟩ := h
    exact h b n hpower

/-- Known expressions of linear domain are no functions. -/
lemma function? (h : e.Ordinary) (hs : s.WellFormed) (he : s.Knows e) : e.function? = none :=
  function?_of_isLinear hs he h.linear

/-- Known ordinary expressions multiply. -/
lemma multiplies (ht : t.Ordinary) (ha : a.Ordinary) (hs : s.WellFormed) (hknown : s.Knows t) :
    multiplies t a = true := by
  simp [Expr.multiplies, ht.function? hs hknown, ht.linear, ha.linear]

/-! Nodes of ordinary parts. -/

lemma of_literal {k : ℤ} (h : IsLiteral k e) : e.Ordinary := by
  obtain ⟨n, hkind, -⟩ := h.kind
  exact ⟨by rw [h.domain]; rfl, fun _ => h.self, by simp [Expr.matrix?, hkind],
    by simp [power?, hkind], by simp [Expr.parts, hkind]⟩

lemma of_symbol {name : String} (hkind : e.kind = .symbol name)
    (hlinear : e.domain.isLinear = true) : e.Ordinary :=
  ⟨hlinear, by simp [number?, hkind], by simp [Expr.matrix?, hkind], by simp [power?, hkind],
    by simp [Expr.parts, hkind]⟩

lemma of_chain (hkind : e.kind = .chain l) (hlinear : e.domain.isLinear = true)
    (h : ∀ c ∈ l, c.Ordinary) : e.Ordinary :=
  ⟨hlinear, by simp [number?, hkind], by simp [Expr.matrix?, hkind], by simp [power?, hkind],
    by simpa [Expr.parts, hkind] using h⟩

lemma of_product (hkind : e.kind = .apply t a) (hm : Expr.multiplies t a = true)
    (hlinear : e.domain.isLinear = true) (ht : t.Ordinary) (ha : a.Ordinary) : e.Ordinary := by
  refine ⟨hlinear, by simp [number?, hkind], by simp [Expr.matrix?, hkind], fun b n hpower => ?_,
    by simpa [Expr.parts, hkind, hm] using ⟨ht, ha⟩⟩
  obtain ⟨t', a', hkind', ht', -⟩ := power?_eq_some.1 hpower
  rw [hkind, Kind.apply.injEq] at hkind'
  simp [Expr.multiplies, hkind'.1, Expr.function?, ht'] at hm

lemma of_power {k : ℕ} (hpower : e.power? = some (b, n)) (hlinear : e.domain.isLinear = true)
    (hb : b.Ordinary) (hn : IsLiteral k n) : e.Ordinary := by
  obtain ⟨t, a, hkind, ht, -⟩ := power?_eq_some.1 hpower
  have hm : Expr.multiplies t a = false := by simp [Expr.multiplies, Expr.function?, ht]
  refine ⟨hlinear, by simp [number?, hkind], by simp [Expr.matrix?, hkind], fun b' n' h => ?_,
    by simpa [Expr.parts, hkind, hm, hpower] using hb⟩
  rw [hpower, Option.some.injEq, Prod.mk.injEq] at h
  exact ⟨k, h.2 ▸ hn⟩

end Ordinary

end Expr

/-! ## Stores whose expressions have values -/

namespace Store

variable {R : Type*} [Ring R]

/-- The values fit the expressions of a store. -/
structure Respects (ν : Expr → R) (s : Store) : Prop where
  /-- Scalars have central values. -/
  central : ∀ e : Expr, s.Knows e → e.domain.isScalar = true → e.valueIn ν ∈ Subring.center R
  /-- Inverses are inverse on both sides. -/
  inverse : ∀ e a : Expr, s.Knows e → e.kind = .inverse a →
    e.valueIn ν * a.valueIn ν = 1 ∧ a.valueIn ν * e.valueIn ν = 1

/-- Products of linear expressions are linear. -/
def Closed (s : Store) : Prop :=
  ∀ e : Expr, s.Knows e → e.isProduct = true → e.domain.isLinear = true

/-- The stores of exact arithmetic that the values fit. -/
def valued (ν : Expr → R) : LowerSet Store where
  carrier := {s | s.exact = true ∧ s.Respects ν ∧ s.Closed}
  lower' _ _ hle h := ⟨hle.exact h.1,
    ⟨fun e he => h.2.1.central e (he.mono hle), fun e a he => h.2.1.inverse e a (he.mono hle)⟩,
    fun e he => h.2.2 e (he.mono hle)⟩

variable {ν : Expr → R} {s : Store}

/-- Values are compared in exact arithmetic only. -/
lemma valued_le : valued ν ≤ exactStores := fun _ h => h.1

lemma respects_of_mem (h : s ∈ valued ν) : s.Respects ν := h.2.1

lemma closed_of_mem (h : s ∈ valued ν) : s.Closed := h.2.2

end Store

namespace Expr

/-! ## Terms and factors -/

section Factors

variable {R : Type*} [Ring R] {ν : Expr → R} {e : Expr} {l : List Expr}

/-- The factors of an ordinary expression are ordinary, and multiply in order to its value. -/
lemma Ordinary.factors_spec (he : e.Ordinary) :
    (∀ f ∈ e.factors, f.Ordinary) ∧ (e.factors.map (valueIn ν)).prod = e.valueIn ν := by
  induction h : sizeOf e using Nat.strongRecOn generalizing e with
  | _ n ih =>
    subst h
    obtain ⟨ordinal, domain, kind⟩ := e
    cases kind with
    | apply t a =>
      by_cases hm : Expr.multiplies t a = true
      · obtain ⟨ht, ha⟩ := he.product rfl hm
        obtain ⟨htf, htv⟩ := ih _ (sizeOf_lt_of_mem_children (by simp [children, Kind.children, kind]))
          ht rfl
        obtain ⟨haf, hav⟩ := ih _ (sizeOf_lt_of_mem_children (by simp [children, Kind.children, kind]))
          ha rfl
        rw [factors_apply _ _ hm, List.map_append, List.prod_append, htv, hav,
          valueIn_product (e := node ordinal domain (.apply t a)) rfl hm]
        exact ⟨List.forall_mem_append.2 ⟨htf, haf⟩, rfl⟩
      · rw [factors, factorsOnto, if_neg hm]
        simpa using he
    | _ => simpa [factors, factorsOnto] using he

lemma flatMap_factors_spec (h : ∀ e ∈ l, e.Ordinary) : (∀ f ∈ l.flatMap factors, f.Ordinary) ∧
    ((l.flatMap factors).map (valueIn ν)).prod = (l.map (valueIn ν)).prod := by
  induction l with
  | nil => simp
  | cons e l ih =>
    rw [List.forall_mem_cons] at h
    obtain ⟨hfactors, hprod⟩ := h.1.factors_spec (ν := ν)
    obtain ⟨hrest, hprod'⟩ := ih h.2
    rw [List.flatMap_cons, List.map_append, List.prod_append, hprod, hprod', List.map_cons,
      List.prod_cons]
    exact ⟨List.forall_mem_append.2 ⟨hfactors, hrest⟩, rfl⟩

mutual

/-- The terms of an ordinary expression are ordinary, and add up to its value. -/
theorem Ordinary.terms_spec : ∀ e, Ordinary e →
    (∀ t ∈ e.terms, t.Ordinary) ∧ (e.terms.map (valueIn ν)).sum = e.valueIn ν
  | .node ordinal domain kind, he => by
    match kind with
    | .sum items =>
      rw [terms, valueIn_sum (e := node ordinal domain (.sum items)) rfl]
      exact allTerms_spec items (he.sum rfl)
    | .symbol _ | .number _ | .object _ _ | .field _ | .function _ | .tuple _ | .apply _ _
    | .generator _ _ _ | .chain _ | .inverse _ | .transpose _ | .indexedSum _ _ _ _
    | .collectionSum _ _ _ => simpa [terms] using he

/-- The terms of several ordinary expressions are ordinary, and add up to the sum of their
values. -/
theorem allTerms_spec : ∀ l : List Expr, (∀ e ∈ l, e.Ordinary) →
    (∀ t ∈ allTerms l, t.Ordinary) ∧
      ((allTerms l).map (valueIn ν)).sum = (l.map (valueIn ν)).sum
  | [], _ => by simp [allTerms]
  | e :: l, h => by
    rw [List.forall_mem_cons] at h
    obtain ⟨hterms, hsum⟩ := Ordinary.terms_spec e h.1
    obtain ⟨hrest, hsum'⟩ := allTerms_spec l h.2
    rw [allTerms, List.map_append, List.sum_append, hsum, hsum', List.map_cons, List.sum_cons]
    exact ⟨List.forall_mem_append.2 ⟨hterms, hrest⟩, rfl⟩

end

/-- The factors of a matrix product, in front of others. -/
lemma Ordinary.chainFactorsOnto_spec (he : e.Ordinary) (h : ∀ f ∈ l, f.Ordinary) :
    (∀ f ∈ e.chainFactorsOnto l, f.Ordinary) ∧
      ((e.chainFactorsOnto l).map (valueIn ν)).prod = e.valueIn ν * (l.map (valueIn ν)).prod := by
  induction hsize : sizeOf e using Nat.strongRecOn generalizing e l with
  | _ n ih =>
    subst hsize
    obtain ⟨ordinal, domain, kind⟩ := e
    have hself : (∀ f ∈ node ordinal domain kind :: l, f.Ordinary) ∧
        ((node ordinal domain kind :: l).map (valueIn ν)).prod =
          (node ordinal domain kind).valueIn ν * (l.map (valueIn ν)).prod :=
      ⟨List.forall_mem_cons.2 ⟨he, h⟩, by rw [List.map_cons, List.prod_cons]⟩
    cases kind with
    | chain items =>
      rw [chainFactorsOnto, allChainFactorsOnto_eq_foldr,
        valueIn_chain (e := node ordinal domain (.chain items)) rfl]
      have hitems := he.chain (e := node ordinal domain (.chain items)) rfl
      have hsmall : ∀ c ∈ items, sizeOf c < sizeOf (node ordinal domain (.chain items)) :=
        fun c hc => sizeOf_lt_of_mem_children hc
      clear hself he
      generalize sizeOf (node ordinal domain (.chain items)) = size at ih hsmall
      induction items with
      | nil => simpa using h
      | cons c items ihitems =>
        simp only [List.forall_mem_cons] at hitems hsmall
        obtain ⟨hall, hprod⟩ := ihitems hitems.2 hsmall.2
        obtain ⟨hall', hprod'⟩ := ih _ hsmall.1 hitems.1 hall rfl
        rw [List.foldr_cons, List.map_cons, List.prod_cons, hprod', hprod, mul_assoc]
        exact ⟨hall', rfl⟩
    | apply t a =>
      rw [chainFactorsOnto]
      split
      · rename_i hm
        obtain ⟨ht, ha⟩ := he.product rfl hm
        obtain ⟨hall, hprod⟩ := ih _ (sizeOf_lt_of_mem_children
          (e := node ordinal domain (.apply t a)) (c := a)
          (by simp [children, Kind.children, kind])) ha h rfl
        obtain ⟨hall', hprod'⟩ := ih _ (sizeOf_lt_of_mem_children
          (e := node ordinal domain (.apply t a)) (c := t)
          (by simp [children, Kind.children, kind])) ht hall rfl
        rw [hprod', hprod, valueIn_product (e := node ordinal domain (.apply t a)) rfl hm, mul_assoc]
        exact ⟨hall', rfl⟩
      · exact hself
    | _ => exact hself

lemma allChainFactorsOnto_spec (h : ∀ e ∈ l, e.Ordinary) :
    (∀ f ∈ allChainFactorsOnto l [], f.Ordinary) ∧
      ((allChainFactorsOnto l []).map (valueIn ν)).prod = (l.map (valueIn ν)).prod := by
  rw [allChainFactorsOnto_eq_foldr]
  induction l with
  | nil => simp
  | cons e l ih =>
    rw [List.forall_mem_cons] at h
    obtain ⟨hall, hprod⟩ := ih h.2
    obtain ⟨hall', hprod'⟩ := h.1.chainFactorsOnto_spec (ν := ν) hall
    rw [List.foldr_cons, hprod', hprod, List.map_cons, List.prod_cons]
    exact ⟨hall', rfl⟩

/-! ## Central factors -/

/-- Factors with central values may be moved to the front. -/
lemma prod_eq_of_central {p : Expr → Bool}
    (h : ∀ e ∈ l, p e = true → e.valueIn ν ∈ Subring.center R) :
    (l.map (valueIn ν)).prod =
      ((l.filter p).map (valueIn ν)).prod * ((l.filter fun e => !p e).map (valueIn ν)).prod := by
  induction l with
  | nil => simp
  | cons e l ih =>
    rw [List.forall_mem_cons] at h
    rw [List.map_cons, List.prod_cons, ih h.2]
    cases hp : p e with
    | true => simp [hp, mul_assoc]
    | false =>
      have hcentral : ((l.filter p).map (valueIn ν)).prod ∈ Subring.center R := by
        refine Subring.list_prod_mem _ fun v hv => ?_
        obtain ⟨f, hf, rfl⟩ := List.mem_map.1 hv
        exact h.2 f (List.mem_filter.1 hf).1 (List.mem_filter.1 hf).2
      simp [hp, ← mul_assoc, Subring.mem_center_iff.1 hcentral (e.valueIn ν)]

/-- The literals, the scalars and the matrices of a product. -/
lemma prod_eq_parts (h : ∀ e ∈ l, e.Ordinary)
    (hcentral : ∀ e ∈ l, e.domain.isScalar = true → e.valueIn ν ∈ Subring.center R) :
    (l.map (valueIn ν)).prod = (literalProduct l : R) *
      (((l.filter isScalarFactor).map (valueIn ν)).prod *
        ((l.filter isMatrixFactor).map (valueIn ν)).prod) := by
  have hscalar {e : Expr} (he : e ∈ l) (hnumber : e.number?.isSome = true) :
      e.domain.isScalar = true := ((h e he).literal hnumber).real.isScalar
  rw [prod_eq_of_central (p := fun e => e.number?.isSome) fun e he hnumber =>
      hcentral e he (hscalar he hnumber),
    prod_eq_of_central (l := l.filter fun e => !e.number?.isSome) (p := fun e => e.domain.isScalar)
      fun e he => hcentral e (List.mem_filter.1 he).1]
  congr 1
  · rw [literalProduct, Int.cast_list_prod, List.map_map]
    refine congrArg List.prod (List.map_congr_left fun e he => ?_)
    obtain ⟨hmem, hnumber⟩ := List.mem_filter.1 he
    exact valueIn_literal ((h e hmem).literal hnumber)
  · congr 3 <;> rw [List.filter_filter] <;>
      exact List.filter_congr fun e _ => by
        simp [isScalarFactor, isMatrixFactor, Bool.and_comm, Option.not_isSome]

end Factors

end Expr

end TermGraph
