import TermGraph.Proofs.Polynomial.Power

/-!
# Domains of scalars and matrices

Where there are no custom domains, sums and products of scalars and matrices always have a domain,
and a product is a scalar exactly if both of its sides are.

* `Store.Builtin s`: no expression of `s` lies in a custom domain.
* `Domain.IsNumeric d`: `d` is that of the integers, the reals or the matrices.
* `Expr.isScalar_of_mem_factors`: the factors of scalars are scalars.
-/

namespace TermGraph

open Store (Knows)

namespace Domain

/-- The integers, the reals and the matrices. -/
def IsNumeric (d : Domain) : Prop :=
  d = .integers ∨ d = .reals ∨ d = .matrices

variable {d d' : Domain}

lemma isNumeric_of_isLinear (hd : d.isBuiltin = true) (h : d.isLinear = true) : d.IsNumeric := by
  cases d <;> simp_all [isBuiltin, IsNumeric, isLinear, within, lineage, BEq.beq, same]

lemma IsNumeric.isLinear (h : d.IsNumeric) : d.isLinear = true := by
  rcases h with rfl | rfl | rfl <;> rfl

lemma IsNumeric.isBuiltin (h : d.IsNumeric) : d.isBuiltin = true := by
  rcases h with rfl | rfl | rfl <;> rfl

lemma isLinear_of_isScalar (hd : d.isBuiltin = true) (h : d.isScalar = true) :
    d.isLinear = true := by
  cases d <;> simp_all [isBuiltin, isScalar, isLinear, within, lineage, BEq.beq, same]

/-- Only numeric domains have a product with a numeric one. -/
lemma arithmetic?_eq_none (hd' : d'.isBuiltin = true) (h : d'.isLinear = false) (d : Domain) :
    d.arithmetic? d' = none := by
  cases d <;> cases d' <;> first
    | rfl
    | cases h
    | cases hd'

/-- Numeric domains have a least upper bound, which is scalar if both are. -/
lemma IsNumeric.arithmetic? (h : d.IsNumeric) (h' : d'.IsNumeric) :
    ∃ d'', d.arithmetic? d' = some d'' ∧ d''.IsNumeric ∧
      (d''.isScalar = true ↔ d.isScalar = true ∧ d'.isScalar = true) := by
  rcases h with rfl | rfl | rfl <;> rcases h' with rfl | rfl | rfl <;>
    simp [Domain.arithmetic?, IsNumeric, Domain.isLinear, isIntegral, isScalar, within, lineage,
      BEq.beq, same]

lemma IsNumeric.resolveSum? (h : d.IsNumeric) (h' : d'.IsNumeric) :
    ∃ d'', d.resolveSum? d' = some d'' ∧ d''.IsNumeric ∧
      (d''.isScalar = true ↔ d.isScalar = true ∧ d'.isScalar = true) := by
  obtain ⟨d'', hd'', hspec⟩ := h.arithmetic? h'
  refine ⟨d'', ?_, hspec⟩
  have hsum : d.sum? d' = some d'' := by
    rcases h with rfl | rfl | rfl <;> simp [sum?, firstAnswer, lineage, hd'']
  rw [Domain.resolveSum?, hsum]
  rfl

/-- Only numeric domains have a sum. -/
lemma isNumeric_of_resolveSum? {d'' : Domain} (hd : d.isBuiltin = true) (hd' : d'.isBuiltin = true)
    (h : d.resolveSum? d' = some d'') : d.IsNumeric ∧ d'.IsNumeric := by
  cases d <;> cases d' <;> first
    | (simp [IsNumeric]; done)
    | exact absurd hd Bool.false_ne_true
    | exact absurd hd' Bool.false_ne_true
    | cases h

end Domain

namespace Store

variable {s t : Store}

/-- No expression lies in a custom domain. -/
def Builtin (s : Store) : Prop :=
  ∀ e : Expr, s.Knows e → e.domain.isBuiltin = true

lemma Builtin.anti (h : t.Builtin) (hle : s ≤ t) : s.Builtin := fun e he => h e (he.mono hle)

lemma Builtin.of_nodes (h : s.nodes.all (·.domain.isBuiltin) = true) : s.Builtin := by
  intro e he
  obtain ⟨hlt, heq⟩ := Array.getElem?_eq_some_iff.1 he
  exact heq ▸ Array.all_eq_true.1 h _ hlt

end Store

namespace Expr

variable {s : Store} {e t a b n : Expr} {l : List Expr} {domain : Domain}

/-! ## Applications and sums -/

lemma applyDomain?_numeric (ht : t.domain.IsNumeric) (ha : a.domain.IsNumeric) :
    ∃ domain, applyDomain? t a = some domain ∧ domain.IsNumeric ∧
      (domain.isScalar = true ↔ t.domain.isScalar = true ∧ a.domain.isScalar = true) := by
  obtain ⟨domain, hdomain, hspec⟩ := ht.arithmetic? ha
  refine ⟨domain, ?_, hspec⟩
  have hleft : Domain.leftApply? t a = some domain := by
    rw [Domain.leftApply?]
    rcases ht with ht | ht | ht <;> rw [ht] at hdomain ⊢ <;>
      simp [Domain.firstAnswer, Domain.lineage, hdomain]
  rw [applyDomain?, hleft]
  rfl

lemma rightApply?_builtin (t : Expr) (ha : a.domain.isBuiltin = true) : Domain.rightApply? t a = none := by
  unfold Domain.rightApply?
  cases h : a.domain <;> rw [h] at ha <;> first
    | rfl
    | cases ha

lemma eitherApply?_builtin (hb : b.domain.isBuiltin = true) (c : Expr) : Domain.eitherApply? b c = none := by
  unfold Domain.eitherApply?
  cases h : b.domain <;> rw [h] at hb <;> first
    | rfl
    | cases hb

/-- What is applied to what is decided by the target, unless a custom domain has a say. -/
lemma applyDomain?_builtin (ht : t.domain.isBuiltin = true) (ha : a.domain.isBuiltin = true) :
    applyDomain? t a = Domain.leftApply? t a := by
  rw [applyDomain?, rightApply?_builtin t ha, eitherApply?_builtin ht, eitherApply?_builtin ha]
  cases Domain.leftApply? t a <;> rfl

/-- Numbers and matrices are applied to numbers and matrices only. -/
lemma isNumeric_of_applyDomain? (ht : t.domain.IsNumeric) (ha : a.domain.isBuiltin = true)
    (h : applyDomain? t a = some domain) : a.domain.IsNumeric ∧ domain.IsNumeric := by
  cases hlinear : a.domain.isLinear with
  | true =>
    have hanumeric := Domain.isNumeric_of_isLinear ha hlinear
    obtain ⟨domain', hdomain', hnumeric, -⟩ := applyDomain?_numeric ht hanumeric
    obtain rfl : domain' = domain := Option.some.inj (hdomain'.symm.trans h)
    exact ⟨hanumeric, hnumeric⟩
  | false =>
    rw [applyDomain?_builtin ht.isBuiltin ha, Domain.leftApply?] at h
    rcases ht with ht | ht | ht <;> rw [ht] at h <;>
      simp [Domain.firstAnswer, Domain.lineage, Domain.arithmetic?_eq_none ha hlinear] at h

lemma sumDomainFrom_numeric (left : Expr) {domain : Domain} (hdomain : domain.IsNumeric)
    (h : ∀ e ∈ l, e.domain.IsNumeric) :
    ∃ domain', sumDomainFrom left domain l = .ok domain' ∧ domain'.IsNumeric ∧
      (domain'.isScalar = true ↔ domain.isScalar = true ∧ ∀ e ∈ l, e.domain.isScalar = true) := by
  induction l generalizing left domain with
  | nil => exact ⟨domain, rfl, hdomain, by simp⟩
  | cons e l ih =>
    rw [List.forall_mem_cons] at h
    obtain ⟨d', hd', hnumeric, hscalar⟩ := hdomain.resolveSum? h.1
    obtain ⟨domain', hsum, hnumeric', hscalar'⟩ := ih e hnumeric h.2
    refine ⟨domain', by rw [sumDomainFrom, hd']; exact hsum, hnumeric', ?_⟩
    rw [hscalar', hscalar, List.forall_mem_cons, and_assoc]

/-- Scalars and matrices can be added, and their sum is a scalar if they all are. -/
lemma sumDomain_numeric (h : ∀ e ∈ l, e.domain.IsNumeric) :
    ∃ domain, sumDomain l = .ok domain ∧ domain.IsNumeric ∧
      (domain.isScalar = true ↔ ∀ e ∈ l, e.domain.isScalar = true) := by
  cases l with
  | nil => exact ⟨.integers, rfl, .inl rfl, by simp; rfl⟩
  | cons e l =>
    rw [List.forall_mem_cons] at h
    obtain ⟨domain, hsum, hspec⟩ := sumDomainFrom_numeric e h.1 h.2
    exact ⟨domain, hsum, hspec.1, by rw [hspec.2, List.forall_mem_cons]⟩

/-- The terms of a numeric sum are numeric. -/
lemma isNumeric_of_sumDomainFrom {left : Expr} {domain domain' : Domain}
    (hdomain : domain.isBuiltin = true) (h : ∀ e ∈ l, e.domain.isBuiltin = true)
    (hsum : sumDomainFrom left domain l = .ok domain') (hnumeric : domain'.IsNumeric) :
    domain.IsNumeric ∧ ∀ e ∈ l, e.domain.IsNumeric := by
  induction l generalizing left domain with
  | nil =>
    cases hsum
    exact ⟨hnumeric, by simp⟩
  | cons e l ih =>
    rw [List.forall_mem_cons] at h ⊢
    rw [sumDomainFrom] at hsum
    split at hsum
    · rename_i d hd
      obtain ⟨hleft, hright⟩ := Domain.isNumeric_of_resolveSum? hdomain h.1 hd
      obtain ⟨d', hd', hnumeric', -⟩ := hleft.resolveSum? hright
      obtain rfl : d' = d := Option.some.inj (hd'.symm.trans hd)
      exact ⟨hleft, hright, (ih hnumeric'.isBuiltin h.2 hsum).2⟩
    · cases hsum

lemma isNumeric_of_sumDomain {domain : Domain} (h : ∀ e ∈ l, e.domain.isBuiltin = true)
    (hsum : sumDomain l = .ok domain) (hnumeric : domain.IsNumeric) :
    ∀ e ∈ l, e.domain.IsNumeric := by
  cases l with
  | nil => simp
  | cons e l =>
    rw [List.forall_mem_cons] at h ⊢
    exact isNumeric_of_sumDomainFrom h.1 h.2 hsum hnumeric

/-! ## Nodes -/

/-- Functions lie in their own domain. -/
lemma domain_of_function? (hs : s.WellFormed) (he : s.Knows e) {f : Function}
    (h : e.function? = some f) : e.domain = .functions := by
  have htyped := (hs.admits he).typed
  unfold function? at h
  split at h
  · rename_i g hkind
    rwa [hkind, Kind.Typed] at htyped
  · cases h

lemma function?_of_domain (hs : s.WellFormed) (he : s.Knows e) (h : e.domain ≠ .functions) :
    e.function? = none :=
  Option.eq_none_iff_forall_ne_some.2 fun _ hf => h (domain_of_function? hs he hf)

/-- Scalars and matrices are no functions. -/
lemma function?_of_isLinear (hs : s.WellFormed) (he : s.Knows e) (h : e.domain.isLinear = true) :
    e.function? = none :=
  function?_of_domain hs he fun hdomain => by
    rw [hdomain] at h
    cases h

/-- A scalar that is applied is multiplied. -/
lemma multiplies_of_isScalar (hs : s.WellFormed) {domain : Domain} (he : s.Knows e)
    (hbuiltin : e.domain.isBuiltin = true) (hbuiltin' : a.domain.isBuiltin = true)
    (hscalar : e.domain.isScalar = true) (h : applyDomain? e a = some domain) :
    e.domain.IsNumeric ∧ a.domain.IsNumeric ∧ multiplies e a = true := by
  have hlinear := Domain.isLinear_of_isScalar hbuiltin hscalar
  have hnumeric := Domain.isNumeric_of_isLinear hbuiltin hlinear
  have hnumeric' := (isNumeric_of_applyDomain? hnumeric hbuiltin' h).1
  exact ⟨hnumeric, hnumeric',
    by simp [multiplies, function?_of_isLinear hs he hlinear, hlinear, hnumeric'.isLinear]⟩

/-- A product of numeric sides is numeric, and a scalar if both sides are. -/
lemma domain_of_apply (hs : s.WellFormed) (he : s.Knows e) (hkind : e.kind = .apply t a)
    (ht : t.domain.IsNumeric) (ha : a.domain.IsNumeric) : e.domain.IsNumeric ∧
      (e.domain.isScalar = true ↔ t.domain.isScalar = true ∧ a.domain.isScalar = true) := by
  obtain ⟨domain, hdomain, hspec⟩ := applyDomain?_numeric ht ha
  have htyped := (hs.admits he).typed
  rw [hkind, Kind.Typed, hdomain, Option.some.injEq] at htyped
  exact htyped ▸ hspec

lemma IsReal.isNumeric (h : e.IsReal) : e.domain.IsNumeric :=
  h.imp_right .inl

/-- A literal lies in the integers or the reals. -/
lemma isReal_of_number (hs : s.WellFormed) (he : s.Knows e) (h : e.number?.isSome = true) :
    e.IsReal := by
  obtain ⟨n, hn⟩ := Option.isSome_iff_exists.1 h
  have htyped := (hs.admits he).typed
  rw [kind_of_number? hn, Kind.Typed] at htyped
  rw [IsReal, htyped]
  cases n.isInt
  · exact .inr rfl
  · exact .inl rfl

/-- A literal is a scalar. -/
lemma isScalar_of_number (hs : s.WellFormed) (he : s.Knows e) (h : e.number?.isSome = true) :
    e.domain.isScalar = true :=
  (isReal_of_number hs he h).isScalar

/-- A power lies in the reals. -/
lemma domain_of_power? (hs : s.WellFormed) (he : s.Knows e) (h : e.power? = some (b, n)) :
    e.domain = .reals ∧ b.domain.isScalar = true ∧ n.domain.isScalar = true := by
  obtain ⟨t, a, hkind, ht, ha⟩ := power?_eq_some.1 h
  obtain ⟨hknown, hknown'⟩ := hs.knows_of_apply he hkind
  have htyped := (hs.admits hknown).typed
  have hatyped := (hs.admits hknown').typed
  have hetyped := (hs.admits he).typed
  rw [ht, Kind.Typed] at htyped
  rw [ha, Kind.Typed] at hatyped
  rw [hkind, Kind.Typed] at hetyped
  have happly : applyDomain? t a = if b.domain.isScalar ∧ n.domain.isScalar then some .reals
      else none := by
    simp [applyDomain?, Domain.leftApply?, Domain.rightApply?, Domain.eitherApply?,
      Domain.firstAnswer, Domain.lineage, htyped, hatyped, function?, ht, Function.resultDomain?,
      Function.arguments, Function.arity, Builtin.arity, ha]
  rw [happly] at hetyped
  split at hetyped
  · rename_i hscalars
    exact ⟨(Option.some.inj hetyped).symm, hscalars⟩
  · cases hetyped

/-- The sides of a product are numeric. -/
lemma isNumeric_of_multiplies (hb : s.Builtin) (ht : s.Knows t) (ha : s.Knows a)
    (h : multiplies t a = true) : t.domain.IsNumeric ∧ a.domain.IsNumeric := by
  simp only [multiplies, Bool.and_eq_true] at h
  exact ⟨Domain.isNumeric_of_isLinear (hb t ht) h.1.2, Domain.isNumeric_of_isLinear (hb a ha) h.2⟩

/-- The factors of a scalar are scalars. -/
lemma isScalar_of_mem_factors (hs : s.WellFormed) (hb : s.Builtin) (he : s.Knows e)
    (h : e.domain.isScalar = true) : ∀ f ∈ e.factors, f.domain.isScalar = true := by
  induction hsize : sizeOf e using Nat.strongRecOn generalizing e with
  | _ n ih =>
    subst hsize
    have hchildren := hs.children he
    obtain ⟨ordinal, domain, kind⟩ := e
    cases kind with
    | apply t a =>
      simp only [children, Kind.children, Expr.kind, Store.knows_cons] at hchildren
      by_cases hm : multiplies t a = true
      · obtain ⟨ht, ha⟩ := isNumeric_of_multiplies hb hchildren.1 hchildren.2.1 hm
        obtain ⟨hscalar, hscalar'⟩ := (domain_of_apply hs he rfl ht ha).2.1 h
        rw [factors_apply _ _ hm]
        refine List.forall_mem_append.2 ⟨ih _ ?_ hchildren.1 hscalar rfl,
          ih _ ?_ hchildren.2.1 hscalar' rfl⟩ <;>
          exact sizeOf_lt_of_mem_children (by simp [children, Kind.children, Expr.kind])
      · rw [factors, factorsOnto, if_neg hm]
        simpa using h
    | _ => simpa [factors, factorsOnto] using h

end Expr

end TermGraph
