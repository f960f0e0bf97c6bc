import TermGraph.Proofs.Meaning.Sums
import TermGraph.Proofs.Order.Domains

/-!
# Expressions of integers

Sums, products, positive literal powers and summations of integers stand for integers.  They need
not lie in the domain of the integers, since a power lies in the reals: merging equal factors of an
integer product gives a real.

* `Expr.Whole e`: `e` is made of integer symbols and literals in these ways.
* `Expr.HasPower e`: one of these ways is a power.
* `Expr.achieves_whole_sum`, `Expr.achieves_whole_product`: sums and products keep to such
  expressions.
* `Store.SumsTyped s`: summations lie in the domains of their bodies.
* `Expr.integral_or_hasPower`: such an expression lies in the integers or has a power.
-/

namespace TermGraph

open Store (Knows)

namespace Expr

/-- Sums, products, positive literal powers and summations of integer symbols and literals. -/
inductive Whole : Expr → Prop
  | symbol {e : Expr} : e.isSymbol = true → e.domain = .integers → Whole e
  | literal {e : Expr} {k : ℤ} : IsLiteral k e → Whole e
  | sum {e : Expr} {terms : List Expr} : e.kind = .sum terms → e.IsReal →
    (∀ t ∈ terms, Whole t) → Whole e
  | product {e t a : Expr} : e.kind = .apply t a → e.IsReal → Whole t → Whole a → Whole e
  | power {e b n : Expr} {k : ℕ} : e.power? = some (b, n) → e.IsReal → Whole b → 0 < k →
    IsLiteral k n → Whole e
  | indexedSum {e index lower upper body : Expr} : e.kind = .indexedSum index lower upper body →
    e.IsReal → Whole body → Whole e

/-- A power among the terms of sums, the sides of products and the bodies of summations. -/
inductive HasPower : Expr → Prop
  | power {e b n : Expr} : e.power? = some (b, n) → HasPower e
  | sum {e c : Expr} {terms : List Expr} : e.kind = .sum terms → c ∈ terms → HasPower c →
    HasPower e
  | target {e t a : Expr} : e.kind = .apply t a → HasPower t → HasPower e
  | argument {e t a : Expr} : e.kind = .apply t a → HasPower a → HasPower e
  | indexedSum {e index lower upper body : Expr} : e.kind = .indexedSum index lower upper body →
    HasPower body → HasPower e

variable {s : Store} {d : ℕ} {e t a b n : Expr} {l : List Expr}

namespace Whole

lemma real (h : e.Whole) : e.IsReal := by
  cases h with
  | symbol _ h => exact .inl h
  | literal h => exact h.real
  | sum _ h _ | product _ h _ _ | power _ h _ _ _ | indexedSum _ h _ => exact h

/-- What the parts of these expressions are. -/
lemma parts (h : e.Whole) :
    match e.kind with
    | .symbol _ => e.domain = .integers
    | .number _ => IsLiteral e.intValue e
    | .sum terms => ∀ t ∈ terms, t.Whole
    | .apply t a => (t.Whole ∧ a.Whole) ∨
      ∃ b n, ∃ k : ℕ, e.power? = some (b, n) ∧ b.Whole ∧ 0 < k ∧ IsLiteral k n
    | .indexedSum _ _ _ body => body.Whole
    | _ => False := by
  cases h with
  | symbol hsymbol hd =>
    unfold isSymbol at hsymbol
    cases hkind : e.kind <;> simp [hkind] at hsymbol ⊢
    exact hd
  | literal h =>
    obtain ⟨n, hkind, -⟩ := h.kind
    rw [hkind]
    exact h.self
  | sum hkind _ h =>
    rw [hkind]
    exact h
  | product hkind _ ht ha =>
    rw [hkind]
    exact .inl ⟨ht, ha⟩
  | power hpower _ hb hk hn =>
    obtain ⟨t, a, hkind, -⟩ := power?_eq_some.1 hpower
    rw [hkind]
    exact .inr ⟨_, _, _, hpower, hb, hk, hn⟩
  | indexedSum hkind _ h =>
    rw [hkind]
    exact h

lemma kind_ne (h : e.Whole) : (∀ f, e.kind ≠ .function f) ∧ ∀ l, e.kind ≠ .tuple l := by
  have hparts := h.parts
  cases hkind : e.kind <;> simp_all

lemma function? (h : e.Whole) : e.function? = none := by
  unfold Expr.function?
  split
  · exact absurd ‹_› (h.kind_ne.1 _)
  · rfl

lemma number (h : e.Whole) (hnumber : e.number?.isSome = true) : IsLiteral e.intValue e := by
  have hparts := h.parts
  unfold number? at hnumber
  cases hkind : e.kind <;> simp_all

lemma domain_of_isSymbol (h : e.Whole) (hsymbol : e.isSymbol = true) : e.domain = .integers := by
  have hparts := h.parts
  unfold isSymbol at hsymbol
  cases hkind : e.kind <;> simp_all

lemma sum_iff {terms : List Expr} (hkind : e.kind = .sum terms) (hreal : e.IsReal) :
    e.Whole ↔ ∀ t ∈ terms, t.Whole := by
  refine ⟨fun h => ?_, .sum hkind hreal⟩
  have hparts := h.parts
  rwa [hkind] at hparts

/-- What is applied in an application. -/
lemma apply_cases (h : e.Whole) (hkind : e.kind = .apply t a) : (t.Whole ∧ a.Whole) ∨
    ∃ b n, ∃ k : ℕ, e.power? = some (b, n) ∧ b.Whole ∧ 0 < k ∧ IsLiteral k n := by
  have hparts := h.parts
  rwa [hkind] at hparts

lemma of_indexedSum (h : e.Whole) {index lower upper body : Expr}
    (hkind : e.kind = .indexedSum index lower upper body) : body.Whole := by
  have hparts := h.parts
  rwa [hkind] at hparts

lemma product_iff (hkind : e.kind = .apply t a) (ht : t.function? = none) (hreal : e.IsReal) :
    e.Whole ↔ t.Whole ∧ a.Whole := by
  refine ⟨fun h => ?_, fun h => .product hkind hreal h.1 h.2⟩
  rcases h.apply_cases hkind with h | ⟨b, n, k, hpower, -⟩
  · exact h
  · obtain ⟨t', a', hkind', hpow, -⟩ := power?_eq_some.1 hpower
    rw [hkind, Kind.apply.injEq] at hkind'
    rw [hkind'.1, Expr.function?, hpow] at ht
    cases ht

lemma power_iff (hpower : e.power? = some (b, n)) (hreal : e.IsReal) :
    e.Whole ↔ b.Whole ∧ ∃ k : ℕ, 0 < k ∧ IsLiteral k n := by
  refine ⟨fun h => ?_, fun ⟨hb, k, hk, hn⟩ => .power hpower hreal hb hk hn⟩
  obtain ⟨t, a, hkind, ht, -⟩ := power?_eq_some.1 hpower
  rcases h.apply_cases hkind with h | ⟨b', n', k, hpower', hb, hk, hn⟩
  · have hfunction := h.1.function?
    rw [Expr.function?, ht] at hfunction
    cases hfunction
  · rw [hpower, Option.some.injEq, Prod.mk.injEq] at hpower'
    obtain ⟨rfl, rfl⟩ := hpower'
    exact ⟨hb, k, hk, hn⟩

end Whole

/-! ## Sums and products -/

/-- These expressions as a reading of their own, in which nothing is said about values. -/
def wholeMeaning : Meaning PUnit where
  Scalar := Whole
  value _ := ⟨⟩
  real := Whole.real
  function? := Whole.function?
  number := Whole.number
  literal := .literal
  value_literal _ := rfl
  sum := Whole.sum_iff
  value_sum _ := rfl
  product := Whole.product_iff
  value_product _ _ := rfl
  power := Whole.power_iff
  value_power _ _ := rfl

lemma achieves_whole_sum (hs : Good s) (hd : 0 < d) (hknown : s.Knows l) (h : ∀ e ∈ l, e.Whole) :
    Achieves d s (sum l) Whole :=
  (Meaning.achieves_sum (M := wholeMeaning) hs hd hknown h).imp fun _ he => he.scalar

lemma achieves_whole_product (hs : Good s) (hd : 0 < d) (hknown : s.Knows l)
    (h : ∀ e ∈ l, e.Whole) : Achieves d s (canonicalProduct l) Whole :=
  (Meaning.achieves_canonicalProduct (M := wholeMeaning) hs hd h hknown).imp fun _ he => he.scalar

lemma achieves_whole_power (hs : Good s) {k : ℕ} (ht : t.kind = .function (.builtin .pow))
    (ha : a.kind = .tuple [b, n]) (hknownt : s.Knows t) (hknowna : s.Knows a) (hb : b.Whole)
    (hn : IsLiteral k n) : Achieves d s (powerOf t a b n) Whole :=
  (Meaning.achieves_powerOf (M := wholeMeaning) hs ht ha hknownt hknowna
    (Meaning.denotes_value hb) hn).imp fun _ he => he.scalar

/-! ## Domains -/

end Expr

namespace Domain

variable {d d' : Domain}

/-- Only the sum of integers lies in the integers. -/
lemma IsNumeric.arithmetic?_eq_integers (h : d.IsNumeric) (h' : d'.IsNumeric) :
    d.arithmetic? d' = some .integers ↔ d = .integers ∧ d' = .integers := by
  rcases h with rfl | rfl | rfl <;> rcases h' with rfl | rfl | rfl <;>
    simp [Domain.arithmetic?, isIntegral, isScalar, within, lineage, BEq.beq, same]

lemma IsNumeric.resolveSum?_eq_integers (h : d.IsNumeric) (h' : d'.IsNumeric) :
    d.resolveSum? d' = some .integers ↔ d = .integers ∧ d' = .integers := by
  obtain ⟨d'', hd'', -⟩ := h.arithmetic? h'
  have hsum : d.sum? d' = some d'' := by
    rcases h with rfl | rfl | rfl <;> simp [sum?, firstAnswer, lineage, hd'']
  have hresolve : d.resolveSum? d' = d.arithmetic? d' := by
    rw [Domain.resolveSum?, hsum, hd'']
    rfl
  rw [hresolve, h.arithmetic?_eq_integers h']

end Domain

namespace Expr

variable {s : Store} {d : ℕ} {e t a b n : Expr} {l : List Expr}

/-- Only the product of integers lies in the integers. -/
lemma applyDomain?_eq_integers (ht : t.domain.IsNumeric) (ha : a.domain.IsNumeric) :
    applyDomain? t a = some .integers ↔ t.domain = .integers ∧ a.domain = .integers := by
  obtain ⟨domain, hdomain, -⟩ := ht.arithmetic? ha
  have happly : applyDomain? t a = t.domain.arithmetic? a.domain := by
    have hleft : Domain.leftApply? t a = some domain := by
      rw [Domain.leftApply?]
      rcases ht with ht | ht | ht <;> rw [ht] at hdomain ⊢ <;>
        simp [Domain.firstAnswer, Domain.lineage, hdomain]
    rw [applyDomain?, hleft, hdomain]
    rfl
  rw [happly, ht.arithmetic?_eq_integers ha]

lemma sumDomainFrom_eq_integers (left : Expr) {domain : Domain} (hdomain : domain.IsNumeric)
    (h : ∀ e ∈ l, e.domain.IsNumeric) : sumDomainFrom left domain l = .ok .integers ↔
      domain = .integers ∧ ∀ e ∈ l, e.domain = .integers := by
  induction l generalizing left domain with
  | nil => simp [sumDomainFrom]
  | cons e l ih =>
    rw [List.forall_mem_cons] at h ⊢
    obtain ⟨d', hd', hnumeric, -⟩ := hdomain.resolveSum? h.1
    have hstep : sumDomainFrom left domain (e :: l) = sumDomainFrom e d' l := by
      rw [sumDomainFrom, hd']
    have hd'' : d' = .integers ↔ domain = .integers ∧ e.domain = .integers := by
      rw [← hdomain.resolveSum?_eq_integers h.1, hd', Option.some.injEq]
    rw [hstep, ih e hnumeric h.2, hd'', and_assoc]

/-- A sum lies in the integers exactly if its terms do. -/
lemma sumDomain_eq_integers (h : ∀ e ∈ l, e.domain.IsNumeric) :
    sumDomain l = .ok .integers ↔ ∀ e ∈ l, e.domain = .integers := by
  cases l with
  | nil => simp [sumDomain]
  | cons e l =>
    rw [List.forall_mem_cons] at h ⊢
    exact sumDomainFrom_eq_integers e h.1 h.2

end Expr

namespace Store

/-- Summations over ranges lie in the domains of their bodies. -/
def SumsTyped (s : Store) : Prop :=
  ∀ {e index lower upper body : Expr}, s.Knows e → e.kind = .indexedSum index lower upper body →
    body.domain.IsNumeric → e.domain = body.domain

end Store

namespace Expr

variable {s : Store} {e : Expr}

/-- What stands for an integer lies in the integers, or has a power. -/
lemma integral_or_hasPower (hs : s.WellFormed) (htyped : s.SumsTyped) (he : s.Knows e)
    (h : e.Whole) : e.domain = .integers ∨ e.HasPower := by
  induction h with
  | symbol _ h => exact .inl h
  | literal h => exact .inl h.domain
  | @sum e terms hkind hreal hterms ih =>
    have hknown := hs.children he
    rw [children, hkind, Kind.children] at hknown
    by_cases hpower : ∃ c ∈ terms, c.HasPower
    · obtain ⟨c, hc, hpower⟩ := hpower
      exact .inr (.sum hkind hc hpower)
    · have hintegers : ∀ c ∈ terms, c.domain = .integers := fun c hc =>
        (ih c hc (hknown c hc)).resolve_right fun h => hpower ⟨c, hc, h⟩
      have hdomain := (hs.admits he).typed
      rw [hkind, Kind.Typed, (sumDomain_eq_integers fun c hc => .inl (hintegers c hc)).2 hintegers,
        Except.ok.injEq] at hdomain
      exact .inl hdomain.symm
  | @product e t a hkind hreal ht ha iht iha =>
    obtain ⟨hknown, hknown'⟩ := hs.knows_of_apply he hkind
    rcases iht hknown with hti | hpower
    · rcases iha hknown' with hai | hpower
      · have hdomain := (hs.admits he).typed
        rw [hkind, Kind.Typed, (applyDomain?_eq_integers (.inl hti) (.inl hai)).2 ⟨hti, hai⟩,
          Option.some.injEq] at hdomain
        exact .inl hdomain.symm
      · exact .inr (.argument hkind hpower)
    · exact .inr (.target hkind hpower)
  | power hpower _ _ _ _ => exact .inr (.power hpower)
  | @indexedSum e index lower upper body hkind hreal hbody ih =>
    have hknown := hs.children he
    simp only [children, hkind, Kind.children, Store.knows_cons] at hknown
    rcases ih hknown.2.2.2.1 with hdomain | hpower
    · exact .inl ((htyped he hkind (.inl hdomain)).trans hdomain)
    · exact .inr (.indexedSum hkind hpower)

end Expr

end TermGraph
