import TermGraph.Proofs.Meaning.Independence
import TermGraph.Proofs.Meaning.Scalars
import TermGraph.Proofs.Polynomial.Sum

/-!
# Numerical expressions

Sums, products, powers, exponentials, logarithms, sines and cosines of real symbols and literals, and
summations over ranges of such expressions.  Only symbols and summations say themselves that they are
real.  Of all else this follows from the checks that are made when a node is built, which also see to
it that a function gets as many arguments as it takes.

* `Expr.IsNumerical`: the expression is numerical.
* `Expr.IsNumerical.isReal`: it lies in the integers or the reals.
* `Expr.IsNumerical.length_arguments`: functions get as many arguments as they take.
* `Expr.IsOperand`: the node is evaluated in a numerical expression.
-/

namespace TermGraph

namespace Expr

open Store (Knows)

/-- Built from symbols in the integers or the reals and from literals by sums, products, calls of
built-in functions, and summations over ranges. -/
inductive IsNumerical : Expr → Prop
  | symbol {e : Expr} : e.isSymbol = true → e.IsReal → IsNumerical e
  | literal {e : Expr} {n : Number} : e.kind = .number n → IsNumerical e
  | sum {e : Expr} {terms : List Expr} : e.kind = .sum terms → (∀ t ∈ terms, IsNumerical t) →
    IsNumerical e
  | product {e t a : Expr} : e.kind = .apply t a → IsNumerical t → IsNumerical a → IsNumerical e
  | call {e t a : Expr} {f : Builtin} : e.kind = .apply t a → t.kind = .function (.builtin f) →
    (∀ x ∈ (Function.builtin f).arguments a, IsNumerical x) → IsNumerical e
  | indexedSum {e index lower upper body : Expr} : e.kind = .indexedSum index lower upper body →
    e.IsReal → IsNumerical lower → IsNumerical upper → IsNumerical body → IsNumerical e

/-- What is evaluated in a numerical expression: numerical expressions, built-in functions, and
tuples of arguments. -/
inductive IsOperand : Expr → Prop
  | numerical {e : Expr} : e.IsNumerical → IsOperand e
  | function {e : Expr} {f : Builtin} : e.kind = .function (.builtin f) → IsOperand e
  | arguments {e : Expr} {items : List Expr} : e.kind = .tuple items →
    (∀ x ∈ items, x.IsNumerical) → IsOperand e

variable {s : Store} {e t a : Expr} {f : Builtin}

/-- A store knows the arguments of its calls. -/
lemma knows_arguments (hs : s.WellFormed) (he : s.Knows e) (hkind : e.kind = .apply t a)
    (f : Builtin) : ∀ x ∈ (Function.builtin f).arguments a, s.Knows x := by
  have ha := (hs.knows_of_apply he hkind).2
  unfold Function.arguments
  split
  · rename_i items hitems
    split_ifs
    · simpa using ha
    · intro x hx
      exact hs.children ha x (by rwa [children, hitems])
  · simpa using ha

namespace IsNumerical

/-- Numerical expressions are no functions and no tuples. -/
lemma kind_ne (h : e.IsNumerical) : (∀ f, e.kind ≠ .function f) ∧ ∀ l, e.kind ≠ .tuple l := by
  cases h with
  | symbol hsymbol _ =>
    obtain ⟨name, hkind⟩ := exists_symbol hsymbol
    simp [hkind]
  | literal hkind | sum hkind _ | product hkind _ _ | call hkind _ _
  | indexedSum hkind _ _ _ _ => simp [hkind]

/-- Numerical expressions have no matrices and no summations over collections in them. -/
lemma kind_ne_matrix (h : e.IsNumerical) : (∀ l, e.kind ≠ .chain l) ∧ (∀ i, e.kind ≠ .inverse i) ∧
    (∀ i, e.kind ≠ .transpose i) ∧ (∀ rows cols b, e.kind ≠ .generator rows cols b) ∧
    ∀ i c b, e.kind ≠ .collectionSum i c b := by
  cases h with
  | symbol hsymbol _ =>
    obtain ⟨name, hkind⟩ := exists_symbol hsymbol
    simp [hkind]
  | literal hkind | sum hkind _ | product hkind _ _ | call hkind _ _
  | indexedSum hkind _ _ _ _ => simp [hkind]

lemma real_of_symbol (h : e.IsNumerical) (hsymbol : e.isSymbol = true) : e.IsReal := by
  obtain ⟨name, hkind⟩ := exists_symbol hsymbol
  cases h with
  | symbol _ hreal => exact hreal
  | literal hkind' | sum hkind' _ | product hkind' _ _ | call hkind' _ _
  | indexedSum hkind' _ _ _ _ => cases hkind'.symm.trans hkind

lemma of_sum (h : e.IsNumerical) {terms : List Expr} (hkind : e.kind = .sum terms) :
    ∀ t ∈ terms, t.IsNumerical := by
  cases h with
  | sum hkind' hterms =>
    cases hkind'.symm.trans hkind
    exact hterms
  | symbol hsymbol _ =>
    obtain ⟨name, hname⟩ := exists_symbol hsymbol
    cases hname.symm.trans hkind
  | literal hkind' | product hkind' _ _ | call hkind' _ _
  | indexedSum hkind' _ _ _ _ => cases hkind'.symm.trans hkind

lemma of_indexedSum (h : e.IsNumerical) {index lower upper body : Expr}
    (hkind : e.kind = .indexedSum index lower upper body) :
    lower.IsNumerical ∧ upper.IsNumerical ∧ body.IsNumerical := by
  cases h with
  | indexedSum hkind' _ hl hu hb =>
    cases hkind'.symm.trans hkind
    exact ⟨hl, hu, hb⟩
  | symbol hsymbol _ =>
    obtain ⟨name, hname⟩ := exists_symbol hsymbol
    cases hname.symm.trans hkind
  | literal hkind' | sum hkind' _ | product hkind' _ _ | call hkind' _ _ =>
    cases hkind'.symm.trans hkind

end IsNumerical

/-- The argument of a call is the only one, or the tuple of all of them. -/
lemma argument_cases (h : ∀ x ∈ (Function.builtin f).arguments a, x.IsNumerical) :
    (a.IsNumerical ∧ (Function.builtin f).arguments a = [a]) ∨
      a.kind = .tuple ((Function.builtin f).arguments a) ∧ f.arity ≠ 1 := by
  unfold Function.arguments at h ⊢
  split at h
  · rename_i items hkind
    split_ifs at h with harity
    · exact absurd hkind ((h a (by simp)).kind_ne.2 items)
    · exact .inr ⟨by simp [hkind, harity], harity⟩
  · exact .inl ⟨h a (by simp), rfl⟩

/-- A built-in function is called with as many arguments as it takes, since other calls have no
domain. -/
lemma call_typed (hs : s.WellFormed) (he : s.Knows e) (hkind : e.kind = .apply t a)
    (ht : t.kind = .function (.builtin f))
    (h : ∀ x ∈ (Function.builtin f).arguments a, x.IsNumerical ∧ x.IsReal) :
    e.domain = .reals ∧ ((Function.builtin f).arguments a).length = f.arity := by
  obtain ⟨hknown, hknown'⟩ := hs.knows_of_apply he hkind
  have hdomain : t.domain = .functions := by
    have htyped := (hs.admits hknown).typed
    rwa [ht] at htyped
  have hbuiltin : a.domain.isBuiltin = true := by
    rcases argument_cases fun x hx => (h x hx).1 with ⟨-, hargs⟩ | ⟨htuple, -⟩
    · obtain ⟨-, hreal | hreal⟩ := h a (by simp [hargs]) <;> simp [hreal, Domain.isBuiltin]
    · have htyped := (hs.admits hknown').typed
      rw [htuple, Kind.Typed] at htyped
      simp [htyped, Domain.isBuiltin]
  have htyped := (hs.admits he).typed
  rw [hkind, Kind.Typed, applyDomain?_builtin (by simp [hdomain, Domain.isBuiltin]) hbuiltin]
    at htyped
  have hresult : (Function.builtin f).resultDomain? a = some e.domain := by
    simpa [Domain.leftApply?, Domain.firstAnswer, Domain.lineage, hdomain, function?, ht]
      using htyped
  simp only [Function.resultDomain?] at hresult
  split_ifs at hresult with hargs
  exact ⟨(Option.some.inj hresult).symm, hargs.1⟩

namespace IsNumerical

/-- Numerical expressions of a store lie in the integers or the reals. -/
lemma isReal (h : e.IsNumerical) (hs : s.WellFormed) (he : s.Knows e) : e.IsReal := by
  induction h with
  | symbol _ hreal | indexedSum _ hreal _ _ _ => exact hreal
  | @literal e n hkind =>
    have htyped := (hs.admits he).typed
    rw [hkind, Kind.Typed] at htyped
    unfold IsReal
    rw [htyped]
    split <;> simp
  | @sum e terms hkind _ ih =>
    have hterms := hs.children he
    rw [children, hkind] at hterms
    exact .of_sum hs he hkind fun t ht => ih t ht (hterms t ht)
  | @product e t a hkind _ _ iht iha =>
    obtain ⟨hknown, hknown'⟩ := hs.knows_of_apply he hkind
    obtain ⟨domain, hdomain, hreal⟩ := applyDomain?_real (iht hknown) (iha hknown')
    have htyped := (hs.admits he).typed
    rw [hkind, Kind.Typed, hdomain] at htyped
    obtain rfl := Option.some.inj htyped
    exact hreal
  | @call e t a f hkind ht hargs ih =>
    have hknown := knows_arguments hs he hkind f
    exact .inr (call_typed hs he hkind ht fun x hx => ⟨hargs x hx, ih x hx (hknown x hx)⟩).1

/-- Built-in functions in a numerical expression get as many arguments as they take. -/
lemma length_arguments (hs : s.WellFormed) (he : s.Knows e) (hkind : e.kind = .apply t a)
    (ht : t.kind = .function (.builtin f))
    (h : ∀ x ∈ (Function.builtin f).arguments a, x.IsNumerical) :
    ((Function.builtin f).arguments a).length = f.arity :=
  (call_typed hs he hkind ht fun x hx =>
    ⟨h x hx, (h x hx).isReal hs (knows_arguments hs he hkind f x hx)⟩).2

end IsNumerical

end Expr

end TermGraph
