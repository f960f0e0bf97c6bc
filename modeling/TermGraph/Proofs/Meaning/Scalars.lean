import TermGraph.Proofs.Meaning.Sums
import TermGraph.Proofs.Program.Scopes

/-!
# The value of scalar expressions

Expressions of symbols, integer literals, sums, products, positive literal powers, calls of
built-in functions of one argument and summations over ranges have values in any commutative ring.

* `Reading A`: how the built-in functions are read in `A`, and which integer a bound stands for.
* `Expr.IsScalar F e`: `e` is such an expression and calls functions that satisfy `F` only.
* `Expr.value I ρ e`: the value of `e` when the symbols have the values `ρ`.
* `Expr.value_congr`: the value depends on the symbols that are free in the expression.
-/

namespace TermGraph

/-- How expressions are read in a commutative ring.  A ring without a map to the integers is read next
to them: in the product of both, with the first projection as the map. -/
structure Reading (A : Type) [CommRing A] where
  /-- The integer that the bound of a summation stands for. -/
  toInt : A →+* ℤ
  /-- The built-in functions of one argument. -/
  call : Builtin → A → A

/-- The reading in the integers themselves. -/
def Reading.integers (call : Builtin → ℤ → ℤ) : Reading ℤ := ⟨RingHom.id ℤ, call⟩

/-- Values of symbols by their ordinals. -/
abbrev Valuation (A : Type) := ℕ → A

namespace Expr

/-- Scalar expressions that call functions which satisfy `F` only. -/
inductive IsScalar (F : Builtin → Prop) : Expr → Prop
  | symbol {e : Expr} {name : String} : e.kind = .symbol name → e.IsReal → IsScalar F e
  | literal {e : Expr} {k : ℤ} : IsLiteral k e → IsScalar F e
  | sum {e : Expr} {terms : List Expr} : e.kind = .sum terms → e.IsReal →
    (∀ t ∈ terms, IsScalar F t) → IsScalar F e
  | product {e t a : Expr} : e.kind = .apply t a → e.IsReal → IsScalar F t → IsScalar F a →
    IsScalar F e
  | power {e b n : Expr} {k : ℕ} : e.power? = some (b, n) → e.IsReal → IsScalar F b →
    0 < k → IsLiteral k n → IsScalar F e
  | call {e t a : Expr} {f : Builtin} : e.kind = .apply t a → e.IsReal →
    t.kind = .function (.builtin f) → f ≠ .pow → F f → IsScalar F a → IsScalar F e
  | indexedSum {e index lower upper body : Expr} : e.kind = .indexedSum index lower upper body →
    e.IsReal → index.isSymbol = true → IsScalar F lower → IsScalar F upper → IsScalar F body →
    IsScalar F e

variable {A : Type} [CommRing A]

mutual

/-- The value of a scalar expression. -/
noncomputable def value (I : Reading A) (ρ : Valuation A) : Expr → A
  | .node ordinal _ (.symbol _) => ρ ordinal
  | .node _ _ (.number n) => n.intValue
  | .node _ _ (.sum terms) => total I ρ terms
  | .node _ _ (.apply target argument) =>
    match target.function? with
    | none => value I ρ target * value I ρ argument
    | some (.builtin .pow) => pairPower I ρ argument
    | some (.builtin f) => I.call f (value I ρ argument)
    | some _ => 0
  | .node _ _ (.indexedSum index lower upper body) =>
    ∑ k ∈ Finset.Icc (I.toInt (value I ρ lower)) (I.toInt (value I ρ upper)),
      value I (Function.update ρ index.ordinal (k : A)) body
  | _ => 0

/-- The sum of the values of a list. -/
noncomputable def total (I : Reading A) (ρ : Valuation A) : List Expr → A
  | [] => 0
  | e :: es => value I ρ e + total I ρ es

/-- The power of a pair of base and exponent. -/
noncomputable def pairPower (I : Reading A) (ρ : Valuation A) : Expr → A
  | .node _ _ (.tuple [base, exponent]) => value I ρ base ^ exponent.intValue.toNat
  | _ => 0

end

attribute [local simp] value total pairPower

/-- Occurrence of the symbol with ordinal `i` outside of all summations that bind it. -/
inductive Free (i : ℕ) : Expr → Prop
  | self {e : Expr} : e.isSymbol = true → e.ordinal = i → Free i e
  | operand {e c : Expr} : c ∈ e.operands → Free i c → Free i e
  | body {e b : Expr} : e.body? = some b → (∀ x ∈ e.binders, x.ordinal ≠ i) → Free i b → Free i e

section Facts

variable {F G : Builtin → Prop} {e t a b n : Expr}

namespace IsScalar

lemma real (h : e.IsScalar F) : e.IsReal := by
  cases h with
  | literal hliteral => exact hliteral.real
  | symbol _ h | sum _ h _ | product _ h _ _ | power _ h _ _ _ | call _ h _ _ _ _
  | indexedSum _ h _ _ _ _ => exact h

/-- Scalars are no functions and no tuples. -/
lemma kind_ne (h : e.IsScalar F) : (∀ f, e.kind ≠ .function f) ∧ ∀ l, e.kind ≠ .tuple l := by
  cases h with
  | literal hliteral =>
    obtain ⟨n, hkind, -⟩ := hliteral.kind
    simp [hkind]
  | power hpower _ _ _ _ =>
    obtain ⟨t, a, hkind, -, -⟩ := power?_eq_some.1 hpower
    simp [hkind]
  | symbol hkind _ | sum hkind _ _ | product hkind _ _ _ | call hkind _ _ _ _ _
  | indexedSum hkind _ _ _ _ _ => simp [hkind]

lemma function? (h : e.IsScalar F) : e.function? = none := by
  unfold Expr.function?
  split
  · exact absurd ‹_› (h.kind_ne.1 _)
  · rfl

lemma number (h : e.IsScalar F) (hnumber : e.number?.isSome = true) : IsLiteral e.intValue e := by
  cases h with
  | literal hliteral => exact hliteral.self
  | power hpower _ _ _ _ =>
    obtain ⟨t, a, hkind, -, -⟩ := power?_eq_some.1 hpower
    simp [number?, hkind] at hnumber
  | symbol hkind _ | sum hkind _ _ | product hkind _ _ _ | call hkind _ _ _ _ _
  | indexedSum hkind _ _ _ _ _ => simp [number?, hkind] at hnumber

lemma sum_iff {terms : List Expr} (hkind : e.kind = .sum terms) (hreal : e.IsReal) :
    e.IsScalar F ↔ ∀ t ∈ terms, t.IsScalar F := by
  refine ⟨fun h => ?_, .sum hkind hreal⟩
  cases h with
  | literal hliteral =>
    obtain ⟨n, hkind', -⟩ := hliteral.kind
    simp [hkind'] at hkind
  | power hpower _ _ _ _ =>
    obtain ⟨t, a, hkind', -, -⟩ := power?_eq_some.1 hpower
    simp [hkind'] at hkind
  | sum hkind' _ hterms =>
    rw [hkind', Kind.sum.injEq] at hkind
    exact hkind ▸ hterms
  | symbol hkind' _ | product hkind' _ _ _ | call hkind' _ _ _ _ _
  | indexedSum hkind' _ _ _ _ _ => simp [hkind'] at hkind

/-- What is applied in a scalar application. -/
lemma apply_cases (h : e.IsScalar F) (hkind : e.kind = .apply t a) :
    (t.IsScalar F ∧ a.IsScalar F) ∨
      (∃ b n, ∃ k : ℕ, e.power? = some (b, n) ∧ b.IsScalar F ∧ 0 < k ∧ IsLiteral k n) ∨
      ∃ f, t.kind = .function (.builtin f) ∧ f ≠ .pow ∧ F f ∧ a.IsScalar F := by
  cases h with
  | literal hliteral =>
    obtain ⟨n, hkind', -⟩ := hliteral.kind
    simp [hkind'] at hkind
  | product hkind' _ ht ha =>
    rw [hkind', Kind.apply.injEq] at hkind
    obtain ⟨rfl, rfl⟩ := hkind
    exact .inl ⟨ht, ha⟩
  | power hpower _ hb hk hn => exact .inr (.inl ⟨_, _, _, hpower, hb, hk, hn⟩)
  | call hkind' _ ht hf hF ha =>
    rw [hkind', Kind.apply.injEq] at hkind
    obtain ⟨rfl, rfl⟩ := hkind
    exact .inr (.inr ⟨_, ht, hf, hF, ha⟩)
  | symbol hkind' _ | sum hkind' _ _ | indexedSum hkind' _ _ _ _ _ => simp [hkind'] at hkind

lemma product_iff (hkind : e.kind = .apply t a) (ht : t.function? = none) (hreal : e.IsReal) :
    e.IsScalar F ↔ t.IsScalar F ∧ a.IsScalar F := by
  refine ⟨fun h => ?_, fun h => .product hkind hreal h.1 h.2⟩
  rcases h.apply_cases hkind with h | ⟨b, n, k, hpower, -⟩ | ⟨f, hf, -⟩
  · exact h
  · obtain ⟨t', a', hkind', hpow, -⟩ := power?_eq_some.1 hpower
    rw [hkind, Kind.apply.injEq] at hkind'
    rw [hkind'.1, Expr.function?, hpow] at ht
    cases ht
  · rw [Expr.function?, hf] at ht
    cases ht

lemma power_iff (hpower : e.power? = some (b, n)) (hreal : e.IsReal) :
    e.IsScalar F ↔ b.IsScalar F ∧ ∃ k : ℕ, 0 < k ∧ IsLiteral k n := by
  refine ⟨fun h => ?_, fun ⟨hb, k, hk, hn⟩ => .power hpower hreal hb hk hn⟩
  obtain ⟨t, a, hkind, ht, -⟩ := power?_eq_some.1 hpower
  rcases h.apply_cases hkind with h | ⟨b', n', k, hpower', hb, hk, hn⟩ | ⟨f, hf, hne, -⟩
  · exact absurd ht (h.1.kind_ne.1 _)
  · rw [hpower, Option.some.injEq, Prod.mk.injEq] at hpower'
    obtain ⟨rfl, rfl⟩ := hpower'
    exact ⟨hb, k, hk, hn⟩
  · rw [ht, Kind.function.injEq, Function.builtin.injEq] at hf
    exact absurd hf.symm hne

lemma of_indexedSum {index lower upper body : Expr}
    (hkind : e.kind = .indexedSum index lower upper body) (h : e.IsScalar F) :
    index.isSymbol = true ∧ lower.IsScalar F ∧ upper.IsScalar F ∧ body.IsScalar F := by
  cases h with
  | literal hliteral =>
    obtain ⟨n, hkind', -⟩ := hliteral.kind
    simp [hkind'] at hkind
  | power hpower _ _ _ _ =>
    obtain ⟨t, a, hkind', -, -⟩ := power?_eq_some.1 hpower
    simp [hkind'] at hkind
  | indexedSum hkind' _ hi hl hu hb =>
    rw [hkind', Kind.indexedSum.injEq] at hkind
    obtain ⟨rfl, rfl, rfl, rfl⟩ := hkind
    exact ⟨hi, hl, hu, hb⟩
  | symbol hkind' _ | sum hkind' _ _ | product hkind' _ _ _ | call hkind' _ _ _ _ _ =>
    simp [hkind'] at hkind

end IsScalar

end Facts

section Value

variable {I : Reading A} {ρ σ : Valuation A} {F : Builtin → Prop} {e t a b n : Expr}

lemma total_eq_sum (l : List Expr) : total I ρ l = (l.map (value I ρ)).sum := by
  induction l with
  | nil => simp
  | cons e l ih => rw [total, ih, List.map_cons, List.sum_cons]

lemma value_symbol {name : String} (h : e.kind = .symbol name) : e.value I ρ = ρ e.ordinal := by
  obtain ⟨ordinal, domain, kind⟩ := e
  simp only [Expr.kind] at h
  subst h
  rw [value, Expr.ordinal]

lemma exists_symbol (h : e.isSymbol = true) : ∃ name, e.kind = .symbol name := by
  unfold isSymbol at h
  split at h
  · exact ⟨_, ‹_›⟩
  · cases h

lemma value_of_isSymbol (h : e.isSymbol = true) : e.value I ρ = ρ e.ordinal :=
  let ⟨_, hkind⟩ := exists_symbol h
  value_symbol hkind

lemma value_literal {k : ℤ} (h : IsLiteral k e) : e.value I ρ = k := by
  obtain ⟨n, hkind, hn⟩ := h.kind
  obtain ⟨ordinal, domain, kind⟩ := e
  simp only [Expr.kind] at hkind
  subst hkind
  rw [value, Number.intValue, hn]

lemma value_sum {terms : List Expr} (h : e.kind = .sum terms) :
    e.value I ρ = (terms.map (value I ρ)).sum := by
  obtain ⟨ordinal, domain, kind⟩ := e
  simp only [Expr.kind] at h
  subst h
  rw [value, total_eq_sum]

lemma value_product (h : e.kind = .apply t a) (ht : t.function? = none) :
    e.value I ρ = t.value I ρ * a.value I ρ := by
  obtain ⟨ordinal, domain, kind⟩ := e
  simp only [Expr.kind] at h
  subst h
  rw [value, ht]

lemma value_power {k : ℕ} (h : e.power? = some (b, n)) (hn : IsLiteral k n) :
    e.value I ρ = b.value I ρ ^ k := by
  obtain ⟨t, a, hkind, ht, ha⟩ := power?_eq_some.1 h
  obtain ⟨ordinal, domain, kind⟩ := e
  obtain ⟨ordinal', domain', kind'⟩ := a
  simp only [Expr.kind] at hkind ha
  subst hkind ha
  have hfunction : t.function? = some (.builtin .pow) := by simp [function?, ht]
  rw [value, hfunction]
  simp only [pairPower, hn.intValue, Int.toNat_natCast]

lemma value_call {f : Builtin} (h : e.kind = .apply t a) (ht : t.kind = .function (.builtin f))
    (hf : f ≠ .pow) : e.value I ρ = I.call f (a.value I ρ) := by
  obtain ⟨ordinal, domain, kind⟩ := e
  simp only [Expr.kind] at h
  subst h
  have hfunction : t.function? = some (.builtin f) := by simp [function?, ht]
  rw [value, hfunction]
  cases f <;> first | rfl | exact absurd rfl hf

lemma value_indexedSum {index lower upper body : Expr}
    (h : e.kind = .indexedSum index lower upper body) : e.value I ρ =
      ∑ k ∈ Finset.Icc (I.toInt (lower.value I ρ)) (I.toInt (upper.value I ρ)),
        body.value I (Function.update ρ index.ordinal (k : A)) := by
  obtain ⟨ordinal, domain, kind⟩ := e
  simp only [Expr.kind] at h
  subst h
  rw [value]

/-- The value depends on the symbols that are free in the expression. -/
theorem value_congr (he : e.IsScalar F) (h : ∀ i, e.Free i → ρ i = σ i) :
    e.value I ρ = e.value I σ := by
  induction he generalizing ρ σ with
  | @symbol e name hkind _ =>
    rw [value_symbol hkind, value_symbol hkind]
    exact h _ (.self (by simp [isSymbol, hkind]) rfl)
  | literal hliteral => rw [value_literal hliteral, value_literal hliteral]
  | @sum e terms hkind _ _ ih =>
    rw [value_sum hkind, value_sum hkind]
    refine congrArg List.sum (List.map_congr_left fun t ht => ih t ht fun i hi => h i ?_)
    exact .operand (by simpa [operands, hkind] using ht) hi
  | @product e t a hkind _ ht _ iht iha =>
    have hfunction := ht.function?
    rw [value_product hkind hfunction, value_product hkind hfunction,
      iht fun i hi => h i (.operand (by simp [operands, hkind]) hi),
      iha fun i hi => h i (.operand (by simp [operands, hkind]) hi)]
  | @power e b n k hpower _ _ _ hn ihb =>
    obtain ⟨t, a, hkind, -, ha⟩ := power?_eq_some.1 hpower
    rw [value_power hpower hn, value_power hpower hn, ihb fun i hi => h i
      (.operand (c := a) (by simp [operands, hkind]) (.operand (by simp [operands, ha]) hi))]
  | @call e t a f hkind _ ht hf _ _ iha =>
    rw [value_call hkind ht hf, value_call hkind ht hf,
      iha fun i hi => h i (.operand (by simp [operands, hkind]) hi)]
  | @indexedSum e index lower upper body hkind _ _ _ _ _ ihl ihu ihb =>
    rw [value_indexedSum hkind, value_indexedSum hkind,
      ihl fun i hi => h i (.operand (by simp [operands, hkind]) hi),
      ihu fun i hi => h i (.operand (by simp [operands, hkind]) hi)]
    refine Finset.sum_congr rfl fun k _ => ihb fun i hi => ?_
    -- The index itself has one value on both sides, whatever it is outside.
    by_cases heq : i = index.ordinal
    · rw [heq, Function.update_self, Function.update_self]
    · rw [Function.update_of_ne heq, Function.update_of_ne heq]
      refine h i (.body (by simp [body?, hkind]) (fun x hx => ?_) hi)
      obtain rfl : x = index := by simpa [binders, hkind] using hx
      exact Ne.symm heq

/-- A symbol that is not free in an expression has no part in its value. -/
lemma value_update {i : ℕ} {y : A} (he : e.IsScalar F) (h : ¬e.Free i) :
    e.value I (Function.update ρ i y) = e.value I ρ :=
  value_congr he fun j hj => Function.update_of_ne (by rintro rfl; exact h hj) _ _

/-- Scalars and their values, as functions of the valuation. -/
noncomputable def meaning (F : Builtin → Prop) (I : Reading A) : Meaning (Valuation A → A) where
  Scalar := IsScalar F
  value e ρ := e.value I ρ
  real := IsScalar.real
  function? := IsScalar.function?
  number := IsScalar.number
  literal := .literal
  value_literal h := funext fun ρ => by rw [value_literal h, Pi.intCast_apply]
  sum := IsScalar.sum_iff
  value_sum {e terms} h := funext fun ρ => by
    rw [value_sum h, Pi.list_sum_apply, List.map_map]
    rfl
  product := IsScalar.product_iff
  value_product h ht := funext fun ρ => value_product h ht
  power := IsScalar.power_iff
  value_power h hn := funext fun ρ => value_power h hn

end Value

end Expr

end TermGraph
