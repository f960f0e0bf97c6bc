import TermGraph.Proofs.Meaning.Scalars
import TermGraph.Proofs.Order.Grading

/-!
# Weights

Normalization rewrites a node and goes on with the result.  Every rewrite lowers a weight of the
expression, which counts what the rewrites may copy: a power weighs its base once more than its exponent
weighs, since a product is distributed over the exponent, and a summation weighs its body once more than
the limit up to which summations are written out.

A literal weighs 1, a symbol 3, a product 2 more than its two sides, a sum as much as its terms, and a call
2 more than its argument.

* `Expr.IsArithmetic`: the expression is built from real symbols and literals by sums, products, powers,
  calls of built-in functions, and summations over ranges.
* `Expr.Component`: it occurs in such an expression.
* `Expr.weight`: its weight, by `Kind.weigh` from the weights of the children.
* `Expr.Lightens`, `Expr.Settles`, `Expr.Rebuilt`: what a rewritten node, a normal form and a node over
  new children have in common with the node that they stand for.
-/

namespace TermGraph

/-! ## The weight of a node -/

namespace Kind

/-- The weight of a node over children of given weights, if summations are written out up to `N`
terms. -/
def weigh (N : ℕ) : Kind → List ℕ → ℕ
  | .number _, _ => 1
  | .function f, _ => if f.isPow then 1 else 2
  | .tuple _, [base, exponent] => base * (exponent + 1)
  | .apply target _, [t, a] => t + a + if target.function?.isNone then 2 else 0
  | .sum _, terms => terms.sum
  | .indexedSum _ _ _ _, [_, lower, upper, body] => lower + upper + (N + 1) * body + 3
  | _, _ => 3

/-- Lighter children make a lighter node. -/
lemma weigh_le {N : ℕ} (k : Kind) {ws ws' : List ℕ} (h : List.Forall₂ (· ≤ ·) ws ws') :
    k.weigh N ws ≤ k.weigh N ws' := by
  cases k with
  | sum terms => exact h.sum_le_sum
  | tuple items =>
    rcases h with _ | ⟨hb, _ | ⟨hn, _ | _⟩⟩ <;> simp only [weigh, le_refl]
    exact Nat.mul_le_mul hb (Nat.succ_le_succ hn)
  | apply target argument =>
    rcases h with _ | ⟨ht, _ | ⟨ha, _ | _⟩⟩ <;> simp only [weigh, le_refl]
    omega
  | indexedSum index lower upper body =>
    rcases h with _ | ⟨_, _ | ⟨hl, _ | ⟨hu, _ | ⟨hb, _ | _⟩⟩⟩⟩ <;> simp only [weigh, le_refl]
    have := Nat.mul_le_mul_left (N + 1) hb
    omega
  | _ => exact le_rfl

end Kind

namespace Expr

/-- The weight, if summations are written out up to `N` terms. -/
def weight (N : ℕ) (e : Expr) : ℕ :=
  e.kind.weigh N (e.children.attach.map fun c => weight N c.1)
termination_by sizeOf e
decreasing_by exact sizeOf_lt_of_mem_children c.2

section Weights

variable {N : ℕ} {e t a b n : Expr} {l : List Expr}

lemma weight_eq (N : ℕ) (e : Expr) : e.weight N = e.kind.weigh N (e.children.map (weight N)) := by
  rw [weight, List.map_attach_eq_pmap, List.pmap_eq_map]

lemma weight_of_kind {k : Kind} (h : e.kind = k) :
    e.weight N = k.weigh N (k.children.map (weight N)) := by
  rw [weight_eq, children, h]

lemma exists_number (h : e.number?.isSome = true) : ∃ m, e.kind = .number m := by
  unfold number? at h
  split at h
  · exact ⟨_, ‹_›⟩
  · cases h

lemma weight_literal (h : e.number?.isSome = true) : e.weight N = 1 :=
  let ⟨_, hkind⟩ := exists_number h
  weight_of_kind hkind

lemma weight_symbol (h : e.isSymbol = true) : e.weight N = 3 :=
  let ⟨_, hkind⟩ := exists_symbol h
  weight_of_kind hkind

lemma weight_builtin {f : Builtin} (h : e.kind = .function (.builtin f)) :
    e.weight N = if f = .pow then 1 else 2 := by
  rw [weight_of_kind h]
  cases f <;> rfl

lemma weight_pair (h : e.kind = .tuple [b, n]) : e.weight N = b.weight N * (n.weight N + 1) :=
  weight_of_kind h

lemma weight_product (h : e.kind = .apply t a) (ht : t.function? = none) :
    e.weight N = t.weight N + a.weight N + 2 := by
  rw [weight_of_kind h]
  simp [Kind.weigh, Kind.children, ht]

lemma weight_power (h : e.power? = some (b, n)) :
    e.weight N = b.weight N * (n.weight N + 1) + 1 := by
  obtain ⟨t, a, hkind, ht, ha⟩ := power?_eq_some.1 h
  rw [weight_of_kind hkind]
  simp [Kind.weigh, Kind.children, function?, ht, weight_builtin ht, weight_pair ha, Nat.add_comm]

lemma weight_call {f : Builtin} (h : e.kind = .apply t a) (ht : t.kind = .function (.builtin f))
    (hf : f ≠ .pow) : e.weight N = a.weight N + 2 := by
  rw [weight_of_kind h]
  simp [Kind.weigh, Kind.children, function?, ht, weight_builtin ht, hf, Nat.add_comm]

lemma weight_indexedSum {index lower upper body : Expr}
    (h : e.kind = .indexedSum index lower upper body) :
    e.weight N = lower.weight N + upper.weight N + (N + 1) * body.weight N + 3 :=
  weight_of_kind h

/-! ## Lists of terms and factors -/

/-- The weight of the sum of some terms. -/
def totalWeight (N : ℕ) (l : List Expr) : ℕ :=
  (l.map (weight N)).sum

/-- The weight of some factors, each with the product that attaches it. -/
def totalCost (N : ℕ) (l : List Expr) : ℕ :=
  (l.map fun e => e.weight N + 2).sum

@[simp] lemma totalWeight_nil : totalWeight N [] = 0 := rfl

@[simp] lemma totalWeight_cons : totalWeight N (e :: l) = e.weight N + totalWeight N l := rfl

@[simp] lemma totalWeight_append {l' : List Expr} :
    totalWeight N (l ++ l') = totalWeight N l + totalWeight N l' := by
  simp [totalWeight]

@[simp] lemma totalCost_nil : totalCost N [] = 0 := rfl

@[simp] lemma totalCost_cons : totalCost N (e :: l) = e.weight N + 2 + totalCost N l := rfl

@[simp] lemma totalCost_append {l' : List Expr} :
    totalCost N (l ++ l') = totalCost N l + totalCost N l' := by
  simp [totalCost]

lemma weight_sum (h : e.kind = .sum l) : e.weight N = totalWeight N l :=
  weight_of_kind h

/-- A list of terms weighs what the literals and the others among them weigh. -/
lemma totalWeight_filter (p : Expr → Bool) (l : List Expr) :
    totalWeight N (l.filter p) + totalWeight N (l.filter fun e => !p e) = totalWeight N l := by
  induction l with
  | nil => rfl
  | cons e l ih => cases hp : p e <;> simp [hp] <;> omega

lemma totalCost_filter (p : Expr → Bool) (l : List Expr) :
    totalCost N (l.filter p) + totalCost N (l.filter fun e => !p e) = totalCost N l := by
  induction l with
  | nil => rfl
  | cons e l ih => cases hp : p e <;> simp [hp] <;> omega

lemma multiplies_function? (h : multiplies t a = true) : t.function? = none := by
  simp only [multiplies, Bool.and_eq_true, Option.isNone_iff_eq_none] at h
  exact h.1.1

/-- The factors of a product weigh as much as the product and one more. -/
lemma totalCost_factors (e : Expr) : totalCost N e.factors = e.weight N + 2 := by
  induction e using inductionOnFactors with
  | single e hproduct => simp [factors_of_isProduct hproduct]
  | product e t a hkind hm iht iha =>
    rw [factors_of_kind hkind hm, totalCost_append, weight_product hkind (multiplies_function? hm), iht,
      iha]
    omega

lemma totalCost_flatMap_factors (l : List Expr) :
    totalCost N (l.flatMap factors) = totalCost N l := by
  induction l with
  | nil => rfl
  | cons e l ih => simp [totalCost_factors, ih]

mutual

/-- A sum weighs what its terms weigh. -/
theorem totalWeight_terms : ∀ e : Expr, totalWeight N e.terms = e.weight N
  | .node ordinal domain kind => by
    match kind with
    | .sum items =>
      rw [terms, totalWeight_allTerms items, weight_sum (e := .node ordinal domain (.sum items)) rfl]
    | .symbol _ | .number _ | .object _ _ | .field _ | .function _ | .tuple _ | .apply _ _
    | .generator _ _ _ | .chain _ | .inverse _ | .transpose _ | .indexedSum _ _ _ _
    | .collectionSum _ _ _ => simp [terms]

theorem totalWeight_allTerms : ∀ l : List Expr, totalWeight N (allTerms l) = totalWeight N l
  | [] => rfl
  | e :: l => by
    rw [allTerms, totalWeight_append, totalWeight_terms e, totalWeight_allTerms l, totalWeight_cons]

end

end Weights

/-! ## Arithmetic -/

/-- Built from symbols and literals in the integers or the reals by sums, products, powers, calls of
built-in functions, and summations over ranges, all of them in the integers or the reals. -/
inductive IsArithmetic : Expr → Prop
  | symbol {e : Expr} : e.isSymbol = true → e.IsReal → IsArithmetic e
  | literal {e : Expr} : e.number?.isSome = true → e.IsReal → IsArithmetic e
  | sum {e : Expr} {terms : List Expr} : e.kind = .sum terms → e.IsReal → 2 ≤ terms.length →
    (∀ t ∈ terms, IsArithmetic t) → IsArithmetic e
  | product {e t a : Expr} : e.kind = .apply t a → e.IsReal → IsArithmetic t → IsArithmetic a →
    IsArithmetic e
  | power {e b n : Expr} : e.power? = some (b, n) → e.IsReal → IsArithmetic b → IsArithmetic n →
    IsArithmetic e
  | call {e t a : Expr} {f : Builtin} : e.kind = .apply t a → e.IsReal →
    t.kind = .function (.builtin f) → f ≠ .pow → IsArithmetic a → IsArithmetic e
  | indexedSum {e index lower upper body : Expr} : e.kind = .indexedSum index lower upper body →
    e.IsReal → index.isSymbol = true → IsArithmetic lower → IsArithmetic upper → IsArithmetic body →
    IsArithmetic e

/-- What occurs in arithmetic: arithmetic, the index of a summation, a built-in function, and the pair of
base and exponent. -/
inductive Component : Expr → Prop
  | arithmetic {e : Expr} : e.IsArithmetic → Component e
  | symbol {e : Expr} : e.isSymbol = true → Component e
  | function {e : Expr} {f : Builtin} : e.kind = .function (.builtin f) → Component e
  | pair {e b n : Expr} : e.kind = .tuple [b, n] → b.IsArithmetic → n.IsArithmetic → Component e

section Facts

variable {N : ℕ} {e t a b n : Expr} {l : List Expr}

namespace IsArithmetic

lemma isReal (h : e.IsArithmetic) : e.IsReal := by
  cases h with
  | symbol _ h | literal _ h | sum _ h _ _ | product _ h _ _ | power _ h _ _ | call _ h _ _ _
  | indexedSum _ h _ _ _ _ => exact h

/-- Arithmetic expressions are no functions and no tuples. -/
lemma kind_ne (h : e.IsArithmetic) : (∀ f, e.kind ≠ .function f) ∧ ∀ l, e.kind ≠ .tuple l := by
  cases h with
  | symbol hsymbol _ =>
    obtain ⟨name, hkind⟩ := exists_symbol hsymbol
    simp [hkind]
  | literal hnumber _ => exact ⟨fun f h => by simp [number?, h] at hnumber,
      fun l h => by simp [number?, h] at hnumber⟩
  | power hpower _ _ _ =>
    obtain ⟨t, a, hkind, -, -⟩ := power?_eq_some.1 hpower
    simp [hkind]
  | sum hkind _ _ _ | product hkind _ _ _ | call hkind _ _ _ _
  | indexedSum hkind _ _ _ _ _ => simp [hkind]

lemma function? (h : e.IsArithmetic) : e.function? = none := by
  unfold Expr.function?
  split
  · exact absurd ‹_› (h.kind_ne.1 _)
  · rfl

lemma weight_pos (h : e.IsArithmetic) : 0 < e.weight N := by
  induction h with
  | symbol h _ => simp [weight_symbol h]
  | literal h _ => simp [weight_literal h]
  | @sum e terms hkind _ hlength _ ih =>
    obtain ⟨t, rest, rfl⟩ := List.exists_cons_of_length_pos (Nat.zero_lt_of_lt hlength)
    have ht := ih t (by simp)
    rw [weight_sum hkind, totalWeight_cons]
    omega
  | product hkind _ ht _ _ _ => simp [weight_product hkind ht.function?]
  | power hpower _ _ _ _ _ => simp [weight_power hpower]
  | call hkind _ ht hf _ _ => simp [weight_call hkind ht hf]
  | indexedSum hkind _ _ _ _ _ _ _ _ => simp [weight_indexedSum hkind]

/-- What is no literal and no sum weighs as much as a symbol. -/
lemma three_le_weight (h : e.IsArithmetic) (hnumber : e.number? = none)
    (hsum : ∀ l, e.kind ≠ .sum l) : 3 ≤ e.weight N := by
  cases h with
  | symbol h _ => simp [weight_symbol h]
  | literal h _ => simp [hnumber] at h
  | sum hkind _ _ _ => exact absurd hkind (hsum _)
  | product hkind _ ht ha =>
    have := ht.weight_pos (N := N)
    have := ha.weight_pos (N := N)
    rw [weight_product hkind ht.function?]
    omega
  | @power e b n hpower _ hb hn =>
    have hb' : 1 ≤ b.weight N := hb.weight_pos
    have hn' : 2 ≤ n.weight N + 1 := Nat.succ_le_succ hn.weight_pos
    rw [weight_power hpower]
    exact Nat.succ_le_succ (Nat.mul_le_mul hb' hn')
  | call hkind _ ht hf ha =>
    have := ha.weight_pos (N := N)
    rw [weight_call hkind ht hf]
    omega
  | indexedSum hkind _ _ _ _ _ => simp [weight_indexedSum hkind]

lemma length_le_totalWeight (h : ∀ e ∈ l, e.IsArithmetic) : l.length ≤ totalWeight N l := by
  induction l with
  | nil => simp
  | cons e l ih =>
    rw [List.forall_mem_cons] at h
    have := h.1.weight_pos (N := N)
    have := ih h.2
    rw [totalWeight_cons, List.length_cons]
    omega

/-- Of at least two terms, each is lighter than all together. -/
lemma weight_lt_totalWeight (h : ∀ e ∈ l, e.IsArithmetic) (hlength : 2 ≤ l.length) :
    ∀ e ∈ l, e.weight N < totalWeight N l := by
  intro e he
  obtain ⟨before, after, rfl⟩ := List.mem_iff_append.1 he
  have hothers := length_le_totalWeight (N := N) (l := before ++ after) fun c hc => h c (by grind)
  simp only [List.length_append, List.length_cons, totalWeight_append, totalWeight_cons]
    at hothers hlength ⊢
  omega

/-- The terms of a sum. -/
lemma of_sum (h : e.IsArithmetic) (hkind : e.kind = .sum l) :
    2 ≤ l.length ∧ ∀ t ∈ l, t.IsArithmetic := by
  cases h with
  | sum hkind' _ hlength hterms =>
    obtain rfl := Kind.sum.inj (hkind.symm.trans hkind')
    exact ⟨hlength, hterms⟩
  | symbol h _ => simp [isSymbol, hkind] at h
  | literal h _ => simp [number?, hkind] at h
  | power hpower _ _ _ =>
    obtain ⟨t, a, hkind', -, -⟩ := power?_eq_some.1 hpower
    simp [hkind] at hkind'
  | product hkind' _ _ _ | call hkind' _ _ _ _ | indexedSum hkind' _ _ _ _ _ =>
    simp [hkind] at hkind'

/-- An application is a product, a power or a call. -/
lemma apply_cases (h : e.IsArithmetic) (hkind : e.kind = .apply t a) :
    (t.IsArithmetic ∧ a.IsArithmetic) ∨
      (∃ b n, e.power? = some (b, n) ∧ b.IsArithmetic ∧ n.IsArithmetic) ∨
      ∃ f, t.kind = .function (.builtin f) ∧ f ≠ .pow ∧ a.IsArithmetic := by
  cases h with
  | product hkind' _ ht ha =>
    obtain ⟨rfl, rfl⟩ := Kind.apply.inj (hkind.symm.trans hkind')
    exact .inl ⟨ht, ha⟩
  | power hpower _ hb hn => exact .inr (.inl ⟨_, _, hpower, hb, hn⟩)
  | call hkind' _ ht hf ha =>
    obtain ⟨rfl, rfl⟩ := Kind.apply.inj (hkind.symm.trans hkind')
    exact .inr (.inr ⟨_, ht, hf, ha⟩)
  | symbol h _ => simp [isSymbol, hkind] at h
  | literal h _ => simp [number?, hkind] at h
  | sum hkind' _ _ _ | indexedSum hkind' _ _ _ _ _ => simp [hkind] at hkind'

/-- The two sides of a product. -/
lemma of_product (h : e.IsArithmetic) (hkind : e.kind = .apply t a) (ht : t.function? = none) :
    t.IsArithmetic ∧ a.IsArithmetic := by
  rcases h.apply_cases hkind with h | ⟨b, n, hpower, -⟩ | ⟨f, ht', -⟩
  · exact h
  · obtain ⟨t', a', hkind', ht', -⟩ := power?_eq_some.1 hpower
    obtain ⟨rfl, rfl⟩ := Kind.apply.inj (hkind.symm.trans hkind')
    simp [Expr.function?, ht'] at ht
  · simp [Expr.function?, ht'] at ht

/-- The base and the exponent of a power. -/
lemma of_power (h : e.IsArithmetic) (hpower : e.power? = some (b, n)) :
    b.IsArithmetic ∧ n.IsArithmetic := by
  obtain ⟨t, a, hkind, ht, ha⟩ := power?_eq_some.1 hpower
  rcases h.apply_cases hkind with h | ⟨b', n', hpower', h⟩ | ⟨f, ht', hf, -⟩
  · exact absurd ht (h.1.kind_ne.1 _)
  · obtain ⟨rfl, rfl⟩ := Prod.mk.inj (Option.some.inj (hpower.symm.trans hpower'))
    exact h
  · obtain rfl : f = .pow := by simpa [ht'] using ht
    exact absurd rfl hf

/-- Only literals weigh as little as a literal. -/
lemma two_le_weight (h : e.IsArithmetic) (hnumber : e.number? = none) : 2 ≤ e.weight N := by
  by_cases hsum : ∀ l, e.kind ≠ .sum l
  · exact Nat.le_of_succ_le (h.three_le_weight hnumber hsum)
  · push Not at hsum
    obtain ⟨l, hkind⟩ := hsum
    obtain ⟨hlength, hterms⟩ := h.of_sum hkind
    rw [weight_sum hkind]
    exact hlength.trans (length_le_totalWeight hterms)

/-- The factors of an expression. -/
lemma factors (h : e.IsArithmetic) : ∀ f ∈ e.factors, f.IsArithmetic := by
  induction e using inductionOnFactors with
  | single e hproduct => simpa [factors_of_isProduct hproduct] using h
  | product e t a hkind hm iht iha =>
    obtain ⟨ht, ha⟩ := h.of_product hkind (multiplies_function? hm)
    rw [factors_of_kind hkind hm]
    exact List.forall_mem_append.2 ⟨iht ht, iha ha⟩

/-- The terms of an expression are no sums. -/
lemma terms (h : e.IsArithmetic) : ∀ t ∈ e.terms, t.IsArithmetic ∧ ∀ l, t.kind ≠ .sum l := by
  induction e using inductionOnTerms with
  | single e hsum => simpa [terms_of_kind_ne hsum] using ⟨h, hsum⟩
  | sum e l hkind ih =>
    rw [terms_of_kind hkind]
    intro t ht
    obtain ⟨t', ht', hmem⟩ := List.mem_flatMap.1 ht
    exact ih t' ht' ((h.of_sum hkind).2 t' ht') t hmem

end IsArithmetic

namespace Component

lemma weight_pos (h : Component e) : 0 < e.weight N := by
  cases h with
  | arithmetic h => exact h.weight_pos
  | symbol h => simp [weight_symbol h]
  | function h =>
    rw [weight_builtin h]
    split <;> simp
  | pair hkind hb hn =>
    rw [weight_pair hkind]
    exact Nat.mul_pos hb.weight_pos (Nat.succ_pos _)

/-- What occurs in a component is a component. -/
lemma children (h : Component e) : ∀ c ∈ e.children, Component c := by
  cases h with
  | symbol h =>
    obtain ⟨name, hkind⟩ := exists_symbol h
    simp [Expr.children, hkind, Kind.children]
  | function hkind => simp [Expr.children, hkind, Kind.children]
  | pair hkind hb hn => simpa [Expr.children, hkind, Kind.children] using ⟨.arithmetic hb, .arithmetic hn⟩
  | arithmetic h =>
    cases h with
    | symbol h _ =>
      obtain ⟨name, hkind⟩ := exists_symbol h
      simp [Expr.children, hkind, Kind.children]
    | literal h _ =>
      obtain ⟨m, hkind⟩ := exists_number h
      simp [Expr.children, hkind, Kind.children]
    | sum hkind _ _ hterms =>
      simpa [Expr.children, hkind, Kind.children] using fun t ht => .arithmetic (hterms t ht)
    | product hkind _ ht ha =>
      simpa [Expr.children, hkind, Kind.children] using ⟨.arithmetic ht, .arithmetic ha⟩
    | power hpower _ hb hn =>
      obtain ⟨t, a, hkind, ht, ha⟩ := power?_eq_some.1 hpower
      simpa [Expr.children, hkind, Kind.children] using ⟨.function ht, .pair ha hb hn⟩
    | call hkind _ ht _ ha =>
      simpa [Expr.children, hkind, Kind.children] using ⟨.function ht, .arithmetic ha⟩
    | indexedSum hkind _ hindex hl hu hb =>
      simpa [Expr.children, hkind, Kind.children] using
        ⟨.symbol hindex, .arithmetic hl, .arithmetic hu, .arithmetic hb⟩

/-- Children are lighter. -/
lemma weight_lt (h : Component e) : ∀ c ∈ e.children, c.weight N < e.weight N := by
  cases h with
  | symbol h =>
    obtain ⟨name, hkind⟩ := exists_symbol h
    simp [Expr.children, hkind, Kind.children]
  | function hkind => simp [Expr.children, hkind, Kind.children]
  | @pair b n hkind hb hn =>
    have hb' : 0 < b.weight N := hb.weight_pos
    have hn' : 0 < n.weight N := hn.weight_pos
    rw [weight_pair hkind]
    simp only [Expr.children, hkind, Kind.children, List.forall_mem_cons]
    refine ⟨by nlinarith, by nlinarith, by simp⟩
  | arithmetic h =>
    cases h with
    | symbol h _ =>
      obtain ⟨name, hkind⟩ := exists_symbol h
      simp [Expr.children, hkind, Kind.children]
    | literal h _ =>
      obtain ⟨m, hkind⟩ := exists_number h
      simp [Expr.children, hkind, Kind.children]
    | sum hkind _ hlength hterms =>
      simp only [Expr.children, hkind, Kind.children, weight_sum hkind]
      exact IsArithmetic.weight_lt_totalWeight hterms hlength
    | @product e t a hkind _ ht ha =>
      have ht' : 0 < t.weight N := ht.weight_pos
      have ha' : 0 < a.weight N := ha.weight_pos
      rw [weight_product hkind ht.function?]
      simp only [Expr.children, hkind, Kind.children, List.forall_mem_cons]
      refine ⟨by omega, by omega, by simp⟩
    | @power e b n hpower _ hb hn =>
      have hb' : 0 < b.weight N := hb.weight_pos
      obtain ⟨t, a, hkind, ht, ha⟩ := power?_eq_some.1 hpower
      rw [weight_power hpower]
      simp only [Expr.children, hkind, Kind.children, List.forall_mem_cons, weight_builtin ht,
        weight_pair ha, if_true]
      refine ⟨by nlinarith, by omega, by simp⟩
    | @call e t a f hkind _ ht hf ha =>
      have ha' : 0 < a.weight N := ha.weight_pos
      rw [weight_call hkind ht hf]
      simp only [Expr.children, hkind, Kind.children, List.forall_mem_cons, weight_builtin ht, hf,
        if_false]
      refine ⟨by omega, by omega, by simp⟩
    | @indexedSum e index lower upper body hkind _ hindex hl hu hb =>
      have hl' : 0 < lower.weight N := hl.weight_pos
      have hu' : 0 < upper.weight N := hu.weight_pos
      have hb' : body.weight N ≤ (N + 1) * body.weight N := Nat.le_mul_of_pos_left _ N.succ_pos
      rw [weight_indexedSum hkind]
      simp only [Expr.children, hkind, Kind.children, List.forall_mem_cons, weight_symbol hindex]
      refine ⟨by omega, by omega, by omega, by omega, by simp⟩

end Component

end Facts

/-! ## Nodes that stand for another -/

/-- `e` may stand for `a`: it is no heavier, and it is arithmetic, the same function, or the pair of a base
and an exponent, where `a` is. -/
structure Lightens (N : ℕ) (a e : Expr) : Prop where
  /-- It is no heavier. -/
  weight_le : e.weight N ≤ a.weight N
  /-- Arithmetic stays arithmetic. -/
  arithmetic : a.IsArithmetic → e.IsArithmetic
  /-- Functions stay the same. -/
  function : ∀ f, a.kind = .function f → e = a
  /-- A pair of a base and an exponent stays one. -/
  pair : ∀ b n, a.kind = .tuple [b, n] → b.IsArithmetic → n.IsArithmetic →
    ∃ b' n', e.kind = .tuple [b', n'] ∧ b'.IsArithmetic ∧ n'.IsArithmetic

/-- `e` is a normal form of `a`: it may stand for `a`, it is lighter unless it is `a` itself, and symbols are
their own normal forms. -/
structure Settles (N : ℕ) (a e : Expr) : Prop extends Lightens N a e where
  /-- Symbols stay. -/
  symbol : a.isSymbol = true → e = a
  /-- Everything else stays or becomes lighter. -/
  eq_or_lt : e = a ∨ e.weight N < a.weight N

/-- `r` is the node `e` over the children `items`: it may stand for `e`, it is no heavier than the new
children make it, and it is `e` over the children that `e` has. -/
structure Rebuilt (N : ℕ) (e : Expr) (items : List Expr) (r : Expr) : Prop extends Lightens N e r where
  /-- Nothing changes over the same children. -/
  same : items = e.children → r = e
  /-- The node is no heavier than its new children make it. -/
  weight_le_weigh : r.weight N ≤ e.kind.weigh N (items.map (weight N))

section Standing

variable {N : ℕ} {e a b r : Expr} {items : List Expr}

namespace Lightens

@[refl] lemma refl (N : ℕ) (e : Expr) : Lightens N e e :=
  ⟨le_rfl, id, fun _ _ => rfl, fun b n hkind hb hn => ⟨b, n, hkind, hb, hn⟩⟩

lemma trans (h : Lightens N a b) (h' : Lightens N b e) : Lightens N a e where
  weight_le := h'.weight_le.trans h.weight_le
  arithmetic ha := h'.arithmetic (h.arithmetic ha)
  function f hkind := by
    obtain rfl := h.function f hkind
    exact h'.function f hkind
  pair x y hkind hx hy := by
    obtain ⟨x', y', hkind', hx', hy'⟩ := h.pair x y hkind hx hy
    exact h'.pair x' y' hkind' hx' hy'

/-- Lighter arithmetic may stand for arithmetic. -/
lemma of_arithmetic (ha : a.IsArithmetic) (he : e.IsArithmetic) (hle : e.weight N ≤ a.weight N) :
    Lightens N a e :=
  ⟨hle, fun _ => he, fun f hkind => absurd hkind (ha.kind_ne.1 f),
    fun _ _ hkind => absurd hkind (ha.kind_ne.2 _)⟩

/-- What stands for a component is a component, unless the component is an index. -/
lemma component (h : Lightens N a e) (ha : Component a) (hsymbol : a.isSymbol = false) :
    Component e := by
  cases ha with
  | arithmetic ha => exact .arithmetic (h.arithmetic ha)
  | symbol hs => simp [hsymbol] at hs
  | function hkind =>
    obtain rfl := h.function _ hkind
    exact .function hkind
  | pair hkind hb hn =>
    obtain ⟨b', n', hkind', hb', hn'⟩ := h.pair _ _ hkind hb hn
    exact .pair hkind' hb' hn'

end Lightens

namespace Settles

@[refl] lemma refl (N : ℕ) (e : Expr) : Settles N e e :=
  ⟨.refl N e, fun _ => rfl, .inl rfl⟩

/-- A normal form of something lighter. -/
lemma of_lt (h : Lightens N a b) (hlt : b.weight N < a.weight N) (hsymbol : a.isSymbol = false)
    (h' : Settles N b e) : Settles N a e where
  toLightens := h.trans h'.toLightens
  symbol hs := by simp [hsymbol] at hs
  eq_or_lt := .inr (h'.weight_le.trans_lt hlt)

end Settles

/-- Normal forms of several terms weigh less than the terms, unless they are the terms. -/
lemma totalWeight_lt_of_forall₂ {l l' : List Expr} (h : List.Forall₂ (Settles N) l l') :
    l' = l ∨ totalWeight N l' < totalWeight N l := by
  induction h with
  | nil => exact .inl rfl
  | cons hc _ ih =>
    have := hc.weight_le
    simp only [totalWeight_cons]
    rcases hc.eq_or_lt with rfl | hlt <;> rcases ih with rfl | hlt'
    · exact .inl rfl
    all_goals exact .inr (by omega)

/-- An application over normal forms of its two sides. -/
lemma weigh_lt_of_apply {t : Expr} (hkind : e.kind = .apply t a)
    (hitems : List.Forall₂ (Settles N) e.children items) :
    items = e.children ∨ e.kind.weigh N (items.map (weight N)) < e.weight N := by
  rw [weight_eq]
  simp only [children, hkind, Kind.children] at hitems ⊢
  rcases hitems with _ | ⟨ht, _ | ⟨ha, _ | _⟩⟩
  have := ht.weight_le
  have := ha.weight_le
  simp only [Kind.weigh, List.map_cons, List.map_nil]
  rcases ht.eq_or_lt with rfl | hlt <;> rcases ha.eq_or_lt with rfl | hlt'
  · exact .inl rfl
  all_goals exact .inr (by omega)

/-- Over normal forms of its children a node becomes lighter, unless they are its children. -/
lemma Component.weigh_lt (h : Component e) (hitems : List.Forall₂ (Settles N) e.children items) :
    items = e.children ∨ e.kind.weigh N (items.map (weight N)) < e.weight N := by
  -- Without children there is nothing to become lighter.
  have hleaf (hchildren : e.children = []) : items = e.children := by
    rw [hchildren] at hitems ⊢
    exact List.forall₂_nil_left_iff.1 hitems
  cases h with
  | symbol h =>
    obtain ⟨name, hkind⟩ := exists_symbol h
    exact .inl (hleaf (by rw [Expr.children, hkind, Kind.children]))
  | function hkind => exact .inl (hleaf (by rw [Expr.children, hkind, Kind.children]))
  | @pair b n hkind hb hn =>
    rw [weight_pair hkind]
    simp only [Expr.children, hkind, Kind.children] at hitems ⊢
    rcases hitems with _ | ⟨hb', _ | ⟨hn', _ | _⟩⟩
    simp only [Kind.weigh, List.map_cons, List.map_nil]
    rcases hb'.eq_or_lt with rfl | hlt
    · rcases hn'.eq_or_lt with rfl | hlt'
      · exact .inl rfl
      · exact .inr (Nat.mul_lt_mul_of_pos_left (Nat.succ_lt_succ hlt') hb.weight_pos)
    · exact .inr (Nat.mul_lt_mul_of_lt_of_le hlt (Nat.succ_le_succ hn'.weight_le) (Nat.succ_pos _))
  | arithmetic h =>
    cases h with
    | symbol h _ =>
      obtain ⟨name, hkind⟩ := exists_symbol h
      exact .inl (hleaf (by rw [Expr.children, hkind, Kind.children]))
    | literal h _ =>
      obtain ⟨m, hkind⟩ := exists_number h
      exact .inl (hleaf (by rw [Expr.children, hkind, Kind.children]))
    | sum hkind _ _ _ =>
      rw [weight_sum hkind]
      simp only [Expr.children, hkind, Kind.children] at hitems ⊢
      exact totalWeight_lt_of_forall₂ hitems
    | power hpower _ _ _ =>
      obtain ⟨t, a, hkind, -, -⟩ := power?_eq_some.1 hpower
      exact weigh_lt_of_apply hkind hitems
    | product hkind _ _ _ | call hkind _ _ _ _ => exact weigh_lt_of_apply hkind hitems
    | indexedSum hkind _ hindex _ _ _ =>
      rw [weight_indexedSum hkind]
      simp only [Expr.children, hkind, Kind.children] at hitems ⊢
      rcases hitems with _ | ⟨hi, _ | ⟨hl, _ | ⟨hu, _ | ⟨hb, _ | _⟩⟩⟩⟩
      have := hl.weight_le
      have := hu.weight_le
      have := Nat.mul_le_mul_left (N + 1) hb.weight_le
      obtain rfl := hi.symbol hindex
      simp only [Kind.weigh, List.map_cons, List.map_nil]
      rcases hl.eq_or_lt with rfl | hl <;> rcases hu.eq_or_lt with rfl | hu
      · rcases hb.eq_or_lt with rfl | hb
        · exact .inl rfl
        · have : (N + 1) * _ < (N + 1) * _ := Nat.mul_lt_mul_of_pos_left hb (Nat.succ_pos N)
          exact .inr (by omega)
      all_goals exact .inr (by omega)

end Standing

end Expr

end TermGraph
