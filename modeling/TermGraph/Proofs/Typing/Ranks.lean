import TermGraph.Proofs.Order.Grading
import TermGraph.Proofs.Typing.Whole

/-!
# The rank of an expression

Products add up exponents, sums multiply again, and a summation substitutes in its body, so how deep
these recur depends on how deep exponents and summations are nested.  The rank of an expression
bounds this.

* `Expr.Elementary e`: `e` is made of symbols and literals by sums, products, powers and other calls of
  built-in functions, summations over ranges, and operations on matrices.
* `Expr.Ranked k e`: such a scalar or matrix whose exponents and summations are nested at most `k`
  deep.  Its parts are scalars where they have to be, and its ranges are made of integers.
* `Expr.Suits P k e`: `e` has the rank `k`, and is a scalar in case `P`.
* `Expr.Elementary.ranked`, `Expr.Elementary.whole`: in a store where scalars lead and summations are
  typed, scalars and matrices that are elementary have a rank, and integers stand for integers.
-/

namespace TermGraph

open Store (Knows)

/-- Whether a node is a generator, a product of matrices in order, an inverse or a transpose. -/
def Kind.isMatrixOperation : Kind → Bool
  | .generator _ _ _ | .chain _ | .inverse _ | .transpose _ => true
  | _ => false

namespace Expr

/-! ## Elementary expressions -/

/-- A symbol or literal in the numbers or matrices, a built-in function, a package of arguments, or an
operation on numbers and matrices. -/
def IsElementary (e : Expr) : Prop :=
  match e.kind with
  | .symbol _ => e.domain.isLinear = true
  | .number _ | .tuple _ => True
  | .function f => ∃ b, f = .builtin b
  | .apply target argument => multiplies target argument = true ∨ target.function?.isSome = true
  | .sum _ | .chain _ | .generator _ _ _ | .inverse _ | .transpose _ =>
    ∀ c ∈ e.children, c.domain.isLinear = true
  | .indexedSum index lower upper body =>
    (index.domain.isIntegral = true ∧ lower.domain.isIntegral = true ∧
      upper.domain.isIntegral = true) ∧ body.domain.isLinear = true
  | .object _ _ | .field _ | .collectionSum _ _ _ => False

/-- Elementary nodes all the way down. -/
inductive Elementary : Expr → Prop
  | intro {e : Expr} (node : e.IsElementary) (children : ∀ c ∈ e.children, Elementary c) : Elementary e

namespace Elementary

variable {e : Expr}

lemma node (h : e.Elementary) : e.IsElementary := by
  obtain ⟨h, -⟩ := h
  exact h

lemma children (h : e.Elementary) : ∀ c ∈ e.children, c.Elementary := by
  obtain ⟨-, h⟩ := h
  exact h

/-- A node without children. -/
lemma of_leaf (h : e.IsElementary) (hchildren : e.children = []) : e.Elementary :=
  .intro h (by simp [hchildren])

end Elementary

/-! ## Ranks -/

/-- Scalars and matrices whose exponents and summations are nested at most `k` deep. -/
inductive Ranked : ℕ → Expr → Prop
  | symbol {k : ℕ} {e : Expr} (symbol : e.isSymbol = true) (numeric : e.domain.IsNumeric) : Ranked k e
  | literal {k : ℕ} {e : Expr} (number : e.number?.isSome = true) (real : e.IsReal) : Ranked k e
  | sum {k : ℕ} {e : Expr} {items : List Expr} (kind : e.kind = .sum items)
    (numeric : e.domain.IsNumeric)
    (scalar : e.domain.isScalar = true → ∀ c ∈ items, c.domain.isScalar = true)
    (items : ∀ c ∈ items, Ranked k c) : Ranked k e
  | product {k : ℕ} {e t a : Expr} (kind : e.kind = .apply t a) (multiplies : multiplies t a = true)
    (numeric : e.domain.IsNumeric) (target_scalar : t.domain.isScalar = true)
    (scalar : e.domain.isScalar = true → a.domain.isScalar = true) (target : Ranked k t)
    (argument : Ranked k a) : Ranked k e
  | power {j k : ℕ} {e b n : Expr} (power : e.power? = some (b, n)) (real : e.domain = .reals)
    (base_scalar : b.domain.isScalar = true) (exponent_scalar : n.domain.isScalar = true) (le : j ≤ k)
    (lt : n.number? = none → j < k) (base : Ranked k b) (exponent : Ranked j n) : Ranked k e
  | call {k : ℕ} {e t a : Expr} {f : Builtin} (kind : e.kind = .apply t a)
    (function : t.kind = .function (.builtin f)) (ne_pow : f ≠ .pow) (real : e.domain = .reals)
    (scalar : a.domain.isScalar = true) (argument : Ranked k a) : Ranked k e
  | matrix {k : ℕ} {e : Expr} (operation : e.kind.isMatrixOperation = true)
    (domain : e.domain = .matrices) (children : ∀ c ∈ e.children, Ranked k c) : Ranked k e
  | indexedSum {k : ℕ} {e index lower upper body : Expr}
    (kind : e.kind = .indexedSum index lower upper body) (domain : e.domain = body.domain)
    (index_integer : index.isSymbol = true ∧ index.domain = .integers)
    (lower_integer : lower.Whole ∧ lower.domain = .integers)
    (upper_integer : upper.Whole ∧ upper.domain = .integers) (lower_ranked : Ranked k lower)
    (upper_ranked : Ranked k upper) (body_ranked : Ranked k body) : Ranked (k + 1) e

variable {s : Store} {j k : ℕ} {P : Prop} {e t a b n : Expr} {l : List Expr}

namespace Ranked

lemma numeric (h : Ranked k e) : e.domain.IsNumeric := by
  induction h with
  | symbol _ h | sum _ h _ _ | product _ _ h _ _ _ _ => exact h
  | literal _ h => exact h.isNumeric
  | power _ h _ _ _ _ _ _ | call _ _ _ h _ _ => exact .inr (.inl h)
  | matrix _ h _ => exact .inr (.inr h)
  | indexedSum _ h _ _ _ _ _ _ _ _ ih => exact h ▸ ih

lemma mono (h : Ranked j e) (hle : j ≤ k) : Ranked k e := by
  induction h generalizing k with
  | symbol h h' => exact .symbol h h'
  | literal h h' => exact .literal h h'
  | sum hkind hnumeric hscalar _ ih => exact .sum hkind hnumeric hscalar fun c hc => ih c hc hle
  | product hkind hm hnumeric ht hscalar _ _ iht iha =>
    exact .product hkind hm hnumeric ht hscalar (iht hle) (iha hle)
  | power hpower hreal hb hn hjk hlt _ hexponent ihb _ =>
    exact .power hpower hreal hb hn (hjk.trans hle) (fun h => (hlt h).trans_le hle) (ihb hle) hexponent
  | call hkind ht hf hreal hscalar _ ih => exact .call hkind ht hf hreal hscalar (ih hle)
  | matrix hkind hdomain _ ih => exact .matrix hkind hdomain fun c hc => ih c hc hle
  | indexedSum hkind hdomain hindex hl hu _ _ _ ihl ihu ihb =>
    obtain ⟨m, rfl⟩ : ∃ m, k = m + 1 := ⟨k - 1, by omega⟩
    exact .indexedSum hkind hdomain hindex hl hu (ihl (by omega)) (ihu (by omega)) (ihb (by omega))

/-- What the parts of an expression with a rank are. -/
lemma parts (h : Ranked k e) :
    match e.kind with
    | .symbol _ | .number _ => True
    | .sum l => (∀ c ∈ l, Ranked k c) ∧
      (e.domain.isScalar = true → ∀ c ∈ l, c.domain.isScalar = true)
    | .apply t a =>
      (multiplies t a = true ∧ (Ranked k t ∧ Ranked k a) ∧ t.domain.isScalar = true ∧
        (e.domain.isScalar = true → a.domain.isScalar = true)) ∨
      (∃ b n, e.power? = some (b, n) ∧ (Ranked k b ∧ b.domain.isScalar = true) ∧
        n.domain.isScalar = true ∧ ∃ j ≤ k, (n.number? = none → j < k) ∧ Ranked j n) ∨
      ∃ f, t.kind = .function (.builtin f) ∧ f ≠ .pow ∧ Ranked k a ∧ a.domain.isScalar = true
    | .generator _ _ _ | .chain _ | .inverse _ | .transpose _ =>
      e.domain = .matrices ∧ ∀ c ∈ e.children, Ranked k c
    | .indexedSum index lower upper body => ∃ i, k = i + 1 ∧ e.domain = body.domain ∧
      (index.isSymbol = true ∧ index.domain = .integers) ∧ (lower.Whole ∧ upper.Whole) ∧
        Ranked i lower ∧ Ranked i upper ∧ Ranked i body
    | .object _ _ | .field _ | .function _ | .tuple _ | .collectionSum _ _ _ => False := by
  cases h with
  | symbol h _ =>
    unfold isSymbol at h
    cases hkind : e.kind <;> simp [hkind] at h ⊢
  | literal h _ =>
    unfold number? at h
    cases hkind : e.kind <;> simp [hkind] at h ⊢
  | sum hkind _ hscalar h =>
    rw [hkind]
    exact ⟨h, hscalar⟩
  | product hkind hm _ ht hscalar htarget hargument =>
    rw [hkind]
    exact .inl ⟨hm, ⟨htarget, hargument⟩, ht, hscalar⟩
  | power hpower _ hb hn hle hlt hbase hexponent =>
    obtain ⟨t, a, hkind, -⟩ := power?_eq_some.1 hpower
    rw [hkind]
    exact .inr (.inl ⟨_, _, hpower, ⟨hbase, hb⟩, hn, _, hle, hlt, hexponent⟩)
  | call hkind ht hf _ hscalar h =>
    rw [hkind]
    exact .inr (.inr ⟨_, ht, hf, h, hscalar⟩)
  | matrix hoperation hdomain h =>
    cases hkind : e.kind <;> simp [hkind, Kind.isMatrixOperation] at hoperation <;> exact ⟨hdomain, h⟩
  | indexedSum hkind hdomain hindex hl hu hlower hupper hbody =>
    rw [hkind]
    exact ⟨_, rfl, hdomain, hindex, ⟨hl.1, hu.1⟩, hlower, hupper, hbody⟩

/-- What has a rank is no function, no package of arguments and no captured value. -/
lemma kind_ne (h : Ranked k e) : (∀ f, e.kind ≠ .function f) ∧ (∀ l, e.kind ≠ .tuple l) ∧
    ∀ v r, e.kind ≠ .object v r := by
  have hparts := h.parts
  cases hkind : e.kind <;> simp_all

lemma function? (h : Ranked k e) : e.function? = none := by
  unfold Expr.function?
  split
  · exact absurd ‹_› (h.kind_ne.1 _)
  · rfl

lemma matrix? (h : Ranked k e) : e.matrix? = none := by
  unfold Expr.matrix?
  split
  · exact absurd ‹_› (h.kind_ne.2.2 _ _)
  · rfl

lemma isReal (h : Ranked k e) (hscalar : e.domain.isScalar = true) : e.IsReal := by
  rcases h.numeric with hd | hd | hd
  · exact .inl hd
  · exact .inr hd
  · rw [hd] at hscalar
    cases hscalar

lemma of_sum (h : Ranked k e) (hkind : e.kind = .sum l) :
    (∀ c ∈ l, Ranked k c) ∧ (e.domain.isScalar = true → ∀ c ∈ l, c.domain.isScalar = true) := by
  have hparts := h.parts
  rwa [hkind] at hparts

lemma of_product (h : Ranked k e) (hkind : e.kind = .apply t a) (hm : multiplies t a = true) :
    (Ranked k t ∧ Ranked k a) ∧ t.domain.isScalar = true ∧
      (e.domain.isScalar = true → a.domain.isScalar = true) := by
  have hparts := h.parts
  rw [hkind] at hparts
  rcases hparts with ⟨-, hproduct⟩ | ⟨b, n, hpower, -⟩ | ⟨f, ht, -⟩
  · exact hproduct
  · have hproduct := isProduct_of_power? hpower
    rw [isProduct_of_kind hkind, hm] at hproduct
    cases hproduct
  · simp [multiplies, Expr.function?, ht] at hm

lemma of_power (h : Ranked k e) (hpower : e.power? = some (b, n)) :
    (Ranked k b ∧ b.domain.isScalar = true) ∧ n.domain.isScalar = true ∧
      ∃ j ≤ k, (n.number? = none → j < k) ∧ Ranked j n := by
  obtain ⟨t, a, hkind, ht, -⟩ := power?_eq_some.1 hpower
  have hparts := h.parts
  rw [hkind] at hparts
  rcases hparts with ⟨hm, -⟩ | ⟨b', n', hpower', hpowers⟩ | ⟨f, ht', hf, -⟩
  · simp [multiplies, Expr.function?, ht] at hm
  · rw [hpower, Option.some.injEq, Prod.mk.injEq] at hpower'
    obtain ⟨rfl, rfl⟩ := hpower'
    exact hpowers
  · rw [ht, Kind.function.injEq, Function.builtin.injEq] at ht'
    exact absurd ht'.symm hf

lemma of_call (h : Ranked k e) (hkind : e.kind = .apply t a) {f : Builtin}
    (ht : t.kind = .function (.builtin f)) (hf : f ≠ .pow) : Ranked k a ∧ a.domain.isScalar = true := by
  have hparts := h.parts
  rw [hkind] at hparts
  rcases hparts with ⟨hm, -⟩ | ⟨b, n, hpower, -⟩ | ⟨-, -, -, hcall⟩
  · simp [multiplies, Expr.function?, ht] at hm
  · obtain ⟨t', a', hkind', ht', -⟩ := power?_eq_some.1 hpower
    rw [hkind, Kind.apply.injEq] at hkind'
    rw [← hkind'.1, ht, Kind.function.injEq, Function.builtin.injEq] at ht'
    exact absurd ht' hf
  · exact hcall

lemma of_matrixOperation (h : Ranked k e) (hoperation : e.kind.isMatrixOperation = true) :
    e.domain = .matrices ∧ ∀ c ∈ e.children, Ranked k c := by
  have hparts := h.parts
  cases hkind : e.kind <;> simp_all [Kind.isMatrixOperation]

lemma of_indexedSum (h : Ranked k e) {index lower upper body : Expr}
    (hkind : e.kind = .indexedSum index lower upper body) : ∃ i, k = i + 1 ∧ e.domain = body.domain ∧
      (index.isSymbol = true ∧ index.domain = .integers) ∧ (lower.Whole ∧ upper.Whole) ∧
        Ranked i lower ∧ Ranked i upper ∧ Ranked i body := by
  have hparts := h.parts
  rwa [hkind] at hparts

end Ranked

/-! ## Terms and factors -/

/-- An expression of rank `k` that is a scalar in case `P`. -/
structure Suits (P : Prop) (k : ℕ) (e : Expr) : Prop where
  /-- It has the rank. -/
  ranked : Ranked k e
  /-- It is a scalar in case `P`. -/
  isScalar : P → e.domain.isScalar = true

namespace Suits

/-- A scalar is one in any case. -/
lemma of_scalar (h : Suits True k e) : Suits P k e :=
  ⟨h.ranked, fun _ => h.isScalar trivial⟩

lemma isReal (h : Suits True k e) : e.IsReal := h.ranked.isReal (h.isScalar trivial)

/-- Factors have the rank of the product, and are scalars if the product is one. -/
lemma factors (h : Suits P k e) : ∀ f ∈ e.factors, Suits P k f := by
  induction e using inductionOnFactors with
  | single e hproduct =>
    rw [factors_of_isProduct hproduct]
    simpa using h
  | product e t a hkind hm iht iha =>
    obtain ⟨⟨ht, ha⟩, hscalar, hscalar'⟩ := h.ranked.of_product hkind hm
    rw [factors_of_kind hkind hm]
    exact List.forall_mem_append.2
      ⟨iht ⟨ht, fun _ => hscalar⟩, iha ⟨ha, fun hP => hscalar' (h.isScalar hP)⟩⟩

/-- Terms have the rank of the sum, and are scalars if the sum is one. -/
lemma terms (h : Suits P k e) : ∀ f ∈ e.terms, Suits P k f := by
  induction e using inductionOnTerms with
  | single e hsum =>
    rw [terms_of_kind_ne hsum]
    simpa using h
  | sum e l hkind ih =>
    obtain ⟨hitems, hscalar⟩ := h.ranked.of_sum hkind
    rw [terms_of_kind hkind]
    intro f hf
    obtain ⟨c, hc, hmem⟩ := List.mem_flatMap.1 hf
    exact ih c hc ⟨hitems c hc, fun hP => hscalar (h.isScalar hP) c hc⟩ f hmem

/-- The factors of a scalar are no matrices. -/
lemma filter_isMatrixFactor (h : Suits True k e) : e.factors.filter isMatrixFactor = [] :=
  List.filter_eq_nil_iff.2 fun f hf => by simp [isMatrixFactor, (h.factors f hf).isScalar trivial]

end Suits

namespace Ranked

/-- At most one factor is a matrix. -/
lemma length_matrixFactors (h : Ranked k e) : (e.factors.filter isMatrixFactor).length ≤ 1 := by
  induction e using inductionOnFactors with
  | single e hproduct =>
    rw [factors_of_isProduct hproduct]
    exact List.length_filter_le _ _
  | product e t a hkind hm _ iha =>
    obtain ⟨⟨ht, ha⟩, hscalar, -⟩ := h.of_product hkind hm
    have htarget : Suits True k t := ⟨ht, fun _ => hscalar⟩
    rw [factors_of_kind hkind hm, List.filter_append, htarget.filter_isMatrixFactor, List.nil_append]
    exact iha ha

/-- What a product of matrices in order is made of has the rank of the product. -/
lemma chainFactorsOnto (h : Ranked k e) (hl : ∀ c ∈ l, Ranked k c) :
    ∀ c ∈ e.chainFactorsOnto l, Ranked k c := by
  induction hsize : sizeOf e using Nat.strongRecOn generalizing e l with
  | _ m ih =>
    subst hsize
    have hchild {c : Expr} {rest : List Expr} (hc : c ∈ e.children) (hc' : Ranked k c)
        (hrest : ∀ c ∈ rest, Ranked k c) : ∀ c' ∈ c.chainFactorsOnto rest, Ranked k c' :=
      ih _ (sizeOf_lt_of_mem_children hc) hc' hrest rfl
    obtain ⟨ordinal, domain, kind⟩ := e
    cases kind with
    | chain items =>
      rw [Expr.chainFactorsOnto, allChainFactorsOnto_eq_foldr]
      exact List.foldrRecOn (motive := fun l => ∀ c ∈ l, Ranked k c) items _ hl fun l hl c hc =>
        hchild hc ((h.of_matrixOperation rfl).2 c hc) hl
    | apply t a =>
      rw [Expr.chainFactorsOnto]
      split
      · rename_i hm
        obtain ⟨⟨ht, ha⟩, -⟩ := h.of_product rfl hm
        exact hchild (by simp [children, Expr.kind, Kind.children]) ht
          (hchild (by simp [children, Expr.kind, Kind.children]) ha hl)
      · exact List.forall_mem_cons.2 ⟨h, hl⟩
    | _ => exact List.forall_mem_cons.2 ⟨h, hl⟩

lemma allChainFactorsOnto (h : ∀ c ∈ l, Ranked k c) :
    ∀ c ∈ allChainFactorsOnto l [], Ranked k c := by
  rw [allChainFactorsOnto_eq_foldr]
  exact List.foldrRecOn (motive := fun l => ∀ c ∈ l, Ranked k c) l _ (by simp) fun m hm c hc =>
    (h c hc).chainFactorsOnto hm

end Ranked

/-! ## Known expressions -/

end Expr

namespace Domain

lemma eq_integers_of_isIntegral {d : Domain} (hd : d.isBuiltin = true) (h : d.isIntegral = true) :
    d = .integers := by
  cases d <;> simp_all [isBuiltin, isIntegral, within, lineage, BEq.beq, same]

end Domain

namespace Expr

section Known

variable {s : Store} {e t a : Expr}

/-- What the arguments of a call of a built-in function are. -/
lemma resultDomain?_builtin {f : Builtin} {domain : Domain}
    (h : (Function.builtin f).resultDomain? a = some domain) : domain = .reals ∧
      ((f = .pow ∧ ∃ b n, a.kind = .tuple [b, n]) ∨ f ≠ .pow ∧ a.domain.isScalar = true) := by
  simp only [Function.resultDomain?, Option.ite_none_right_eq_some, Option.some.injEq] at h
  obtain ⟨⟨hlength, hscalar⟩, hdomain⟩ := h
  refine ⟨hdomain.symm, ?_⟩
  unfold Function.arguments at hlength hscalar
  cases f with
  | pow =>
    refine .inl ⟨rfl, ?_⟩
    split at hlength
    · rename_i items hkind
      simp only [Function.arity, Builtin.arity, OfNat.ofNat_ne_one, if_false] at hlength
      obtain ⟨b, n, rfl⟩ := List.length_eq_two.1 hlength
      exact ⟨b, n, hkind⟩
    · simp [Function.arity, Builtin.arity] at hlength
  | _ =>
    refine .inr ⟨by simp, ?_⟩
    split at hscalar <;> simpa [Function.arity, Builtin.arity] using hscalar

/-- A call of a built-in function lies in the reals; its argument is a scalar, or a pair for the power
function. -/
lemma domain_of_call (hs : s.WellFormed) (hb : s.Builtin) (he : s.Knows e) {f : Builtin}
    (hkind : e.kind = .apply t a) (ht : t.kind = .function (.builtin f)) : e.domain = .reals ∧
      ((∃ b n, e.power? = some (b, n)) ∨ f ≠ .pow ∧ a.domain.isScalar = true) := by
  obtain ⟨hknown, hknown'⟩ := hs.knows_of_apply he hkind
  have htyped := (hs.admits hknown).typed
  have hetyped := (hs.admits he).typed
  have hbuiltin := hb a hknown'
  rw [ht, Kind.Typed] at htyped
  rw [hkind, Kind.Typed] at hetyped
  have hresult : (Function.builtin f).resultDomain? a = some e.domain := by
    have hleft : Domain.leftApply? t a = (Function.builtin f).resultDomain? a := by
      simp [Domain.leftApply?, Domain.firstAnswer, Domain.lineage, htyped, function?, ht]
    rw [applyDomain?_builtin (by rw [htyped]; rfl) hbuiltin, hleft] at hetyped
    exact hetyped
  obtain ⟨hreal, hpow | hother⟩ := resultDomain?_builtin hresult
  · obtain ⟨rfl, b, n, ha⟩ := hpow
    exact ⟨hreal, .inl ⟨b, n, power?_eq_some.2 ⟨t, a, hkind, ht, ha⟩⟩⟩
  · exact ⟨hreal, .inr hother⟩

/-- The function that is called in an elementary expression is built in. -/
lemma Elementary.function_of_isSome (h : t.Elementary) (hsome : t.function?.isSome = true) :
    ∃ f, t.kind = .function (.builtin f) := by
  have hnode := h.node
  unfold function? at hsome
  split at hsome
  · rename_i f hkind
    rw [IsElementary, hkind] at hnode
    obtain ⟨b, rfl⟩ := hnode
    exact ⟨b, hkind⟩
  · cases hsome

/-- Elementary expressions in the integers stand for integers. -/
lemma Elementary.whole (hs : s.WellFormed) (hb : s.Builtin) (hsums : s.SumsTyped) (h : e.Elementary)
    (he : s.Knows e) (hd : e.domain = .integers) : e.Whole := by
  induction h with
  | @intro e hnode helementary ih =>
    have hchildren := hs.children he
    have htyped := (hs.admits he).typed
    have hchild {c : Expr} (hc : c ∈ e.children) (hd : c.domain = .integers) : c.Whole :=
      ih c hc (hchildren c hc) hd
    cases hkind : e.kind with
    | symbol name => exact .symbol (by simp [isSymbol, hkind]) hd
    | number n =>
      cases n with
      | int m => exact .literal (.of_kind hkind hd)
      | float x => simp [hkind, Kind.Typed, hd, Number.isInt] at htyped
    | sum items =>
      have hitems : e.children = items := by rw [Expr.children, hkind]; rfl
      simp only [IsElementary, hkind] at hnode
      simp only [hkind, Kind.Typed, hd] at htyped
      have hintegers := (sumDomain_eq_integers fun c hc =>
        Domain.isNumeric_of_isLinear (hb c (hchildren c (hitems ▸ hc))) (hnode c (hitems ▸ hc))).1 htyped
      exact .sum hkind (.inl hd) fun c hc => hchild (hitems ▸ hc) (hintegers c hc)
    | apply t a =>
      have hmem {c : Expr} (hc : c ∈ [t, a]) : c ∈ e.children := by
        rw [Expr.children, hkind]
        exact hc
      simp only [IsElementary, hkind] at hnode
      rcases hnode with hm | hfunction
      · obtain ⟨ht, ha⟩ := isNumeric_of_multiplies hb (hchildren t (hmem (by simp)))
          (hchildren a (hmem (by simp))) hm
        simp only [hkind, Kind.Typed, hd] at htyped
        obtain ⟨ht, ha⟩ := (applyDomain?_eq_integers ht ha).1 htyped
        exact .product hkind (.inl hd) (hchild (hmem (by simp)) ht) (hchild (hmem (by simp)) ha)
      · obtain ⟨f, ht⟩ := (helementary t (hmem (by simp))).function_of_isSome hfunction
        rw [(domain_of_call hs hb he hkind ht).1] at hd
        cases hd
    | indexedSum index lower upper body =>
      simp only [IsElementary, hkind] at hnode
      have hbody : body ∈ e.children := by simp [Expr.children, hkind, Kind.children]
      have hnumeric := Domain.isNumeric_of_isLinear (hb body (hchildren body hbody)) hnode.2
      exact .indexedSum hkind (.inl hd) (hchild hbody ((hsums he hkind hnumeric).symm.trans hd))
    | object _ _ | field _ | collectionSum _ _ _ => simp [IsElementary, hkind] at hnode
    | function _ | tuple _ | generator _ _ _ | chain _ | inverse _ | transpose _ =>
      simp [hkind, Kind.Typed, hd] at htyped

/-- The base and exponent of an elementary power are elementary. -/
lemma Elementary.power? (h : e.Elementary) {b n : Expr} (hpower : e.power? = some (b, n)) :
    b.Elementary ∧ n.Elementary := by
  obtain ⟨t, a, hkind, -, ha⟩ := power?_eq_some.1 hpower
  have htuple := h.children a (by simp [Expr.children, hkind, Kind.children])
  exact ⟨htuple.children b (by simp [Expr.children, ha, Kind.children]),
    htuple.children n (by simp [Expr.children, ha, Kind.children])⟩

/-- What a power is made of is older than the power. -/
lemma ordinal_lt_of_power? (hs : s.WellFormed) (he : s.Knows e) {b n : Expr}
    (hpower : e.power? = some (b, n)) : b.ordinal < e.ordinal ∧ n.ordinal < e.ordinal := by
  obtain ⟨t, a, hkind, -, ha⟩ := power?_eq_some.1 hpower
  have hmem : a ∈ e.children := by simp [children, hkind, Kind.children]
  have hlt {c : Expr} (hc : c ∈ [b, n]) : c.ordinal < e.ordinal :=
    (hs.below (hs.children he a hmem) (by simpa [children, ha, Kind.children] using hc)).trans
      (hs.below he hmem)
  exact ⟨hlt (by simp), hlt (by simp)⟩

section Ranked

variable (hs : s.WellFormed) (hb : s.Builtin) (he : s.Knows e) (h : e.Elementary)
  (hlinear : e.domain.isLinear = true)
  (ih : ∀ c : Expr, c.ordinal < e.ordinal → c.Elementary → s.Knows c → c.domain.isLinear = true →
    Ranked c.ordinal c)

include hs hb he h hlinear ih

/-- The rank of a product, a power or a call. -/
lemma Elementary.ranked_apply (hled : s.Led) (hkind : e.kind = .apply t a) : Ranked e.ordinal e := by
  have hnode := h.node
  have hchildren := hs.children he
  have hnumeric := Domain.isNumeric_of_isLinear (hb e he) hlinear
  have hmem {c : Expr} (hc : c ∈ [t, a]) : c ∈ e.children := by
    rw [Expr.children, hkind]
    exact hc
  have hchild {c : Expr} (hc : c ∈ [t, a]) (hlinear : c.domain.isLinear = true) : Ranked e.ordinal c :=
    (ih c (hs.below he (hmem hc)) (h.children c (hmem hc)) (hchildren c (hmem hc)) hlinear).mono
      (hs.below he (hmem hc)).le
  simp only [IsElementary, hkind] at hnode
  rcases hnode with hm | hfunction
  · obtain ⟨ht, ha⟩ := isNumeric_of_multiplies hb (hchildren t (hmem (by simp)))
      (hchildren a (hmem (by simp))) hm
    exact .product hkind hm hnumeric (hled hb e t a he hkind hm)
      (fun hscalar => ((domain_of_apply hs he hkind ht ha).2.1 hscalar).2)
      (hchild (by simp) ht.isLinear) (hchild (by simp) ha.isLinear)
  · obtain ⟨f, ht⟩ := (h.children t (hmem (by simp))).function_of_isSome hfunction
    obtain ⟨hreal, ⟨b, n, hpower⟩ | ⟨hf, hscalar⟩⟩ := domain_of_call hs hb he hkind ht
    · obtain ⟨-, hbscalar, hnscalar⟩ := domain_of_power? hs he hpower
      obtain ⟨hbknown, hnknown⟩ := knows_power? hs he hpower
      obtain ⟨hblt, hnlt⟩ := ordinal_lt_of_power? hs he hpower
      obtain ⟨hbelementary, hnelementary⟩ := h.power? hpower
      have hbase := ih b hblt hbelementary hbknown (Domain.isLinear_of_isScalar (hb b hbknown) hbscalar)
      have hexponent :=
        ih n hnlt hnelementary hnknown (Domain.isLinear_of_isScalar (hb n hnknown) hnscalar)
      exact .power hpower hreal hbscalar hnscalar hnlt.le (fun _ => hnlt) (hbase.mono hblt.le) hexponent
    · exact .call hkind ht hf hreal hscalar (hchild (by simp)
        (Domain.isLinear_of_isScalar (hb a (hchildren a (hmem (by simp)))) hscalar))

omit hlinear in
/-- The rank of a summation is greater than that of its body and its bounds. -/
lemma Elementary.ranked_indexedSum (hsums : s.SumsTyped) {index lower upper body : Expr}
    (hkind : e.kind = .indexedSum index lower upper body) : Ranked e.ordinal e := by
  have hnode := h.node
  have hchildren := hs.children he
  have hmem {c : Expr} (hc : c ∈ [index, lower, upper, body]) : c ∈ e.children := by
    rw [Expr.children, hkind]
    exact hc
  have hinteger {c : Expr} (hc : c ∈ [index, lower, upper, body]) (hd : c.domain.isIntegral = true) :
      c.Whole ∧ c.domain = .integers := by
    have hd := Domain.eq_integers_of_isIntegral (hb c (hchildren c (hmem hc))) hd
    exact ⟨(h.children c (hmem hc)).whole hs hb hsums (hchildren c (hmem hc)) hd, hd⟩
  have hsymbol : index.isSymbol = true := by
    obtain ⟨p, hp, hsymbol⟩ := (hs.admits he).index index (by simp [hkind, Kind.index?])
    rw [← hsymbol, (hs.placeholder hp).2]
    rfl
  obtain ⟨k, hk⟩ : ∃ k, e.ordinal = k + 1 :=
    Nat.exists_eq_add_one_of_ne_zero (Nat.ne_zero_of_lt (hs.below he (hmem (c := body) (by simp))))
  have hchild {c : Expr} (hc : c ∈ [index, lower, upper, body]) (hlinear : c.domain.isLinear = true) :
      Ranked k c := by
    have hlt := hs.below he (hmem hc)
    exact (ih c hlt (h.children c (hmem hc)) (hchildren c (hmem hc)) hlinear).mono (by omega)
  simp only [IsElementary, hkind] at hnode
  obtain ⟨⟨hindex, hlower, hupper⟩, hbody⟩ := hnode
  have hl := hinteger (by simp) hlower
  have hu := hinteger (by simp) hupper
  have hnumeric := Domain.isNumeric_of_isLinear (hb body (hchildren body (hmem (by simp)))) hbody
  rw [hk]
  exact .indexedSum hkind (hsums he hkind hnumeric) ⟨hsymbol, (hinteger (by simp) hindex).2⟩ hl hu
    (hchild (by simp) hl.1.real.isLinear) (hchild (by simp) hu.1.real.isLinear)
    (hchild (by simp) hbody)

end Ranked

/-- In a store where scalars lead and summations are typed, elementary scalars and matrices have a
rank, which is at most their place in the order of creation. -/
lemma Elementary.ranked (hs : s.WellFormed) (hled : s.Led) (hb : s.Builtin) (hsums : s.SumsTyped)
    (h : e.Elementary) (he : s.Knows e) (hlinear : e.domain.isLinear = true) :
    Ranked e.ordinal e := by
  induction hordinal : e.ordinal using Nat.strongRecOn generalizing e with
  | _ m ih =>
    subst hordinal
    -- The ordinal bounds the rank, so that the induction is on it, and not on the size.
    have ih (c : Expr) (hlt : c.ordinal < e.ordinal) (hc : c.Elementary) (hknown : s.Knows c)
        (hlinear : c.domain.isLinear = true) : Ranked c.ordinal c := ih _ hlt hc hknown hlinear rfl
    have hnode := h.node
    have hchildren := hs.children he
    have hnumeric := Domain.isNumeric_of_isLinear (hb e he) hlinear
    have htyped := (hs.admits he).typed
    have hchild {c : Expr} (hc : c ∈ e.children) (hlinear : c.domain.isLinear = true) :
        Ranked e.ordinal c :=
      (ih c (hs.below he hc) (h.children c hc) (hchildren c hc) hlinear).mono (hs.below he hc).le
    cases hkind : e.kind with
    | symbol name => exact .symbol (by simp [isSymbol, hkind]) hnumeric
    | number n =>
      have hscalar := isScalar_of_number hs he (by simp [number?, hkind])
      refine .literal (by simp [number?, hkind]) ?_
      rcases hnumeric with hd | hd | hd
      · exact .inl hd
      · exact .inr hd
      · rw [hd] at hscalar
        cases hscalar
    | sum items =>
      have hitems : e.children = items := by rw [Expr.children, hkind]; rfl
      simp only [IsElementary, hkind] at hnode
      simp only [hkind, Kind.Typed] at htyped
      obtain ⟨domain, hdomain, -, hscalar⟩ := sumDomain_numeric fun c hc =>
        Domain.isNumeric_of_isLinear (hb c (hchildren c (hitems ▸ hc))) (hnode c (hitems ▸ hc))
      obtain rfl : domain = e.domain := Except.ok.inj (hdomain.symm.trans htyped)
      exact .sum hkind hnumeric hscalar.1 fun c hc =>
        hchild (hitems ▸ hc) (hnode c (hitems ▸ hc))
    | apply t a => exact h.ranked_apply hs hb he hlinear ih hled hkind
    | generator _ _ _ | inverse _ | transpose _ | chain _ =>
      simp only [IsElementary, hkind] at hnode
      exact .matrix (by rw [hkind]; rfl) (by simpa [hkind, Kind.Typed] using htyped) fun c hc =>
        hchild hc (hnode c hc)
    | indexedSum index lower upper body => exact h.ranked_indexedSum hs hb he ih hsums hkind
    | object _ _ | field _ | collectionSum _ _ _ => simp [IsElementary, hkind] at hnode
    | function _ | tuple _ =>
      simp only [hkind, Kind.Typed] at htyped
      rw [htyped] at hlinear
      cases hlinear

end Known

end Expr

end TermGraph
