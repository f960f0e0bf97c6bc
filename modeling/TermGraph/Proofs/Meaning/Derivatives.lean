import TermGraph.Proofs.Meaning.Duals
import TermGraph.Proofs.Meaning.Rebuilding
import TermGraph.Proofs.Store.Derivation

/-!
# The value of derivatives

The derivative of an expression by a symbol has the slope of the expression in the direction of the
symbol as its value.  There is one rule for each kind of node, and each is a law of slopes.

* `DerivativeTable.Relates`: the derivatives in a table are right.
* `ensures_partialDerivative`: the partial derivatives of the built-in functions are their slopes.
* `derives_of_isScalar`: the rules, put together by induction on the expression.
* `value_derive`: in dual numbers, the value of an expression is made of its value and that of its
  derivative.
-/

namespace TermGraph

open Store (Knows faithfulStores faithfulStores_le)

/-- The functions whose derivatives are made of such functions. -/
def Builtin.IsSmooth (f : Builtin) : Prop :=
  f = .exp ∨ f = .sin ∨ f = .cos

lemma Builtin.IsSmooth.ne_pow {f : Builtin} (h : f.IsSmooth) : f ≠ .pow := by
  rcases h with rfl | rfl | rfl <;> decide

/-- The derivatives in a table are related by `R` to the expression and the variable that they are
remembered for. -/
def DerivativeTable.Relates (R : Expr → Expr → Expr → Prop) (s : Store) (table : DerivativeTable) :
    Prop :=
  ∀ (k : List ℕ) (d : Expr), table[k]? = some d →
    ∃ e x, s.Knows e ∧ s.Knows x ∧ k = [e.ordinal, x.ordinal] ∧ R e x d

namespace DerivativeTable.Relates

variable {R : Expr → Expr → Expr → Prop} {s t : Store} {table : DerivativeTable} {e x d : Expr}
  {n : ℕ}

lemma empty : DerivativeTable.Relates R s ∅ := fun k d h => by simp at h

lemma mono (h : DerivativeTable.Relates R s table) (hle : s ≤ t) :
    DerivativeTable.Relates R t table := fun k d hk =>
  let ⟨e, x, he, hx, hkey, hR⟩ := h k d hk
  ⟨e, x, he.mono hle, hx.mono hle, hkey, hR⟩

lemma get (h : DerivativeTable.Relates R s table) (he : s.Knows e) (hx : s.Knows x)
    (hfound : table[[e.ordinal, x.ordinal]]? = some d) : R e x d := by
  obtain ⟨e', x', he', hx', hkey, hR⟩ := h _ _ hfound
  rw [List.cons.injEq, List.cons.injEq] at hkey
  obtain rfl := Store.WellFormed.eq_of_ordinal he he' hkey.1
  obtain rfl := Store.WellFormed.eq_of_ordinal hx hx' hkey.2.1
  exact hR

lemma insert (h : DerivativeTable.Relates R s table) (he : s.Knows e) (hx : s.Knows x)
    (hR : R e x d) : DerivativeTable.Relates R s (table.insert [e.ordinal, x.ordinal] d) := by
  intro k d' hk
  rw [Std.TreeMap.getElem?_insert] at hk
  split at hk
  · rename_i heq
    rw [Std.LawfulEqCmp.compare_eq_iff_eq] at heq
    cases hk
    exact ⟨e, x, he, hx, heq.symm, hR⟩
  · exact h k d' hk

/-- A derivative that was remembered is as good as a new one. -/
lemma ensures_remember {P : LowerSet Store} {y : Memoized DerivativeTable Expr} [Growing y]
    (h : DerivativeTable.Relates R s table) (he : s.Knows e) (hx : s.Knows x)
    (hy : Ensures P n (s, table) y fun d p => DerivativeTable.Relates R p.1 p.2 ∧ R e x d) :
    Ensures P n (s, table) (Memoized.rememberDerivative e x y) fun d p =>
      DerivativeTable.Relates R p.1 p.2 ∧ R e x d := by
  intro d p hrun hp
  unfold Memoized.rememberDerivative at hrun
  obtain ⟨table', q, hmemo, hrest⟩ := Run.bind_eq_ok.1 hrun
  cases hmemo
  cases hfound : table[[e.ordinal, x.ordinal]]? with
  | some known =>
    simp only [hfound] at hrest
    cases hrest
    exact ⟨h, h.get he hx hfound⟩
  | none =>
    simp only [hfound] at hrest
    obtain ⟨d', q, hresult, hrest⟩ := Run.bind_eq_ok.1 hrest
    obtain ⟨_, q', hmodify, hrest⟩ := Run.bind_eq_ok.1 hrest
    cases hmodify
    cases hrest
    obtain ⟨hq, hR⟩ := hy d q hresult hp
    have hle := Growing.le_of_ok hresult
    exact ⟨hq.insert (he.mono hle) (hx.mono hle) hR, hR⟩

/-- What is delivered from a store is delivered next to a table. -/
lemma delivers_lift {α : Type} [Knowable α] {P : LowerSet Store} {y : Build α} [Growing y]
    {Q : α → Prop} (h : DerivativeTable.Relates R s table) (hknown : s.Knows table)
    (hy : Delivers P n s y fun a _ => Q a) :
    Delivers P n (s, table) (liftM y : Memoized DerivativeTable α) fun a p =>
      DerivativeTable.Relates R p.1 p.2 ∧ Q a where
  yields := (hy.lift hknown).yields
  ensures := (hy.lift hknown).ensures.imp fun _ _ hrun _ hp =>
    ⟨hp.1 ▸ h.mono (Growing.le_of_ok hrun), hp.2⟩

end DerivativeTable.Relates

namespace Expr

variable {A : Type} [CommRing A] {I : Reading A} {s : Store} {table : DerivativeTable} {d : ℕ}
  {e a t b n x : Expr} {v w : Valuation A → A}

/-! ## The computation for each kind -/

section Equations

lemma applicationRule?_real (ht : t.IsReal) : applicationRule? t = some .product := by
  rcases ht with ht | ht <;> simp [applicationRule?, ht, Domain.firstAnswer, Domain.lineage]

lemma applicationRule?_function {f : Function} (ht : t.kind = .function f)
    (hdomain : t.domain = .functions) : applicationRule? t = some (.chain f) := by
  simp [applicationRule?, hdomain, Domain.firstAnswer, Domain.lineage, function?, ht]

/-- Literals, and symbols other than the variable, have the derivative zero. -/
lemma deriveFrom_leaf (hleaf : e.isSymbol = true ∨ e.number?.isSome = true) : deriveFrom x e =
    .rememberDerivative e x (if e == x then liftM one else liftM zero) := by
  obtain ⟨ordinal, domain, kind⟩ := e
  cases kind <;> simp [isSymbol, number?, Expr.kind] at hleaf <;> rfl

/-- The derivative of a sum is the sum of the derivatives. -/
lemma deriveFrom_sum {terms : List Expr} (hkind : e.kind = .sum terms) : deriveFrom x e =
    .rememberDerivative e x (if e == x then liftM one else do sum (← deriveAll x terms)) := by
  obtain ⟨ordinal, domain, kind⟩ := e
  simp only [Expr.kind] at hkind
  subst hkind
  rfl

/-- The product rule. -/
lemma deriveFrom_product (hkind : e.kind = .apply t a) (ht : t.IsReal) : deriveFrom x e =
    .rememberDerivative e x (if e == x then liftM one else do
      let dt ← deriveFrom x t
      let da ← deriveFrom x a
      let left ← productUnlessZero dt [dt, a]
      let right ← productUnlessZero da [t, da]
      sum [left, right]) := by
  obtain ⟨ordinal, domain, kind⟩ := e
  simp only [Expr.kind] at hkind
  subst hkind
  rw [deriveFrom, deriveWith, applicationRule?_real ht]

/-- The chain rule for a function of one argument. -/
lemma deriveFrom_call {f : Function} (hkind : e.kind = .apply t a) (ht : t.kind = .function f)
    (hdomain : t.domain = .functions) (ha : ∀ items, a.kind ≠ .tuple items) : deriveFrom x e =
    .rememberDerivative e x (if e == x then liftM one else do
      let da ← deriveFrom x a
      sum (← f.chainTerm [a] 0 da)) := by
  obtain ⟨ordinal, domain, kind⟩ := e
  simp only [Expr.kind] at hkind
  subst hkind
  rw [deriveFrom, deriveWith, applicationRule?_function ht hdomain]
  obtain ⟨ordinal', domain', kind'⟩ := a
  cases kind' with
  | tuple items => exact absurd rfl (ha items)
  | _ => rfl

/-- The chain rule for powers. -/
lemma deriveFrom_power (hkind : e.kind = .apply t a) (ht : t.kind = .function (.builtin .pow))
    (hdomain : t.domain = .functions) (ha : a.kind = .tuple [b, n]) : deriveFrom x e =
    .rememberDerivative e x (if e == x then liftM one else do
      sum (← chainTerms x (.builtin .pow) [b, n] 0 [b, n])) := by
  obtain ⟨ordinal, domain, kind⟩ := e
  obtain ⟨ordinal', domain', kind'⟩ := a
  simp only [Expr.kind] at hkind ha
  subst hkind ha
  unfold deriveFrom deriveWith
  dsimp only
  rw [applicationRule?_function ht hdomain]
  simp [Function.arity, Builtin.arity]

/-- A summation is derived under the sum, which is bound anew. -/
lemma deriveFrom_indexedSum {index lower upper body : Expr}
    (hkind : e.kind = .indexedSum index lower upper body) : deriveFrom x e =
    .rememberDerivative e x (if e == x then liftM one else do
      let d ← deriveFrom x body
      if d.isZero then
        pure d
      else
        let i ← beginIndexedSum lower upper
        endIndexedSum lower upper i (← substitute [(index, i)] d)) := by
  obtain ⟨ordinal, domain, kind⟩ := e
  simp only [Expr.kind] at hkind
  subst hkind
  rfl

end Equations

/-! ## Partial derivatives -/

section Partials

/-- The partial derivatives of the functions of one argument are their slopes. -/
lemma delivers_partialDerivative (hs : Good s) (hd : 0 < d) {f : Builtin} (hf : f.IsSmooth)
    (hknown : s.Knows a) (ha : HasValue Builtin.IsSmooth I v a) :
    Delivers faithfulStores d s ((Function.builtin f).partialDerivative 0 [a]) fun e _ =>
      HasValue Builtin.IsSmooth I (fun ρ => I.slope f (v ρ)) e where
  yields := Function.yields_partialDerivative hs _ 0 (by simpa using hknown) d
  ensures := by
    rcases hf with rfl | rfl | rfl
    · have hrun : (Function.builtin .exp).partialDerivative 0 [a] = call (.builtin .exp) [a] := by
        simp [Function.partialDerivative, Function.partialDerivative?, Builtin.partialDerivative]
      rw [hrun]
      exact (delivers_call hs (by decide) (.inl rfl) hknown ha).ensures
    · have hrun : (Function.builtin .sin).partialDerivative 0 [a] = call (.builtin .cos) [a] := by
        simp [Function.partialDerivative, Function.partialDerivative?, Builtin.partialDerivative]
      rw [hrun]
      exact (delivers_call hs (by decide) (.inr (.inr rfl)) hknown ha).ensures
    · have hrun : (Function.builtin .cos).partialDerivative 0 [a] =
          (do neg (← call (.builtin .sin) [a])) := by
        simp [Function.partialDerivative, Function.partialDerivative?, Builtin.partialDerivative]
      rw [hrun]
      exact (delivers_call hs (by decide) (.inr (.inl rfl)) hknown ha).bind
        fun e t ht _ he _ hvalue => (delivers_neg ht hd he hvalue).ensures

/-- The partial derivative of a literal power by its base. -/
lemma delivers_partialDerivative_pow (hs : Good s) (hd : 0 < d) {k : ℕ} (hk : 0 < k)
    (hknown : s.Knows b) (hknown' : s.Knows n) (hb : HasValue Builtin.IsSmooth I v b)
    (hn : IsLiteral k n) :
    Delivers faithfulStores d s ((Function.builtin .pow).partialDerivative 0 [b, n]) fun e _ =>
      HasValue Builtin.IsSmooth I (k * v ^ (k - 1)) e where
  yields := Function.yields_partialDerivative hs _ 0 (by simpa using ⟨hknown, hknown'⟩) d
  ensures := by
    have hrun : (Function.builtin .pow).partialDerivative 0 [b, n] = (do
        let lowered ← sum [n, ← int (-1)]
        let lowerPower ← call (.builtin .pow) [b, lowered]
        product [n, lowerPower]) := by
      simp [Function.partialDerivative, Function.partialDerivative?, Builtin.partialDerivative]
    rw [hrun]
    refine (delivers_int hs (-1)).bind fun m t ht hle hknownm _ hm => ?_
    have hn' := hknown'.mono hle
    have hsum : Delivers faithfulStores d t (sum [n, m]) fun e _ => IsLiteral (k - 1 : ℕ) e := by
      refine Achieves.delivers faithfulStores_le
        ⟨yields_sum t _ ht (by simpa using ⟨hn', hknownm⟩) d, ?_⟩
      have hliterals : AreLiterals [n, m] := by
        simpa [AreLiterals] using ⟨hn.self, hm.self⟩
      refine (exact_sumWith_literals ht hliterals (by simp)).imp fun e _ _ _ he => ?_
      have hvalue : ([n, m].map intValue).sum = (k - 1 : ℕ) := by
        rw [List.map_cons, List.map_cons, List.map_nil, List.sum_cons, List.sum_singleton,
          hn.intValue, hm.intValue]
        show (k : ℤ) + -1 = _
        omega
      rwa [hvalue] at he
    refine hsum.bind fun lowered u hu hle' hlowered _ hliteral => ?_
    have hle'' := hle.trans hle'
    refine (delivers_call_pow hu (hknown.mono hle'') hlowered hb hliteral).bind
      fun power w hw hle₃ hpower _ hvalue => ?_
    have hproduct := (delivers_mul hw hd (hknown'.mono (hle''.trans hle₃)) hpower
      (Meaning.denotes_literal (M := meaning Builtin.IsSmooth I) hn) hvalue).ensures
    simpa using hproduct

end Partials

/-! ## The rules -/

section Rules

/-- No summation in `e` binds `x`. -/
abbrev Unbound (x e : Expr) : Prop :=
  AllIndices (fun y => y.ordinal ≠ x.ordinal) e

/-- The derivative of `e` by `x` has the slope of `e` as its value, and that of a literal is the
literal zero. -/
structure IsDerivative (I : Reading A) (e x d : Expr) : Prop where
  /-- A scalar has a derivative with its slope. -/
  value : e.IsScalar Builtin.IsSmooth → x.isSymbol = true → Unbound x e →
    HasValue Builtin.IsSmooth I (e.slope I x.ordinal) d
  /-- A literal has the derivative zero. -/
  literal : e.number?.isSome = true → x.isSymbol = true → IsLiteral 0 d

/-- From `s` on, and with derivatives in the table, the derivative of `e` by `x` is found. -/
def Derives (I : Reading A) (d : ℕ) (s : Store) (x e : Expr) : Prop :=
  ∀ (t : Store) (table : DerivativeTable), Good (t, table) → s ≤ t →
    DerivativeTable.Relates (IsDerivative I) t table →
    Delivers faithfulStores d (t, table) (deriveFrom x e) fun e' p =>
      DerivativeTable.Relates (IsDerivative I) p.1 p.2 ∧ IsDerivative I e x e'

lemma Derives.mono {t : Store} (h : Derives I d s x e) (hle : s ≤ t) : Derives I d t x e :=
  fun u table hu hle' => h u table hu (hle.trans hle')

/-- What is remembered for a node is found by the rule for its kind, unless it is the variable. -/
lemma derives_of_rule (hx : s.Knows x) (hsymbol : x.isSymbol = true) (he : s.Knows e)
    {y : Memoized DerivativeTable Expr} [Growing y]
    (hrun : deriveFrom x e = .rememberDerivative e x (if e == x then liftM one else y))
    (hy : e.ordinal ≠ x.ordinal → ∀ (t : Store) (table : DerivativeTable), Good (t, table) → s ≤ t →
      DerivativeTable.Relates (IsDerivative I) t table →
      Ensures faithfulStores d (t, table) y fun e' p =>
        DerivativeTable.Relates (IsDerivative I) p.1 p.2 ∧ IsDerivative I e x e') :
    Derives I d s x e := by
  intro t table ht hle htable
  refine ⟨yields_deriveFrom ht (he.mono hle) d, ?_⟩
  rw [hrun]
  refine htable.ensures_remember (he.mono hle) (hx.mono hle) ?_
  refine .ite (fun heq => ?_) fun hne => hy (by simpa using hne) t table ht hle htable
  rw [beq_iff_ordinal] at heq
  obtain rfl := Store.WellFormed.eq_of_ordinal he hx heq
  obtain ⟨name, hkind⟩ := exists_symbol hsymbol
  obtain ⟨hwf, hknown⟩ := good_pair.1 ht
  refine (htable.delivers_lift hknown
    ((achieves_one (good_store.2 hwf)).delivers faithfulStores_le)).ensures.imp
    fun e' p _ _ hp => ⟨hp.1, fun _ _ _ => ?_, fun h => by simp [number?, hkind] at h⟩
  have hslope : e.slope I e.ordinal = ((1 : ℤ) : Valuation A → A) := funext fun ρ => by
    rw [slope_of_isSymbol hsymbol, if_pos rfl]
    simp
  rw [hslope]
  exact Meaning.denotes_literal hp.2

/-- Literals, and symbols other than the variable, have the derivative zero. -/
lemma derives_leaf (hx : s.Knows x) (hsymbol : x.isSymbol = true) (he : s.Knows e)
    (hleaf : e.isSymbol = true ∨ ∃ k, IsLiteral k e) : Derives I d s x e := by
  have hrun : deriveFrom x e = .rememberDerivative e x (if e == x then liftM one else liftM zero) := by
    refine deriveFrom_leaf (hleaf.imp_right ?_)
    rintro ⟨k, hliteral⟩
    exact hliteral.isSome
  refine derives_of_rule hx hsymbol he hrun fun hne t table ht hle htable => ?_
  obtain ⟨hwf, hknown⟩ := good_pair.1 ht
  refine (htable.delivers_lift hknown
    ((achieves_zero (good_store.2 hwf)).delivers faithfulStores_le)).ensures.imp
    fun e' p _ _ hp => ⟨hp.1, fun _ _ _ => ?_, fun _ _ => hp.2⟩
  have hslope : e.slope I x.ordinal = ((0 : ℤ) : Valuation A → A) := funext fun ρ => by
    rcases hleaf with hleaf | ⟨k, hliteral⟩
    · rw [slope_of_isSymbol hleaf, if_neg hne]
      simp
    · rw [slope_literal hliteral]
      simp
  rw [hslope]
  exact Meaning.denotes_literal hp.2

/-- The derivatives of a list of expressions. -/
lemma delivers_deriveAll (hs : Good (s, table))
    (htable : DerivativeTable.Relates (IsDerivative I) s table) {l : List Expr} (hl : s.Knows l)
    (h : ∀ c ∈ l, Derives I d s x c) :
    Delivers faithfulStores d (s, table) (deriveAll x l) fun ds p =>
      DerivativeTable.Relates (IsDerivative I) p.1 p.2 ∧
        List.Forall₂ (fun c e => IsDerivative I c x e) l ds where
  yields := yields_deriveAll hs (fun c hc _ _ ht hle =>
    yields_deriveFrom ht ((hl c hc).mono hle)) d
  ensures := by
    -- The items are derived from the states that the earlier ones have left.
    suffices h : ∀ (t : Store) (table : DerivativeTable), Good (t, table) → s ≤ t →
        DerivativeTable.Relates (IsDerivative I) t table →
        Ensures faithfulStores d (t, table) (deriveAll x l) fun ds p =>
          DerivativeTable.Relates (IsDerivative I) p.1 p.2 ∧
            List.Forall₂ (fun c e => IsDerivative I c x e) l ds from
      h s table hs le_rfl htable
    induction l with
    | nil =>
      intro t table _ _ htable
      unfold deriveAll deriveAllWith
      exact .pure ⟨htable, .nil⟩
    | cons c l ih =>
      intro t table ht hle htable
      rw [List.forall_mem_cons] at h
      unfold deriveAll deriveAllWith
      refine (h.1 t table ht hle htable).bind fun e p hp hle' _ _ he => ?_
      intro ds q hrun hq
      obtain ⟨ds', q', hrest, hpure⟩ := Run.bind_eq_ok.1 hrun
      cases hpure
      obtain ⟨htable', hds⟩ := ih (Store.knows_cons.1 hl).2 h.2 p.1 p.2 hp (hle.trans hle') he.1 ds' q
        hrest hq
      exact ⟨htable', .cons he.2 hds⟩

lemma forall₂_slope {l ds : List Expr} (h : List.Forall₂ (fun c e => IsDerivative I c x e) l ds)
    (hsymbol : x.isSymbol = true) (hl : ∀ c ∈ l, c.IsScalar Builtin.IsSmooth ∧ Unbound x c) :
    List.Forall₂ (HasValue Builtin.IsSmooth I) (l.map fun c => c.slope I x.ordinal) ds := by
  rw [List.forall₂_map_left_iff]
  induction h with
  | nil => exact .nil
  | cons he _ ih =>
    rw [List.forall_mem_cons] at hl
    exact .cons (he.value hl.1.1 hsymbol hl.1.2) (ih hl.2)

/-- The derivative of a sum is the sum of the derivatives. -/
lemma derives_sum (hd : 0 < d) (hwf : s.WellFormed) (hx : s.Knows x) (hsymbol : x.isSymbol = true)
    (he : s.Knows e) {terms : List Expr} (hkind : e.kind = .sum terms)
    (hterms : ∀ c ∈ terms, c.IsScalar Builtin.IsSmooth ∧ Unbound x c)
    (h : ∀ c ∈ terms, Derives I d s x c) : Derives I d s x e := by
  have hknown := hwf.children he
  rw [children, hkind, Kind.children] at hknown
  refine derives_of_rule hx hsymbol he (deriveFrom_sum hkind) fun _ t table ht hle htable => ?_
  refine (delivers_deriveAll ht htable (hknown.mono hle) fun c hc => (h c hc).mono hle).bind
    fun ds p hp hle' hds _ hderivatives => ?_
  obtain ⟨hwf', hknown'⟩ := good_pair.1 hp
  refine (hderivatives.1.delivers_lift hknown' (delivers_sum (good_store.2 hwf') hd hds
    (forall₂_slope hderivatives.2 hsymbol hterms))).ensures.imp fun e' q _ _ hq => ⟨hq.1, ?_, ?_⟩
  · intro _ _ _
    convert hq.2 using 1
    funext ρ
    rw [slope_sum hkind, Pi.list_sum_apply, List.map_map]
    rfl
  · intro h
    simp [number?, hkind] at h

/-- A scalar that is numerically zero has the value zero. -/
lemma eq_zero_of_isZero {F : Builtin → Prop} (h : HasValue F I v e) (hzero : e.isZero = true) :
    v = 0 := by
  have hliteral := h.scalar.number (by
    unfold isZero at hzero
    cases hnumber : e.number? <;> simp_all)
  rw [hliteral.isZero] at hzero
  rw [← h.value_eq]
  funext ρ
  exact (value_literal hliteral).trans (by simp [hzero])

/-- A summand of the product rule has the value of its factors. -/
lemma delivers_productUnlessZero {F : Builtin → Prop} {u : Valuation A → A} (hs : Good s)
    (hd : 0 < d) (he : HasValue F I u e) (hknown : s.Knows t) (hknown' : s.Knows a)
    (ht : HasValue F I v t) (ha : HasValue F I w a) (hzero : u = 0 → v * w = 0) :
    Delivers faithfulStores d s (productUnlessZero e [t, a]) fun e' _ =>
      HasValue F I (v * w) e' where
  yields := yields_productUnlessZero hs e (by simpa using ⟨hknown, hknown'⟩) d
  ensures := by
    unfold productUnlessZero
    refine .ite (fun hisZero => ?_) fun _ => (delivers_mul hs hd hknown hknown' ht ha).ensures
    rw [hzero (eq_zero_of_isZero he hisZero)]
    refine ((achieves_zero hs).ensures faithfulStores_le).imp fun e' _ _ _ hliteral => ?_
    simpa using Meaning.denotes_literal (M := meaning F I) hliteral

/-- The product rule. -/
lemma derives_product (hd : 0 < d) (hwf : s.WellFormed) (hx : s.Knows x)
    (hsymbol : x.isSymbol = true) (he : s.Knows e) (hkind : e.kind = .apply t a)
    (ht : t.IsScalar Builtin.IsSmooth) (ha : a.IsScalar Builtin.IsSmooth) (hut : Unbound x t)
    (hua : Unbound x a) (iht : Derives I d s x t) (iha : Derives I d s x a) :
    Derives I d s x e := by
  obtain ⟨hknown, hknown'⟩ := hwf.knows_of_apply he hkind
  refine derives_of_rule hx hsymbol he (deriveFrom_product hkind ht.real) fun _ u table hu hle htable => ?_
  refine (iht u table hu hle htable).bind fun dt p hp h₁ hdt _ ht' => ?_
  refine (iha p.1 p.2 hp (hle.trans h₁) ht'.1).bind fun da q hq h₂ hda _ ha' => ?_
  have hvt := ht'.2.value ht hsymbol hut
  have hva := ha'.2.value ha hsymbol hua
  have hle' := hle.trans (h₁.trans h₂)
  obtain ⟨hwf₁, hm₁⟩ := good_pair.1 hq
  refine (ha'.1.delivers_lift hm₁ (delivers_productUnlessZero (good_store.2 hwf₁) hd hvt
    (hdt.mono h₂) (hknown'.mono hle') hvt (Meaning.denotes_value ha)
    fun h => by rw [h, zero_mul])).bind fun left r hr h₃ hleft _ hl => ?_
  obtain ⟨hwf₂, hm₂⟩ := good_pair.1 hr
  refine (hl.1.delivers_lift hm₂ (delivers_productUnlessZero (good_store.2 hwf₂) hd hva
    (hknown.mono (hle'.trans h₃)) (hda.mono h₃) (Meaning.denotes_value ht) hva
    fun h => by rw [h, mul_zero])).bind fun right r' hr' h₄ hright _ hr => ?_
  obtain ⟨hwf₃, hm₃⟩ := good_pair.1 hr'
  refine (hr.1.delivers_lift hm₃ (delivers_sum (good_store.2 hwf₃) hd
    (by simpa using ⟨hleft.mono h₄, hright⟩) (.cons hl.2 (.cons hr.2 .nil)))).ensures.imp
    fun e' _ _ _ hsum => ⟨hsum.1, fun _ _ _ => ?_, fun h => by simp [number?, hkind] at h⟩
  convert hsum.2 using 1
  funext ρ
  rw [slope_product hkind ht ha]
  simp only [List.sum_cons, List.sum_nil, Pi.add_apply, Pi.mul_apply, Pi.zero_apply]
  exact (add_comm _ _).trans (by rw [add_zero]; rfl)

/-- A summand of the chain rule: the partial derivative times the derivative of the argument. -/
lemma delivers_chainTerm {F : Builtin → Prop} (hs : Good s) (hd : 0 < d) {f : Function}
    {args : List Expr} (hargs : s.Knows args) (hknown : s.Knows e) (he : HasValue F I w e)
    (hpartial : Delivers faithfulStores d s (f.partialDerivative 0 args) fun e' _ =>
      HasValue F I v e') :
    Delivers faithfulStores d s (f.chainTerm args 0 e) fun ts _ =>
      ∃ vs, List.Forall₂ (HasValue F I) vs ts ∧ vs.sum = v * w where
  yields := Function.yields_chainTerm hs f hargs 0 hknown d
  ensures := by
    unfold Function.chainTerm
    refine .ite (fun hzero => .pure ⟨[], .nil, ?_⟩) fun _ => ?_
    · rw [eq_zero_of_isZero he hzero, mul_zero, List.sum_nil]
    · refine hpartial.bind fun outer t ht hle houter _ hvalue => ?_
      refine (delivers_mul ht hd houter (hknown.mono hle) hvalue he).bind
        fun e' _ _ _ _ _ hproduct => .pure ⟨[v * w], .cons hproduct .nil, by simp⟩

/-- The chain rule for functions of one argument. -/
lemma derives_call (hd : 0 < d) (hwf : s.WellFormed) (hx : s.Knows x)
    (hsymbol : x.isSymbol = true) (he : s.Knows e) {f : Builtin} (hkind : e.kind = .apply t a)
    (ht : t.kind = .function (.builtin f)) (hf : f.IsSmooth) (ha : a.IsScalar Builtin.IsSmooth)
    (hua : Unbound x a) (iha : Derives I d s x a) : Derives I d s x e := by
  obtain ⟨hknown, hknown'⟩ := hwf.knows_of_apply he hkind
  have htyped := (hwf.admits hknown).typed
  rw [ht] at htyped
  refine derives_of_rule hx hsymbol he (deriveFrom_call hkind ht htyped fun l => ha.kind_ne.2 l)
    fun _ u table hu hle htable => ?_
  refine (iha u table hu hle htable).bind fun da p hp h₁ hda _ ha' => ?_
  have hva := ha'.2.value ha hsymbol hua
  have hle' := hle.trans h₁
  obtain ⟨hwf₁, hm₁⟩ := good_pair.1 hp
  refine (ha'.1.delivers_lift hm₁ (delivers_chainTerm (good_store.2 hwf₁) hd
    (by simpa using hknown'.mono hle') hda hva (delivers_partialDerivative (good_store.2 hwf₁) hd
      hf (hknown'.mono hle') (Meaning.denotes_value ha)))).bind
    fun terms q hq h₂ hterms _ hvalues => ?_
  obtain ⟨htable', vs, hvs, hsum⟩ := hvalues
  obtain ⟨hwf₂, hm₂⟩ := good_pair.1 hq
  refine (htable'.delivers_lift hm₂ (delivers_sum (good_store.2 hwf₂) hd hterms hvs)).ensures.imp
    fun e' _ _ _ hp => ⟨hp.1, fun _ _ _ => ?_, fun h => by simp [number?, hkind] at h⟩
  convert hp.2 using 1
  rw [hsum]
  funext ρ
  rw [slope_call hkind ht hf.ne_pow ha, mul_comm]
  rfl

/-- The summands of the chain rule for a power: that for the exponent vanishes. -/
lemma ensures_chainTerms_pow (hd : 0 < d) (hs : Good (s, table))
    (htable : DerivativeTable.Relates (IsDerivative I) s table) (hsymbol : x.isSymbol = true) {k : ℕ}
    (hk : 0 < k) (hknown : s.Knows b) (hknown' : s.Knows n) (hb : b.IsScalar Builtin.IsSmooth)
    (hn : IsLiteral k n) (hub : Unbound x b) (ihb : Derives I d s x b) (ihn : Derives I d s x n) :
    Ensures faithfulStores d (s, table) (chainTerms x (.builtin .pow) [b, n] 0 [b, n]) fun ts p =>
      DerivativeTable.Relates (IsDerivative I) p.1 p.2 ∧ p.1.Knows ts ∧
        ∃ vs, List.Forall₂ (HasValue Builtin.IsSmooth I) vs ts ∧ vs.sum =
          (k * (fun ρ => b.value I ρ) ^ (k - 1) : Valuation A → A) * b.slope I x.ordinal := by
  simp only [chainTerms, chainTermsWith]
  refine (ihb s table hs le_rfl htable).bind fun db p hp h₁ hdb _ hb' => ?_
  obtain ⟨hwf₁, hm₁⟩ := good_pair.1 hp
  refine (hb'.1.delivers_lift hm₁ (delivers_chainTerm (good_store.2 hwf₁) hd
    (by simpa using ⟨hknown.mono h₁, hknown'.mono h₁⟩) hdb (hb'.2.value hb hsymbol hub)
    (delivers_partialDerivative_pow (good_store.2 hwf₁) hd hk (hknown.mono h₁) (hknown'.mono h₁)
      (Meaning.denotes_value hb) hn))).bind fun ts q hq h₂ hts _ hvalues => ?_
  obtain ⟨htable', hvs⟩ := hvalues
  intro l r hrun hr
  obtain ⟨rest, r', hrest, hpure⟩ := Run.bind_eq_ok.1 hrun
  cases hpure
  -- The exponent does not vary.
  suffices h : Ensures faithfulStores d q (do
      let dn ← deriveFrom x n
      let term ← (liftM ((Function.builtin .pow).chainTerm [b, n] (0 + 1) dn) :
        Memoized DerivativeTable (List Expr))
      return term ++ (← pure [])) fun l p =>
        DerivativeTable.Relates (IsDerivative I) p.1 p.2 ∧ l = [] by
    obtain ⟨htable'', rfl⟩ := h rest r hrest hr
    rw [List.append_nil]
    have hle : q.1 ≤ r.1 := Growing.le_of_ok hrest
    exact ⟨htable'', Knows.mono hts hle, hvs⟩
  refine (ihn q.1 q.2 hq (h₁.trans h₂) htable').bind fun dn r hr _ _ _ hn' => ?_
  have hzero : dn.isZero = true :=
    (hn'.2.literal hn.isSome hsymbol).isZero.2 rfl
  obtain ⟨hwf₂, hm₂⟩ := good_pair.1 hr
  have hterm : (Function.builtin .pow).chainTerm [b, n] (0 + 1) dn = pure [] := by
    rw [Function.chainTerm, if_pos hzero]
  rw [hterm]
  rintro _ _ ⟨⟩ _
  exact ⟨hn'.1, rfl⟩

/-- The chain rule for powers. -/
lemma derives_power (hd : 0 < d) (hwf : s.WellFormed) (hx : s.Knows x) (hsymbol : x.isSymbol = true)
    (he : s.Knows e) {k : ℕ} (hpower : e.power? = some (b, n)) (hk : 0 < k) (hn : IsLiteral k n)
    (hb : b.IsScalar Builtin.IsSmooth) (hub : Unbound x b) (ihb : Derives I d s x b) :
    Derives I d s x e := by
  obtain ⟨t, a, hkind, ht, ha⟩ := power?_eq_some.1 hpower
  obtain ⟨hknown, hknown'⟩ := hwf.knows_of_apply he hkind
  obtain ⟨hknownb, hknownn⟩ := hwf.knows_of_pair hknown' ha
  have htyped := (hwf.admits hknown).typed
  rw [ht] at htyped
  refine derives_of_rule hx hsymbol he (deriveFrom_power hkind ht htyped ha) fun _ u table hu hle htable => ?_
  have hpair : u.Knows [b, n] := by simpa using ⟨hknownb.mono hle, hknownn.mono hle⟩
  refine Delivers.bind ⟨yields_chainTerms hu (fun c hc v table' hv hle' =>
    yields_deriveFrom hv ((hpair c hc).mono hle')) _ hpair 0 d,
    ensures_chainTerms_pow hd hu htable hsymbol hk (hknownb.mono hle) (hknownn.mono hle) hb hn hub
      (ihb.mono hle) ((derives_leaf hx hsymbol hknownn (.inr ⟨k, hn⟩)).mono hle)⟩ ?_
  intro ts p hp _ _ _ hvalues
  obtain ⟨htable', hts, vs, hvs, hsum⟩ := hvalues
  obtain ⟨hwf₁, hm₁⟩ := good_pair.1 hp
  refine (htable'.delivers_lift hm₁ (delivers_sum (good_store.2 hwf₁) hd hts hvs)).ensures.imp
    fun e' _ _ _ hp => ⟨hp.1, fun _ _ _ => ?_, fun h => by simp [number?, hkind] at h⟩
  convert hp.2 using 1
  rw [hsum]
  funext ρ
  rw [slope_power hpower hn hb]
  rfl

/-- A summation is derived under the sum. -/
lemma derives_indexedSum (hd : 0 < d) (hwf : s.WellFormed) (hx : s.Knows x)
    (hsymbol : x.isSymbol = true) (he : s.Knows e) {index lower upper body : Expr}
    (hkind : e.kind = .indexedSum index lower upper body) (hindex : index.isSymbol = true)
    (hl : lower.IsScalar Builtin.IsSmooth) (hu : upper.IsScalar Builtin.IsSmooth)
    (hb : body.IsScalar Builtin.IsSmooth) (hne : index.ordinal ≠ x.ordinal) (hub : Unbound x body)
    (ihb : Derives I d s x body) : Derives I d s x e := by
  have hknown := hwf.children he
  simp only [children, hkind, Kind.children, Store.knows_cons] at hknown
  refine derives_of_rule hx hsymbol he (deriveFrom_indexedSum hkind) fun _ u table hgood hle htable => ?_
  refine (ihb u table hgood hle htable).bind fun db p hp h₁ hdb _ hb' => ?_
  have hvalue := hb'.2.value hb hsymbol hub
  have hslope : e.slope I x.ordinal = rangeValue I index.ordinal (fun ρ => lower.value I ρ)
      (fun ρ => upper.value I ρ) (body.slope I x.ordinal) := funext fun ρ =>
    slope_indexedSum hkind hl hu hne
  have hnumber : e.number? = none := by simp [number?, hkind]
  refine .ite (fun hzero => .pure ⟨hb'.1, fun _ _ _ => ⟨hvalue.scalar, ?_⟩,
    fun h => by simp [hnumber] at h⟩) fun _ => ?_
  · rw [hvalue.value_eq, hslope, eq_zero_of_isZero hvalue hzero]
    funext ρ
    simp [rangeValue]
  · obtain ⟨hwf₁, hm₁⟩ := good_pair.1 hp
    have hle' := hle.trans h₁
    have hreindexed := delivers_reindexed yields_substitute (substitutesSymbol_substitute hd)
      (good_store.2 hwf₁) (hknown.1.mono hle') hindex (Meaning.denotes_value hl)
      (Meaning.denotes_value hu) hvalue (hknown.2.1.mono hle') (hknown.2.2.1.mono hle') hdb
    have h := (hb'.1.delivers_lift hm₁ hreindexed).ensures
    rw [liftM_bind] at h
    simp only [liftM_bind] at h
    refine h.imp fun e' _ _ _ hp =>
      ⟨hp.1, fun _ _ _ => by rw [hslope]; exact hp.2, fun h => by simp [hnumber] at h⟩

/-- The derivative of a scalar is found by the rules. -/
theorem derives_of_isScalar (hd : 0 < d) (hwf : s.WellFormed) (hx : s.Knows x)
    (hsymbol : x.isSymbol = true) (hscalar : e.IsScalar Builtin.IsSmooth) (he : s.Knows e)
    (hunbound : Unbound x e) : Derives I d s x e := by
  have hchildren {e : Expr} (he : s.Knows e) : ∀ c ∈ e.children, s.Knows c := hwf.children he
  induction hscalar with
  | symbol hkind _ => exact derives_leaf hx hsymbol he (.inl (by simp [isSymbol, hkind]))
  | literal hliteral => exact derives_leaf hx hsymbol he (.inr ⟨_, hliteral⟩)
  | @sum e terms hkind _ hterms ih =>
    have hmem : e.children = terms := by rw [children, hkind, Kind.children]
    exact derives_sum hd hwf hx hsymbol he hkind
      (fun c hc => ⟨hterms c hc, hunbound.child (hmem ▸ hc)⟩) fun c hc =>
        ih c hc (hchildren he c (hmem ▸ hc)) (hunbound.child (hmem ▸ hc))
  | @product e t a hkind _ ht ha iht iha =>
    have hmem : e.children = [t, a] := by rw [children, hkind, Kind.children]
    have hut := hunbound.child (c := t) (by simp [hmem])
    have hua := hunbound.child (c := a) (by simp [hmem])
    exact derives_product hd hwf hx hsymbol he hkind ht ha hut hua
      (iht (hchildren he t (by simp [hmem])) hut) (iha (hchildren he a (by simp [hmem])) hua)
  | @power e b n k hpower _ hb hk hn ihb =>
    obtain ⟨t, a, hkind, -, ha⟩ := power?_eq_some.1 hpower
    have hmem : e.children = [t, a] := by rw [children, hkind, Kind.children]
    have hmem' : a.children = [b, n] := by rw [children, ha, Kind.children]
    have hub := (hunbound.child (c := a) (by simp [hmem])).child (c := b) (by simp [hmem'])
    exact derives_power hd hwf hx hsymbol he hpower hk hn hb hub
      (ihb (hchildren (hchildren he a (by simp [hmem])) b (by simp [hmem'])) hub)
  | @call e t a f hkind _ ht _ hf ha iha =>
    have hmem : e.children = [t, a] := by rw [children, hkind, Kind.children]
    have hua := hunbound.child (c := a) (by simp [hmem])
    exact derives_call hd hwf hx hsymbol he hkind ht hf ha hua
      (iha (hchildren he a (by simp [hmem])) hua)
  | @indexedSum e index lower upper body hkind _ hindex hl hu hb _ _ ihb =>
    have hmem : e.children = [index, lower, upper, body] := by rw [children, hkind, Kind.children]
    have hub := hunbound.child (c := body) (by simp [hmem])
    exact derives_indexedSum hd hwf hx hsymbol he hkind hindex hl hu hb
      (hunbound.self hkind) hub
      (ihb (hchildren he body (by simp [hmem])) hub)

/-- **Differentiation is correct.**  If a symbol that no summation in `e` binds has a derivative of
`e`, and nothing has happened in the final store that results could be wrong by, then the value of `e`
in the dual numbers, where the symbol is moved by `ε`, is the value of `e` plus `ε` times that of the
derivative. -/
theorem value_derive (hs : s.WellFormed) (hd : 0 < d) (hx : s.Knows x) (he : s.Knows e)
    (hscalar : e.IsScalar Builtin.IsSmooth) (hunbound : Unbound x e) {e' : Expr} {t : Store}
    (hrun : derive e x d s = .ok e' t) (ht : t.Faithful) :
    e'.IsScalar Builtin.IsSmooth ∧ ∀ ρ : Valuation A, e.value I.dual (moved x.ordinal ρ) =
      TrivSqZeroExt.inl (e.value I ρ) + TrivSqZeroExt.inr (e'.value I ρ) := by
  unfold derive checkVariable at hrun
  split at hrun
  · rename_i hsymbol
    have hderives := derives_of_isScalar (I := I) hd hs hx hsymbol hscalar he hunbound s ∅
      (good_pair.2 ⟨hs, knows_noDerivatives⟩) le_rfl .empty
    rw [pure_bind] at hrun
    have hvalue := Ensures.forgetting (Q := fun e' _ => IsDerivative I e x e')
      (hderives.ensures.imp fun _ _ _ _ h => h.2) e' t hrun ht
    obtain ⟨hscalar', hslope⟩ := hvalue.value hscalar hsymbol hunbound
    refine ⟨hscalar', fun ρ => ?_⟩
    rw [value_dual hscalar, ← congrFun hslope ρ]
    rfl
  · cases hrun

end Rules

end Expr

end TermGraph
