import TermGraph.Proofs.Meaning.Derivatives
import TermGraph.Proofs.Typing.Preservation

/-!
# Derivatives of scalars exist

The derivative of a scalar by a symbol is a scalar of the same rank.  So it is found at depths above this
rank, and only a summation can be refused: its body is written with another index, and then the products
in a bound may merge equal factors to a power, which is a real.

* `Expr.Derived e r`: `r` is a scalar of the rank of `e`, and zero if `e` is a literal.
* `Expr.DerivesInto d s x e`: from `s` on, runs at depth `d` find such a derivative of `e` by `x`, or
  refuse a bound.
* `Expr.derivesInto_of_isScalar`: so it is with scalars of rank `k` at depths above `k + 1`.
* `Store.Reachable.derive_scalar`: derivation of scalars, with the value of the derivative.
-/

namespace TermGraph

open Store (Knows typedStores typedStores_le)

/-! ## Tables -/

namespace DerivativeTable.Relates

variable {R : Expr → Expr → Expr → Prop} {s : Store} {table : DerivativeTable} {e x : Expr} {d : ℕ}
  {P : LowerSet Store}

/-- A derivative that was remembered is as good as a new one. -/
lemma resolves_remember {y : Memoized DerivativeTable Expr} [Growing y]
    (h : DerivativeTable.Relates R s table) (he : s.Knows e) (hx : s.Knows x)
    (hy : Resolves P d (s, table) y fun r p => DerivativeTable.Relates R p.1 p.2 ∧ R e x r) :
    Resolves P d (s, table) (Memoized.rememberDerivative e x y) fun r p =>
      DerivativeTable.Relates R p.1 p.2 ∧ R e x r := by
  unfold Memoized.rememberDerivative
  rw [Resolves, Run.bind_apply_ok (x := Memoized.memo) rfl]
  cases hfound : table[[e.ordinal, x.ordinal]]? with
  | some known => exact fun _ => ⟨h, h.get he hx hfound⟩
  | none =>
    dsimp only
    rw [Run.bind_apply]
    cases hr : y d (s, table) with
    | error err p => exact hy.of_error hr
    | ok r p =>
      intro hp
      obtain ⟨hrelates, hR⟩ := hy.of_ok hr hp
      have hle := Growing.le_of_ok hr
      exact ⟨hrelates.insert (he.mono hle) (hx.mono hle) hR, hR⟩

/-- What a computation completes, it completes next to a table. -/
lemma completes_lift {α : Type} [Knowable α] {y : Build α} [Growing y] {Q : α → Prop}
    (h : DerivativeTable.Relates R s table) (hknown : s.Knows table)
    (hy : Completes P d s y fun a _ => Q a) :
    Completes P d (s, table) (liftM y : Memoized DerivativeTable α) fun a p =>
      DerivativeTable.Relates R p.1 p.2 ∧ Q a where
  yields := (hy.lift hknown).yields
  resolves := (hy.lift hknown).resolves.imp fun _ _ hrun _ hp =>
    ⟨hp.1 ▸ h.mono (Growing.le_of_ok hrun), hp.2⟩

end DerivativeTable.Relates

namespace Expr

variable {s : Store} {table : DerivativeTable} {d k : ℕ} {e r t a b n x : Expr} {l : List Expr}

/-! ## Scalars of a rank -/

namespace Suits

lemma of_isLiteral {c : ℤ} {P : Prop} (h : IsLiteral c e) : Suits P k e :=
  .of_number h.isSome h.real

/-- The product of two scalars. -/
lemma achieves_apply (hd : k + 1 < d) (hs : Good s) (ht : Suits True k t) (ha : Suits True k a)
    (hknown : s.Knows t) (hknown' : s.Knows a) : Achieves d s (apply t a) (Suits True k) := by
  refine ⟨yields_apply s t a hs hknown hknown' d, ?_⟩
  obtain ⟨depth, rfl⟩ : ∃ i, d = i + 1 := ⟨d - 1, by omega⟩
  exact (achieves_applyAux hd hs ht ha hknown hknown').exact.of_run_eq
    (Run.bind_apply_ok (Run.read_apply _ s))

lemma achieves_mul (hd : k + 1 < d) (hs : Good s) (ht : Suits True k t) (ha : Suits True k a)
    (hknown : s.Knows t) (hknown' : s.Knows a) : Achieves d s (product [t, a]) (Suits True k) := by
  refine ⟨yields_product s _ hs (by simpa using ⟨hknown, hknown'⟩) d, ?_⟩
  exact (achieves_apply hd hs ht ha hknown hknown').exact.bind fun e _ _ _ he => .pure he

lemma achieves_neg (hd : k + 1 < d) (hs : Good s) (ha : Suits True k a) (hknown : s.Knows a) :
    Achieves d s (neg a) (Suits True k) where
  yields := yields_neg hs hknown d
  exact := by
    unfold neg int
    exact (achieves_number hs _).bind fun m t ht hle hm _ hsuits =>
      (achieves_apply hd ht hsuits ha hm (hknown.mono hle)).exact

/-- A call of a function of one argument. -/
lemma achieves_callOne (hd : 0 < d) (hs : Good s) {f : Builtin} (hf : f ≠ .pow) (ha : Suits True k a)
    (hknown : s.Knows a) : Achieves d s (call (.builtin f) [a]) (Suits True k) where
  yields := yields_call hs (by simp) (by simpa using hknown) d
  exact := by
    obtain ⟨depth, rfl⟩ : ∃ i, d = i + 1 := ⟨d - 1, by omega⟩
    unfold call
    refine (achieves_builtin hs f).bind fun t u hu hle hknownt _ ht => ?_
    simp only [tuple, pure_bind]
    refine Exact.of_run_eq ?_ (Run.bind_apply_ok (Run.read_apply _ u))
    rw [applyAux_call ht hf ha.ranked.kind_ne.2.1]
    exact (achieves_call hu ht hf ha hknownt (hknown.mono hle)).exact

/-- A call of the power function. -/
lemma achieves_callPower (hd : 0 < d) (hs : Good s) (hb : Suits True k b) (hn : Exponent k n)
    (hknown : s.Knows b) (hknown' : s.Knows n) :
    Achieves d s (call (.builtin .pow) [b, n]) (Suits True k) where
  yields := yields_call hs (by simp) (by simpa using ⟨hknown, hknown'⟩) d
  exact := by
    obtain ⟨depth, rfl⟩ : ∃ i, d = i + 1 := ⟨d - 1, by omega⟩
    unfold call
    refine (achieves_builtin hs .pow).bind fun t u hu hle hknownt _ ht => ?_
    refine (achieves_pair hu (hknown.mono hle) (hknown'.mono hle)).bind
      fun p w hw hle' hknownp _ hp => ?_
    refine Exact.of_run_eq ?_ (Run.bind_apply_ok (Run.read_apply _ w))
    rw [applyAux_power ht hp]
    exact (achieves_powerOf hw ht hp (hknownt.mono hle') hknownp hb hn).exact

/-! ## Partial derivatives -/

/-- The partial derivatives of the functions of one argument. -/
lemma achieves_partialDerivative (hd : k + 1 < d) (hs : Good s) {f : Builtin} (hf : f.IsSmooth)
    (ha : Suits True k a) (hknown : s.Knows a) :
    Achieves d s ((Function.builtin f).partialDerivative 0 [a]) (Suits True k) where
  yields := Function.yields_partialDerivative hs _ 0 (by simpa using hknown) d
  exact := by
    have hcall {g : Builtin} (hg : g ≠ .pow) : Achieves d s (call (.builtin g) [a]) (Suits True k) :=
      achieves_callOne (by omega) hs hg ha hknown
    rcases hf with rfl | rfl | rfl
    · simpa [Function.partialDerivative, Function.partialDerivative?, Builtin.partialDerivative] using
        (hcall (g := .exp) (by decide)).exact
    · simpa [Function.partialDerivative, Function.partialDerivative?, Builtin.partialDerivative] using
        (hcall (g := .cos) (by decide)).exact
    · have hrun : (Function.builtin .cos).partialDerivative 0 [a] =
          (do neg (← call (.builtin .sin) [a])) := by
        simp [Function.partialDerivative, Function.partialDerivative?, Builtin.partialDerivative]
      rw [hrun]
      exact (hcall (by decide)).bind fun e t ht _ he _ hsuits => (achieves_neg hd ht hsuits he).exact

/-- The partial derivative of a literal power by its base. -/
lemma achieves_partialDerivative_pow (hd : k + 1 < d) (hs : Good s) {c : ℤ} (hb : Suits True k b)
    (hn : IsLiteral c n) (hknown : s.Knows b) (hknown' : s.Knows n) :
    Achieves d s ((Function.builtin .pow).partialDerivative 0 [b, n]) (Suits True k) where
  yields := Function.yields_partialDerivative hs _ 0 (by simpa using ⟨hknown, hknown'⟩) d
  exact := by
    have hrun : (Function.builtin .pow).partialDerivative 0 [b, n] = (do
        let lowered ← sum [n, ← int (-1)]
        let lowerPower ← call (.builtin .pow) [b, lowered]
        product [n, lowerPower]) := by
      simp [Function.partialDerivative, Function.partialDerivative?, Builtin.partialDerivative]
    have hsuits : Suits True k n := .of_isLiteral hn
    rw [hrun]
    refine (achieves_int hs (-1)).bind fun m t ht hle hknownm _ hm => ?_
    have hn' := hknown'.mono hle
    have hliterals : AreLiterals [n, m] := by simpa [AreLiterals] using ⟨hn.self, hm.self⟩
    have hsum : Achieves d t (sum [n, m]) fun e => IsLiteral ([n, m].map intValue).sum e :=
      ⟨yields_sum t _ ht (by simpa using ⟨hn', hknownm⟩) d, exact_sumWith_literals ht hliterals (by simp)⟩
    refine hsum.bind fun lowered u hu hle' hlowered _ hliteral => ?_
    have hle'' := hle.trans hle'
    refine (achieves_callPower (by omega) hu hb (.of_number hliteral.isSome hliteral.real)
      (hknown.mono hle'') hlowered).bind fun power w hw hle₃ hpower _ hsuits' => ?_
    exact (achieves_mul hd hw hsuits hsuits' (hknown'.mono (hle''.trans hle₃)) hpower).exact

/-- A summand of the chain rule. -/
lemma achieves_chainTerm (hd : k + 1 < d) (hs : Good s) {f : Function} {args : List Expr}
    (hargs : s.Knows args) (he : Suits True k e) (hknown : s.Knows e)
    (hpartial : Achieves d s (f.partialDerivative 0 args) (Suits True k)) :
    Achieves d s (f.chainTerm args 0 e) fun ts => ∀ r ∈ ts, Suits True k r where
  yields := Function.yields_chainTerm hs f hargs 0 hknown d
  exact := by
    unfold Function.chainTerm
    split
    · exact .pure (by simp)
    · refine hpartial.bind fun outer t ht hle houter _ hsuits => ?_
      exact (achieves_mul hd ht hsuits he houter (hknown.mono hle)).bind
        fun r _ _ _ _ _ hr => .pure (by simpa using hr)

/-- A summand of the product rule. -/
lemma achieves_productUnlessZero (hd : k + 1 < d) (hs : Good s) (ht : Suits True k t)
    (ha : Suits True k a) (hknown : s.Knows t) (hknown' : s.Knows a) :
    Achieves d s (productUnlessZero e [t, a]) (Suits True k) := by
  unfold productUnlessZero
  split
  · exact achieves_zero hs
  · exact achieves_mul hd hs ht ha hknown hknown'

end Suits

/-! ## The rules -/

/-- The derivative `r` of `e` is a scalar of the rank of `e`, and zero if `e` is a literal. -/
structure Derived (e r : Expr) : Prop where
  /-- It is a scalar of the same rank. -/
  suits : ∀ {k : ℕ}, Ranked k e → Suits True k r
  /-- That of a literal is zero. -/
  zero : e.number?.isSome = true → r.isZero = true

/-- Only the least rank matters. -/
lemma Derived.of_least (hleast : ∀ i, Ranked i e → k ≤ i) (hnumber : e.number? = none)
    (hr : Suits True k r) : Derived e r :=
  ⟨fun h => ⟨hr.ranked.mono (hleast _ h), hr.isScalar⟩, fun h => by simp [hnumber] at h⟩

/-- The derivatives in a table are scalars of the ranks of the expressions. -/
abbrev AllDerived (s : Store) (table : DerivativeTable) : Prop :=
  DerivativeTable.Relates (fun e _ r => Derived e r) s table

/-- From `s` on, and with derivatives in the table, the derivative of `e` by `x` is found at depth `d`, or
a bound is refused. -/
def DerivesInto (d : ℕ) (s : Store) (x e : Expr) : Prop :=
  ∀ (t : Store) (table : DerivativeTable), Good (t, table) → s ≤ t → AllDerived t table →
    Completes typedStores d (t, table) (deriveFrom x e) fun r p => AllDerived p.1 p.2 ∧ Derived e r

section Rules

lemma DerivesInto.mono {t : Store} (h : DerivesInto d s x e) (hle : s ≤ t) : DerivesInto d t x e :=
  fun u table hu hle' => h u table hu (hle.trans hle')

/-- What is remembered for a node is found by the rule for its kind, unless it is the variable. -/
lemma derivesInto_of_rule (hx : s.Knows x) (hsymbol : x.isSymbol = true) (he : s.Knows e)
    {y : Memoized DerivativeTable Expr} [Growing y]
    (hrun : deriveFrom x e = .rememberDerivative e x (if e == x then liftM one else y))
    (hy : ∀ (t : Store) (table : DerivativeTable), Good (t, table) → s ≤ t → AllDerived t table →
      Resolves typedStores d (t, table) y fun r p => AllDerived p.1 p.2 ∧ Derived e r) :
    DerivesInto d s x e := by
  intro t table ht hle htable
  refine ⟨yields_deriveFrom ht (he.mono hle) d, ?_⟩
  rw [hrun]
  refine htable.resolves_remember (he.mono hle) (hx.mono hle) ?_
  refine .ite (fun heq => ?_) fun _ => hy t table ht hle htable
  rw [beq_iff_ordinal] at heq
  obtain rfl := Store.WellFormed.eq_of_ordinal he hx heq
  obtain ⟨name, hkind⟩ := exists_symbol hsymbol
  obtain ⟨hwf, hknown⟩ := good_pair.1 ht
  refine (htable.completes_lift hknown ((achieves_one (good_store.2 hwf)).completes
    typedStores_le)).resolves.imp fun r p _ _ hp => ⟨hp.1, fun _ => .of_isLiteral hp.2, ?_⟩
  simp [number?, hkind]

/-- Literals, and symbols other than the variable. -/
lemma derivesInto_leaf (hx : s.Knows x) (hsymbol : x.isSymbol = true) (he : s.Knows e)
    (hleaf : e.isSymbol = true ∨ e.number?.isSome = true) : DerivesInto d s x e := by
  refine derivesInto_of_rule hx hsymbol he (deriveFrom_leaf hleaf) fun t table ht hle htable => ?_
  obtain ⟨hwf, hknown⟩ := good_pair.1 ht
  exact (htable.completes_lift hknown ((achieves_zero (good_store.2 hwf)).completes
    typedStores_le)).resolves.imp fun r p _ _ hp =>
      ⟨hp.1, fun _ => .of_isLiteral hp.2, fun _ => hp.2.isZero.2 rfl⟩

/-- The derivatives of a list of expressions. -/
lemma completes_deriveAll (hs : Good (s, table)) (htable : AllDerived s table) (hl : s.Knows l)
    (h : ∀ c ∈ l, DerivesInto d s x c) :
    Completes typedStores d (s, table) (deriveAll x l) fun rs p =>
      AllDerived p.1 p.2 ∧ List.Forall₂ Derived l rs where
  yields := yields_deriveAll hs (fun c hc _ _ ht hle => yields_deriveFrom ht ((hl c hc).mono hle)) d
  resolves := by
    induction l generalizing s table with
    | nil =>
      unfold deriveAll deriveAllWith
      exact .pure ⟨htable, .nil⟩
    | cons c l ih =>
      rw [List.forall_mem_cons] at h
      rw [Store.knows_cons] at hl
      unfold deriveAll deriveAllWith
      refine (h.1 s table hs le_rfl htable).bind fun r p hp hle _ _ hr => ?_
      refine (ih hp hr.1 (hl.2.mono hle) fun c hc => (h.2 c hc).mono hle).bind fun rs q _ _ hrs => ?_
      exact .pure ⟨hrs.1, .cons hr.2 hrs.2⟩

/-- Sums are derived term by term. -/
lemma derivesInto_sum (hwf : s.WellFormed) (hx : s.Knows x) (hsymbol : x.isSymbol = true)
    (he : s.Knows e) (hranked : Ranked k e) (hd : k + 1 < d) {terms : List Expr}
    (hkind : e.kind = .sum terms) (h : ∀ c ∈ terms, DerivesInto d s x c) : DerivesInto d s x e := by
  have hknown := hwf.children he
  rw [children, hkind, Kind.children] at hknown
  obtain ⟨i, hle, hi, hleast⟩ := hranked.exists_least
  refine derivesInto_of_rule hx hsymbol he (deriveFrom_sum hkind) fun t table ht hle' htable => ?_
  refine (completes_deriveAll ht htable (hknown.mono hle') fun c hc => (h c hc).mono hle').bind
    fun rs p hp _ hrs _ hderived => ?_
  obtain ⟨hwf', hknown'⟩ := good_pair.1 hp
  have hsuits : ∀ r ∈ rs, Suits True i r := fun r hr => by
    obtain ⟨c, hc, hcr⟩ := exists_of_forall₂ hderived.2 r hr
    exact hcr.suits ((hi.of_sum hkind).1 c hc)
  exact (hderived.1.completes_lift hknown' ((Suits.achieves_sum (by omega) (good_store.2 hwf') hrs
    hsuits).completes typedStores_le)).resolves.imp fun r q _ _ hq =>
      ⟨hq.1, .of_least hleast (by simp [number?, hkind]) hq.2⟩

/-- Products are derived by the product rule. -/
lemma derivesInto_product (hwf : s.WellFormed) (hx : s.Knows x) (hsymbol : x.isSymbol = true)
    (he : s.Knows e) (hranked : Ranked k e) (hd : k + 1 < d) (hkind : e.kind = .apply t a)
    (hm : multiplies t a = true) (ht : t.IsReal) (ha : a.IsReal) (iht : DerivesInto d s x t)
    (iha : DerivesInto d s x a) : DerivesInto d s x e := by
  obtain ⟨hknown, hknown'⟩ := hwf.knows_of_apply he hkind
  obtain ⟨i, hle, hi, hleast⟩ := hranked.exists_least
  have hi' : i + 1 < d := by omega
  obtain ⟨⟨hti, hai⟩, -⟩ := hi.of_product hkind hm
  have htarget : Suits True i t := ⟨hti, fun _ => ht.isScalar⟩
  have hargument : Suits True i a := ⟨hai, fun _ => ha.isScalar⟩
  refine derivesInto_of_rule hx hsymbol he (deriveFrom_product hkind ht) fun u table hu hle' htable => ?_
  refine (iht u table hu hle' htable).bind fun dt p hp h₁ hdt _ ht' => ?_
  refine (iha p.1 p.2 hp (hle'.trans h₁) ht'.1).bind fun da q hq h₂ hda _ ha' => ?_
  have hle'' := hle'.trans (h₁.trans h₂)
  obtain ⟨hwf₁, hm₁⟩ := good_pair.1 hq
  refine (ha'.1.completes_lift hm₁ ((Suits.achieves_productUnlessZero hi' (good_store.2 hwf₁)
    (ht'.2.suits hti) hargument (hdt.mono h₂) (hknown'.mono hle'')).completes typedStores_le)).bind
      fun left r hr h₃ hleft _ hl => ?_
  obtain ⟨hwf₂, hm₂⟩ := good_pair.1 hr
  refine (hl.1.completes_lift hm₂ ((Suits.achieves_productUnlessZero hi' (good_store.2 hwf₂) htarget
    (ha'.2.suits hai) (hknown.mono (hle''.trans h₃)) (hda.mono h₃)).completes typedStores_le)).bind
      fun right r' hr' h₄ hright _ hr => ?_
  obtain ⟨hwf₃, hm₃⟩ := good_pair.1 hr'
  exact (hr.1.completes_lift hm₃ ((Suits.achieves_sum (by omega) (good_store.2 hwf₃)
    (by simpa using ⟨hleft.mono h₄, hright⟩) (by simpa using ⟨hl.2, hr.2⟩)).completes
      typedStores_le)).resolves.imp fun r _ _ _ hsum =>
        ⟨hsum.1, .of_least hleast (by simp [number?, hkind]) hsum.2⟩

/-- Calls are derived by the chain rule. -/
lemma derivesInto_call (hwf : s.WellFormed) (hx : s.Knows x) (hsymbol : x.isSymbol = true)
    (he : s.Knows e) (hranked : Ranked k e) (hd : k + 1 < d) {f : Builtin} (hkind : e.kind = .apply t a)
    (ht : t.kind = .function (.builtin f)) (hf : f.IsSmooth) (iha : DerivesInto d s x a) :
    DerivesInto d s x e := by
  obtain ⟨hknown, hknown'⟩ := hwf.knows_of_apply he hkind
  have htyped := (hwf.admits hknown).typed
  rw [ht] at htyped
  obtain ⟨i, hle, hi, hleast⟩ := hranked.exists_least
  have hi' : i + 1 < d := by omega
  obtain ⟨hai, hscalar⟩ := hi.of_call hkind ht hf.ne_pow
  refine derivesInto_of_rule hx hsymbol he (deriveFrom_call hkind ht htyped hai.kind_ne.2.1)
    fun u table hu hle' htable => ?_
  refine (iha u table hu hle' htable).bind fun da p hp h₁ hda _ ha' => ?_
  obtain ⟨hwf₁, hm₁⟩ := good_pair.1 hp
  have hka : p.1.Knows a := hknown'.mono (hle'.trans h₁)
  refine (ha'.1.completes_lift hm₁ ((Suits.achieves_chainTerm hi' (good_store.2 hwf₁)
    (by simpa using hka) (ha'.2.suits hai) hda (Suits.achieves_partialDerivative hi'
      (good_store.2 hwf₁) hf ⟨hai, fun _ => hscalar⟩ hka)).completes typedStores_le)).bind
        fun terms q hq h₂ hterms _ hsuits => ?_
  obtain ⟨hwf₂, hm₂⟩ := good_pair.1 hq
  exact (hsuits.1.completes_lift hm₂ ((Suits.achieves_sum (by omega) (good_store.2 hwf₂) hterms
    hsuits.2).completes typedStores_le)).resolves.imp fun r _ _ _ hr =>
      ⟨hr.1, .of_least hleast (by simp [number?, hkind]) hr.2⟩

/-- The summands of the chain rule for a power. -/
lemma completes_chainTerms_pow (hd : k + 1 < d) (hs : Good (s, table)) (htable : AllDerived s table)
    {c : ℤ} (hknown : s.Knows b) (hknown' : s.Knows n) (hb : Suits True k b) (hn : IsLiteral c n)
    (ihb : DerivesInto d s x b) (ihn : DerivesInto d s x n) :
    Completes typedStores d (s, table) (chainTerms x (.builtin .pow) [b, n] 0 [b, n]) fun ts p =>
      AllDerived p.1 p.2 ∧ ∀ r ∈ ts, Suits True k r where
  yields := by
    have hpair : s.Knows [b, n] := by simpa using ⟨hknown, hknown'⟩
    exact yields_chainTerms hs (fun c hc t table' ht hle => yields_deriveFrom ht ((hpair c hc).mono hle))
      _ hpair 0 d
  resolves := by
    simp only [chainTerms, chainTermsWith]
    refine (ihb s table hs le_rfl htable).bind fun db p hp h₁ hdb _ hb' => ?_
    obtain ⟨hwf₁, hm₁⟩ := good_pair.1 hp
    refine (hb'.1.completes_lift hm₁ ((Suits.achieves_chainTerm hd (good_store.2 hwf₁)
      (by simpa using ⟨hknown.mono h₁, hknown'.mono h₁⟩) (hb'.2.suits hb.ranked) hdb
      (Suits.achieves_partialDerivative_pow hd (good_store.2 hwf₁) hb hn (hknown.mono h₁)
        (hknown'.mono h₁))).completes typedStores_le)).bind fun ts q hq h₂ _ _ hts => ?_
    refine Resolves.bind (Q := fun rest p => AllDerived p.1 p.2 ∧ rest = []) ?_ fun rest r _ _ hrest =>
      .pure ⟨hrest.1, by simpa [hrest.2] using hts.2⟩
    -- The exponent does not vary.
    refine (ihn q.1 q.2 hq (h₁.trans h₂) hts.1).bind fun dn r hr _ _ _ hn' => ?_
    have hterm : (Function.builtin .pow).chainTerm [b, n] (0 + 1) dn = pure [] := by
      rw [Function.chainTerm, if_pos (hn'.2.zero hn.isSome)]
    rw [hterm]
    exact .pure ⟨hn'.1, rfl⟩

/-- Powers are derived by the chain rule. -/
lemma derivesInto_power (hwf : s.WellFormed) (hx : s.Knows x) (hsymbol : x.isSymbol = true)
    (he : s.Knows e) (hranked : Ranked k e) (hd : k + 1 < d) {c : ℤ} (hpower : e.power? = some (b, n))
    (hn : IsLiteral c n) (ihb : DerivesInto d s x b) : DerivesInto d s x e := by
  obtain ⟨t, a, hkind, ht, ha⟩ := power?_eq_some.1 hpower
  obtain ⟨hknown, hknown'⟩ := hwf.knows_of_apply he hkind
  obtain ⟨hknownb, hknownn⟩ := hwf.knows_of_pair hknown' ha
  have htyped := (hwf.admits hknown).typed
  rw [ht] at htyped
  obtain ⟨i, hle, hi, hleast⟩ := hranked.exists_least
  have hi' : i + 1 < d := by omega
  obtain ⟨⟨hbi, hscalar⟩, -⟩ := hi.of_power hpower
  refine derivesInto_of_rule hx hsymbol he (deriveFrom_power hkind ht htyped ha)
    fun u table hu hle' htable => ?_
  refine (completes_chainTerms_pow hi' hu htable (hknownb.mono hle') (hknownn.mono hle')
    ⟨hbi, fun _ => hscalar⟩ hn (ihb.mono hle')
    ((derivesInto_leaf hx hsymbol hknownn (.inr hn.isSome)).mono hle')).bind
      fun terms p hp _ hterms _ hsuits => ?_
  obtain ⟨hwf₁, hm₁⟩ := good_pair.1 hp
  exact (hsuits.1.completes_lift hm₁ ((Suits.achieves_sum (by omega) (good_store.2 hwf₁) hterms
    hsuits.2).completes typedStores_le)).resolves.imp fun r _ _ _ hr =>
      ⟨hr.1, .of_least hleast (by simp [number?, hkind]) hr.2⟩

/-- A summation is derived under the sum, which may be refused. -/
lemma derivesInto_indexedSum (hwf : s.WellFormed) (hx : s.Knows x) (hsymbol : x.isSymbol = true)
    (he : s.Knows e) (hranked : Ranked k e) (hd : k + 1 < d) {index lower upper body : Expr}
    (hkind : e.kind = .indexedSum index lower upper body) (ihb : DerivesInto d s x body) :
    DerivesInto d s x e := by
  have hknown := hwf.children he
  simp only [children, hkind, Kind.children, Store.knows_cons] at hknown
  have hnumber : e.number? = none := by simp [number?, hkind]
  obtain ⟨_, hle, hi, hleast⟩ := hranked.exists_least
  obtain ⟨i, rfl, -, hindex, ⟨hlwhole, huwhole⟩, hlower, hupper, hbody⟩ := hi.of_indexedSum hkind
  refine derivesInto_of_rule hx hsymbol he (deriveFrom_indexedSum hkind) fun u table hu hle' htable => ?_
  refine (ihb u table hu hle' htable).bind fun db p hp h₁ hdb _ hb' => ?_
  have hsuits : Suits True i db := hb'.2.suits hbody
  refine .ite (fun _ => .pure ⟨hb'.1, .of_least hleast hnumber
    ⟨hsuits.ranked.mono i.le_succ, hsuits.isScalar⟩⟩) fun _ => ?_
  obtain ⟨hwf₁, hm₁⟩ := good_pair.1 hp
  have hle'' := hle'.trans h₁
  have hsub : Renames d i substitute :=
    renames_substituteWith yields_rebuild (rebuilds_rebuild (by omega))
  have hreindexed : Completes typedStores d p.1 (do
      let i ← beginIndexedSum lower upper
      endIndexedSum lower upper i (← substitute [(index, i)] db)) fun r _ => Sums lower upper db r :=
    ⟨yields_reindexed yields_substitute (good_store.2 hwf₁) (hknown.1.mono hle'')
        (hknown.2.1.mono hle'') (hknown.2.2.1.mono hle'') hdb d,
      resolves_reindexed yields_substitute hsub (good_store.2 hwf₁) hindex hlwhole huwhole
        hsuits.ranked (hknown.1.mono hle'') (hknown.2.1.mono hle'') (hknown.2.2.1.mono hle'') hdb⟩
  have h := (hb'.1.completes_lift hm₁ hreindexed).resolves
  rw [liftM_bind] at h
  simp only [liftM_bind] at h
  refine h.imp fun r _ _ _ hr => ⟨hr.1, .of_least hleast hnumber ?_⟩
  obtain ⟨⟨hld, hud⟩, q, b', hkind', hdomain', hq, hrefined⟩ := hr.2
  refine ⟨.indexedSum hkind' hdomain' hq ⟨hlwhole, hld⟩ ⟨huwhole, hud⟩ hlower hupper
    (hrefined.ranked hsuits.ranked), fun _ => ?_⟩
  rw [hdomain']
  exact hrefined.isScalar hsuits.ranked (hsuits.isScalar trivial)

/-- The derivative of a scalar of rank `k` is found by the rules, or a bound is refused. -/
theorem derivesInto_of_isScalar (hd : k + 1 < d) (hwf : s.WellFormed) (hx : s.Knows x)
    (hsymbol : x.isSymbol = true) (hscalar : e.IsScalar Builtin.IsSmooth) (hranked : Ranked k e)
    (he : s.Knows e) : DerivesInto d s x e := by
  have hchildren {e : Expr} (he : s.Knows e) : ∀ c ∈ e.children, s.Knows c := hwf.children he
  induction hscalar generalizing k with
  | symbol hkind _ => exact derivesInto_leaf hx hsymbol he (.inl (by simp [isSymbol, hkind]))
  | literal hliteral => exact derivesInto_leaf hx hsymbol he (.inr hliteral.isSome)
  | @sum e terms hkind _ _ ih =>
    have hmem : e.children = terms := by rw [children, hkind, Kind.children]
    exact derivesInto_sum hwf hx hsymbol he hranked hd hkind fun c hc =>
      ih c hc hd ((hranked.of_sum hkind).1 c hc) (hchildren he c (hmem ▸ hc))
  | @product e t a hkind _ ht ha iht iha =>
    have hmem : e.children = [t, a] := by rw [children, hkind, Kind.children]
    have hm : multiplies t a = true := by
      simp [multiplies, ht.function?, ht.real.isLinear, ha.real.isLinear]
    obtain ⟨⟨htarget, hargument⟩, -⟩ := hranked.of_product hkind hm
    exact derivesInto_product hwf hx hsymbol he hranked hd hkind hm ht.real ha.real
      (iht hd htarget (hchildren he t (by simp [hmem]))) (iha hd hargument (hchildren he a (by simp [hmem])))
  | @power e b n m hpower _ _ _ hn ihb =>
    obtain ⟨t, a, hkind, -, ha⟩ := power?_eq_some.1 hpower
    have hmem : a ∈ e.children := by simp [children, hkind, Kind.children]
    have hmem' : b ∈ a.children := by simp [children, ha, Kind.children]
    exact derivesInto_power hwf hx hsymbol he hranked hd hpower hn
      (ihb hd (hranked.of_power hpower).1.1 (hchildren (hchildren he a hmem) b hmem'))
  | @call e t a f hkind _ ht hpow hf _ iha =>
    have hmem : a ∈ e.children := by simp [children, hkind, Kind.children]
    exact derivesInto_call hwf hx hsymbol he hranked hd hkind ht hf
      (iha hd (hranked.of_call hkind ht hpow).1 (hchildren he a hmem))
  | @indexedSum e index lower upper body hkind _ _ _ _ _ _ _ ihb =>
    have hmem : body ∈ e.children := by simp [children, hkind, Kind.children]
    obtain ⟨i, rfl, -, -, -, -, -, hbody⟩ := hranked.of_indexedSum hkind
    exact derivesInto_indexedSum hwf hx hsymbol he hranked hd hkind
      (ihb (by omega) hbody (hchildren he body hmem))

end Rules

end Expr

namespace Store

open TermGraph.Expr

variable {s : Store} {d : ℕ} {e x : Expr}

/-- **Scalars can be derived.**  Let `e` be a scalar in a store without custom domains, and let no
summation in it bind the symbol `x`.  At depths above the number of nodes, and if nothing happens that
results could be wrong by and all summations over ranges lie in the domains of their bodies, `e` has a
derivative by `x`: in the dual numbers, where `x` is moved by `ε`, the value of `e` is its value plus `ε`
times that of the derivative.  Or else a real that stands for an integer and has a power is refused as a
bound of a summation. -/
theorem Reachable.derive_scalar (hs : s.Reachable) (hb : s.Builtin) (hx : s.Knows x)
    (hsymbol : x.isSymbol = true) (he : s.Knows e) (helementary : e.Elementary)
    (hscalar : e.IsScalar Builtin.IsSmooth) (hunbound : Unbound x e) (hd : s.nodes.size < d)
    (hfaithful : (finalState (derive e x d s.watched)).Faithful)
    (htyped : (finalState (derive e x d s.watched)).SumsTyped) :
    (∃ e' t, derive e x d s.watched = .ok e' t ∧ e'.IsScalar Builtin.IsSmooth ∧
      ∀ {A : Type} [CommRing A] (I : Reading A) (ρ : Valuation A),
        e.value I.dual (moved x.ordinal ρ) =
          TrivSqZeroExt.inl (e.value I ρ) + TrivSqZeroExt.inr (e'.value I ρ)) ∨
    ∃ b t, derive e x d s.watched = .error (.boundNotIntegral b) t ∧
      b.domain = .reals ∧ b.Whole ∧ b.HasPower := by
  have hwf := hs.wellFormed
  have hle : s.watched ≤ finalState (derive e x d s.watched) :=
    Growing.le_final (x := derive e x) d s.watched
  have hsums : s.SumsTyped := fun {e index lower upper body} he hkind hbody =>
    htyped (Knows.mono (show s.watched.Knows e from he) hle) hkind hbody
  have hranked := helementary.ranked hwf hs.led hb hsums he hscalar.real.isLinear
  have hlt := WellFormed.lt_size he
  have hrun : derive e x = Build.forgetting ∅ (deriveFrom x e) := by
    unfold derive checkVariable
    rw [if_pos hsymbol, pure_bind]
  have hresolves : Resolves typedStores d s.watched (derive e x) fun r _ => Derived e r := by
    rw [hrun]
    exact .forgetting ((derivesInto_of_isScalar (by omega) hwf.watched hx hsymbol hscalar hranked he
      s.watched ∅ (good_pair.2 ⟨hwf.watched, knows_noDerivatives⟩) le_rfl .empty).resolves.imp
        fun _ _ _ _ h => h.2)
  have hmem : finalState (derive e x d s.watched) ∈ typedStores := ⟨hfaithful.exact, htyped⟩
  have hyields := yields_derive (good_store.2 hwf.watched) he x d
  cases h : derive e x d s.watched with
  | ok e' t =>
    rw [h] at hfaithful
    have hvalue {A : Type} [CommRing A] (I : Reading A) :=
      value_derive (I := I) hwf.watched (by omega) hx he hscalar hunbound h hfaithful
    exact .inl ⟨e', t, rfl, (hvalue (Reading.integers fun _ => id)).1, fun I => (hvalue I).2⟩
  | error err t =>
    rw [h] at hmem
    obtain ⟨b, rfl, hb⟩ := (hresolves.of_error h hmem).exists_hasPower
      (good_store.1 (hyields.of_error h)) hmem.2
    exact .inr ⟨b, t, rfl, hb⟩

end Store

/-! ## A sum of sines -/

namespace Sines

/-- A real. -/
def x : Expr := .node 50 .reals (.symbol "x")

/-- An integer. -/
def n : Expr := .node 51 .integers (.symbol "n")

/-- The literal one. -/
def one : Expr := .node 52 .integers (.number .one)

/-- The symbol that the summation is written with at first. -/
def temporary : Expr := .node 53 .integers (.symbol "i")

/-- A multiple of the real. -/
def multiple : Expr := .node 54 .reals (.apply x temporary)

/-- The sine function. -/
def sine : Expr := .node 55 .functions (.function (.builtin .sin))

/-- The sine of the multiple. -/
def term : Expr := .node 56 .reals (.apply sine multiple)

/-- The index of the summation. -/
def index : Expr := .node 2 .integers (.symbol "_1")

/-- The multiple with the index. -/
def indexed : Expr := .node 57 .reals (.apply index x)

/-- The body of the summation. -/
def body : Expr := .node 58 .reals (.apply sine indexed)

/-- The sum of the sines of the first multiples. -/
def summation : Expr := .node 59 .reals (.indexedSum index one n body)

/-- The store after some operations, the last one first. -/
def after (l : List Operation) : Store :=
  l.foldr (fun op s => finalState (op.run 9 s)) Store.initial

lemma reaches_cons {l : List Operation} {op : Operation} (h : Store.initial.Reaches (after l))
    (hop : op.KnownBy (after l)) : Store.initial.Reaches (after (op :: l)) :=
  .step op 9 h hop

/-- The store that has these. -/
def store : Store :=
  after [.endIndexedSum one n temporary term, .call (.builtin .sin) [multiple], .apply temporary x,
    .beginIndexedSum one n, .number .one, .symbol "n" .integers, .symbol "x" .reals]

lemma reaches_store : Store.initial.Reaches store := by
  refine reaches_cons (reaches_cons (reaches_cons (reaches_cons (reaches_cons (reaches_cons
    (reaches_cons .refl trivial) trivial) trivial) ?_) ?_) ?_) ?_
  all_goals simp only [Operation.KnownBy, Store.knows_cons, Store.knows_nil, and_true]
  · exact ⟨.of_holds (by decide +kernel), .of_holds (by decide +kernel)⟩
  · exact ⟨.of_holds (by decide +kernel), .of_holds (by decide +kernel)⟩
  · exact ⟨trivial, .of_holds (by decide +kernel)⟩
  · exact ⟨.of_holds (by decide +kernel), .of_holds (by decide +kernel),
      .of_holds (by decide +kernel), .of_holds (by decide +kernel)⟩

lemma elementary_summation : summation.Elementary := by
  have hindex : index.Elementary := .of_leaf rfl rfl
  have hindexed : indexed.Elementary := .intro (.inl rfl) (by
    simpa [indexed, Expr.children, Expr.kind, Kind.children] using ⟨hindex, .of_leaf rfl rfl⟩)
  have hbody : body.Elementary := .intro (.inr rfl) (by
    simpa [body, Expr.children, Expr.kind, Kind.children] using ⟨.of_leaf ⟨.sin, rfl⟩ rfl, hindexed⟩)
  refine .intro ⟨⟨rfl, rfl, rfl⟩, rfl⟩ ?_
  simpa [summation, Expr.children, Expr.kind, Kind.children] using
    ⟨hindex, .of_leaf trivial rfl, .of_leaf rfl rfl, hbody⟩

lemma isScalar_summation : summation.IsScalar Builtin.IsSmooth := by
  have hindexed : indexed.IsScalar Builtin.IsSmooth :=
    .product rfl (.inr rfl) (.symbol rfl (.inl rfl)) (.symbol rfl (.inr rfl))
  have hbody : body.IsScalar Builtin.IsSmooth :=
    .call rfl (.inr rfl) rfl (by decide) (.inr (.inl rfl)) hindexed
  exact .indexedSum rfl (.inr rfl) rfl (.literal (.of_kind (n := 1) rfl rfl)) (.symbol rfl (.inl rfl))
    hbody

lemma unbound_summation : Expr.Unbound x summation := by
  have hindex : Expr.Unbound x index := Expr.allIndices_of_leaf rfl rfl
  have hindexed : Expr.Unbound x indexed := Expr.allIndices_iff.2 ⟨by rintro _ ⟨⟩, by
    simpa [indexed, Expr.children, Expr.kind, Kind.children] using
      ⟨hindex, Expr.allIndices_of_leaf rfl rfl⟩⟩
  have hbody : Expr.Unbound x body := Expr.allIndices_iff.2 ⟨by rintro _ ⟨⟩, by
    simpa [body, Expr.children, Expr.kind, Kind.children] using
      ⟨Expr.allIndices_of_leaf rfl rfl, hindexed⟩⟩
  refine Expr.allIndices_iff.2 ⟨?_, ?_⟩
  · rintro _ ⟨⟩
    decide
  · simpa [summation, Expr.children, Expr.kind, Kind.children] using
      ⟨hindex, Expr.allIndices_of_leaf rfl rfl, Expr.allIndices_of_leaf rfl rfl, hbody⟩

/-- A derivative was found, and nothing has happened that it could be wrong by. -/
def isFound : EStateM.Result Error Store Expr → Bool
  | .ok _ t => t.isFaithful && t.areSumsTyped
  | .error _ _ => false

lemma exists_of_isFound {outcome : EStateM.Result Error Store Expr} (h : isFound outcome = true) :
    ∃ r t, outcome = .ok r t ∧ t.Faithful ∧ t.SumsTyped := by
  obtain ⟨r, t⟩ | ⟨err, t⟩ := outcome
  · rw [isFound, Bool.and_eq_true] at h
    exact ⟨r, t, rfl, .of_isFaithful h.1, Store.SumsTyped.of_areSumsTyped h.2⟩
  · cases h

/-- The derivative of the sum of sines. -/
theorem derive_scalar_sines : ∃ e' t,
    Expr.derive summation x 100 store.watched = .ok e' t ∧ ∀ ρ : Valuation ℤ,
      summation.value (Reading.integers fun _ => id).dual (Expr.moved x.ordinal ρ) =
        TrivSqZeroExt.inl (summation.value (.integers fun _ => id) ρ) +
          TrivSqZeroExt.inr (e'.value (.integers fun _ => id) ρ) := by
  have hbuiltin : store.nodes.all (·.domain.isBuiltin) = true := by decide +kernel
  obtain ⟨e', t, hrun, hfaithful, htyped⟩ := exists_of_isFound
    (show isFound (Expr.derive summation x 100 store.watched) = true by decide +kernel)
  have hfinal : finalState (Expr.derive summation x 100 store.watched) = t := by
    rw [hrun]
    rfl
  rw [← hfinal] at hfaithful htyped
  have hx : store.Knows x := .of_holds (by decide +kernel)
  have hsummation : store.Knows summation := .of_holds (by decide +kernel)
  have hsize : store.nodes.size < 100 := by decide +kernel
  rcases Store.Reachable.derive_scalar reaches_store.reachable (.of_nodes hbuiltin) hx rfl
    hsummation elementary_summation isScalar_summation unbound_summation hsize hfaithful htyped with
    ⟨r, u, h, -, hvalue⟩ | ⟨b, u, h, -⟩
  · exact ⟨r, u, h, hvalue _⟩
  · rw [hrun] at h
    cases h

end Sines

end TermGraph
