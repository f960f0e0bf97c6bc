import TermGraph.Proofs.Memo.Mirror
import TermGraph.Proofs.Store.Caching
import TermGraph.Proofs.Store.Derivation

/-!
# Derivatives with a cache and without one

What a cache of derivatives answers is what would be found without it.  The derivative of a node may be
remembered from another expression, from a derivation that failed in the end, and from a time at which the
store had fewer nodes; still it is the node that a derivation with an empty cache comes to, unless this
derivation binds an index anew.

* `Expr.derivePlain`: the derivative without a cache.
* `DerivativeTable.Trusted`: a table with derivatives that would be found again.
* `Expr.mirrors_deriveFrom`: derivation with a table that is trusted mirrors derivation without one.
* `DerivativeTable.Cached`: the tables that any uses of a cache lead to.
* `Expr.derive_cached`: caches are transparent.
-/

namespace TermGraph

open Store (Quiet Still)

/-- Nothing is looked up, and nothing is kept. -/
def Memoized.computeDerivative : DerivativeLookup := fun _ _ derive => derive

instance growingLookup_computeDerivative : Expr.GrowingLookup Memoized.computeDerivative :=
  ⟨fun _ _ _ h => h⟩

namespace Expr

/-- The derivative of `e` by `x`, found without a table. -/
abbrev derivePlain (x e : Expr) : Memoized DerivativeTable Expr :=
  deriveWith Memoized.computeDerivative x e

end Expr

variable {sure : Bool} {s₀ s t : Store} {α β : Type}

/-! ## Trusted tables -/

/-- The store has the nodes of `s₀`, and the derivatives in the table are those that are found without
it. -/
def DerivativeTable.Trusted (sure : Bool) (s₀ : Store) (p : Store × DerivativeTable) : Prop :=
  s₀ ≤ p.1 ∧ ∀ (k : List ℕ) (r : Expr), p.2[k]? = some r → ∃ c x : Expr, k = [c.ordinal, x.ordinal] ∧
    p.1.Knows c ∧ p.1.Knows x ∧ Agrees sure p.1 (.ok r) fun _ => Expr.derivePlain x c

open DerivativeTable (Trusted)

namespace DerivativeTable.Trusted

lemma lasting (sure : Bool) (s₀ : Store) : Lasting (Trusted sure s₀) := by
  intro s t T hle h
  refine ⟨h.1.trans hle, fun k r hk => ?_⟩
  obtain ⟨c, x, hkey, hc, hx, hagrees⟩ := h.2 k r hk
  exact ⟨c, x, hkey, hc.mono hle, hx.mono hle, hagrees.mono hle⟩

lemma empty (h : s₀ ≤ s) : Trusted sure s₀ (s, ∅) :=
  ⟨h, fun k r hk => by simp at hk⟩

lemma insert {T : DerivativeTable} {c x r : Expr} (h : Trusted sure s₀ (s, T)) (hc : s.Knows c)
    (hx : s.Knows x) (hr : Agrees sure s (.ok r) fun _ => Expr.derivePlain x c) :
    Trusted sure s₀ (s, T.insert [c.ordinal, x.ordinal] r) := by
  refine ⟨h.1, fun k r' hk => ?_⟩
  rw [Std.TreeMap.getElem?_insert] at hk
  split at hk
  · rename_i heq
    rw [Std.LawfulEqCmp.compare_eq_iff_eq] at heq
    obtain rfl := Option.some.inj hk
    exact ⟨c, x, heq.symm, hc, hx, hr⟩
  · exact h.2 k r' hk

end DerivativeTable.Trusted

/-! ## Derivation -/

/-- From wherever the table is trusted, runs of `x` come to what `y` comes to. -/
class DerivesAlike (sure : Bool) (s₀ : Store) (x y : Memoized DerivativeTable α) : Prop where
  /-- The first one only adds to the store. -/
  left : Growing x
  /-- The second one only adds to the store. -/
  right : Growing y
  /-- Each run is mirrored. -/
  mirrors : ∀ p, Mirrors sure (Trusted sure s₀) p x fun _ => y

section DerivesAlike

instance derivesAlike_pure (a : α) : DerivesAlike sure s₀ (pure a) (pure a) :=
  ⟨inferInstance, inferInstance, fun _ => .pure a⟩

instance derivesAlike_throw (e : Error) :
    DerivesAlike sure s₀ (throw e : Memoized DerivativeTable α) (throw e) :=
  ⟨inferInstance, inferInstance, fun _ => .throw e⟩

instance derivesAlike_lift (x : Build α) [Growing x] [Persists x x] :
    DerivesAlike sure s₀ (liftM x) (liftM x) :=
  ⟨inferInstance, inferInstance, fun _ => .lift (Trusted.lasting _ _) (mirrors_self x)⟩

instance derivesAlike_bind (x y : Memoized DerivativeTable α) (f g : α → Memoized DerivativeTable β)
    [h : DerivesAlike sure s₀ x y] [h' : ∀ a, DerivesAlike sure s₀ (f a) (g a)] :
    DerivesAlike sure s₀ (x >>= f) (y >>= g) := by
  have := h.left
  have := h.right
  have := fun a => (h' a).left
  have := fun a => (h' a).right
  exact ⟨inferInstance, inferInstance, fun p => (h.mirrors p).bind fun a q _ _ => (h' a).mirrors q⟩

instance derivesAlike_ite (c : Prop) [Decidable c] (x x' y y' : Memoized DerivativeTable α)
    [DerivesAlike sure s₀ x y] [DerivesAlike sure s₀ x' y'] :
    DerivesAlike sure s₀ (if c then x else x') (if c then y else y') := by
  split <;> infer_instance

end DerivesAlike

namespace Expr

variable {x e : Expr} {es : List Expr}

/-- What is looked up is what is computed. -/
lemma derivesAlike_rememberDerivative {y z : Memoized DerivativeTable Expr}
    (he : s₀.Knows e) (hx : s₀.Knows x) (hplain : derivePlain x e = Memoized.computeDerivative e x z)
    (h : DerivesAlike sure s₀ y z) :
    DerivesAlike sure s₀ (Memoized.rememberDerivative e x y) (Memoized.computeDerivative e x z) := by
  have := h.left
  refine ⟨inferInstance, h.right, fun p d hp hquiet => ?_⟩
  obtain ⟨s, T⟩ := p
  cases hT : T[[e.ordinal, x.ordinal]]? with
  | some r =>
    rw [Memoized.rememberDerivative_of_some hT]
    obtain ⟨c, x', hkey, hc, hx', hagrees⟩ := hp.2 _ r hT
    simp only [List.cons.injEq, and_true] at hkey
    obtain rfl : e = c := Store.WellFormed.eq_of_ordinal (he.mono hp.1) hc hkey.1
    obtain rfl : x = x' := Store.WellFormed.eq_of_ordinal (hx.mono hp.1) hx' hkey.2
    rw [hplain] at hagrees
    exact ⟨hp, fun _ => hagrees⟩
  | none =>
    rw [Memoized.rememberDerivative_of_none hT] at hquiet ⊢
    cases hr : y d (s, T) with
    | error err q =>
      rw [Run.bind_apply_error hr] at hquiet ⊢
      have hy := h.mirrors (s, T) d hp
      rw [hr] at hy
      exact hy hquiet
    | ok r q =>
      rw [Run.bind_apply_ok hr] at hquiet ⊢
      have hy := h.mirrors (s, T) d hp
      rw [hr] at hy
      obtain ⟨htrusted, hagrees⟩ := hy hquiet
      have hr := hagrees (.of_ok r q)
      refine ⟨htrusted.insert (he.mono htrusted.1) (hx.mono htrusted.1) ?_, fun _ => hr⟩
      rw [hplain]
      exact hr

section Lists

lemma derivesAlike_deriveAll (h : ∀ e ∈ es, DerivesAlike sure s₀ (deriveFrom x e) (derivePlain x e)) :
    DerivesAlike sure s₀ (deriveAll x es) (deriveAllWith Memoized.computeDerivative x es) := by
  induction es with
  | nil =>
    unfold deriveAll deriveAllWith
    infer_instance
  | cons e es ih =>
    have := h e (by simp)
    have := ih fun e' he' => h e' (by simp [he'])
    unfold deriveAll deriveAllWith
    infer_instance

lemma derivesAlike_chainTerms (h : ∀ e ∈ es, DerivesAlike sure s₀ (deriveFrom x e) (derivePlain x e))
    (f : Function) (args : List Expr) (k : ℕ) :
    DerivesAlike sure s₀ (chainTerms x f args k es)
      (chainTermsWith Memoized.computeDerivative x f args k es) := by
  induction es generalizing k with
  | nil =>
    unfold chainTerms chainTermsWith
    infer_instance
  | cons e es ih =>
    have := h e (by simp)
    have := ih (fun e' he' => h e' (by simp [he'])) (k + 1)
    unfold chainTerms chainTermsWith
    infer_instance

lemma derivesAlike_chainDerivatives
    (h : ∀ e ∈ es, DerivesAlike sure s₀ (deriveFrom x e) (derivePlain x e)) (before : List Expr) :
    DerivesAlike sure s₀ (chainDerivatives x before es)
      (chainDerivativesWith Memoized.computeDerivative x before es) := by
  induction es generalizing before with
  | nil =>
    unfold chainDerivatives chainDerivativesWith
    infer_instance
  | cons e es ih =>
    have := h e (by simp)
    have := ih (fun e' he' => h e' (by simp [he'])) (e :: before)
    unfold chainDerivatives chainDerivativesWith
    infer_instance

end Lists

/-- Derivation with a table that is trusted mirrors derivation without one. -/
theorem derivesAlike_deriveFrom (hs : s₀.WellFormed) (hx : s₀.Knows x) (he : s₀.Knows e) :
    DerivesAlike sure s₀ (deriveFrom x e) (derivePlain x e) := by
  induction h : sizeOf e using Nat.strongRecOn generalizing e with
  | _ n ih =>
    subst h
    have hchild : ∀ c ∈ e.children, DerivesAlike sure s₀ (deriveFrom x c) (derivePlain x c) :=
      fun c hc => ih _ (sizeOf_lt_of_mem_children hc) (hs.children he c hc) rfl
    obtain ⟨ordinal, domain, kind⟩ := e
    unfold derivePlain deriveFrom deriveWith
    refine derivesAlike_rememberDerivative he hx (by conv_lhs => unfold derivePlain deriveWith) ?_
    refine @derivesAlike_ite _ _ _ _ _ _ _ _ _ inferInstance ?_
    cases kind with
    | tuple items | sum items =>
      have : DerivesAlike sure s₀ (deriveAll x items) (deriveAllWith Memoized.computeDerivative x items) :=
        derivesAlike_deriveAll hchild
      infer_instance
    | apply target argument =>
      have := hchild target (by simp [children, Kind.children, Expr.kind])
      have := hchild argument (by simp [children, Kind.children, Expr.kind])
      dsimp only
      split
      · infer_instance
      · split
        · rename_i ordinal' domain' items
          -- The tuple of arguments is not derived itself, but each of its items is.
          have hitems : ∀ c ∈ items, DerivesAlike sure s₀ (deriveFrom x c) (derivePlain x c) := by
            intro c hc
            have hargument : s₀.Knows (node ordinal' domain' (.tuple items)) :=
              hs.children he _ (by simp [children, Kind.children, Expr.kind])
            have := List.sizeOf_lt_of_mem hc
            exact ih _ (by simp; omega) (hs.children hargument c hc) rfl
          have := derivesAlike_chainTerms hitems
          infer_instance
        · infer_instance
      all_goals infer_instance
    | chain factors =>
      have : ∀ before, DerivesAlike sure s₀ (chainDerivatives x before factors)
          (chainDerivativesWith Memoized.computeDerivative x before factors) :=
        derivesAlike_chainDerivatives hchild
      infer_instance
    | generator _ _ inner | inverse inner | transpose inner =>
      have := hchild inner (by simp [children, Kind.children, Expr.kind])
      infer_instance
    | indexedSum _ _ _ body =>
      have := hchild body (by simp [children, Kind.children, Expr.kind])
      infer_instance
    | collectionSum _ collection body =>
      have := hchild collection (by simp [children, Kind.children, Expr.kind])
      have := hchild body (by simp [children, Kind.children, Expr.kind])
      infer_instance
    | symbol _ | number _ | object _ _ | field _ | function _ => infer_instance

end Expr

/-! ## Caches -/

/-- The tables that any uses of a cache lead to, and the stores at that time: derivations of known
expressions by known variables, which succeed or fail.  In between the store may grow by other things. -/
inductive DerivativeTable.Cached : Store → DerivativeTable → Prop
  | empty {s : Store} : s.WellFormed → Cached s ∅
  | grow {s t : Store} {T : DerivativeTable} : Cached s T → s ≤ t → t.WellFormed → Cached t T
  | call {s : Store} {T : DerivativeTable} (x e : Expr) (d : ℕ) : Cached s T → s.Knows x → s.Knows e →
    Cached (finalState (Expr.deriveFrom x e d (s, T))).1 (finalState (Expr.deriveFrom x e d (s, T))).2

open DerivativeTable (Cached)

variable {T : DerivativeTable}

/-- The store of a cache is well formed, and the cache has known expressions. -/
lemma DerivativeTable.Cached.good (h : Cached s T) : Good (s, T) := by
  induction h with
  | empty hs => exact (good_store.2 hs).pair knows_noDerivatives
  | grow _ hle ht ih => exact (good_store.2 ht).pair (ih.knows_memo.mono hle)
  | call x e d _ _ he ih => exact (Expr.yields_deriveFrom ih he d).final

/-- What a cache holds would be found again. -/
lemma DerivativeTable.Cached.trusted (h : Cached s T) : Trusted false s (s, T) := by
  induction h with
  | empty => exact .empty le_rfl
  | grow _ hle _ ih => exact ⟨le_rfl, (Trusted.lasting _ _ hle ih).2⟩
  | @call s T x e d hT hx he ih =>
    have halike : DerivesAlike false s (Expr.deriveFrom x e) (Expr.derivePlain x e) :=
      Expr.derivesAlike_deriveFrom (good_store.1 hT.good.of_pair) hx he
    exact ⟨le_rfl, ((halike.mirrors (s, T)).foretold ih d).1.2⟩

namespace Expr

variable {x e : Expr} {d d' : ℕ}

lemma le_deriveFrom (x e : Expr) (d : ℕ) (s : Store) (T : DerivativeTable) :
    s ≤ (finalState (deriveFrom x e d (s, T))).1 :=
  Growing.le_final (x := deriveFrom x e) d (s, T)

lemma derive_of_isSymbol (hx : x.isSymbol = true) (e : Expr) (d : ℕ) (s : Store) :
    derive e x d s = Build.forgetting ∅ (deriveFrom x e) d s := by
  unfold derive checkVariable
  rw [hx]
  rfl

/-- **Caches of derivatives are transparent.**  Whatever a cache has been used for, by whatever variables
and with success or without, it answers as a derivation with a cache of its own does that is carried out
before or after in the same run, unless this one binds an index anew.  Without this exception a cache that
has been used for other variables only changes nothing, and a gradient by different variables is made of
the single derivatives. -/
theorem derive_cached (hT : Cached s T) (hx : s.Knows x) (he : s.Knows e) (hsymbol : x.isSymbol = true) :
    (∀ (d d' : ℕ) (t : Store), t.WellFormed → t.Knows x → t.Knows e →
      finalState (derive e x d' t) ≤ s ∨ (finalState (deriveFrom x e d (s, T))).1 ≤ t →
      Finishes (deriveFrom x e d (s, T)) → Finishes (derive e x d' t) → Quiet t (finalState (derive e x d' t)) →
      outcome (deriveFrom x e d (s, T)) = outcome (derive e x d' t)) ∧
    (∀ V : Set ℕ, x.ordinal ∉ V → DerivativeTable.Used V ∅ T →
      Build.forgetting T (deriveFrom x e) = Build.forgetting ∅ (deriveFrom x e)) ∧
    ∀ xs : List Expr, (xs.map ordinal).Nodup → gradient e xs = xs.mapM (derive e) := by
  refine ⟨fun d d' t ht hx' he' horder hends hends' hquiet => ?_, fun V hV hused => ?_,
    fun _ => gradient_eq_mapM e⟩
  · rw [derive_of_isSymbol hsymbol] at horder hends' hquiet ⊢
    obtain ⟨houtcome, hfinal⟩ := outcome_forgetting ∅ (deriveFrom x e) d' t
    rw [hfinal] at horder hquiet
    rw [Finishes, houtcome] at hends'
    rw [houtcome]
    -- The cache foretells what the run with a cache of its own settles.
    have halike : DerivesAlike false s (deriveFrom x e) (derivePlain x e) :=
      derivesAlike_deriveFrom (good_store.1 hT.good.of_pair) hx he
    have halike' : DerivesAlike true t (deriveFrom x e) (derivePlain x e) :=
      derivesAlike_deriveFrom ht hx' he'
    have hforetold := ((halike.mirrors (s, T)).foretold hT.trusted d).2 hends
    have hsettled := (halike'.mirrors (t, ∅)).settled (.empty le_rfl) hquiet hends'
    rcases horder with hbefore | hafter
    · exact hforetold.eq_of_settled hsettled hends' ((finalState (deriveFrom x e d (s, T))).1, ∅) le_rfl
        (hbefore.trans (le_deriveFrom x e d s T))
    · exact hforetold.eq_of_settled hsettled hends' ((finalState (deriveFrom x e d' (t, ∅))).1, ∅)
        (hafter.trans (le_deriveFrom x e d' t ∅)) le_rfl
  · exact forgetting_deriveFrom (hused.sameBy hV).symm e

/-- A cache that has been used for `x + y` by `x` and for the pair of `x + y` and `y` by `y` is asked for
the pair by `x`; it answers as a new one does afterwards. -/
theorem derive_cached_pair :
    let s₁ := (Store.initial.intern .reals (.symbol "x")).2
    let x := (Store.initial.intern .reals (.symbol "x")).1
    let s₂ := (s₁.intern .reals (.symbol "y")).2
    let y := (s₁.intern .reals (.symbol "y")).1
    let s₃ := (s₂.intern .reals (.sum [x, y])).2
    let a := (s₂.intern .reals (.sum [x, y])).1
    let s₄ := (s₃.intern .universal (.tuple [a, y])).2
    let e := (s₃.intern .universal (.tuple [a, y])).1
    let p := finalState (deriveFrom x a 9 (s₄, ∅))
    let q := finalState (deriveFrom y e 9 (p.1, p.2))
    let r := deriveFrom x e 9 (q.1, q.2)
    q.2.isEmpty = false ∧ (outcome r).toOption.isSome = true ∧
      outcome r = outcome (derive e x 9 (finalState r).1) := by
  intro s₁ x s₂ y s₃ a s₄ e p q r
  have hsymbol (s : Store) (name : String) : s.Admits .reals (.symbol name) :=
    ⟨by simp [Kind.children], fun _ h => h.elim, trivial, by simp [Kind.index?]⟩
  obtain ⟨hs₁, hx, -⟩ := Store.wellFormed_initial.intern (hsymbol _ "x")
  obtain ⟨hs₂, hy, -⟩ := hs₁.intern (hsymbol s₁ "y")
  have hx₂ : s₂.Knows x := hx.mono (Store.le_intern _ _ s₁)
  have hsum : s₂.Admits .reals (.sum [x, y]) :=
    ⟨by simpa [Kind.children] using ⟨hx₂, hy⟩, fun _ h => h.elim, rfl, by simp [Kind.index?]⟩
  obtain ⟨hs₃, ha, -⟩ := hs₂.intern hsum
  have hx₃ : s₃.Knows x := hx₂.mono (Store.le_intern _ _ s₂)
  have hy₃ : s₃.Knows y := hy.mono (Store.le_intern _ _ s₂)
  have hpair : s₃.Admits .universal (.tuple [a, y]) :=
    ⟨by simpa [Kind.children] using ⟨ha, hy₃⟩, fun _ h => h.elim, rfl, by simp [Kind.index?]⟩
  obtain ⟨hs₄, he, -⟩ := hs₃.intern hpair
  have hle : s₃ ≤ s₄ := Store.le_intern _ _ s₃
  have hp : s₄ ≤ p.1 := le_deriveFrom x a 9 s₄ ∅
  have hq : p.1 ≤ q.1 := le_deriveFrom y e 9 p.1 p.2
  have hr : q.1 ≤ (finalState r).1 := le_deriveFrom x e 9 q.1 q.2
  have hx₄ := hx₃.mono hle
  have hcached₁ : Cached p.1 p.2 := .call x a 9 (.empty hs₄) hx₄ (ha.mono hle)
  have hcached : Cached q.1 q.2 := .call y e 9 hcached₁ ((hy₃.mono hle).mono hp) (he.mono hp)
  have hxq : q.1.Knows x := (hx₄.mono hp).mono hq
  have heq : q.1.Knows e := (he.mono hp).mono hq
  have hcached' : Cached (finalState r).1 (finalState r).2 := .call x e 9 hcached hxq heq
  have hwf := good_store.1 hcached'.good.of_pair
  have hempty : q.2.isEmpty = false := by decide +kernel
  have hok : (outcome r).toOption.isSome = true := by decide +kernel
  have hok' : (outcome (derive e x 9 (finalState r).1)).toOption.isSome = true := by decide +kernel
  have hnew : (((finalState (derive e x 9 (finalState r).1)).nodes.toList.drop
      (finalState r).1.nodes.size).all fun e => !e.isSymbol) = true := by decide +kernel
  have hidentity : (finalState (derive e x 9 (finalState r).1)).nextIdentity =
      (finalState r).1.nextIdentity := by decide +kernel
  have hvariable : x.isSymbol = true := rfl
  -- From here on it does not matter what the nodes are.
  clear_value q x e
  obtain ⟨hanswer, -, -⟩ := derive_cached hcached hxq heq hvariable
  refine ⟨hempty, hok, hanswer 9 9 _ hwf (hxq.mono hr) (heq.mono hr) (.inr le_rfl) (.of_isSome hok)
    (.of_isSome hok') ?_⟩
  exact .of_le (Growing.le_final (x := derive e x) 9 _) hnew hidentity

end Expr

end TermGraph
