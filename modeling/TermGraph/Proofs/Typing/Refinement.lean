import TermGraph.Proofs.Meaning.Delivery
import TermGraph.Proofs.Typing.Products

/-!
# Runs that keep types

A run that substitutes has two ways to end.  It gives a result that may stand where the original stood,
or it refuses a summation, because a bound that stands for an integer has become a real.

* `Store.typedStores`: the stores in which arithmetic has been exact and summations are typed.
* `Store.Refuses s e`: the error `e` is such a refusal.
* `Resolves P d s x Q`: a run of `x` that ends in `P` gives a result that satisfies `Q` or refuses a
  bound.
* `Completes P d s x Q`: moreover the run keeps the invariant, and the store knows the result.
* `Expr.RefinedBy j a r`: `r` is a scalar if `a` is one, stands for an integer if `a` does, and has a rank
  that is at most `j` greater.
* `Expr.ReplacedBy j a r`: this of scalars and matrices, and the like of functions and of pairs.
-/

namespace TermGraph

open Store (Knows)

namespace Store

/-- The stores in which every operation on integers gave an integer, and every summation over a range
lies in the domain of its body. -/
def typedStores : LowerSet Store where
  carrier := {s | s.exact = true ∧ s.SumsTyped}
  lower' _ _ hle ht := ⟨hle.exact ht.1, fun he => ht.2 (he.mono hle)⟩

lemma typedStores_le : typedStores ≤ exactStores := fun _ h => h.1

/-- A summation was refused for a bound that stands for an integer but does not lie in the integers. -/
def Refuses (s : Store) (e : Error) : Prop :=
  ∃ b : Expr, e = .boundNotIntegral b ∧ s.Knows b ∧ b.Whole ∧ b.domain.isIntegral = false

end Store

/-! ## Runs that give a result or refuse a bound -/

variable {σ α β γ : Type} [HoldsStore σ]

/-- If the run of `x` from `s` at depth `d` ends in `P`, it gives a result that satisfies `Q`, or it
refuses a bound. -/
def Resolves (P : LowerSet Store) (d : ℕ) (s : σ) (x : Run σ α) (Q : α → σ → Prop) : Prop :=
  match x d s with
  | .ok a t => store t ∈ P → Q a t
  | .error e t => store t ∈ P → (store t).Refuses e

variable {P : LowerSet Store} {d : ℕ} {s : σ}

namespace Resolves

variable {x y : Run σ α} {Q R : α → σ → Prop}

lemma of_ok (h : Resolves P d s x Q) {a : α} {t : σ} (hx : x d s = .ok a t) (ht : store t ∈ P) :
    Q a t := by
  rw [Resolves, hx] at h
  exact h ht

lemma of_error (h : Resolves P d s x Q) {e : Error} {t : σ} (hx : x d s = .error e t)
    (ht : store t ∈ P) : (store t).Refuses e := by
  rw [Resolves, hx] at h
  exact h ht

/-- The statement is about a single run. -/
lemma of_run_eq (hy : Resolves P d s y Q) (h : x d s = y d s) : Resolves P d s x Q := by
  rw [Resolves, h]
  exact hy

lemma pure {a : α} (h : Q a s) : Resolves P d s (Pure.pure a : Run σ α) Q := fun _ => h

lemma throw {e : Error} (h : (store s).Refuses e) :
    Resolves P d s (MonadExcept.throw e : Run σ α) Q := fun _ => h

lemma imp (hx : Resolves P d s x Q)
    (h : ∀ a t, x d s = .ok a t → store t ∈ P → Q a t → R a t) : Resolves P d s x R := by
  rw [Resolves] at hx ⊢
  cases hr : x d s with
  | ok a t =>
    rw [hr] at hx
    exact fun ht => h a t hr ht (hx ht)
  | error e t =>
    rw [hr] at hx
    exact hx

lemma ite {c : Prop} [Decidable c] (hx : c → Resolves P d s x Q) (hy : ¬c → Resolves P d s y Q) :
    Resolves P d s (if c then x else y) Q := by
  split
  · exact hx ‹_›
  · exact hy ‹_›

lemma bind {f : α → Run σ β} {R : β → σ → Prop} [∀ a, Growing (f a)] (hx : Resolves P d s x Q)
    (hf : ∀ a t, x d s = .ok a t → store t ∈ P → Q a t → Resolves P d t (f a) R) :
    Resolves P d s (x >>= f) R := by
  rw [Resolves, Run.bind_apply]
  cases hr : x d s with
  | error e t => exact hx.of_error hr
  | ok a t =>
    dsimp only
    cases hrest : f a d t with
    | ok b u =>
      intro hu
      have ht : store t ∈ P := P.lower (Growing.le_of_ok hrest) hu
      exact (hf a t hr ht (hx.of_ok hr ht)).of_ok hrest hu
    | error e u =>
      intro hu
      have ht : store t ∈ P := P.lower (Growing.le_of_error hrest) hu
      exact (hf a t hr ht (hx.of_ok hr ht)).of_error hrest hu

lemma step {s : Store} {f : Store → α × Store} {Q : α → Store → Prop} (h : Q (f s).1 (f s).2) :
    Resolves P d s (Build.step f) Q := fun _ => h

end Resolves

section Exact

variable {s : Store} {x : Build α} {Q Q' : α → Store → Prop}

lemma Exact.resolves (hP : P ≤ Store.exactStores) (h : Exact d s x Q) :
    Resolves P d s x Q := by
  rw [Resolves]
  rw [Exact] at h
  cases hr : x d s with
  | ok a t =>
    rw [hr] at h
    exact fun ht => h (hP ht)
  | error e t =>
    rw [hr] at h
    intro ht
    have hexact : t.exact = true := hP ht
    exact absurd hexact (by simp [show t.exact = false from h])

lemma Exact.and (h : Exact d s x Q) (h' : Exact d s x Q') :
    Exact d s x fun a t => Q a t ∧ Q' a t :=
  h.imp fun _ _ hrun ht hq => ⟨hq, h'.of_ok hrun ht⟩

end Exact

variable [Knowable σ] [Knowable α] [Knowable β]

/-- Run from `s` at depth `d`, `x` keeps the invariant, and a run that ends in `P` gives a result that
satisfies `Q`, or refuses a bound. -/
structure Completes (P : LowerSet Store) (d : ℕ) (s : σ) (x : Run σ α) (Q : α → σ → Prop) : Prop where
  /-- The invariant is kept, and the store knows the result. -/
  yields : Sound Good d s x fun a t => (store t).Knows a
  /-- The result satisfies `Q`, or a bound is refused. -/
  resolves : Resolves P d s x Q

namespace Completes

variable {x : Run σ α} {Q R : α → σ → Prop}

/-- The results of a computation with a first step. -/
lemma bind {f : α → Run σ γ} {R : γ → σ → Prop} [Growing x] [∀ a, Growing (f a)]
    (hx : Completes P d s x Q) (hf : ∀ a t, Good t → store s ≤ store t → (store t).Knows a →
      store t ∈ P → Q a t → Resolves P d t (f a) R) : Resolves P d s (x >>= f) R :=
  hx.resolves.bind fun a t hrun ht hq => hf a t (hx.yields.of_ok hrun).1 (Growing.le_of_ok hrun)
    (hx.yields.of_ok hrun).2 ht hq

lemma imp (hx : Completes P d s x Q) (h : ∀ a t, Q a t → R a t) : Completes P d s x R :=
  ⟨hx.yields, hx.resolves.imp fun a t _ _ => h a t⟩

end Completes

section Stores

variable {s : Store} {x : Build α} {Q Q' : α → Prop}

/-- What a computation achieves, it completes. -/
lemma Achieves.completes (hP : P ≤ Store.exactStores) (h : Achieves d s x Q) :
    Completes P d s x fun a _ => Q a :=
  ⟨h.yields, h.exact.resolves hP⟩

lemma Achieves.and (h : Achieves d s x Q) (h' : Achieves d s x Q') :
    Achieves d s x fun a => Q a ∧ Q' a :=
  ⟨h.yields, h.exact.and h'.exact⟩

end Stores

/-! ## Memos -/

section Memos

variable {μ : Type} [Knowable μ] {s : Store} {m : μ}

/-- What a computation completes, it completes next to a memo, which stays the same. -/
lemma Completes.lift {x : Build α} {Q : α → Store → Prop} [Growing x] (hx : Completes P d s x Q)
    (hm : s.Knows m) :
    Completes P d (s, m) (liftM x : Memoized μ α) fun a p => p.2 = m ∧ Q a p.1 where
  yields := sound_lift hx.yields hm
  resolves := by
    show Resolves P d (s, m) (Memoized.lift x) fun a p => p.2 = m ∧ Q a p.1
    rw [Resolves, Memoized.lift]
    cases hr : x d s with
    | ok a t => exact fun ht => ⟨rfl, hx.resolves.of_ok hr ht⟩
    | error e t => exact hx.resolves.of_error hr

omit [Knowable α] [Knowable μ] in
/-- A run with a memo that is forgotten. -/
lemma Resolves.forgetting {x : Memoized μ α} {Q : α → Store → Prop}
    (hx : Resolves P d (s, m) x fun a p => Q a p.1) : Resolves P d s (Build.forgetting m x) Q := by
  unfold Build.forgetting
  rw [Resolves, Run.bind_apply, Build.withMemo]
  cases hr : x d (s, m) with
  | ok a p => exact hx.of_ok hr
  | error e p => exact hx.of_error hr

end Memos

namespace Memo.Relates

variable {R : Expr → Expr → Prop} {s : Store} {m : Memo} {a : Expr}

/-- A result that was remembered is as good as a new one. -/
lemma resolves_remember {x : Memoized Memo Expr} (hm : Memo.Relates R s m) (ha : s.Knows a)
    [Growing x] (hx : Resolves P d (s, m) x fun e p => Memo.Relates R p.1 p.2 ∧ R a e) :
    Resolves P d (s, m) (Memoized.remember a x) fun e p => Memo.Relates R p.1 p.2 ∧ R a e := by
  unfold Memoized.remember
  rw [Resolves, Run.bind_apply_ok (x := Memoized.memo) rfl]
  cases hfound : m[a.ordinal]? with
  | some known => exact fun _ => ⟨hm, hm.get ha hfound⟩
  | none =>
    dsimp only
    rw [Run.bind_apply]
    cases hr : x d (s, m) with
    | error e p => exact hx.of_error hr
    | ok e p =>
      intro hp
      obtain ⟨hrelates, hR⟩ := hx.of_ok hr hp
      exact ⟨hrelates.insert (ha.mono (Growing.le_of_ok hr)) hR, hR⟩

end Memo.Relates

/-! ## Refinement -/

namespace Expr

variable {j k : ℕ} {a b e n r : Expr} {f : Builtin}

/-- The expression `r` may stand where the scalar or matrix `a` stands, with a rank that is at most `j`
greater. -/
structure RefinedBy (j : ℕ) (a r : Expr) : Prop where
  /-- A literal is left alone. -/
  literal : a.number?.isSome = true → r = a
  /-- The rank is at most `j` greater. -/
  ranked : ∀ {k : ℕ}, Ranked k a → Ranked (k + j) r
  /-- What replaces a scalar is a scalar. -/
  isScalar : ∀ {k : ℕ}, Ranked k a → a.domain.isScalar = true → r.domain.isScalar = true
  /-- What replaces something that stands for an integer stands for an integer. -/
  whole : a.Whole → r.Whole

namespace RefinedBy

lemma refl (j : ℕ) (a : Expr) : RefinedBy j a a :=
  ⟨fun _ => rfl, fun h => h.mono (Nat.le_add_right _ j), fun _ h => h, id⟩

lemma trans {i : ℕ} (h : RefinedBy i a b) (h' : RefinedBy j b r) : RefinedBy (i + j) a r where
  literal ha := by
    obtain rfl := h.literal ha
    exact h'.literal ha
  ranked ha := Nat.add_assoc _ i j ▸ h'.ranked (h.ranked ha)
  isScalar ha hscalar := h'.isScalar (h.ranked ha) (h.isScalar ha hscalar)
  whole hwhole := h'.whole (h.whole hwhole)

/-- The replacement of an exponent is an exponent. -/
lemma exponent (h : RefinedBy j n r) (hn : Exponent k n) : Exponent (k + j) r := by
  obtain ⟨i, hle, hlt, hranked⟩ := hn.ranked
  refine ⟨h.isScalar hranked hn.isScalar, i + j, by omega, fun hnone => ?_, h.ranked hranked⟩
  cases hnumber : n.number? with
  | none => exact Nat.add_lt_add_right (hlt hnumber) j
  | some m =>
    rw [h.literal (by simp [hnumber]), hnumber] at hnone
    cases hnone

end RefinedBy

/-- Ranks go down to a least one. -/
lemma Ranked.exists_least (h : Ranked k e) : ∃ i ≤ k, Ranked i e ∧ ∀ i', Ranked i' e → i ≤ i' := by
  classical
  exact ⟨Nat.find ⟨k, h⟩, Nat.find_min' _ h, Nat.find_spec (p := fun i => Ranked i e) ⟨k, h⟩,
    fun i' hi' => Nat.find_min' _ hi'⟩

/-- The node `r` may stand where the node `a` stands. -/
structure ReplacedBy (j : ℕ) (a r : Expr) : Prop extends RefinedBy j a r where
  /-- A function is left alone. -/
  function : a.function?.isSome = true → r = a
  /-- A pair is replaced by a pair. -/
  pair : ∀ {b n : Expr}, a.kind = .tuple [b, n] →
    ∃ b' n', r.kind = .tuple [b', n'] ∧ RefinedBy j b b' ∧ RefinedBy j n n'

namespace ReplacedBy

lemma refl (j : ℕ) (a : Expr) : ReplacedBy j a a :=
  ⟨.refl j a, fun _ => rfl, fun h => ⟨_, _, h, .refl j _, .refl j _⟩⟩

/-- Of what has a rank and is no literal, only the type and the least rank matter. -/
lemma of_least (ha : Ranked k a) (hleast : ∀ i, Ranked i a → k ≤ i) (hnumber : a.number? = none)
    (hr : Suits (a.domain.isScalar = true) (k + j) r) (hwhole : a.Whole → r.Whole) :
    ReplacedBy j a r where
  literal h := by simp [hnumber] at h
  ranked h := hr.ranked.mono (Nat.add_le_add_right (hleast _ h) j)
  isScalar _ := hr.isScalar
  whole := hwhole
  function h := by simp [ha.function?] at h
  pair h := absurd h (ha.kind_ne.2.1 _)

/-- Of a pair, only the base and the exponent matter. -/
lemma of_pair {b' n' : Expr} (ha : a.kind = .tuple [b, n]) (hr : r.kind = .tuple [b', n'])
    (hb : RefinedBy j b b') (hn : RefinedBy j n n') : ReplacedBy j a r where
  literal h := by simp [number?, ha] at h
  ranked h := absurd ha (h.kind_ne.2.1 _)
  isScalar h := absurd ha (h.kind_ne.2.1 _)
  whole h := absurd ha (h.kind_ne.2 _)
  function h := by simp [function?, ha] at h
  pair h := by
    rw [ha, Kind.tuple.injEq, List.cons.injEq, List.cons.injEq] at h
    obtain ⟨rfl, rfl, -⟩ := h
    exact ⟨b', n', hr, hb, hn⟩

end ReplacedBy

end Expr

end TermGraph
