import Mathlib.Order.UpperLower.CompleteLattice
import TermGraph.Proofs.Store.Normalization

/-!
# What results satisfy

Statements about the results of runs that may also fail, for instance for lack of depth.  A result
is described under the condition that the store at the end lies in a set `P`, such as the set of
stores whose arithmetic has been exact so far.  Sets of this kind are lower sets: what holds of the
store at the end held of it all along.

* `Ensures P d s x Q`: if `x`, run from `s` at depth `d`, gives a result and ends in `P`, then the
  result and the final state satisfy `Q`.
* `Delivers P d s x Q`: moreover the run keeps the invariant, and the store knows the result.
* `Memo.Relates R s m`: the results in the memo `m` are related by `R` to the nodes of `s` that they
  are remembered for.
-/

namespace TermGraph

open Store (Knows)

namespace Store

/-- The stores in which every operation on integers so far gave an integer. -/
def exactStores : LowerSet Store where
  carrier := {s | s.exact = true}
  lower' _ _ hle ht := hle.exact ht

end Store

variable {σ α β γ : Type} [HoldsStore σ]

/-- If the run of `x` from `s` at depth `d` gives a result and ends in `P`, the result satisfies
`Q`. -/
def Ensures (P : LowerSet Store) (d : ℕ) (s : σ) (x : Run σ α) (Q : α → σ → Prop) : Prop :=
  ∀ a t, x d s = .ok a t → store t ∈ P → Q a t

variable {P : LowerSet Store} {d : ℕ} {s : σ}

namespace Ensures

variable {x : Run σ α} {Q : α → σ → Prop}

lemma pure {a : α} (h : Q a s) : Ensures P d s (Pure.pure a : Run σ α) Q := by
  rintro _ _ ⟨⟩ _
  exact h

lemma throw (e : Error) : Ensures P d s (MonadExcept.throw e : Run σ α) Q := by
  rintro _ _ ⟨⟩

lemma ite {c : Prop} [Decidable c] {y : Run σ α} (hx : c → Ensures P d s x Q)
    (hy : ¬c → Ensures P d s y Q) : Ensures P d s (if c then x else y) Q := by
  split
  · exact hx ‹_›
  · exact hy ‹_›

lemma imp {R : α → σ → Prop} (hx : Ensures P d s x Q)
    (h : ∀ a t, x d s = .ok a t → store t ∈ P → Q a t → R a t) : Ensures P d s x R :=
  fun a t hrun ht => h a t hrun ht (hx a t hrun ht)

lemma read {f : ℕ → Run σ α} (h : Ensures P d s (f d) Q) :
    Ensures P d s (MonadReader.read >>= f) Q := by
  intro a t hrun ht
  rw [Run.bind_apply_ok (Run.read_apply d s)] at hrun
  exact h a t hrun ht

lemma step {s : Store} {f : Store → α × Store} {Q : α → Store → Prop} (h : Q (f s).1 (f s).2) :
    Ensures P d s (Build.step f) Q := by
  intro a t hrun _
  rw [step_apply, EStateM.Result.ok.injEq] at hrun
  obtain ⟨rfl, rfl⟩ := hrun
  exact h

end Ensures

variable [Knowable σ] [Knowable α] [Knowable β]

/-- Run from `s` at depth `d`, `x` keeps the invariant, and a result that is reached in `P` satisfies
`Q`. -/
structure Delivers (P : LowerSet Store) (d : ℕ) (s : σ) (x : Run σ α) (Q : α → σ → Prop) : Prop where
  /-- The invariant is kept, and the store knows the result. -/
  yields : Sound Good d s x fun a t => (store t).Knows a
  /-- The result satisfies `Q`. -/
  ensures : Ensures P d s x Q

namespace Delivers

variable {x : Run σ α} {Q : α → σ → Prop}

lemma pure (hs : Good s) {a : α} (ha : (store s).Knows a) (h : Q a s) :
    Delivers P d s (Pure.pure a : Run σ α) Q :=
  ⟨.pure hs ha, .pure h⟩

/-- The results of a computation with a first step. -/
lemma bind {f : α → Run σ γ} {R : γ → σ → Prop} [Growing x] [∀ a, Growing (f a)]
    (hx : Delivers P d s x Q) (hf : ∀ a t, Good t → store s ≤ store t → (store t).Knows a →
      store t ∈ P → Q a t → Ensures P d t (f a) R) : Ensures P d s (x >>= f) R := by
  intro c u hrun hu
  obtain ⟨a, t, hfirst, hrest⟩ := Run.bind_eq_ok.1 hrun
  have ht : store t ∈ P := P.lower (Growing.le_of_ok hrest) hu
  exact hf a t (hx.yields.of_ok hfirst).1 (Growing.le_of_ok hfirst) (hx.yields.of_ok hfirst).2 ht
    (hx.ensures a t hfirst ht) c u hrest hu

lemma imp {R : α → σ → Prop} (hx : Delivers P d s x Q) (h : ∀ a t, Q a t → R a t) :
    Delivers P d s x R :=
  ⟨hx.yields, hx.ensures.imp fun a t _ _ => h a t⟩

/-- The results for the items of a list, where `I` holds of all states on the way. -/
lemma mapM {f : γ → Run σ α} [∀ c, Growing (f c)] {I : σ → Prop} {R : γ → α → Prop} (hs : Good s)
    (hI : I s) (l : List γ) (hf : ∀ c ∈ l, ∀ t, Good t → store s ≤ store t → I t →
      Delivers P d t (f c) fun a u => I u ∧ R c a) :
    Ensures P d s (l.mapM f) fun as t => I t ∧ List.Forall₂ R l as := by
  induction l generalizing s with
  | nil =>
    rw [List.mapM_nil]
    exact .pure ⟨hI, .nil⟩
  | cons c l ih =>
    rw [List.mapM_cons]
    refine (hf c (by simp) s hs le_rfl hI).bind fun a t ht hle _ _ ha => ?_
    intro bs u hrun hu
    obtain ⟨as, v, hrest, hpure⟩ := Run.bind_eq_ok.1 hrun
    cases hpure
    obtain ⟨hI, has⟩ := ih ht ha.1 (fun c' hc' w hw hle' =>
      hf c' (by simp [hc']) w hw (hle.trans hle')) as u hrest hu
    exact ⟨hI, .cons ha.2 has⟩

end Delivers

section Stores

variable {s : Store} {x : Build α} {Q : α → Prop}

lemma Achieves.ensures (hP : P ≤ Store.exactStores) (h : Achieves d s x Q) :
    Ensures P d s x fun a _ => Q a :=
  fun _ _ hrun ht => h.exact.of_ok hrun (hP ht)

/-- What a computation achieves, it delivers. -/
lemma Achieves.delivers (hP : P ≤ Store.exactStores) (h : Achieves d s x Q) :
    Delivers P d s x fun a _ => Q a :=
  ⟨h.yields, h.ensures hP⟩

end Stores

/-! ## Memos -/

section Memos

variable {μ : Type} [Knowable μ] {s : Store} {m : μ}

omit [Knowable α] [Knowable β] [Knowable μ] in
/-- A computation next to a memo goes step by step. -/
lemma liftM_bind (x : Build α) (f : α → Build β) :
    (liftM (x >>= f) : Memoized μ β) = liftM x >>= fun a => liftM (f a) := by
  funext d p
  obtain ⟨s, m⟩ := p
  show Memoized.lift (x >>= f) d (s, m) = (Memoized.lift x >>= fun a => Memoized.lift (f a)) d (s, m)
  rw [Run.bind_apply, Memoized.lift, Run.bind_apply, Memoized.lift]
  cases x d s <;> rfl

/-- What a computation delivers, it delivers next to a memo, which stays the same. -/
lemma Delivers.lift {x : Build α} {Q : α → Store → Prop} [Growing x] (hx : Delivers P d s x Q)
    (hm : s.Knows m) :
    Delivers P d (s, m) (liftM x : Memoized μ α) fun a p => p.2 = m ∧ Q a p.1 where
  yields := sound_lift hx.yields hm
  ensures := by
    intro a p hrun hp
    change Memoized.lift x d (s, m) = _ at hrun
    rw [Memoized.lift] at hrun
    cases hr : x d s with
    | ok b t =>
      rw [hr] at hrun
      cases hrun
      exact ⟨rfl, hx.ensures a t hr hp⟩
    | error e t =>
      rw [hr] at hrun
      cases hrun

omit [Knowable α] [Knowable μ] in
/-- What a computation with a memo ensures, it ensures when the memo is forgotten. -/
lemma Ensures.forgetting {x : Memoized μ α} {Q : α → Store → Prop}
    (hx : Ensures P d (s, m) x fun a p => Q a p.1) : Ensures P d s (Build.forgetting m x) Q := by
  intro a t hrun ht
  unfold Build.forgetting at hrun
  obtain ⟨⟨outcome, m'⟩, u, hmemo, hrest⟩ := Run.bind_eq_ok.1 hrun
  rw [Build.withMemo] at hmemo
  cases hr : x d (s, m) with
  | ok b p =>
    rw [hr] at hmemo
    cases hmemo
    cases hrest
    exact hx a p hr ht
  | error e p =>
    rw [hr] at hmemo
    cases hmemo
    cases hrest

end Memos

namespace Ensures

variable {μ : Type} {s : Store} {m : μ} {Q : α → Store × μ → Prop}

omit [Knowable α] in
lemma memo {f : μ → Memoized μ α} (h : Ensures P d (s, m) (f m) Q) :
    Ensures P d (s, m) (Memoized.memo >>= f) Q := by
  intro a t hrun ht
  rw [Run.bind_apply_ok (x := Memoized.memo) rfl] at hrun
  exact h a t hrun ht

omit [Knowable α] in
lemma modifyMemo {f : μ → μ} {x : Memoized μ α} (h : Ensures P d (s, f m) x Q) :
    Ensures P d (s, m) (Memoized.modifyMemo f >>= fun _ => x) Q := by
  intro a t hrun ht
  rw [Run.bind_apply_ok (x := Memoized.modifyMemo f) rfl] at hrun
  exact h a t hrun ht

end Ensures

/-- The results in a memo are related to the nodes that they are remembered for. -/
def Memo.Relates (R : Expr → Expr → Prop) (s : Store) (m : Memo) : Prop :=
  ∀ (k : ℕ) (e : Expr), m[k]? = some e → ∃ a, s.Knows a ∧ a.ordinal = k ∧ R a e

namespace Memo.Relates

variable {R : Expr → Expr → Prop} {s t : Store} {m : Memo} {a e : Expr}

lemma empty : Memo.Relates R s ∅ := fun k e h => by simp at h

lemma mono (h : Memo.Relates R s m) (hle : s ≤ t) : Memo.Relates R t m := fun k e hk =>
  let ⟨a, ha, hka, hR⟩ := h k e hk
  ⟨a, ha.mono hle, hka, hR⟩

lemma get (h : Memo.Relates R s m) (ha : s.Knows a) (hm : m[a.ordinal]? = some e) : R a e := by
  obtain ⟨b, hb, hordinal, hR⟩ := h _ _ hm
  rwa [Store.WellFormed.eq_of_ordinal ha hb hordinal.symm]

lemma insert (h : Memo.Relates R s m) (ha : s.Knows a) (hR : R a e) :
    Memo.Relates R s (m.insert a.ordinal e) := by
  intro k f hk
  rw [Std.TreeMap.getElem?_insert] at hk
  split at hk
  · rename_i heq
    rw [Std.LawfulEqCmp.compare_eq_iff_eq] at heq
    cases hk
    exact ⟨a, ha, heq, hR⟩
  · exact h k f hk

/-- A result that was remembered is as good as a new one. -/
lemma ensures_remember {x : Memoized Memo Expr} (hm : Memo.Relates R s m) (ha : s.Knows a)
    [Growing x] (hx : Ensures P d (s, m) x fun e p => Memo.Relates R p.1 p.2 ∧ R a e) :
    Ensures P d (s, m) (Memoized.remember a x) fun e p => Memo.Relates R p.1 p.2 ∧ R a e := by
  intro e p hrun hp
  unfold Memoized.remember at hrun
  obtain ⟨m', q, hmemo, hrest⟩ := Run.bind_eq_ok.1 hrun
  cases hmemo
  cases hfound : m[a.ordinal]? with
  | some known =>
    simp only [hfound] at hrest
    cases hrest
    exact ⟨hm, hm.get ha hfound⟩
  | none =>
    simp only [hfound] at hrest
    obtain ⟨e', q, hresult, hrest⟩ := Run.bind_eq_ok.1 hrest
    obtain ⟨_, q', hmodify, hrest⟩ := Run.bind_eq_ok.1 hrest
    cases hmodify
    cases hrest
    obtain ⟨hq, hR⟩ := hx e q hresult hp
    exact ⟨hq.insert (ha.mono (Growing.le_of_ok hresult)) hR, hR⟩

end Memo.Relates

end TermGraph
