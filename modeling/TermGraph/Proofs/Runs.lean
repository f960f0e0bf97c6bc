import Mathlib.Tactic
import TermGraph.Store

/-!
# Runs of computations on the store

A computation reads a bound on its depth, changes a state that holds a store, and may fail; a
failing computation keeps what it did to the store before.  This file says once what all
computations have in common and gives the rules by which statements about a whole run are put
together from statements about its steps.

* `s ≤ t` for stores: `t` knows everything that `s` knows.  Nodes, table entries and placeholders
  are never lost, identities are never handed out again, and exactness is never regained.
* `Store.Quiet s t`: from `s` to `t` neither a symbol was made nor an identity handed out.
* `Growing x`: every run of `x`, also a failing one, only adds to the store; and a run that comes to
  the same nodes again, because one of the two runs was quiet, has the same outcome.  It is a class, so
  that it is inferred along the syntax of a computation.
* `Sound I d s x Q`: run from `s` at depth `d`, the computation `x` keeps the invariant `I`, and a
  result `a` with final state `t` satisfies `Q a t`.
* `Exact d s x Q`: run from `s` at depth `d`, the computation `x` gives a result that satisfies `Q`
  unless an operation on integers gave no integer.
-/

namespace TermGraph

namespace Store

/-- `t` knows everything that `s` knows. -/
structure Extends (s t : Store) : Prop where
  /-- Nodes stay as they are. -/
  nodes : ∀ {i : ℕ} {e : Expr}, s.nodes[i]? = some e → t.nodes[i]? = some e
  /-- Entries of the table stay as they are. -/
  table : ∀ {code : List ℕ} {e : Expr}, s.table[code]? = some e → t.table[code]? = some e
  /-- Placeholders are added at the end. -/
  placeholders : s.placeholders <+: t.placeholders
  /-- Identities are counted up. -/
  identity : s.nextIdentity ≤ t.nextIdentity
  /-- What was inexact stays inexact. -/
  exact : t.exact = true → s.exact = true
  /-- Indices are noted in front. -/
  bound : s.bound <:+ t.bound

instance : Preorder Store where
  le := Extends
  le_refl s := ⟨id, id, List.prefix_refl _, le_refl _, id, List.suffix_refl _⟩
  le_trans s t u h h' :=
    ⟨fun hi => h'.nodes (h.nodes hi), fun hi => h'.table (h.table hi),
      h.placeholders.trans h'.placeholders, h.identity.trans h'.identity,
      fun hu => h.exact (h'.exact hu), h.bound.trans h'.bound⟩

/-- From `s` to `t` no symbol was made and no identity was handed out. -/
structure Quiet (s t : Store) : Prop where
  /-- The symbols of `t` are those of `s`. -/
  symbols : ∀ {i : ℕ} {e : Expr}, t.nodes[i]? = some e → e.isSymbol = true → s.nodes[i]? = some e
  /-- The next identity is the same. -/
  identity : t.nextIdentity = s.nextIdentity

/-- `t` has the nodes, placeholders and identities of `s`. -/
structure Still (s t : Store) : Prop where
  /-- No node was made. -/
  nodes : t.nodes = s.nodes
  /-- The table is the same. -/
  table : t.table = s.table
  /-- No placeholder was made. -/
  placeholders : t.placeholders = s.placeholders
  /-- No identity was handed out. -/
  identity : t.nextIdentity = s.nextIdentity

variable {s t u : Store}

namespace Quiet

@[refl] lemma refl (s : Store) : Quiet s s := ⟨fun h _ => h, rfl⟩

/-- The first part of what is quiet is quiet. -/
lemma left (h : Quiet s u) (hst : s ≤ t) (htu : t ≤ u) : Quiet s t :=
  ⟨fun he hsymbol => h.symbols (htu.nodes he) hsymbol,
    le_antisymm (htu.identity.trans h.identity.le) hst.identity⟩

/-- The rest of what is quiet is quiet. -/
lemma right (h : Quiet s u) (hst : s ≤ t) (htu : t ≤ u) : Quiet t u :=
  ⟨fun he hsymbol => hst.nodes (h.symbols he hsymbol),
    le_antisymm (h.identity.le.trans hst.identity) htu.identity⟩

end Quiet

namespace Still

@[refl] lemma refl (s : Store) : Still s s := ⟨rfl, rfl, rfl, rfl⟩

lemma trans (h : Still s t) (h' : Still t u) : Still s u :=
  ⟨h'.nodes.trans h.nodes, h'.table.trans h.table, h'.placeholders.trans h.placeholders,
    h'.identity.trans h.identity⟩

lemma quiet (h : Still s t) : Quiet s t := ⟨fun he _ => h.nodes ▸ he, h.identity⟩

end Still

end Store

open Store (Quiet Still)

/-- States that hold a store. -/
class HoldsStore (σ : Type) where
  /-- The store in a state. -/
  store : σ → Store
  /-- The state with another store. -/
  put : Store → σ → σ
  /-- The store that was put is there. -/
  store_put : ∀ (s : Store) (p : σ), store (put s p) = s

export HoldsStore (store put store_put)

instance : HoldsStore Store := ⟨id, fun s _ => s, fun _ _ => rfl⟩

instance {μ : Type} : HoldsStore (Store × μ) := ⟨Prod.fst, fun s p => (s, p.2), fun _ _ => rfl⟩

@[simp, grind =] lemma store_self (s : Store) : store s = s := rfl

@[simp, grind =] lemma store_pair {μ : Type} (p : Store × μ) : store p = p.1 := rfl

@[simp] lemma put_self (s t : Store) : put s t = s := rfl

@[simp] lemma put_pair {μ : Type} (s : Store) (p : Store × μ) : put s p = (s, p.2) := rfl

/-- Computations on a state that may fail and read a bound on their depth. -/
abbrev Run (σ : Type) := ReaderT ℕ (EStateM Error σ)

/-- The state at the end of a run, whether it failed or not. -/
def finalState {ε σ α : Type} : EStateM.Result ε σ α → σ
  | .ok _ s => s
  | .error _ s => s

@[simp] lemma finalState_ok {ε σ α : Type} (a : α) (s : σ) :
    finalState (.ok a s : EStateM.Result ε σ α) = s := rfl

@[simp] lemma finalState_error {ε σ α : Type} (e : ε) (s : σ) :
    finalState (.error e s : EStateM.Result ε σ α) = s := rfl

variable {σ α β : Type}

/-! ## Unfolding of single steps -/

namespace Run

@[simp] lemma pure_apply (a : α) (d : ℕ) (s : σ) : (pure a : Run σ α) d s = .ok a s := rfl

@[simp] lemma throw_apply (e : Error) (d : ℕ) (s : σ) :
    (throw e : Run σ α) d s = .error e s := rfl

@[simp] lemma read_apply (d : ℕ) (s : σ) : (read : Run σ ℕ) d s = .ok d s := rfl

lemma bind_apply (x : Run σ α) (f : α → Run σ β) (d : ℕ) (s : σ) :
    (x >>= f) d s = match x d s with
      | .ok a t => f a d t
      | .error e t => .error e t := by
  show EStateM.bind (x d) (fun a => f a d) s = _
  rw [EStateM.bind]
  cases x d s <;> rfl

lemma bind_apply_ok {x : Run σ α} {f : α → Run σ β} {d : ℕ} {s t : σ} {a : α}
    (h : x d s = .ok a t) : (x >>= f) d s = f a d t := by
  rw [bind_apply, h]

lemma bind_apply_error {x : Run σ α} {f : α → Run σ β} {d : ℕ} {s t : σ} {e : Error}
    (h : x d s = .error e t) : (x >>= f) d s = .error e t := by
  rw [bind_apply, h]

/-- A run that gives a result is a run of its first step followed by a run of the rest. -/
lemma bind_eq_ok {x : Run σ α} {f : α → Run σ β} {d : ℕ} {s u : σ} {b : β} :
    (x >>= f) d s = .ok b u ↔ ∃ a t, x d s = .ok a t ∧ f a d t = .ok b u := by
  rw [bind_apply]
  cases x d s with
  | ok a t => simp
  | error e t => simp

lemma map_eq_bind (g : α → β) (x : Run σ α) : g <$> x = x >>= fun a => pure (g a) :=
  map_eq_pure_bind g x

end Run

/-! ## Growth -/

/-- The second run has the outcome of the first one, and leaves the nodes of `u` as they are. -/
inductive Again [HoldsStore σ] (u : Store) : EStateM.Result Error σ α → EStateM.Result Error σ α → Prop
  | ok (a : α) (t : σ) {v : Store} : Still u v → Again u (.ok a t) (.ok a (put v t))
  | error (e : Error) (t : σ) {v : Store} : Still u v → Again u (.error e t) (.error e (put v t))

namespace Again

variable [HoldsStore σ] {u : Store}

lemma exists_of_ok {a : α} {t : σ} {r : EStateM.Result Error σ α} (h : Again u (.ok a t) r) :
    ∃ v, Still u v ∧ r = .ok a (put v t) := by
  cases h with
  | ok _ _ hstill => exact ⟨_, hstill, rfl⟩

lemma exists_of_error {e : Error} {t : σ} {r : EStateM.Result Error σ α} (h : Again u (.error e t) r) :
    ∃ v, Still u v ∧ r = .error e (put v t) := by
  cases h with
  | error _ _ hstill => exact ⟨_, hstill, rfl⟩

/-- What leaves the nodes of `v` as they are, leaves those of `u`. -/
lemma of_still {v : Store} {r r' : EStateM.Result Error σ α} (h : Again v r r') (huv : Still u v) :
    Again u r r' := by
  cases h with
  | ok a t hstill => exact .ok a t (huv.trans hstill)
  | error e t hstill => exact .error e t (huv.trans hstill)

end Again

/-- Every run of `x` only adds to the store, and a run that is repeated when everything that it has
made is there comes to the same, unless both runs make symbols or take identities. -/
class Growing [HoldsStore σ] (x : Run σ α) : Prop where
  /-- The store at the end extends the one at the start. -/
  le_final : ∀ (d : ℕ) (s : σ), store s ≤ store (finalState (x d s))
  /-- A later run has the same outcome, if one of the two is quiet. -/
  again : ∀ (d : ℕ) (s : σ) {u : Store}, store (finalState (x d s)) ≤ u →
    Quiet (store s) (store (finalState (x d s))) ∨ Quiet u (store (finalState (x d (put u s)))) →
    Again u (x d s) (x d (put u s))

section Growing

variable [HoldsStore σ]

lemma Growing.le_of_ok {x : Run σ α} [Growing x] {d : ℕ} {s t : σ} {a : α}
    (h : x d s = .ok a t) : store s ≤ store t := by
  have hle := Growing.le_final (x := x) d s
  rwa [h] at hle

lemma Growing.le_of_error {x : Run σ α} [Growing x] {d : ℕ} {s t : σ} {e : Error}
    (h : x d s = .error e t) : store s ≤ store t := by
  have hle := Growing.le_final (x := x) d s
  rwa [h] at hle

instance growing_pure (a : α) : Growing (pure a : Run σ α) :=
  ⟨fun _ _ => le_rfl, fun _ s _ _ _ => .ok a s (.refl _)⟩

instance growing_throw (e : Error) : Growing (throw e : Run σ α) :=
  ⟨fun _ _ => le_rfl, fun _ s _ _ _ => .error e s (.refl _)⟩

instance growing_read : Growing (read : Run σ ℕ) :=
  ⟨fun _ _ => le_rfl, fun d s _ _ _ => .ok d s (.refl _)⟩

/-- A computation with a first step only adds to what the first step has made. -/
lemma Growing.le_bind (x : Run σ α) (f : α → Run σ β) [Growing x] [∀ a, Growing (f a)] (d : ℕ) (s : σ) :
    store (finalState (x d s)) ≤ store (finalState ((x >>= f) d s)) := by
  rw [Run.bind_apply]
  cases x d s with
  | ok a t => exact Growing.le_final d t
  | error e t => exact le_rfl

instance growing_bind (x : Run σ α) (f : α → Run σ β) [Growing x] [∀ a, Growing (f a)] :
    Growing (x >>= f) := by
  refine ⟨fun d s => (Growing.le_final d s).trans (Growing.le_bind x f d s), fun d s u hle hquiet => ?_⟩
  have hstart : u ≤ store (finalState (x d (put u s))) := by
    simpa [store_put] using Growing.le_final (x := x) d (put u s)
  have hx := Growing.again (x := x) d s ((Growing.le_bind x f d s).trans hle) <| hquiet.imp
    (fun h => h.left (Growing.le_final d s) (Growing.le_bind x f d s))
    (fun h => h.left hstart (Growing.le_bind x f d (put u s)))
  cases hr : x d s with
  | error e t =>
    rw [hr] at hx
    obtain ⟨v, hstill, hr'⟩ := hx.exists_of_error
    rw [Run.bind_apply_error hr, Run.bind_apply_error hr']
    exact .error e t hstill
  | ok a t =>
    rw [hr] at hx
    obtain ⟨v, hstill, hr'⟩ := hx.exists_of_ok
    have hfirst := Growing.le_bind x f d s
    have hsecond := Growing.le_bind x f d (put u s)
    rw [hr, Run.bind_apply_ok hr, finalState_ok] at hfirst
    rw [hr', Run.bind_apply_ok hr', finalState_ok, store_put] at hsecond
    rw [hr', finalState_ok, store_put] at hstart
    rw [Run.bind_apply_ok hr] at hle hquiet ⊢
    rw [Run.bind_apply_ok hr'] at hquiet ⊢
    have hrest := Growing.again (x := f a) d t (u := v) (hle.trans hstart) <| hquiet.imp
      (fun h => h.right (Growing.le_of_ok hr) hfirst) (fun h => h.right hstart hsecond)
    exact hrest.of_still hstill

instance growing_map (g : α → β) (x : Run σ α) [Growing x] : Growing (g <$> x) := by
  rw [Run.map_eq_bind]
  infer_instance

instance growing_ite (c : Prop) [Decidable c] (x y : Run σ α) [Growing x] [Growing y] :
    Growing (if c then x else y) := by
  split <;> infer_instance

instance growing_mapM (f : α → Run σ β) [∀ a, Growing (f a)] (l : List α) :
    Growing (l.mapM f) := by
  induction l with
  | nil =>
    rw [List.mapM_nil]
    infer_instance
  | cons a l ih =>
    rw [List.mapM_cons]
    infer_instance

instance growing_foldlM (f : β → α → Run σ β) [∀ b a, Growing (f b a)] (l : List α) (b : β) :
    Growing (l.foldlM f b) := by
  induction l generalizing b with
  | nil =>
    rw [List.foldlM_nil]
    infer_instance
  | cons a l ih =>
    rw [List.foldlM_cons]
    infer_instance

instance growing_option_mapM (f : α → Run σ β) [∀ a, Growing (f a)] (o : Option α) :
    Growing (o.mapM f) := by
  cases o with
  | none => exact growing_pure none
  | some a => exact growing_map some (f a)

instance growing_option_elim (o : Option α) (x : Run σ β) (f : α → Run σ β) [Growing x]
    [∀ a, Growing (f a)] : Growing (o.elim x f) := by
  cases o with
  | none => exact inferInstanceAs (Growing x)
  | some a => exact inferInstanceAs (Growing (f a))

end Growing

/-! ## Invariants and results -/

/-- Run from `s` at depth `d`, `x` keeps the invariant `I`, and its result satisfies `Q`. -/
def Sound (I : σ → Prop) (d : ℕ) (s : σ) (x : Run σ α) (Q : α → σ → Prop) : Prop :=
  match x d s with
  | .ok a t => I t ∧ Q a t
  | .error _ t => I t

namespace Sound

variable {I : σ → Prop} {d : ℕ} {s : σ} {x : Run σ α} {Q : α → σ → Prop}

lemma of_ok (h : Sound I d s x Q) {a : α} {t : σ} (hx : x d s = .ok a t) : I t ∧ Q a t := by
  rwa [Sound, hx] at h

lemma of_error (h : Sound I d s x Q) {e : Error} {t : σ} (hx : x d s = .error e t) : I t := by
  rwa [Sound, hx] at h

/-- The invariant holds at the end of every run. -/
lemma final (h : Sound I d s x Q) : I (finalState (x d s)) := by
  cases hx : x d s with
  | ok a t => exact (h.of_ok hx).1
  | error e t => exact h.of_error hx

lemma pure (hs : I s) {a : α} (h : Q a s) : Sound I d s (Pure.pure a : Run σ α) Q := ⟨hs, h⟩

lemma throw (hs : I s) (e : Error) : Sound I d s (MonadExcept.throw e : Run σ α) Q := hs

/-- The invariant holds along with the statement about the result. -/
lemma and_invariant (hx : Sound I d s x Q) : Sound I d s x fun a t => I t ∧ Q a t := by
  rw [Sound] at hx ⊢
  cases hr : x d s with
  | ok a t =>
    rw [hr] at hx
    exact ⟨hx.1, hx⟩
  | error e t => rwa [hr] at hx

/-- Two statements about one run, of which the second may depend on a condition. -/
lemma and_of {J : σ → Prop} {R : α → σ → Prop} {c : Prop} (hx : Sound I d s x Q)
    (hx' : c → Sound J d s x R) : Sound I d s x fun a t => Q a t ∧ (c → R a t) := by
  rw [Sound]
  cases hr : x d s with
  | ok a t => exact ⟨(hx.of_ok hr).1, (hx.of_ok hr).2, fun hc => ((hx' hc).of_ok hr).2⟩
  | error e t => exact hx.of_error hr

variable [HoldsStore σ]

lemma bind {f : α → Run σ β} {R : β → σ → Prop} [Growing x] (hx : Sound I d s x Q)
    (hf : ∀ a t, I t → store s ≤ store t → Q a t → Sound I d t (f a) R) :
    Sound I d s (x >>= f) R := by
  rw [Sound, Run.bind_apply]
  cases h : x d s with
  | ok a t => exact hf a t (hx.of_ok h).1 (Growing.le_of_ok h) (hx.of_ok h).2
  | error e t => exact hx.of_error h

/-- A weaker statement about the result, which may use that the store has grown. -/
lemma imp {R : α → σ → Prop} [Growing x] (hx : Sound I d s x Q)
    (h : ∀ a t, store s ≤ store t → Q a t → R a t) : Sound I d s x R := by
  rw [Sound]
  cases hr : x d s with
  | ok a t => exact ⟨(hx.of_ok hr).1, h a t (Growing.le_of_ok hr) (hx.of_ok hr).2⟩
  | error e t => exact hx.of_error hr

lemma map {g : α → β} {R : β → σ → Prop} [Growing x] (hx : Sound I d s x Q)
    (h : ∀ a t, store s ≤ store t → Q a t → R (g a) t) : Sound I d s (g <$> x) R := by
  rw [Run.map_eq_bind]
  exact hx.bind fun a t ht hle hq => .pure ht (h a t hle hq)

/-- Each result of a list is related to what it is made from. -/
lemma forall₂_mapM {f : α → Run σ β} [∀ a, Growing (f a)] {P : α → β → σ → Prop}
    (hP : ∀ a b t u, store t ≤ store u → P a b t → P a b u) (l : List α) (hs : I s)
    (hf : ∀ a ∈ l, ∀ t, I t → store s ≤ store t → Sound I d t (f a) (P a)) :
    Sound I d s (l.mapM f) fun bs t => List.Forall₂ (fun a b => P a b t) l bs := by
  induction l generalizing s with
  | nil =>
    rw [List.mapM_nil]
    exact .pure hs .nil
  | cons a l ih =>
    rw [List.mapM_cons]
    refine (hf a (by simp) s hs le_rfl).bind fun b t ht hle hb => ?_
    refine (ih ht fun a' ha' u hu hle' =>
      hf a' (by simp [ha']) u hu (hle.trans hle')).bind fun bs u hu hle' hbs => ?_
    exact .pure hu (.cons (hP a b t u hle' hb) hbs)

/-- A property of single results holds of all results of a list. -/
lemma mapM {f : α → Run σ β} [∀ a, Growing (f a)] {P : β → σ → Prop}
    (hP : ∀ b t u, store t ≤ store u → P b t → P b u) (l : List α) (hs : I s)
    (hf : ∀ a ∈ l, ∀ t, I t → store s ≤ store t → Sound I d t (f a) P) :
    Sound I d s (l.mapM f) fun bs t => ∀ b ∈ bs, P b t := by
  refine (forall₂_mapM (fun _ => hP) l hs hf).imp fun bs t _ hbs => ?_
  clear hf
  induction hbs with
  | nil => simp
  | cons hb _ ih => exact List.forall_mem_cons.2 ⟨hb, ih⟩

/-- An accumulator keeps a property along a list. -/
lemma foldlM {f : β → α → Run σ β} [∀ b a, Growing (f b a)] {P : β → σ → Prop} (l : List α) {b : β}
    (hs : I s) (hb : P b s)
    (hf : ∀ b, ∀ a ∈ l, ∀ t, I t → store s ≤ store t → P b t → Sound I d t (f b a) P) :
    Sound I d s (l.foldlM f b) P := by
  induction l generalizing s b with
  | nil =>
    rw [List.foldlM_nil]
    exact .pure hs hb
  | cons a l ih =>
    rw [List.foldlM_cons]
    refine (hf b a (by simp) s hs le_rfl hb).bind fun b' t ht hle hb' => ?_
    exact ih ht hb' fun b₁ a' ha' u hu hle' hb₁ =>
      hf b₁ a' (by simp [ha']) u hu (hle.trans hle') hb₁

end Sound

/-! ## Exact runs -/

/-- Run from `s` at depth `d`, `x` gives a result that satisfies `Q`, unless an operation on
integers has given no integer by its end. -/
def Exact [HoldsStore σ] (d : ℕ) (s : σ) (x : Run σ α) (Q : α → σ → Prop) : Prop :=
  match x d s with
  | .ok a t => (store t).exact = true → Q a t
  | .error _ t => (store t).exact = false

namespace Exact

variable [HoldsStore σ] {d : ℕ} {s : σ} {x : Run σ α} {Q : α → σ → Prop}

lemma of_ok (h : Exact d s x Q) {a : α} {t : σ} (hx : x d s = .ok a t)
    (ht : (store t).exact = true) : Q a t := by
  rw [Exact, hx] at h
  exact h ht

/-- An exact run gives a result. -/
lemma exists_ok (h : Exact d s x Q) (hfinal : (store (finalState (x d s))).exact = true) :
    ∃ a t, x d s = .ok a t ∧ (store t).exact = true ∧ Q a t := by
  rw [Exact] at h
  cases hx : x d s with
  | ok a t =>
    rw [hx] at h hfinal
    exact ⟨a, t, rfl, hfinal, h hfinal⟩
  | error e t =>
    rw [hx] at h hfinal
    simp only [finalState_error] at hfinal
    rw [h] at hfinal
    cases hfinal

lemma pure {a : α} (h : Q a s) : Exact d s (Pure.pure a : Run σ α) Q := fun _ => h

/-- The statement is about a single run. -/
lemma of_run_eq {y : Run σ α} (hy : Exact d s y Q) (h : x d s = y d s) : Exact d s x Q := by
  rw [Exact, h]
  exact hy

/-- A run that is inexact from the start satisfies every statement of this form. -/
lemma of_inexact [Growing x] (h : (store s).exact = false) : Exact d s x Q := by
  rw [Exact]
  cases hx : x d s with
  | ok a t =>
    intro ht
    have hs := (Growing.le_of_ok hx).exact ht
    rw [h] at hs
    cases hs
  | error e t =>
    by_contra hne
    have hs := (Growing.le_of_error hx).exact (by simpa using hne)
    rw [h] at hs
    cases hs

lemma bind {f : α → Run σ β} {R : β → σ → Prop} [∀ a, Growing (f a)] (hx : Exact d s x Q)
    (hf : ∀ a t, x d s = .ok a t → (store t).exact = true → Q a t → Exact d t (f a) R) :
    Exact d s (x >>= f) R := by
  rw [Exact, Run.bind_apply]
  rw [Exact] at hx
  cases h : x d s with
  | ok a t =>
    rw [h] at hx
    by_cases ht : (store t).exact = true
    · exact hf a t h ht (hx ht)
    · exact of_inexact (by simpa using ht)
  | error e t =>
    rw [h] at hx
    exact hx

lemma imp {R : α → σ → Prop} (hx : Exact d s x Q)
    (h : ∀ a t, x d s = .ok a t → (store t).exact = true → Q a t → R a t) : Exact d s x R := by
  rw [Exact] at hx ⊢
  cases hr : x d s with
  | ok a t =>
    rw [hr] at hx
    exact fun ht => h a t hr ht (hx ht)
  | error e t =>
    rw [hr] at hx
    exact hx

end Exact

/-! ## The steps that all computations are made of -/

section Steps

variable {d : ℕ} {s : Store} {μ : Type}

lemma growing_step {f : Store → α × Store} (h : ∀ s, s ≤ (f s).2)
    (hagain : ∀ s u, (f s).2 ≤ u → Quiet s (f s).2 ∨ Quiet u (f u).2 →
      (f u).1 = (f s).1 ∧ Still u (f u).2) : Growing (Build.step f) := by
  refine ⟨fun _ s => h s, fun d s u hle hquiet => ?_⟩
  obtain ⟨heq, hstill⟩ := hagain s u hle hquiet
  show Again u (.ok (f s).1 (f s).2) (.ok (f u).1 (f u).2)
  rw [heq]
  exact .ok (f s).1 (f s).2 hstill

lemma step_apply (f : Store → α × Store) (d : ℕ) (s : Store) :
    Build.step f d s = .ok (f s).1 (f s).2 := rfl

instance growing_ofExcept {ε : Type} (toError : ε → Error) (x : Except ε α) :
    Growing (Build.ofExcept toError x : Build α) := by
  cases x with
  | ok a => exact growing_pure a
  | error e => exact growing_throw (toError e)

instance growing_settle (t : Number.Tracked) : Growing (Build.settle t) := by
  refine growing_step (fun s => ⟨id, id, List.prefix_refl _, le_refl _, fun h => ?_, List.suffix_refl _⟩)
    fun _ _ _ _ => ⟨rfl, rfl, rfl, rfl, rfl⟩
  simp only [Store.settle, Bool.and_eq_true] at h
  exact h.1

/-- Identities are never the same again, so there is nothing to repeat. -/
instance growing_fresh : Growing Build.fresh := by
  refine growing_step (fun _ => ⟨id, id, List.prefix_refl _, Nat.le_succ _, id, List.suffix_refl _⟩)
    fun s u _ hquiet => ?_
  rcases hquiet with h | h <;> exact absurd h.identity (Nat.succ_ne_self _)

instance growing_noteIndex (index body : Expr) : Growing (Build.noteIndex index body) :=
  growing_step (fun _ => ⟨id, id, List.prefix_refl _, le_refl _, id, List.suffix_cons _ _⟩)
    fun _ _ _ _ => ⟨rfl, rfl, rfl, rfl, rfl⟩

lemma lift_apply (x : Build α) (d : ℕ) (s : Store) (m : μ) : Memoized.lift x d (s, m) =
    match x d s with
    | .ok a t => .ok a (t, m)
    | .error e t => .error e (t, m) := rfl

lemma finalState_lift (x : Build α) (d : ℕ) (s : Store) (m : μ) :
    finalState (Memoized.lift x d (s, m)) = (finalState (x d s), m) := by
  rw [lift_apply]
  cases x d s <;> rfl

instance growing_lift (x : Build α) [Growing x] : Growing (Memoized.lift x : Memoized μ α) := by
  refine ⟨fun d p => ?_, fun d p u hle hquiet => ?_⟩ <;> obtain ⟨s, m⟩ := p
  · rw [finalState_lift]
    exact Growing.le_final (x := x) d s
  · rw [put_pair, finalState_lift] at hquiet
    rw [finalState_lift] at hle hquiet
    have hx := Growing.again (x := x) d s hle hquiet
    rw [put_pair, lift_apply, lift_apply]
    generalize x d s = r, x d (put u s) = r' at hx
    cases hx with
    | ok a t hstill => exact Again.ok a (t, m) hstill
    | error e t hstill => exact Again.error e (t, m) hstill

instance growing_monadLift (x : Build α) [Growing x] :
    Growing (liftM x : Memoized μ α) :=
  growing_lift x

instance growing_memo : Growing (Memoized.memo : Memoized μ μ) :=
  ⟨fun _ _ => le_rfl, fun _ p _ _ _ => .ok p.2 p (.refl _)⟩

instance growing_modifyMemo (f : μ → μ) : Growing (Memoized.modifyMemo f : Memoized μ Unit) :=
  ⟨fun _ _ => le_rfl, fun _ p _ _ _ => .ok () (p.1, f p.2) (.refl _)⟩

lemma finalState_withMemo (m : μ) (x : Memoized μ α) (d : ℕ) (s : Store) :
    finalState (Build.withMemo m x d s) = (finalState (x d (s, m))).1 := by
  rw [Build.withMemo]
  cases x d (s, m) <;> rfl

instance growing_withMemo (m : μ) (x : Memoized μ α) [Growing x] :
    Growing (Build.withMemo m x) := by
  refine ⟨fun d s => ?_, fun d s u hle hquiet => ?_⟩
  · rw [finalState_withMemo]
    exact Growing.le_final (x := x) d (s, m)
  · rw [finalState_withMemo] at hle hquiet
    rw [finalState_withMemo] at hquiet
    have hx := Growing.again (x := x) d (s, m) hle hquiet
    rw [Build.withMemo, Build.withMemo]
    rw [put_pair] at hx
    rw [put_self]
    generalize x d (s, m) = r, x d (u, m) = r' at hx
    cases hx with
    | ok a t hstill => exact Again.ok (Except.ok a, t.2) t.1 hstill
    | error e t hstill => exact Again.ok (Except.error e, t.2) t.1 hstill

instance growing_forgetting (m : μ) (x : Memoized μ α) [Growing x] :
    Growing (Build.forgetting m x) := by
  unfold Build.forgetting
  infer_instance

instance growing_attempt (x : Build α) [Growing x] : Growing (Build.attempt x) := by
  have hfinal (d : ℕ) (s : Store) : finalState (Build.attempt x d s) = finalState (x d s) := by
    rw [Build.attempt]
    cases x d s <;> rfl
  refine ⟨fun d s => ?_, fun d s u hle hquiet => ?_⟩
  · rw [hfinal]
    exact Growing.le_final (x := x) d s
  · rw [hfinal] at hle hquiet
    rw [hfinal] at hquiet
    have hx := Growing.again (x := x) d s hle hquiet
    rw [Build.attempt, Build.attempt]
    generalize x d s = r, x d (put u s) = r' at hx
    cases hx with
    | ok a t hstill => exact Again.ok (Except.ok a) t hstill
    | error e t hstill => exact Again.ok (Except.error e) t hstill

end Steps

end TermGraph
