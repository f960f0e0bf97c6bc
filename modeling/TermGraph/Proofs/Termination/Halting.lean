import TermGraph.Proofs.Meaning.Delivery
import TermGraph.Proofs.Order.Leading

/-!
# Runs that do not run out of depth

Recursions that have no smaller bound of their own read a bound on their depth, and exceeding it is an
error of its own.  A run that ends in any other way, with a result or with another error, has come to
its end after finitely many calls.

* `Store.Regular`: the store is well formed, and its summations over ranges are real if their bodies
  are.
* `Store.Grounded`: the store is well formed, and its captured values lie in no custom domain.
* `Store.Lasting I`: `I` is such an invariant, which nodes of ordinary kinds keep.
* `Halts I d s x Q`: run from `s` at depth `d`, `x` does not exceed the depth and keeps the invariant
  `I`, also if it fails, and a result is known and satisfies `Q`.
* `Memo.Settled R p`: the invariant of a run with a memo: the store is regular, and what is remembered
  is related by `R` to the node that it is remembered for.

There is one rule for each way in which computations are put together.
-/

namespace TermGraph

open Store (Knows)

namespace Store

/-- The store is well formed, and its summations over ranges are real if their bodies are. -/
structure Regular (s : Store) : Prop extends s.WellFormed where
  /-- A summation over a real body is real. -/
  real : ∀ {e index lower upper body : Expr}, s.Knows e →
    e.kind = .indexedSum index lower upper body → body.IsReal → e.IsReal

namespace Regular

variable {s t : Store} {domain : Domain} {kind : Kind}

/-- Steps that leave nodes, table and placeholders alone. -/
lemma of_eq (hs : s.Regular) (hle : s ≤ t) (hnodes : t.nodes = s.nodes) (htable : t.table = s.table)
    (hplaceholders : t.placeholders = s.placeholders) : t.Regular where
  toWellFormed := hs.toWellFormed.of_eq hle hnodes htable hplaceholders
  real he := hs.real (by rwa [knows_iff_getElem?, ← hnodes, ← knows_iff_getElem?])

/-- A new node keeps the store regular, unless it is a summation over a real body that is not real. -/
lemma intern (hs : s.Regular) (hadm : s.Admits domain kind)
    (hreal : ∀ {index lower upper body : Expr}, kind = .indexedSum index lower upper body →
      body.IsReal → domain = .integers ∨ domain = .reals) :
    (s.intern domain kind).2.Regular where
  toWellFormed := (hs.toWellFormed.intern hadm).1
  real {e index lower upper body} he hkind hbody := by
    rcases knows_of_knows_intern he with he | rfl
    · exact hs.real he hkind hbody
    · exact hreal hkind hbody

/-- The placeholder of a level keeps the store regular. -/
lemma placeholderOf (hs : s.Regular) (level : ℕ) (domain : Domain) :
    (s.placeholder level domain).2.Regular where
  toWellFormed := (hs.toWellFormed.placeholderOf level domain).1
  real {e index lower upper body} he hkind := by
    rw [Store.placeholder] at he
    split at he
    · exact hs.real he hkind
    · have hnew : (s.intern domain (.symbol (placeholderName level))).2.Knows e := he
      rcases knows_of_knows_intern hnew with he | rfl
      · exact hs.real he hkind
      · cases hkind

end Regular

/-- Where nothing has been built, there are no summations. -/
lemma Blank.regular {s : Store} (h : s.Blank) : s.Regular where
  toWellFormed := h.toWellFormed
  real {e _ _ _ _} he hkind := by
    obtain ⟨name, hsymbol⟩ := h.exists_symbol he
    rw [hkind] at hsymbol
    cases hsymbol

/-- The store is well formed, and its captured values lie in no custom domain. -/
structure Grounded (s : Store) : Prop extends s.WellFormed where
  /-- A captured value lies in no custom domain. -/
  builtin : ∀ {e : Expr}, s.Knows e → ∀ {v : Value} {resolver : ℕ}, e.kind = .object v resolver →
    e.domain.isBuiltin = true

namespace Grounded

variable {s t : Store} {domain : Domain} {kind : Kind}

lemma of_eq (hs : s.Grounded) (hle : s ≤ t) (hnodes : t.nodes = s.nodes) (htable : t.table = s.table)
    (hplaceholders : t.placeholders = s.placeholders) : t.Grounded where
  toWellFormed := hs.toWellFormed.of_eq hle hnodes htable hplaceholders
  builtin he := hs.builtin ((knows_iff_of_nodes hnodes).1 he)

/-- A new node keeps the store grounded, unless it captures a value in a custom domain. -/
lemma intern (hs : s.Grounded) (hadm : s.Admits domain kind)
    (hbuiltin : ∀ {v : Value} {resolver : ℕ}, kind = .object v resolver → domain.isBuiltin = true) :
    (s.intern domain kind).2.Grounded where
  toWellFormed := (hs.toWellFormed.intern hadm).1
  builtin {e} he := by
    rcases knows_of_knows_intern he with he | rfl
    · exact hs.builtin he
    · exact hbuiltin

end Grounded

end Store

namespace Kind

/-- Whether a node of this kind captures no value and is no summation. -/
def isOrdinary : Kind → Bool
  | .object _ _ | .indexedSum _ _ _ _ | .collectionSum _ _ _ => false
  | _ => true

end Kind

namespace Store

/-- An invariant that well-formed stores keep as long as their new nodes are of ordinary kinds. -/
class Lasting (I : Store → Prop) : Prop where
  /-- The store is well formed. -/
  wellFormed : ∀ {s : Store}, I s → s.WellFormed
  /-- Steps that leave nodes, table and placeholders alone keep it. -/
  of_eq : ∀ {s t : Store}, I s → s ≤ t → t.nodes = s.nodes → t.table = s.table →
    t.placeholders = s.placeholders → I t
  /-- A node of an ordinary kind keeps it. -/
  intern : ∀ {s : Store} {domain : Domain} {kind : Kind}, I s → s.Admits domain kind →
    kind.isOrdinary = true → I (s.intern domain kind).2

instance : Lasting Regular where
  wellFormed hs := hs.toWellFormed
  of_eq hs := hs.of_eq
  intern hs hadm hkind := hs.intern hadm (by
    rintro _ _ _ _ rfl
    cases hkind)

instance : Lasting Grounded where
  wellFormed hs := hs.toWellFormed
  of_eq hs := hs.of_eq
  intern hs hadm hkind := hs.intern hadm (by
    rintro _ _ rfl
    cases hkind)

end Store

/-- That captured values lie in no custom domain is kept up along with the invariant. -/
@[reducible] def Upkeep.grounding : Upkeep where
  Holds s := ∀ e : Expr, s.Knows e → ∀ (v : Value) (resolver : ℕ), e.kind = .object v resolver →
    e.domain.isBuiltin = true
  since := 0
  since_le _ := Nat.zero_le _
  of_nodes _ hnodes h e he := h e ((Store.knows_iff_of_nodes hnodes).1 he)
  intern {s domain kind} _ _ _ hkind h e he v resolver := by
    rcases Store.knows_of_knows_intern he with he | rfl
    · exact h e he v resolver
    · rintro rfl
      exact hkind.1

/-- Sums, and products of numbers and matrices, capture nothing. -/
lemma Upkeep.products_grounding : letI := Upkeep.grounding; Upkeep.Products := by
  let _ := Upkeep.grounding
  have : Upkeep.Sums := ⟨fun _ _ _ h e he v resolver hkind => by
    rcases Store.knows_of_knows_intern he with he | rfl
    · exact h e he v resolver hkind
    · cases hkind⟩
  have hled : Upkeep.LedBy fun _ _ => True := {
    mono := fun _ _ => trivial
    scalar := fun _ _ _ => trivial
    product := fun _ _ _ _ _ => trivial
    factors := fun _ _ _ _ => trivial
    intern := fun {s domain t a} hs _ _ e he v resolver hkind => by
      rcases Store.knows_of_knows_intern he with he | rfl
      · exact hs.holds e he v resolver hkind
      · cases hkind }
  exact hled.products

/-- In every store that can be reached, captured values lie in no custom domain. -/
lemma Store.Reachable.grounded {s : Store} (h : s.Reachable) : s.Grounded := by
  let _ := Upkeep.grounding
  have := Upkeep.products_grounding
  have hgood : Good s := h.good fun hs e he v resolver hkind => by
    obtain ⟨name, hsymbol⟩ := hs.exists_symbol he
    rw [hkind] at hsymbol
    cases hsymbol
  exact ⟨hgood.wellFormed, fun he _ _ hkind => hgood.holds _ he _ _ hkind⟩

/-! ## Runs within their depth -/

section Halts

variable {σ α β γ : Type} [HoldsStore σ] [Knowable α] [Knowable β]

/-- Run from `s` at depth `d`, `x` does not exceed the depth and keeps the invariant `I`, and a result is
known and satisfies `Q`. -/
def Halts (I : σ → Prop) (d : ℕ) (s : σ) (x : Run σ α) (Q : α → Prop) : Prop :=
  match x d s with
  | .ok a t => I t ∧ (store t).Knows a ∧ Q a
  | .error e t => I t ∧ e ≠ .depthExceeded

namespace Halts

variable {I : σ → Prop} {d : ℕ} {s : σ} {x y : Run σ α} {Q R : α → Prop}

lemma of_ok (h : Halts I d s x Q) {a : α} {t : σ} (hx : x d s = .ok a t) :
    I t ∧ (store t).Knows a ∧ Q a := by
  rwa [Halts, hx] at h

lemma of_error (h : Halts I d s x Q) {e : Error} {t : σ} (hx : x d s = .error e t) :
    I t ∧ e ≠ .depthExceeded := by
  rwa [Halts, hx] at h

/-- The statement is about a single run. -/
lemma of_run_eq (hy : Halts I d s y Q) (h : x d s = y d s) : Halts I d s x Q := by
  rw [Halts, h]
  exact hy

lemma pure (hs : I s) {a : α} (ha : (store s).Knows a) (h : Q a) :
    Halts I d s (Pure.pure a : Run σ α) Q := ⟨hs, ha, h⟩

lemma throw (hs : I s) {e : Error} (he : e ≠ .depthExceeded) :
    Halts I d s (MonadExcept.throw e : Run σ α) Q := ⟨hs, he⟩

lemma imp (hx : Halts I d s x Q) (h : ∀ a, Q a → R a) : Halts I d s x R := by
  rw [Halts]
  cases hr : x d s with
  | ok a t =>
    obtain ⟨ht, ha, hq⟩ := hx.of_ok hr
    exact ⟨ht, ha, h a hq⟩
  | error e t => exact hx.of_error hr

lemma and (hx : Halts I d s x Q) (hx' : Halts I d s x R) : Halts I d s x fun a => Q a ∧ R a := by
  rw [Halts]
  cases hr : x d s with
  | ok a t =>
    obtain ⟨ht, ha, hq⟩ := hx.of_ok hr
    exact ⟨ht, ha, hq, (hx'.of_ok hr).2.2⟩
  | error e t => exact hx.of_error hr

lemma ite {c : Prop} [Decidable c] (hx : c → Halts I d s x Q) (hy : ¬c → Halts I d s y Q) :
    Halts I d s (if c then x else y) Q := by
  split
  · exact hx ‹_›
  · exact hy ‹_›

lemma read {f : ℕ → Run σ α} (h : Halts I d s (f d) Q) :
    Halts I d s (MonadReader.read >>= f) Q :=
  h.of_run_eq (Run.bind_apply_ok (Run.read_apply d s))

/-- A computation with a first step. -/
lemma bind {f : α → Run σ β} {R : β → Prop} [Growing x] (hx : Halts I d s x Q)
    (hf : ∀ a t, I t → store s ≤ store t → (store t).Knows a → Q a → Halts I d t (f a) R) :
    Halts I d s (x >>= f) R := by
  rw [Halts, Run.bind_apply]
  cases hr : x d s with
  | ok a t =>
    obtain ⟨ht, ha, hq⟩ := hx.of_ok hr
    exact hf a t ht (Growing.le_of_ok hr) ha hq
  | error e t => exact hx.of_error hr

/-- A step that cannot fail. -/
lemma step {g : Store → γ × Store} {s : Store} {f : γ → Build α} {I : Store → Prop}
    (h : Halts I d (g s).2 (f (g s).1) Q) : Halts I d s (Build.step g >>= f) Q := by
  rw [Halts, Run.bind_apply_ok (x := Build.step g) rfl]
  exact h

/-- An outcome that may be an error. -/
lemma ofExcept {ε : Type} {toError : ε → Error} {s : Store} {I : Store → Prop} (hs : I s)
    {o : Except ε α} (hok : ∀ a, o = .ok a → s.Knows a ∧ Q a)
    (herror : ∀ e, o = .error e → toError e ≠ .depthExceeded) :
    Halts I d s (Build.ofExcept toError o) Q := by
  cases o with
  | error e => exact .throw hs (herror e rfl)
  | ok a => exact .pure hs (hok a rfl).1 (hok a rfl).2

lemma map {g : α → β} {R : β → Prop} [Growing x] (hx : Halts I d s x Q)
    (hg : ∀ (a : α) (t : σ), (store t).Knows a → Q a → (store t).Knows (g a) ∧ R (g a)) :
    Halts I d s (g <$> x) R := by
  rw [Run.map_eq_bind]
  exact hx.bind fun a t ht _ ha hq => .pure ht (hg a t ha hq).1 (hg a t ha hq).2

/-- The results for the items of a list. -/
lemma mapM {f : γ → Run σ α} [∀ c, Growing (f c)] {P : γ → α → Prop} (hs : I s) (l : List γ)
    (hf : ∀ c ∈ l, ∀ t, I t → store s ≤ store t → Halts I d t (f c) (P c)) :
    Halts I d s (l.mapM f) (List.Forall₂ P l) := by
  induction l generalizing s with
  | nil =>
    rw [List.mapM_nil]
    exact .pure hs Store.knows_nil .nil
  | cons c l ih =>
    rw [List.mapM_cons]
    refine (hf c (by simp) s hs le_rfl).bind fun a t ht hle ha hq => ?_
    refine (ih ht fun c' hc' u hu hle' =>
      hf c' (by simp [hc']) u hu (hle.trans hle')).bind fun as u hu hle' has hqs => ?_
    exact .pure hu (Store.knows_cons.2 ⟨ha.mono hle', has⟩) (.cons hq hqs)

/-- The items of a list are worked in one after the other. -/
lemma foldlM {f : α → γ → Run σ α} [∀ a c, Growing (f a c)] (hs : I s) {a : α} (ha : (store s).Knows a)
    (hq : Q a) (l : List γ) (hf : ∀ c ∈ l, ∀ a t, I t → store s ≤ store t → (store t).Knows a → Q a →
      Halts I d t (f a c) Q) : Halts I d s (l.foldlM f a) Q := by
  induction l generalizing s a with
  | nil => exact .pure hs ha hq
  | cons c l ih =>
    rw [List.foldlM_cons]
    refine (hf c (by simp) a s hs le_rfl ha hq).bind fun a t ht hle ha hq => ?_
    exact ih ht ha hq fun c' hc' a u hu hle' => hf c' (by simp [hc']) a u hu (hle.trans hle')

end Halts

end Halts

/-! ## Steps -/

section Steps

variable {α : Type} [Knowable α] {I : Store → Prop} [Store.Lasting I] {s : Store} {d : ℕ}

/-- Whatever follows from the structure of a node of an ordinary kind holds of the node that is found or
made. -/
lemma halts_ordinary {domain : Domain} {kind : Kind} {Q : Expr → Prop} (hs : I s)
    (hadm : s.Admits domain kind) (hkind : kind.isOrdinary = true)
    (h : ∀ e t, I t → s ≤ t → t.Knows e → e.kind.code = kind.code → Q e) :
    Halts I d s (Build.intern domain kind) Q := by
  obtain ⟨-, hknown, hcode⟩ := (Store.Lasting.wellFormed hs).intern hadm
  have hlasting := Store.Lasting.intern hs hadm hkind
  exact ⟨hlasting, hknown, h _ _ hlasting (Store.le_intern domain kind s) hknown hcode⟩

/-- The same for a summation, which must be real over a real body. -/
lemma halts_intern {domain : Domain} {kind : Kind} {Q : Expr → Prop} (hs : s.Regular)
    (hadm : s.Admits domain kind)
    (hreal : ∀ {index lower upper body : Expr}, kind = .indexedSum index lower upper body →
      body.IsReal → domain = .integers ∨ domain = .reals)
    (h : ∀ e t, t.Regular → s ≤ t → t.Knows e → e.kind.code = kind.code → Q e) :
    Halts Store.Regular d s (Build.intern domain kind) Q := by
  obtain ⟨-, hknown, hcode⟩ := hs.toWellFormed.intern hadm
  have hregular := hs.intern hadm hreal
  exact ⟨hregular, hknown, h _ _ hregular (Store.le_intern domain kind s) hknown hcode⟩

lemma halts_settle (hs : I s) (total : Number.Tracked) :
    Halts I d s (Build.settle total) (· = total.value) :=
  ⟨Store.Lasting.of_eq hs (Growing.le_final (x := Build.settle total) d s) rfl rfl rfl, trivial, rfl⟩

lemma halts_fresh (hs : I s) : Halts I d s Build.fresh fun _ => True :=
  ⟨Store.Lasting.of_eq hs (Growing.le_final (x := Build.fresh) d s) rfl rfl rfl, trivial, trivial⟩

lemma halts_noteIndex (hs : s.Regular) (index body : Expr) :
    Halts Store.Regular d s (Build.noteIndex index body) fun _ => True :=
  ⟨hs.of_eq (Growing.le_final (x := Build.noteIndex index body) d s) rfl rfl rfl, trivial, trivial⟩

end Steps

/-! ## Memos -/

/-- The store is regular, and the results in the memo are known and related to the nodes that they are
remembered for. -/
structure Memo.Settled (R : Expr → Expr → Prop) (p : Store × Memo) : Prop where
  /-- The store is regular. -/
  regular : p.1.Regular
  /-- The results are known. -/
  known : p.1.Knows p.2
  /-- The results are related to the nodes. -/
  relates : Memo.Relates R p.1 p.2

namespace Memo.Settled

variable {R : Expr → Expr → Prop} {s t : Store} {m : Memo} {a e : Expr}

lemma empty (hs : s.Regular) : Memo.Settled R (s, ∅) := ⟨hs, knows_empty, .empty⟩

lemma mono (h : Memo.Settled R (s, m)) (ht : t.Regular) (hle : s ≤ t) : Memo.Settled R (t, m) :=
  ⟨ht, h.known.mono hle, h.relates.mono hle⟩

lemma insert (h : Memo.Settled R (s, m)) (ha : s.Knows a) (he : s.Knows e) (hR : R a e) :
    Memo.Settled R (s, m.insert a.ordinal e) :=
  ⟨h.regular, knows_insert h.known he _, h.relates.insert ha hR⟩

/-- What is remembered for a node. -/
lemma get (h : Memo.Settled R (s, m)) (ha : s.Knows a) (hm : m[a.ordinal]? = some e) :
    s.Knows e ∧ R a e :=
  ⟨h.known _ _ hm, h.relates.get ha hm⟩

end Memo.Settled

namespace Halts

variable {α : Type} [Knowable α] {R : Expr → Expr → Prop} {s : Store} {m : Memo} {d : ℕ}
  {Q : α → Prop}

/-- A computation on the store halts next to a memo, which stays the same. -/
lemma lift {x : Build α} [Growing x] (hm : Memo.Settled R (s, m)) (hx : Halts Store.Regular d s x Q) :
    Halts (Memo.Settled R) d (s, m) (liftM x : Memoized Memo α) Q := by
  show Halts (Memo.Settled R) d (s, m) (Memoized.lift x) Q
  rw [Halts, Memoized.lift]
  cases hr : x d s with
  | ok a t =>
    obtain ⟨ht, ha, hq⟩ := hx.of_ok hr
    exact ⟨hm.mono ht (Growing.le_of_ok hr), ha, hq⟩
  | error e t =>
    obtain ⟨ht, he⟩ := hx.of_error hr
    exact ⟨hm.mono ht (Growing.le_of_error hr), he⟩

/-- A run with a memo that is forgotten. -/
lemma forgetting {x : Memoized Memo α} (hx : Halts (Memo.Settled R) d (s, m) x Q) :
    Halts Store.Regular d s (Build.forgetting m x) Q := by
  unfold Build.forgetting
  rw [Halts, Run.bind_apply, Build.withMemo]
  cases hr : x d (s, m) with
  | ok a p =>
    obtain ⟨hp, ha, hq⟩ := hx.of_ok hr
    exact ⟨hp.regular, ha, hq⟩
  | error e p =>
    obtain ⟨hp, he⟩ := hx.of_error hr
    exact ⟨hp.regular, he⟩

lemma memo {f : Memo → Memoized Memo α} (h : Halts (Memo.Settled R) d (s, m) (f m) Q) :
    Halts (Memo.Settled R) d (s, m) (Memoized.memo >>= f) Q :=
  h.of_run_eq (Run.bind_apply_ok rfl)

lemma modifyMemo {f : Memo → Memo} {x : Memoized Memo α}
    (h : Halts (Memo.Settled R) d (s, f m) x Q) :
    Halts (Memo.Settled R) d (s, m) (Memoized.modifyMemo f >>= fun _ => x) Q := by
  rw [Halts, Run.bind_apply_ok (x := Memoized.modifyMemo f) rfl]
  exact h

/-- A result that was remembered is as good as a new one. -/
lemma remember {x : Memoized Memo Expr} [Growing x] {a : Expr} (hm : Memo.Settled R (s, m))
    (ha : s.Knows a) (hx : Halts (Memo.Settled R) d (s, m) x (R a)) :
    Halts (Memo.Settled R) d (s, m) (Memoized.remember a x) (R a) := by
  unfold Memoized.remember
  refine .memo ?_
  split
  · rename_i known hknown
    obtain ⟨hknown, hR⟩ := hm.get ha hknown
    exact .pure hm hknown hR
  · refine hx.bind fun e p hp hle he hR => ?_
    exact .modifyMemo (.pure (hp.insert (ha.mono hle) he hR) he hR)

end Halts

end TermGraph
