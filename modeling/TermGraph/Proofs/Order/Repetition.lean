import TermGraph.Proofs.Order.Grading
import TermGraph.Proofs.Order.Permutation

/-!
# Repeated runs

A computation is run, and later, when the store may know much more, another one is run that is the same
up to the order of operands.  Nodes that the first run has made are in the table, so the second run
finds them, and what it computes it computes from the same nodes.

* `Later t y P`: from `t` on, every exact run of `y` that gives a result gives one with `P`.
* `Repeats d s x y Q R`: run from `s` at depth `d`, an exact run of `x` gives a result `a` with `Q a`,
  and every later exact run of `y` that gives a result gives one that is related to `a` by `R`.
* `Repeats.bind` and `Repeats.mapM`: both are put together from steps.  The items of a list may be
  treated in any order.
-/

namespace TermGraph

open Store (Knows)

section Later

variable {α β γ : Type} {t u : Store}

/-- From `t` on, every exact run of `y` that gives a result gives one that satisfies `P`. -/
def Later (t : Store) (y : Build β) (P : β → Prop) : Prop :=
  ∀ (u : Store) (d : ℕ) (b : β) (v : Store), t ≤ u → y d u = .ok b v → v.exact = true → P b

namespace Later

variable {y : Build β} {P R : β → Prop}

lemma mono (h : Later t y P) (hle : t ≤ u) : Later u y P :=
  fun v d b w hv => h v d b w (hle.trans hv)

lemma imp (h : Later t y P) (himp : ∀ b, P b → R b) : Later t y R :=
  fun u d b v hle hrun hexact => himp b (h u d b v hle hrun hexact)

/-- Nothing is said about the result. -/
lemma any (y : Build β) : Later t y fun _ => True := fun _ _ _ _ _ _ _ => trivial

lemma pure {b : β} (h : P b) : Later t (Pure.pure b : Build β) P := by
  rintro u d _ v - ⟨⟩ -
  exact h

lemma throw (e : Error) : Later t (MonadExcept.throw e : Build β) P := by
  rintro u d _ v - ⟨⟩

lemma bind {g : β → Build γ} {R : γ → Prop} [Growing y] [∀ b, Growing (g b)] (hy : Later t y P)
    (hg : ∀ b, P b → Later t (g b) R) : Later t (y >>= g) R := by
  intro u d c v hle hrun hexact
  obtain ⟨b, w, hfirst, hrest⟩ := Run.bind_eq_ok.1 hrun
  have hb := hy u d b w hle hfirst ((Growing.le_of_ok hrest).exact hexact)
  exact hg b hb w d c v (hle.trans (Growing.le_of_ok hfirst)) hrest hexact

/-- An exact run has kept to the integers. -/
lemma settle (total : Number.Tracked) :
    Later t (Build.settle total) fun n => n = total.value ∧ total.kept = true := by
  rintro u d _ v - ⟨⟩ hexact
  simp only [Bool.and_eq_true] at hexact
  exact ⟨rfl, hexact.2⟩

/-- A node that is in the table is found again. -/
lemma intern {e : Expr} {kind : Kind} (ht : t.WellFormed) (he : t.Knows e)
    (hcode : e.kind.code = kind.code) (hsome : kind.code.isSome = true) (domain : Domain) :
    Later t (Build.intern domain kind) (Eq e) := by
  obtain ⟨code, hkind⟩ := Option.isSome_iff_exists.1 hsome
  intro u d e' v hle hrun _
  have hfound := hle.table (ht.table_complete he (hcode.trans hkind))
  have hintern : u.intern domain kind = (e, u) := by
    simp only [Store.intern, hkind, hfound]
  rw [Build.intern, step_apply, hintern] at hrun
  cases hrun
  rfl

lemma mapM {g : α → Build β} [∀ a, Growing (g a)] {l : List α} {bs : List β}
    (h : List.Forall₂ (fun a b => Later t (g a) (Eq b)) l bs) : Later t (l.mapM g) (Eq bs) := by
  induction h with
  | nil =>
    rw [List.mapM_nil]
    exact pure rfl
  | cons hb _ ih =>
    rw [List.mapM_cons]
    refine hb.bind fun b' hb' => ih.bind fun bs' hbs' => pure ?_
    rw [← hb', ← hbs']

end Later

end Later

section Repeats

variable {α β γ δ : Type} [Knowable α] {d : ℕ} {s : Store}

/-- Run from `s` at depth `d`, `x` keeps the invariant; and unless an operation on integers gives no
integer, it gives a result `a` that satisfies `Q`, and all later results of `y` are related to `a`. -/
structure Repeats (d : ℕ) (s : Store) (x : Build α) (y : Build β) (Q : α → Prop) (R : α → β → Prop) :
    Prop where
  /-- The invariant is kept, and the store knows the result. -/
  yields : Sound Good d s x fun a t => t.Knows a
  /-- An exact run gives a result, and later runs of `y` give a related one. -/
  exact : Exact d s x fun a t => Q a ∧ Later t y (R a)

/-- If what follows from a result makes it the only one later on, it is found again. -/
lemma Achieves.repeats {x : Build α} {y : Build β} {Q : α → Prop} {R : α → β → Prop}
    (h : Achieves d s x Q)
    (hlater : ∀ a t, t.WellFormed → t.Knows a → Q a → Later t y (R a)) : Repeats d s x y Q R where
  yields := h.yields
  exact := h.exact.imp fun a t hrun _ hq =>
    ⟨hq, hlater a t (good_store.1 (h.yields.of_ok hrun).1) (h.yields.of_ok hrun).2 hq⟩

namespace Repeats

variable {x : Build α} {y : Build β} {Q : α → Prop} {R : α → β → Prop}

/-- A first step and what is done with its result. -/
lemma bind {y : Build α} {R : α → α → Prop} {f : α → Build γ} {g : α → Build δ} {Q' : γ → Prop}
    {R' : γ → δ → Prop} [Growing x] [Growing y] [∀ a, Growing (f a)] [∀ b, Growing (g b)]
    (hx : Repeats d s x y Q R) (hrefl : ∀ a, R a a)
    (hf : ∀ a b t, Good t → s ≤ t → t.Knows a → Q a → R a b →
      Exact d t (f a) fun c u => Q' c ∧ Later u (g b) (R' c)) :
    Exact d s (x >>= f) fun c u => Q' c ∧ Later u (y >>= g) (R' c) := by
  refine hx.exact.bind fun a t hrun _ hq => ?_
  obtain ⟨ht, hknown⟩ := hx.yields.of_ok hrun
  have hrest (b : α) (hb : R a b) := hf a b t ht (Growing.le_of_ok hrun) hknown hq.1 hb
  refine (hrest a (hrefl a)).imp fun c u hrun' hexact hc => ⟨hc.1, ?_⟩
  exact (hq.2.mono (Growing.le_of_ok hrun')).bind fun b hb => ((hrest b hb).of_ok hrun' hexact).2

/-- A first step whose result is found again. -/
lemma bind_eq {y : Build α} {f : α → Build γ} {g : α → Build δ} {Q' : γ → Prop} {R' : γ → δ → Prop}
    [Growing x] [Growing y] [∀ a, Growing (f a)] [∀ b, Growing (g b)] (hx : Repeats d s x y Q Eq)
    (hf : ∀ a t, Good t → s ≤ t → t.Knows a → Q a →
      Exact d t (f a) fun c u => Q' c ∧ Later u (g a) (R' c)) :
    Exact d s (x >>= f) fun c u => Q' c ∧ Later u (y >>= g) (R' c) := by
  refine hx.bind (fun _ => rfl) fun a b t ht hle hknown hq hab => ?_
  subst hab
  exact hf a t ht hle hknown hq

lemma imp {Q' : α → Prop} {R' : α → β → Prop} (hx : Repeats d s x y Q R) (hQ : ∀ a, Q a → Q' a)
    (hR : ∀ a b, Q a → R a b → R' a b) : Repeats d s x y Q' R' where
  yields := hx.yields
  exact := hx.exact.imp fun a _ _ _ h => ⟨hQ a h.1, h.2.imp fun b => hR a b h.1⟩

/-- The items of a list, later in another order. -/
lemma mapM {f g : γ → Build α} [∀ c, Growing (f c)] [∀ c, Growing (g c)] (hs : Good s)
    {l l' : List γ} (hperm : l.Perm l')
    (hf : ∀ c ∈ l, ∀ t, Good t → s ≤ t → Repeats d t (f c) (g c) Q Eq) :
    Repeats d s (l.mapM f) (l'.mapM g) (fun as => ∀ a ∈ as, Q a) List.Perm where
  yields := .mapM (fun _ _ _ hle hb => hb.mono hle) l hs fun c hc t ht hle => (hf c hc t ht hle).yields
  exact := by
    have hmapM : Exact d s (l.mapM f) fun as t =>
        (∀ a ∈ as, Q a) ∧ List.Forall₂ (fun c a => Later t (g c) (Eq a)) l as := by
      clear hperm
      induction l generalizing s with
      | nil =>
        rw [List.mapM_nil]
        exact .pure ⟨by simp, .nil⟩
      | cons c l ih =>
        rw [List.mapM_cons]
        have hc := hf c (by simp) s hs le_rfl
        refine hc.exact.bind fun a t hrun _ ha => ?_
        have hle : s ≤ t := Growing.le_of_ok hrun
        refine (ih (hc.yields.of_ok hrun).1 fun c' hc' u hu hle' =>
          hf c' (by simp [hc']) u hu (hle.trans hle')).bind fun as u hrun' _ has => ?_
        exact .pure ⟨List.forall_mem_cons.2 ⟨ha.1, has.1⟩,
          .cons (ha.2.mono (Growing.le_of_ok hrun')) has.2⟩
    refine hmapM.imp fun as t _ _ has => ⟨has.1, ?_⟩
    obtain ⟨as', has', hperm'⟩ := List.perm_comp_forall₂ hperm.symm has.2
    exact (Later.mapM has').imp fun bs hbs => hbs ▸ hperm'.symm

end Repeats

end Repeats

namespace Expr

variable {s t : Store} {d : ℕ} {e a b : Expr}

/-! ## Nodes that are found again -/

lemma later_number (ht : t.WellFormed) (he : t.Knows e) {k : ℤ} (h : IsLiteral k e) {n : Number}
    (hn : n.IsInt k) : Later t (number n) (Eq e) := by
  obtain ⟨m, hkind, hm⟩ := h.kind
  obtain ⟨m', rfl, hm'⟩ := hn
  obtain rfl : m = m' := Int64.toInt_inj.1 (hm.trans hm'.symm)
  exact .intern ht he (by rw [hkind]) rfl _

lemma repeats_number (hs : Good s) {n : Number} {k : ℤ} (h : n.IsInt k) :
    Repeats d s (number n) (number n) (IsLiteral k) Eq :=
  (achieves_number hs h).repeats fun _ _ ht he hliteral => later_number ht he hliteral h

lemma repeats_one (hs : Good s) : Repeats d s one one (IsLiteral 1) Eq :=
  repeats_number hs (Number.isInt_int 1)

lemma later_rawApply (ht : t.WellFormed) (he : t.Knows e) (hkind : e.kind = .apply a b) :
    Later t (rawApply a b) (Eq e) := by
  unfold rawApply applyDomain
  split
  · exact (Later.any _).bind fun domain _ => .intern ht he (by rw [hkind]) rfl domain
  · exact (Later.throw (P := fun _ => False) _).bind fun _ h => h.elim

/-- Scalars and matrices that are applied to one another. -/
lemma repeats_rawApply (hs : Good s) (ha : s.Knows a) (hb : s.Knows b) (ha' : a.domain.IsNumeric)
    (hb' : b.domain.IsNumeric) :
    Repeats d s (rawApply a b) (rawApply a b) (fun e => e.kind = .apply a b ∧ e.domain.IsNumeric ∧
      (e.domain.isScalar = true ↔ a.domain.isScalar = true ∧ b.domain.isScalar = true)) Eq :=
  (achieves_rawApply hs ha hb (applyDomain?_numeric ha' hb')).repeats
    fun _ _ ht he h => later_rawApply ht he h.1

end Expr

end TermGraph
