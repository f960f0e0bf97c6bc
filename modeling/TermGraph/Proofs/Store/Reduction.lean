import TermGraph.Proofs.Store.Formation

/-!
# Matrix products do not reduce

A store holds no product of matrices that could be made shorter, and no inverse or transpose that
could be computed.  A product is built by pushing one factor after the other, where cancelling and
folding bring new neighbours together; what makes this safe is that a constant that is folded is a
new one, so it is the inverse of nothing that is there.

Captured values are found by their identities, and a computed matrix takes a fresh one.  So what the
host captures must bear an identity that was handed out before, as all host values do.

* `Store.Reduced s`: no node of `s` reduces.
* `Store.CapturedBefore n s`: captured values, matrices apart, have identities below `n`.
* `Store.Arises s`: operations that capture values with identities of their own lead to `s`.
* `Upkeep.reduction n`: that no node reduces is kept up along with the invariant.
* `Store.Arises.reduced`: it holds of every store that arises.
-/

namespace TermGraph

open Store (Knows)

/-- Whether a node captures no value, or a matrix, or a value with an identity below `n`. -/
def Expr.isCapturedBefore (n : ℕ) (e : Expr) : Bool :=
  match e.kind with
  | .object (.matrix _ _) _ => true
  | .object v _ => v.identity < n
  | _ => true

/-- The inverse of a matrix cancels with it. -/
lemma Expr.cancels_of_inverse {a b : Expr} (h : b.kind = .inverse a) : cancels a b = true := by
  rw [cancels, h, Bool.or_eq_true]
  exact .inl (beq_iff_ordinal.2 rfl)

namespace Store

variable {s t : Store} {domain : Domain} {kind : Kind} {n : ℕ} {a b : Expr}

/-- No node reduces. -/
def Reduced (s : Store) : Prop :=
  ∀ e : Expr, s.Knows e → e.kind.Irreducible (fun _ => False) e.domain

/-- The values that are captured, apart from matrices, have identities below `n`. -/
def CapturedBefore (n : ℕ) (s : Store) : Prop :=
  ∀ e : Expr, s.Knows e → e.isCapturedBefore n = true

namespace CapturedBefore

lemma anti (h : t.CapturedBefore n) (hle : s ≤ t) : s.CapturedBefore n :=
  fun e he => h e (he.mono hle)

lemma of_nodes (h : s.nodes.all (·.isCapturedBefore n) = true) : s.CapturedBefore n := by
  intro e he
  obtain ⟨hlt, heq⟩ := Array.getElem?_eq_some_iff.1 he
  exact heq ▸ Array.all_eq_true.1 h _ hlt

/-- A value that was captured since then is a constant matrix. -/
lemma exists_matrix (h : s.CapturedBefore n) (ha : s.Knows a) (hsince : a.IsCapturedSince n) :
    ∃ identity m resolver, a.kind = .object (.matrix identity m) resolver := by
  obtain ⟨v, resolver, hkind, hle⟩ := hsince
  have hbefore := h a ha
  unfold Expr.isCapturedBefore at hbefore
  split at hbefore
  · exact ⟨_, _, _, ‹_›⟩
  · rename_i w _ _ hkind'
    rw [hkind] at hkind'
    cases hkind'
    have hlt : v.identity < n := of_decide_eq_true hbefore
    omega
  · rename_i hnot
    exact absurd hkind (hnot v resolver)

end CapturedBefore

namespace Reduced

lemma isScalar_of_constant (h : s.Reduced) (ha : s.Knows a) {identity resolver : ℕ} {m : Matrix}
    (hkind : a.kind = .object (.matrix identity m) resolver) : a.domain.isScalar = false := by
  have hself := h a ha
  rw [hkind] at hself
  exact hself.2 ⟨identity, m, rfl⟩

/-- A constant matrix cancels with nothing, since nothing is the inverse of one. -/
lemma cancels_of_constant (hs : s.WellFormed) (h : s.Reduced) (ha : s.Knows a) (hb : s.Knows b)
    {identity resolver : ℕ} {m : Matrix} (hkind : a.kind = .object (.matrix identity m) resolver) :
    Expr.cancels a b = false := by
  cases hb' : b.kind with
  | inverse inner =>
    have hself := h b hb
    have hchildren := hs.children hb
    rw [hb'] at hself
    rw [Expr.children, hb'] at hchildren
    have hne : inner.ordinal ≠ a.ordinal := by
      intro heq
      obtain rfl := WellFormed.eq_of_ordinal (hchildren inner (by simp [Kind.children])) ha heq
      have hnone := hself.1.not_constant
      rw [Expr.matrix?, hkind] at hnone
      cases hnone
    rw [Expr.cancels, hb', hkind, Bool.or_false, ← Bool.not_eq_true, Expr.beq_iff_ordinal]
    exact hne
  | _ => rw [Expr.cancels, hb', hkind, Bool.or_false]

/-- The exceptions for values that were captured since then are none: those are constant matrices. -/
lemma irreducible (hs : s.WellFormed) (h : s.Reduced) (hn : s.CapturedBefore n)
    (hchildren : s.Knows kind.children) (hkind : kind.Irreducible (Expr.IsCapturedSince n) domain) :
    kind.Irreducible (fun _ => False) domain := by
  cases kind with
  | chain items =>
    have hitems : s.Knows items := hchildren
    -- An exception would be a constant matrix, which is no scalar and cancels with nothing.
    refine ⟨fun e he => (hkind.isLink e he).imp fun hscalar => ?_,
      hkind.isChain.imp_of_mem_imp fun a b ha hb hapart => ⟨hapart.1, fun hcancels => ?_⟩⟩
    · obtain ⟨_, _, _, hconstant⟩ :=
        hn.exists_matrix (hitems e he) ((hkind.isLink e he).not_scalar hscalar)
      rw [h.isScalar_of_constant (hitems e he) hconstant] at hscalar
      cases hscalar
    · rcases hapart.2 hcancels with hsince | hsince
      · obtain ⟨_, _, _, hconstant⟩ := hn.exists_matrix (hitems a ha) hsince
        rw [cancels_of_constant hs h (hitems a ha) (hitems b hb) hconstant] at hcancels
        cases hcancels
      · obtain ⟨_, _, _, hconstant⟩ := hn.exists_matrix (hitems b hb) hsince
        rw [Expr.cancels_comm, cancels_of_constant hs h (hitems b hb) (hitems a ha) hconstant]
          at hcancels
        cases hcancels
  | object v resolver => exact hkind
  | inverse a => exact hkind
  | transpose a => exact hkind
  | _ => trivial

lemma of_nodes (hnodes : t.nodes = s.nodes) (h : s.Reduced) : t.Reduced :=
  fun e he => h e ((knows_iff_of_nodes hnodes).1 he)

/-- A new node may be added that does not reduce. -/
lemma intern (h : s.Reduced) (hkind : kind.Irreducible (fun _ => False) domain) :
    (s.intern domain kind).2.Reduced := by
  intro e he
  rcases knows_of_knows_intern he with he | rfl
  · exact h e he
  · exact hkind

end Reduced

/-- Symbols do not reduce. -/
lemma Blank.reduced {s : Store} (h : s.Blank) : s.Reduced := by
  intro e he
  obtain ⟨name, hkind⟩ := h.exists_symbol he
  rw [hkind]
  trivial

end Store

/-! ## Upkeep -/

/-- Nodes that reduce are never made, unless a value is captured under an identity that is `n` or
later. -/
@[reducible] def Upkeep.reduction (n : ℕ) : Upkeep where
  Holds s := n ≤ s.nextIdentity ∧ (s.CapturedBefore n → s.Reduced)
  since := n
  since_le h := h.1
  of_nodes hle hnodes h := ⟨h.1.trans hle.identity, fun hn => (h.2 (hn.anti hle)).of_nodes hnodes⟩
  intern {s domain kind} hs hadm _ hkind h := by
    have hle := s.le_intern domain kind
    refine ⟨h.1.trans hle.identity, fun hn => ?_⟩
    have hreduced := h.2 (hn.anti hle)
    exact hreduced.intern (hreduced.irreducible hs (hn.anti hle) hadm.children hkind)

/-- Products of numbers and matrices do no harm, whatever their targets are, and sums do none. -/
lemma Upkeep.products_reduction (n : ℕ) : letI := Upkeep.reduction n; Upkeep.Products := by
  let _ := Upkeep.reduction n
  have : Upkeep.Sums := ⟨fun {s domain terms} _ _ _ h =>
    have hle := s.le_intern domain (.sum terms)
    ⟨h.1.trans hle.identity, fun hn => (h.2 (hn.anti hle)).intern trivial⟩⟩
  have hled : Upkeep.LedBy fun _ _ => True := {
    mono := fun _ _ => trivial
    scalar := fun _ _ _ => trivial
    product := fun _ _ _ _ _ => trivial
    factors := fun _ _ _ _ => trivial
    -- Applications do not reduce, so the targets do not matter.
    intern := fun {s domain t a} hs _ _ => by
      have hle := s.le_intern domain (.apply t a)
      exact ⟨hs.holds.1.trans hle.identity, fun hn => (hs.holds.2 (hn.anti hle)).intern trivial⟩ }
  exact hled.products

namespace Store

/-- Some number of operations lead to a store from one in which nothing has been built, where the values
that an operation captures, apart from matrices, have identities that were handed out before. -/
inductive Arises : Store → Prop
  | blank {s : Store} : s.Blank → Arises s
  | step {s : Store} (op : Operation) (depth : ℕ) : Arises s → op.KnownBy s →
    (finalState (op.run depth s)).CapturedBefore s.nextIdentity → Arises (finalState (op.run depth s))

namespace Arises

variable {s : Store} {e : Expr}

lemma reachable (h : s.Arises) : s.Reachable := by
  induction h with
  | blank hs => exact hs.reachable
  | step op depth _ hknown _ ih => exact ih.step op depth hknown

/-- In every store that arises, no node reduces. -/
lemma reduced (h : s.Arises) : s.Reduced := by
  induction h with
  | blank hs => exact hs.reduced
  | @step s op depth h hknown hcaptured ih =>
    -- What the operation captures is told from what it computes by the identities handed out so far.
    let _ := Upkeep.reduction s.nextIdentity
    have := Upkeep.products_reduction s.nextIdentity
    have hgood : Good s := .of_wellFormed h.reachable.wellFormed ⟨le_rfl, fun _ => ih⟩
    exact (Operation.yields_run hgood hknown depth).final.holds.2 hcaptured

/-- **Matrix products do not reduce.**  In every store that arises, a product of matrices has at
least two factors, none of them is itself a product of matrices or of numbers and matrices, or a
scalar, and of two neighbours neither is the inverse of the other and one is not constant; an inverse
is not that of an inverse, of a constant or of a scalar, and a transpose not that of a transpose, of a
constant or of a scalar. -/
theorem matrix_products_reduced (h : s.Arises) (he : s.Knows e) :
    (∀ items, e.kind = .chain items → 2 ≤ items.length ∧
      (∀ a ∈ items, (∀ l, a.kind ≠ .chain l) ∧ a.isProduct = false ∧ a.domain.isScalar = false) ∧
      items.IsChain fun a b => b.kind ≠ .inverse a ∧ a.kind ≠ .inverse b ∧
        (a.matrix? = none ∨ b.matrix? = none)) ∧
    (∀ a, e.kind = .inverse a →
      (∀ b, a.kind ≠ .inverse b) ∧ a.matrix? = none ∧ a.domain.isScalar = false) ∧
    (∀ a, e.kind = .transpose a →
      (∀ b, a.kind ≠ .transpose b) ∧ a.matrix? = none ∧ a.domain.isScalar = false) := by
  have hself := h.reduced e he
  refine ⟨fun items hkind => ?_, fun a hkind => ?_, fun a hkind => ?_⟩ <;> rw [hkind] at hself
  · have hformed := h.reachable.formed e he
    simp only [hkind, Kind.isFormed, decide_eq_true_eq] at hformed
    refine ⟨hformed, fun a ha => ?_, hself.isChain.imp fun a b hapart => ?_⟩
    · have hlink := hself.isLink a ha
      exact ⟨hlink.not_chain, hlink.not_product, Bool.eq_false_iff.2 hlink.not_scalar⟩
    · have hcancels : Expr.cancels a b = false := Bool.eq_false_iff.2 fun hc => (hapart.2 hc).elim id id
      refine ⟨fun hb => ?_, fun ha => ?_, hapart.1⟩
      · rw [Expr.cancels_of_inverse hb] at hcancels
        cases hcancels
      · rw [Expr.cancels_comm, Expr.cancels_of_inverse ha] at hcancels
        cases hcancels
  · exact ⟨hself.2, hself.1.not_constant, hself.1.not_scalar⟩
  · exact ⟨hself.2, hself.1.not_constant, hself.1.not_scalar⟩

/-- Two constants between a matrix and its inverse are folded into one. -/
theorem matrix_products_reduced_folded :
    let a : Expr := .node 50 .matrices (.symbol "A")
    let c : Expr := .node 51 .matrices (.object (.matrix 1 ⟨0, 0, #[]⟩) 0)
    let i : Expr := .node 52 .matrices (.inverse a)
    let folded : Expr := .node 53 .matrices (.object (.matrix 2 ⟨0, 0, #[]⟩) 0)
    let e : Expr := .node 54 .matrices (.chain [a, folded, i])
    let s₁ := finalState ((Operation.symbol "A" .matrices).run 9 Store.initial)
    let s₂ := finalState (Operation.identity.run 9 s₁)
    let s₃ := finalState ((Operation.constant .declared (.matrix 1 ⟨0, 0, #[]⟩)).run 9 s₂)
    let s₄ := finalState ((Operation.inverse a).run 9 s₃)
    let s := finalState ((Operation.chain [a, c, c, i]).run 9 s₄)
    s.Arises ∧ s.Knows e ∧ [a, folded, i].IsChain fun a b => b.kind ≠ .inverse a ∧ a.kind ≠ .inverse b ∧
      (a.matrix? = none ∨ b.matrix? = none) := by
  intro a c i folded e s₁ s₂ s₃ s₄ s
  have h₁ : s₁.Arises := .step _ 9 (.blank blank_initial) trivial (.of_nodes (by decide +kernel))
  have h₂ : s₂.Arises := .step _ 9 h₁ trivial (.of_nodes (by decide +kernel))
  have h₃ : s₃.Arises := .step _ 9 h₂ (Store.knows_matrix _) (.of_nodes (by decide +kernel))
  have ha : s₃.Knows a := show s₃.nodes[50]? = some a from rfl
  have h₄ : s₄.Arises := .step _ 9 h₃ ha (.of_nodes (by decide +kernel))
  have hfactors : s₄.Knows [a, c, c, i] := by
    simp only [Store.knows_cons]
    exact ⟨rfl, rfl, rfl, rfl, by simp⟩
  have hs : s.Arises := .step _ 9 h₄ hfactors (.of_nodes (by decide +kernel))
  have he : s.Knows e := show s.nodes[54]? = some e from rfl
  exact ⟨hs, he, ((hs.matrix_products_reduced he).1 _ rfl).2.2⟩

end Arises

end Store

end TermGraph
