import TermGraph.Proofs.Polynomial.Canonicity
import TermGraph.Proofs.Word.Products

/-!
# Canonicity of matrix products

A product of scalars and matrices is one node, whatever the bracketing and whichever of the two
products stands at each bracket.  Scalars may be moved past matrices, and a matrix cancels against
its inverse as soon as nothing but scalars is left in between.

* `Word`: the ways to multiply a list of letters, and `Word.letters`, the letters in order.
* `Word.exact_build`: building a word makes the canonical product of its letters.
* `Store.Reachable.canonical_word`: the node is determined by the order of the matrices and by the
  scalars, and two words are the same node exactly if they are equal in the group ring.
-/

namespace TermGraph

open Store (Knows)
open TermGraph.Expr (IsWord)

/-! ## Words -/

/-- A letter of a word. -/
inductive Letter where
  /-- An integer literal. -/
  | literal (n : Int64)
  /-- A scalar symbol, or a matrix that is not taken apart. -/
  | atom (e : Expr)

/-- A word of scalars and matrices, in any bracketing. -/
inductive Word where
  /-- A single letter. -/
  | letter (x : Letter)
  /-- One word applied to another. -/
  | apply (a b : Word)
  /-- The product of a list. -/
  | product (items : List Word)
  /-- The matrix product of a list. -/
  | chain (items : List Word)

/-- Products of powers of variables and of matrices and their inverses, with integer coefficients:
variables commute with everything, and matrices satisfy nothing but the laws of a group. -/
abbrev WordRing := MonoidAlgebra ℤ (Multiplicative Exponents × FreeGroup ℕ)

namespace Letter

/-- Makes the letter. -/
def build : Letter → Build Expr
  | .literal n => Expr.int n
  | .atom e => pure e

/-- A letter that is no scalar. -/
def isMatrix : Letter → Bool
  | .literal _ => false
  | .atom e => !e.domain.isScalar

/-- The shape of a letter. -/
noncomputable def shape : Letter → Shape
  | .literal n => (n.toInt, 1, 1)
  | .atom e =>
    if e.domain.isScalar then (1, .ofAdd (.single e.ordinal 1), 1) else (1, 1, Expr.wordOf [e])

variable {e : Expr}

lemma shape_scalar (h : e.domain.isScalar = true) :
    shape (.atom e) = (1, .ofAdd (.single e.ordinal 1), 1) := by
  rw [shape, if_pos h]

lemma shape_matrix (h : e.domain.isScalar = false) :
    shape (.atom e) = (1, 1, Expr.wordOf [e]) := by
  rw [shape, if_neg (by simp [h])]

lemma word_shape {x : Letter} (h : x.isMatrix = false) : x.shape.word = 1 := by
  cases x with
  | literal _ => rfl
  | atom e => rw [shape_scalar (by simpa [isMatrix] using h)]

end Letter

namespace Shape

/-- The element of the group ring of a shape. -/
noncomputable def toRing (p : Shape) : WordRing :=
  .single p.2 p.1

lemma toRing_mul (p q : Shape) : (p * q).toRing = p.toRing * q.toRing := by
  rw [toRing, toRing, toRing, MonoidAlgebra.single_mul_single]
  rfl

/-- Shapes are the same exactly if their elements of the group ring are. -/
lemma toRing_inj {p q : Shape} : p.toRing = q.toRing ↔ p.Same q := by
  rw [← MonoidAlgebra.coeff_inj, toRing, toRing, MonoidAlgebra.coeff_single,
    MonoidAlgebra.coeff_single, Finsupp.single_eq_single_iff]
  constructor
  · rintro (⟨h, h'⟩ | h)
    · exact .inl (Prod.ext h' h)
    · exact .inr h
  · rintro (rfl | h)
    · exact .inl ⟨rfl, rfl⟩
    · exact .inr h

end Shape

namespace Word

mutual

/-- Builds the product. -/
def build : Word → Build Expr
  | .letter x => x.build
  | .apply a b => do
    let e ← a.build
    Expr.apply e (← b.build)
  | .product items => do Expr.product (← buildAll items)
  | .chain items => do Expr.chain (← buildAll items)

/-- Builds all products of a list. -/
def buildAll : List Word → Build (List Expr)
  | [] => pure []
  | w :: ws => do
    let e ← w.build
    return e :: (← buildAll ws)

end

mutual

/-- The letters in order. -/
def letters : Word → List Letter
  | .letter x => [x]
  | .apply a b => a.letters ++ b.letters
  | .product items | .chain items => allLetters items

/-- The letters of a list of words in order. -/
def allLetters : List Word → List Letter
  | [] => []
  | w :: ws => w.letters ++ allLetters ws

end

/-- The element of the group ring that a word denotes. -/
noncomputable def denote (w : Word) : WordRing :=
  (w.letters.map fun x => x.shape.toRing).prod

/-- The matrices are the same in the same order, and the scalars are the same in any order. -/
def Rearranges (p q : Word) : Prop :=
  p.letters.filter Letter.isMatrix = q.letters.filter Letter.isMatrix ∧
    (p.letters.filter fun x => !x.isMatrix).Perm (q.letters.filter fun x => !x.isMatrix)

end Word

namespace Store

/-- What may stand in a word: a literal, a scalar symbol, or a matrix that is not taken apart. -/
def HasLetter (s : Store) : Letter → Prop
  | .literal _ => True
  | .atom e => s.HasVariable e ∨ s.Knows e ∧ e.IsLetter

lemma HasLetter.mono {s t : Store} {x : Letter} (h : s.HasLetter x) (hle : s ≤ t) :
    t.HasLetter x := by
  cases x with
  | literal _ => trivial
  | atom e => exact h.imp (fun h => h.mono hle) fun h => ⟨h.1.mono hle, h.2⟩

end Store

/-! ## Building words -/

namespace Word

mutual

theorem growing_build : ∀ w : Word, Growing w.build
  | .letter (.literal n) => by unfold build Letter.build; infer_instance
  | .letter (.atom e) => by unfold build Letter.build; infer_instance
  | .apply a b => by
    have := growing_build a
    have := growing_build b
    unfold build
    infer_instance
  | .product items | .chain items => by
    have := growing_buildAll items
    unfold build
    infer_instance

theorem growing_buildAll : ∀ ws : List Word, Growing (buildAll ws)
  | [] => by unfold buildAll; infer_instance
  | w :: ws => by
    have := growing_build w
    have := growing_buildAll ws
    unfold buildAll
    infer_instance

end

instance (w : Word) : Growing w.build := growing_build w

instance (ws : List Word) : Growing (buildAll ws) := growing_buildAll ws

mutual

theorem yields_build : ∀ (w : Word) {s : Store}, Good s →
    (∀ x ∈ w.letters, s.HasLetter x) → Yields s w.build
  | .letter (.literal n), _, hs, _ => by
    unfold build Letter.build
    exact Expr.yields_int hs n
  | .letter (.atom e), _, hs, h => by
    unfold build Letter.build
    have hatom := h (.atom e) (by simp [letters])
    exact .pure hs (hatom.elim (fun h => h.known) fun h => h.1)
  | .apply a b, _, hs, h => by
    unfold build
    refine (yields_build a hs fun x hx => h x (by simp [letters, hx])).bind fun e t ht hle he => ?_
    refine (yields_build b ht fun x hx => (h x (by simp [letters, hx])).mono hle).bind
      fun f u hu hle' hf => ?_
    exact Expr.yields_apply u e f hu (he.mono hle') hf
  | .product items, _, hs, h => by
    unfold build
    refine (yields_buildAll items hs fun x hx => h x (by simpa [letters] using hx)).bind
      fun l t ht hle hl => ?_
    exact Expr.yields_product t l ht hl
  | .chain items, _, hs, h => by
    unfold build
    refine (yields_buildAll items hs fun x hx => h x (by simpa [letters] using hx)).bind
      fun l t ht hle hl => ?_
    exact Expr.yields_chain t l ht hl

theorem yields_buildAll : ∀ (ws : List Word) {s : Store}, Good s →
    (∀ x ∈ allLetters ws, s.HasLetter x) → Yields s (buildAll ws)
  | [], _, hs, _ => by
    unfold buildAll
    exact .pure hs (by simp)
  | w :: ws, _, hs, h => by
    unfold buildAll
    refine (yields_build w hs fun x hx => h x (by simp [allLetters, hx])).bind
      fun e t ht hle he => ?_
    refine (yields_buildAll ws ht fun x hx => (h x (by simp [allLetters, hx])).mono hle).bind
      fun l u hu hle' hl => ?_
    exact .pure hu (by grind)

end

variable {d : ℕ} {s : Store}

/-- A letter is the canonical product of its shape. -/
lemma exact_letter (hs : Good s) {x : Letter} (h : s.HasLetter x) :
    Exact d s x.build fun e _ => IsWord x.shape e := by
  cases x with
  | literal n =>
    refine (Expr.achieves_int hs n).exact.imp fun e _ _ _ he => ?_
    exact IsWord.of_isMonomial (.literal (.inr rfl) he)
  | atom e =>
    refine .pure ?_
    rcases h with h | ⟨-, h⟩
    · rw [Letter.shape_scalar h.isVariable.real.isScalar]
      exact IsWord.of_isMonomial (Expr.IsPower.base h.isVariable).isMonomial
    · rw [Letter.shape_matrix h.isScalar]
      exact IsWord.of_isMatrix (.single (.of_isReduced (by simpa using h) .singleton))

mutual

/-- Building a word makes the canonical product of its letters. -/
theorem exact_build (hd : 0 < d) : ∀ (w : Word) {s : Store}, Good s →
    (∀ x ∈ w.letters, s.HasLetter x) →
      Exact d s w.build fun e _ => IsWord (w.letters.map Letter.shape).prod e
  | .letter x, s, hs, h => by
    unfold build letters
    simpa using exact_letter hs (h x (by simp [letters]))
  | .apply a b, s, hs, h => by
    simp only [letters, List.mem_append] at h
    unfold build letters
    have ha : ∀ x ∈ a.letters, s.HasLetter x := fun x hx => h x (.inl hx)
    rw [List.map_append, List.prod_append]
    refine (show Achieves d s _ _ from ⟨yields_build a hs ha d, exact_build hd a hs ha⟩).bind
      fun e t ht hle he _ hword => ?_
    have hb : ∀ x ∈ b.letters, t.HasLetter x := fun x hx => (h x (.inr hx)).mono hle
    refine (show Achieves d t _ _ from ⟨yields_build b ht hb d, exact_build hd b ht hb⟩).bind
      fun f u hu hle' hf _ hword' => ?_
    exact (Expr.achieves_applyWord hu hd hword hword' (he.mono hle') hf).exact
  | .product items, s, hs, h => by
    rw [letters] at h
    unfold build letters
    refine (show Achieves d s _ _ from ⟨yields_buildAll items hs h d, exact_buildAll hd items hs h⟩).bind
      fun l t ht hle hl _ hwords => ?_
    obtain ⟨ps, hps, hprod⟩ := hwords
    rw [← hprod]
    exact (Expr.achieves_productWord ht hd hps hl).exact
  | .chain items, s, hs, h => by
    rw [letters] at h
    unfold build letters
    refine (show Achieves d s _ _ from ⟨yields_buildAll items hs h d, exact_buildAll hd items hs h⟩).bind
      fun l t ht hle hl _ hwords => ?_
    obtain ⟨ps, hps, hprod⟩ := hwords
    rw [← hprod]
    exact (Expr.achieves_chainWord ht hd hps hl).exact

theorem exact_buildAll (hd : 0 < d) : ∀ (ws : List Word) {s : Store}, Good s →
    (∀ x ∈ allLetters ws, s.HasLetter x) → Exact d s (buildAll ws) fun l _ =>
      ∃ ps : List Shape, List.Forall₂ IsWord ps l ∧
        ps.prod = ((allLetters ws).map Letter.shape).prod
  | [], s, hs, h => by
    unfold buildAll allLetters
    exact .pure ⟨[], .nil, rfl⟩
  | w :: ws, s, hs, h => by
    simp only [allLetters, List.mem_append] at h
    unfold buildAll allLetters
    have hw : ∀ x ∈ w.letters, s.HasLetter x := fun x hx => h x (.inl hx)
    refine (show Achieves d s _ _ from ⟨yields_build w hs hw d, exact_build hd w hs hw⟩).bind
      fun e t ht hle he _ hword => ?_
    have hws : ∀ x ∈ allLetters ws, t.HasLetter x := fun x hx => (h x (.inr hx)).mono hle
    refine (show Achieves d t _ _ from ⟨yields_buildAll ws ht hws d, exact_buildAll hd ws ht hws⟩).bind
      fun l u _ _ _ _ hl => ?_
    obtain ⟨ps, hps, hprod⟩ := hl
    refine .pure ⟨_ :: ps, .cons hword hps, ?_⟩
    rw [List.prod_cons, hprod, List.map_append, List.prod_append]

end

/-! ## Moving scalars -/

lemma denote_eq (w : Word) : w.denote = (w.letters.map Letter.shape).prod.toRing := by
  rw [denote]
  induction w.letters with
  | nil => rfl
  | cons x l ih => rw [List.map_cons, List.map_cons, List.prod_cons, List.prod_cons, ih,
      Shape.toRing_mul]

/-- A shape without matrices commutes with every shape. -/
lemma commute_of_word {p : Shape} (h : p.word = 1) (q : Shape) : Commute p q := by
  obtain ⟨c, v, g⟩ := p
  obtain ⟨c', v', g'⟩ := q
  obtain rfl : g = 1 := h
  exact Prod.ext (mul_comm c c') (Prod.ext (mul_comm v v') (by simp))

/-- Scalars may be moved in front of the matrices. -/
lemma prod_shapes (l : List Letter) : (l.map Letter.shape).prod =
    ((l.filter fun x => !x.isMatrix).map Letter.shape).prod *
      ((l.filter Letter.isMatrix).map Letter.shape).prod := by
  induction l with
  | nil => simp
  | cons x l ih =>
    rw [List.map_cons, List.prod_cons, ih]
    cases hmatrix : x.isMatrix with
    | false =>
      rw [List.filter_cons_of_pos (by simp [hmatrix]), List.filter_cons_of_neg (by simp [hmatrix]),
        List.map_cons, List.prod_cons, mul_assoc]
    | true =>
      have hscalars : Commute ((l.filter fun x => !x.isMatrix).map Letter.shape).prod x.shape := by
        refine Commute.list_prod_left _ _ fun p hp => ?_
        obtain ⟨y, hy, rfl⟩ := List.mem_map.1 hp
        exact commute_of_word (Letter.word_shape (by simpa using (List.mem_filter.1 hy).2)) _
      rw [List.filter_cons_of_neg (by simp [hmatrix]), List.filter_cons_of_pos hmatrix,
        List.map_cons, List.prod_cons, ← mul_assoc, ← mul_assoc, hscalars.eq]

/-- Moving scalars does not change what a word denotes. -/
lemma Rearranges.denote_eq {p q : Word} (h : p.Rearranges q) : p.denote = q.denote := by
  rw [Word.denote_eq, Word.denote_eq, prod_shapes p.letters, prod_shapes q.letters, h.1]
  have hcommute : ((p.letters.filter fun x => !x.isMatrix).map Letter.shape).Pairwise Commute := by
    refine List.pairwise_of_forall_mem_list fun a ha b _ => ?_
    obtain ⟨x, hx, rfl⟩ := List.mem_map.1 ha
    exact commute_of_word (Letter.word_shape (by simpa using (List.mem_filter.1 hx).2)) b
  rw [(h.2.map Letter.shape).prod_eq' hcommute]

end Word

/-! ## Canonicity -/

namespace Store

variable {s : Store}

lemma HasLetter.watched {x : Letter} (h : s.HasLetter x) : s.watched.HasLetter x := by
  cases x with
  | literal _ => trivial
  | atom e => exact h.imp (fun h => ⟨h.known, h.symbol, h.real⟩) fun h => h

lemma HasLetter.build {x : Letter} (h : s.HasLetter x) (w : Word) (d : ℕ) :
    (finalState (w.build d s.watched)).HasLetter x :=
  h.watched.mono (Growing.le_final (x := w.build) d s.watched)

/-- **Canonicity of matrix products.**  Two words are built, `p` in a store that can be reached and
`q` after any further operations, and no coefficients or exponents leave the machine integers as
they are combined.  Then both are built; they are the same node if the matrices are the same in the
same order and the scalars are the same in any order; and they are the same node exactly if they
denote the same element of the group ring. -/
theorem Reachable.canonical_word {t : Store} {p q : Word} {d d' : ℕ} (hs : s.Reachable)
    (hp : ∀ x ∈ p.letters, s.HasLetter x) (hd : 0 < d)
    (hexact : (finalState (p.build d s.watched)).exact = true)
    (ht : (finalState (p.build d s.watched)).Reaches t) (hq : ∀ x ∈ q.letters, t.HasLetter x)
    (hd' : 0 < d') (hexact' : (finalState (q.build d' t.watched)).exact = true) :
    ∃ a b s' t', p.build d s.watched = .ok a s' ∧ q.build d' t.watched = .ok b t' ∧
      (p.Rearranges q → a = b) ∧ (a = b ↔ p.denote = q.denote) := by
  have hwatched := good_store.2 hs.wellFormed.watched
  have hp' : ∀ x ∈ p.letters, s.watched.HasLetter x := fun x hx => (hp x hx).watched
  obtain ⟨a, s', hrun, -, ha⟩ := (p.exact_build hd hwatched hp').exists_ok hexact
  obtain ⟨hs', hknown⟩ := (p.yields_build hwatched hp' d).of_ok hrun
  rw [hrun] at ht
  have hwft : t.WellFormed := ht.wellFormed (good_store.1 hs')
  have hq' : ∀ x ∈ q.letters, t.watched.HasLetter x := fun x hx => (hq x hx).watched
  have htwatched := good_store.2 hwft.watched
  obtain ⟨b, t', hrun', -, hb⟩ := (q.exact_build hd' htwatched hq').exists_ok hexact'
  obtain ⟨ht', hknown'⟩ := (q.yields_build htwatched hq' d').of_ok hrun'
  have hknownLater : t'.Knows a := by
    have hbetween : t.Knows a := Knows.mono hknown ht.le
    exact Knows.mono (show t.watched.Knows a from hbetween) (Growing.le_of_ok hrun')
  have heq : a = b ↔ p.denote = q.denote := by
    rw [Word.denote_eq, Word.denote_eq, Shape.toRing_inj]
    refine ⟨fun hab => ?_, fun hsame => ?_⟩
    · subst hab
      exact ha.unique hb
    · exact (ha.congr hsame).eq (good_store.1 ht') hknownLater hknown' hb
  exact ⟨a, b, s', t', hrun, hrun', fun h => heq.2 h.denote_eq, heq⟩

/-- Moving the row index out of `A * rowIndex * inv(A)` does not change the product. -/
theorem canonical_word_inverse :
    let a : Expr := .node 50 .matrices (.symbol "A")
    let b : Expr := .node 51 .matrices (.inverse a)
    let s := finalState ((Operation.inverse a).run 0
      (finalState ((Operation.symbol "A" .matrices).run 0 initial)))
    let p : Word := .apply (.apply (.letter (.atom a)) (.letter (.atom .rowIndex))) (.letter (.atom b))
    let q : Word :=
      .chain [.letter (.atom a), .product [.letter (.atom b), .letter (.atom .rowIndex)]]
    let t := finalState (p.build 1 s.watched)
    ∃ x y s' t', p.build 1 s.watched = .ok x s' ∧ q.build 1 t.watched = .ok y t' ∧ x = y := by
  intro a b s p q t
  have hs : initial.Reaches s := .step (.inverse a) 0 (.step (.symbol "A" .matrices) 0 .refl trivial)
    (show (finalState ((Operation.symbol "A" .matrices).run 0 initial)).Knows a from rfl)
  have hletter : ∀ x ∈ [Letter.atom a, .atom .rowIndex, .atom b], s.HasLetter x := by
    have ha : s.Knows a := show s.nodes[50]? = some a from rfl
    have hb : s.Knows b := show s.nodes[51]? = some b from rfl
    have hrow : s.HasVariable .rowIndex := ⟨wellFormed_initial.rowIndex.mono hs.le, rfl, .inl rfl⟩
    rw [List.forall_mem_cons, List.forall_mem_cons, List.forall_mem_singleton]
    exact ⟨.inr ⟨ha, .solid ⟨rfl, rfl⟩⟩, .inl hrow, .inr ⟨hb, .inverse rfl rfl fun _ h => nomatch h⟩⟩
  have hletter' : ∀ x ∈ [Letter.atom a, .atom .rowIndex, .atom b], t.HasLetter x := fun x hx =>
    (hletter x hx).build p 1
  have hq : q.letters.Perm [.atom a, .atom .rowIndex, .atom b] := .cons _ (.swap _ _ _)
  have hrearranges : p.Rearranges q := ⟨rfl, .refl _⟩
  obtain ⟨x, y, s', t', hrun, hrun', heq, -⟩ := Reachable.canonical_word (p := p) (q := q) (t := t)
    hs.reachable hletter Nat.one_pos (by decide +kernel) .refl (fun x hx => hletter' x (hq.mem_iff.1 hx)) Nat.one_pos
    (by decide +kernel)
  exact ⟨x, y, s', t', hrun, hrun', heq hrearranges⟩

end Store

end TermGraph
