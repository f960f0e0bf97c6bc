import Mathlib.GroupTheory.FreeGroup.Reduce
import TermGraph.Proofs.Polynomial.Monomial

/-!
# Reduced words of matrices

A product of matrices is kept as the list of its factors in which no matrix stands next to its
inverse.  Such a list is a reduced word over the matrices and their inverses, so it is determined by
the element of the free group that it spells.

* `IsLetter e`: `e` is a matrix that no product takes apart.
* `cancels_iff`: two letters cancel if they are one matrix and its inverse.
* `Spells g l`: the letters `l` are the reduced word of `g`.
* `spells_foldl_pushLetter`: pushing letters one after the other reduces the word.
* `IsMatrix g e`: `e` is the product of the reduced word of `g`, which is not empty.
-/

namespace TermGraph

open Store (Knows)

/-! ## Letters -/

/-- A symbol, a generator, a sum or a transpose. -/
def Kind.isSolid : Kind → Bool
  | .symbol _ | .generator _ _ _ | .sum _ | .transpose _ => true
  | _ => false

namespace Expr

variable {s : Store} {d : ℕ}

/-- A symbol, a generator, a sum or a transpose that is a matrix. -/
structure IsSolid (e : Expr) : Prop where
  /-- It is a matrix. -/
  domain : e.domain = .matrices
  /-- It is no product, no inverse and no constant. -/
  kind : e.kind.isSolid = true

/-- A solid matrix, or the inverse of a matrix that is no inverse itself. -/
inductive IsLetter (e : Expr) : Prop
  | solid : IsSolid e → IsLetter e
  | inverse {a : Expr} : e.kind = .inverse a → e.domain = .matrices →
    (∀ b : Expr, a.kind ≠ .inverse b) → IsLetter e

/-- A letter as the ordinal of its matrix, and whether it is not the inverse. -/
def toLetter (e : Expr) : ℕ × Bool :=
  match e.kind with
  | .inverse a => (a.ordinal, false)
  | _ => (e.ordinal, true)

lemma IsSolid.toLetter {e : Expr} (h : IsSolid e) : e.toLetter = (e.ordinal, true) := by
  have hkind := h.kind
  unfold Expr.toLetter
  split
  · simp_all [Kind.isSolid]
  · rfl

lemma toLetter_inverse {e a : Expr} (h : e.kind = .inverse a) : e.toLetter = (a.ordinal, false) := by
  simp [Expr.toLetter, h]

/-- What products ask of a matrix that they do not take apart. -/
structure IsWhole (e : Expr) : Prop where
  /-- It is a matrix. -/
  domain : e.domain = .matrices
  /-- It is no function. -/
  function? : e.function? = none
  /-- It is no literal. -/
  number? : e.number? = none
  /-- It is its own only factor. -/
  factors : e.factors = [e]

namespace IsLetter

variable {a b e : Expr}

lemma isWhole (h : IsLetter e) : IsWhole e := by
  have hkind : e.kind.isSolid = true ∨ ∃ a, e.kind = .inverse a := by
    cases h with
    | solid h => exact .inl h.kind
    | inverse h _ _ => exact .inr ⟨_, h⟩
  have hdomain : e.domain = .matrices := by
    cases h with
    | solid h => exact h.domain
    | inverse _ h _ => exact h
  obtain ⟨ordinal, domain, kind⟩ := e
  rcases hkind with hkind | ⟨a, rfl⟩
  · cases kind <;> first | exact ⟨hdomain, rfl, rfl, rfl⟩ | cases hkind
  · exact ⟨hdomain, rfl, rfl, rfl⟩

lemma matrix? (h : IsLetter e) : e.matrix? = none := by
  obtain ⟨ordinal, domain, kind⟩ := e
  cases h with
  | solid h =>
    have hkind := h.kind
    cases kind <;> first | rfl | cases hkind
  | inverse h _ _ => simp [Expr.matrix?, h]

lemma chainFactorsOnto (h : IsLetter e) (rest : List Expr) : e.chainFactorsOnto rest = e :: rest := by
  obtain ⟨ordinal, domain, kind⟩ := e
  cases h with
  | solid h =>
    have hkind := h.kind
    cases kind <;> first | rfl | cases hkind
  | inverse h _ _ =>
    simp only [Expr.kind] at h
    subst h
    rfl

lemma isScalar (h : IsLetter e) : e.domain.isScalar = false := by
  rw [h.isWhole.domain]
  rfl

/-- In a well-formed store a letter is one node. -/
lemma eq (hs : s.WellFormed) (ha : s.Knows a) (hb : s.Knows b) (h : IsLetter a) (h' : IsLetter b)
    (heq : a.toLetter = b.toLetter) : a = b := by
  cases h with
  | solid h =>
    cases h' with
    | solid h' =>
      rw [h.toLetter, h'.toLetter] at heq
      exact Store.WellFormed.eq_of_ordinal ha hb (Prod.ext_iff.1 heq).1
    | inverse hkind' _ _ =>
      rw [h.toLetter, toLetter_inverse hkind'] at heq
      exact absurd (Prod.ext_iff.1 heq).2 (by simp)
  | @inverse x hkind _ _ =>
    cases h' with
    | solid h' =>
      rw [h'.toLetter, toLetter_inverse hkind] at heq
      exact absurd (Prod.ext_iff.1 heq).2 (by simp)
    | @inverse y hkind' _ _ =>
      rw [toLetter_inverse hkind, toLetter_inverse hkind'] at heq
      have hx : s.Knows x := hs.children ha x (by simp [children, hkind, Kind.children])
      have hy : s.Knows y := hs.children hb y (by simp [children, hkind', Kind.children])
      obtain rfl := Store.WellFormed.eq_of_ordinal hx hy (Prod.ext_iff.1 heq).1
      exact hs.eq_of_code ha hb (by rw [hkind, hkind']) (by rw [hkind']; rfl)

end IsLetter

lemma IsSolid.ne_inverse {a e : Expr} (h : IsSolid e) : e.kind ≠ .inverse a := fun hkind => by
  have hsolid := h.kind
  rw [hkind] at hsolid
  cases hsolid

/-- What cancelling asks of one of two matrices. -/
lemma inverts_iff {a b : Expr} : (match b.kind with
    | .inverse inner => inner == a
    | _ => false) = true ↔ ∃ x, b.kind = .inverse x ∧ x.ordinal = a.ordinal := by
  constructor
  · intro h
    split at h
    · exact ⟨_, ‹_›, beq_iff_ordinal.1 h⟩
    · cases h
  · rintro ⟨x, hkind, hordinal⟩
    rw [hkind]
    exact beq_iff_ordinal.2 hordinal

lemma cancels_eq_true {a b : Expr} : cancels a b = true ↔
    (∃ x, b.kind = .inverse x ∧ x.ordinal = a.ordinal) ∨
      ∃ x, a.kind = .inverse x ∧ x.ordinal = b.ordinal := by
  rw [cancels, Bool.or_eq_true]
  exact or_congr inverts_iff inverts_iff

/-- Two letters cancel if they are one matrix and its inverse. -/
lemma cancels_iff (hs : s.WellFormed) {a b : Expr} (ha : s.Knows a) (hb : s.Knows b)
    (h : IsLetter a) (h' : IsLetter b) :
    cancels a b = true ↔ a.toLetter.1 = b.toLetter.1 ∧ a.toLetter.2 ≠ b.toLetter.2 := by
  -- A matrix whose inverse is taken is known, so its ordinal tells it apart from inverses.
  have hne {x y z : Expr} (hx : s.Knows x) (hkind : x.kind = .inverse y)
      (hy : ∀ b : Expr, y.kind ≠ .inverse b) (hz : s.Knows z) {w : Expr}
      (hinverse : z.kind = .inverse w) : y.ordinal ≠ z.ordinal := by
    intro hordinal
    have hknown : s.Knows y := hs.children hx y (by simp [children, hkind, Kind.children])
    obtain rfl := Store.WellFormed.eq_of_ordinal hknown hz hordinal
    exact hy w hinverse
  rw [cancels_eq_true]
  cases h with
  | solid h =>
    cases h' with
    | solid h' =>
      simp [h.toLetter, h'.toLetter, h.ne_inverse, h'.ne_inverse]
    | @inverse y hkind' _ hy =>
      simp [h.toLetter, toLetter_inverse hkind', h.ne_inverse, hkind', eq_comm]
  | @inverse x hkind _ hx =>
    cases h' with
    | solid h' => simp [h'.toLetter, toLetter_inverse hkind, h'.ne_inverse, hkind]
    | @inverse y hkind' _ hy =>
      simp [toLetter_inverse hkind, toLetter_inverse hkind', hkind, hkind',
        hne ha hkind hx hb hkind', hne hb hkind' hy ha hkind]

/-! ## Reducing words -/

/-- Adds a letter at the end of a word that is kept in reverse. -/
def pushLetter (reversed : List Expr) (e : Expr) : List Expr :=
  match reversed with
  | [] => [e]
  | last :: rest => if cancels last e then rest else e :: last :: rest

/-- The word of some letters. -/
def wordOf (l : List Expr) : FreeGroup ℕ :=
  FreeGroup.mk (l.map toLetter)

/-- The letters are the reduced word of `g`. -/
structure Spells (g : FreeGroup ℕ) (l : List Expr) : Prop where
  /-- They are letters. -/
  letters : ∀ e ∈ l, IsLetter e
  /-- They spell the reduced word. -/
  word : l.map toLetter = g.toWord

variable {g : FreeGroup ℕ} {l r : List Expr} {a e : Expr}

lemma wordOf_append (l m : List Expr) : wordOf (l ++ m) = wordOf l * wordOf m := by
  rw [wordOf, List.map_append, ← FreeGroup.mul_mk, wordOf, wordOf]

namespace Spells

lemma wordOf_eq (h : Spells g l) : wordOf l = g := by
  rw [wordOf, h.word]
  exact FreeGroup.mk_toWord

lemma isReduced (h : Spells g l) : FreeGroup.IsReduced (l.map toLetter) := by
  rw [h.word]
  exact FreeGroup.isReduced_toWord

/-- A reduced list of letters spells its word. -/
lemma of_isReduced (hl : ∀ e ∈ l, IsLetter e) (h : FreeGroup.IsReduced (l.map toLetter)) :
    Spells (wordOf l) l :=
  ⟨hl, by rw [wordOf, FreeGroup.toWord_mk, h.reduce_eq]⟩

lemma nil : Spells 1 [] := ⟨by simp, by simp⟩

lemma eq_nil_iff (h : Spells g l) : l = [] ↔ g = 1 := by
  rw [← FreeGroup.toWord_eq_nil_iff, ← h.word, List.map_eq_nil_iff]

/-- In a well-formed store one list of letters spells a word. -/
lemma eq (hs : s.WellFormed) {m : List Expr} (hl : s.Knows l) (hm : s.Knows m) (h : Spells g l)
    (h' : Spells g m) : l = m := by
  have hword : l.map toLetter = m.map toLetter := h.word.trans h'.word.symm
  have hletters := h.letters
  have hletters' := h'.letters
  clear h h'
  induction l generalizing m with
  | nil => exact (List.map_eq_nil_iff.1 hword.symm).symm
  | cons e l ih =>
    cases m with
    | nil => cases hword
    | cons e' m =>
      rw [List.map_cons, List.map_cons, List.cons.injEq] at hword
      rw [Store.knows_cons] at hl hm
      rw [List.forall_mem_cons] at hletters hletters'
      rw [hletters.1.eq hs hl.1 hm.1 hletters'.1 hword.1,
        ih hl.2 hm.2 hword.2 hletters.2 hletters'.2]

end Spells

/-- Nothing is multiplied as long as there are no constants. -/
lemma pushFactor_eq (hr : ∀ e ∈ r, IsLetter e) (e : Expr) :
    pushFactor r e = pure (pushLetter r e) := by
  cases r with
  | nil => rfl
  | cons last rest =>
    rw [pushFactor, pushLetter, (hr last (by simp)).matrix?]
    split_ifs <;> rfl

lemma pushLetter_subset (r : List Expr) (e : Expr) : pushLetter r e ⊆ e :: r := by
  cases r with
  | nil => exact List.Subset.refl _
  | cons last rest =>
    rw [pushLetter]
    split_ifs
    · exact fun x hx => by simp [hx]
    · exact List.Subset.refl _

lemma foldlM_pushFactor_eq (hr : ∀ e ∈ r, IsLetter e) (hl : ∀ e ∈ l, IsLetter e) :
    l.foldlM pushFactor r = pure (l.foldl pushLetter r) := by
  induction l generalizing r with
  | nil => rfl
  | cons e l ih =>
    rw [List.forall_mem_cons] at hl
    rw [List.foldlM_cons, pushFactor_eq hr, pure_bind, List.foldl_cons]
    refine ih (fun x hx => ?_) hl.2
    rcases List.mem_cons.1 (pushLetter_subset r e hx) with rfl | hx
    · exact hl.1
    · exact hr x hx

lemma wordOf_pair (h : a.toLetter.1 = e.toLetter.1) (h' : a.toLetter.2 ≠ e.toLetter.2) :
    wordOf [a] * wordOf [e] = 1 := by
  have hpair : a.toLetter = (e.toLetter.1, !e.toLetter.2) :=
    Prod.ext h (Bool.eq_not_iff.2 h')
  have hinverse : wordOf [a] = (wordOf [e])⁻¹ := by
    simp [wordOf, hpair, FreeGroup.inv_mk, FreeGroup.invRev]
  rw [hinverse, inv_mul_cancel]

/-- A letter that is pushed is multiplied to the word, which stays reduced. -/
lemma Spells.push (hs : s.WellFormed) (h : Spells g r.reverse) (hr : s.Knows r) (he : IsLetter e)
    (hknown : s.Knows e) : Spells (g * wordOf [e]) (pushLetter r e).reverse := by
  rw [← h.wordOf_eq]
  have hreduced := h.isReduced
  cases r with
  | nil =>
    rw [pushLetter, ← wordOf_append]
    exact .of_isReduced (by simpa using he) FreeGroup.IsReduced.singleton
  | cons last rest =>
    rw [Store.knows_cons] at hr
    rw [List.reverse_cons] at h hreduced ⊢
    have hlast : IsLetter last := h.letters last (by simp)
    have hrest : ∀ x ∈ rest.reverse, IsLetter x := fun x hx => h.letters x (by simp_all)
    have hcancels := cancels_iff hs hr.1 hknown hlast he
    rw [pushLetter]
    split_ifs with hcancel
    · -- The last letter and the new one go away.
      obtain ⟨hmatrix, hsign⟩ := hcancels.1 hcancel
      rw [wordOf_append, mul_assoc, wordOf_pair hmatrix hsign, mul_one]
      have hshort : FreeGroup.IsReduced (rest.reverse.map toLetter) := by
        rw [List.map_append] at hreduced
        exact hreduced.left_of_append
      exact .of_isReduced hrest hshort
    · have hdiffer : FreeGroup.IsReduced [last.toLetter, e.toLetter] := by
        rw [FreeGroup.isReduced_cons_cons]
        refine ⟨fun hmatrix => ?_, FreeGroup.IsReduced.singleton⟩
        by_contra hsign
        exact hcancel (hcancels.2 ⟨hmatrix, hsign⟩)
      rw [List.reverse_cons, List.reverse_cons, ← wordOf_append]
      refine .of_isReduced (fun x hx => ?_) ?_
      · simp only [List.mem_append, List.mem_singleton] at hx
        rcases hx with (hx | rfl) | rfl
        · exact hrest x hx
        · exact hlast
        · exact he
      · rw [List.map_append] at hreduced
        rw [List.map_append, List.map_append]
        exact FreeGroup.IsReduced.append_overlap hreduced hdiffer (by simp)

/-- Pushing letters one after the other reduces the word. -/
lemma spells_foldl_pushLetter (hs : s.WellFormed) (h : Spells g r.reverse) (hr : s.Knows r)
    (hl : ∀ e ∈ l, IsLetter e) (hknown : s.Knows l) :
    s.Knows (l.foldl pushLetter r) ∧ Spells (g * wordOf l) (l.foldl pushLetter r).reverse := by
  induction l generalizing r g with
  | nil =>
    refine ⟨hr, ?_⟩
    rwa [show wordOf [] = 1 from rfl, mul_one]
  | cons e l ih =>
    rw [List.forall_mem_cons] at hl
    rw [Store.knows_cons] at hknown
    have hpush : s.Knows (pushLetter r e) := fun x hx => by
      rcases List.mem_cons.1 (pushLetter_subset r e hx) with rfl | hx
      · exact hknown.1
      · exact hr x hx
    have hword : g * wordOf (e :: l) = g * wordOf [e] * wordOf l := by
      rw [mul_assoc, ← wordOf_append, List.singleton_append]
    rw [List.foldl_cons, hword]
    exact ih (h.push hs hr hl.1 hknown.1) hpush hl.2 hknown.2

/-! ## Products of letters -/

/-- The product of the reduced word of `g`, which is not empty. -/
inductive IsMatrix (g : FreeGroup ℕ) (e : Expr) : Prop
  | single : Spells g [e] → IsMatrix g e
  | chain {l : List Expr} : Spells g l → 2 ≤ l.length → e.kind = .chain l → e.domain = .matrices →
    IsMatrix g e

lemma allChainFactorsOnto_of_letters (h : ∀ e ∈ l, IsLetter e) (rest : List Expr) :
    allChainFactorsOnto l rest = l ++ rest := by
  induction l with
  | nil => rw [allChainFactorsOnto, List.nil_append]
  | cons a l ih =>
    rw [List.forall_mem_cons] at h
    rw [allChainFactorsOnto, ih h.2, h.1.chainFactorsOnto, List.cons_append]

namespace IsMatrix

variable {e' : Expr}

lemma isWhole (h : IsMatrix g e) : IsWhole e := by
  cases h with
  | single h => exact (h.letters e (by simp)).isWhole
  | chain _ _ hkind hdomain =>
    obtain ⟨ordinal, domain, kind⟩ := e
    simp only [Expr.kind] at hkind
    subst hkind
    exact ⟨hdomain, rfl, rfl, rfl⟩

lemma ne_one (h : IsMatrix g e) : g ≠ 1 := by
  cases h with
  | single h => exact fun hg => absurd (h.eq_nil_iff.2 hg) (by simp)
  | chain h hlength _ _ =>
    intro hg
    rw [h.eq_nil_iff.2 hg] at hlength
    cases hlength

/-- The letters of a matrix product, in front of other factors. -/
lemma exists_spells (h : IsMatrix g e) :
    ∃ l, Spells g l ∧ ∀ rest, e.chainFactorsOnto rest = l ++ rest := by
  cases h with
  | single h => exact ⟨[e], h, (h.letters e (by simp)).chainFactorsOnto⟩
  | @chain l h _ hkind _ =>
    refine ⟨l, h, fun rest => ?_⟩
    obtain ⟨ordinal, domain, kind⟩ := e
    simp only [Expr.kind] at hkind
    subst hkind
    rw [chainFactorsOnto, allChainFactorsOnto_of_letters h.letters]

lemma unique {g' : FreeGroup ℕ} (h : IsMatrix g e) (h' : IsMatrix g' e) : g = g' := by
  obtain ⟨l, hl, hfactors⟩ := h.exists_spells
  obtain ⟨l', hl', hfactors'⟩ := h'.exists_spells
  have heq := (hfactors []).symm.trans (hfactors' [])
  rw [List.append_nil, List.append_nil] at heq
  rw [← hl.wordOf_eq, ← hl'.wordOf_eq, heq]

/-- In a well-formed store a reduced word has one product. -/
lemma eq (hs : s.WellFormed) (he : s.Knows e) (he' : s.Knows e') (h : IsMatrix g e)
    (h' : IsMatrix g e') : e = e' := by
  have hknown {f : Expr} {l : List Expr} (hf : s.Knows f) (hkind : f.kind = .chain l) :
      s.Knows l := by
    have hchildren := hs.children hf
    rwa [children, hkind] at hchildren
  cases h with
  | single h =>
    cases h' with
    | single h' => exact List.singleton_inj.1 (h.eq hs (by simpa using he) (by simpa using he') h')
    | chain h' hlength hkind _ =>
      rw [← h.eq hs (by simpa using he) (hknown he' hkind) h'] at hlength
      simp at hlength
  | chain h hlength hkind _ =>
    cases h' with
    | single h' =>
      rw [h.eq hs (hknown he hkind) (by simpa using he') h'] at hlength
      simp at hlength
    | chain h' _ hkind' _ =>
      obtain rfl := h.eq hs (hknown he hkind) (hknown he' hkind') h'
      exact hs.eq_of_code he he' (by rw [hkind, hkind']) (by rw [hkind']; rfl)

end IsMatrix

/-- The product of a reduced word: the literal one for the empty word. -/
lemma achieves_ofChain (hs : Good s) (h : Spells g l) (hknown : s.Knows l) :
    Achieves d s (ofChain l) fun e => (g = 1 ∧ IsLiteral 1 e) ∨ IsMatrix g e := by
  obtain _ | ⟨a, _ | ⟨b, rest⟩⟩ := l
  · have hone : g = 1 := h.eq_nil_iff.1 rfl
    exact (achieves_one hs).imp fun e he => .inl ⟨hone, he⟩
  · exact ⟨.pure hs (by simpa using hknown), .pure (.inr (.single h))⟩
  · change Achieves d s (Build.intern .matrices (.chain (a :: b :: rest))) _
    have hlength : 2 ≤ (a :: b :: rest).length := by simp
    generalize a :: b :: rest = factors at h hknown hlength
    have hadm := admits_chain hknown
    refine achieves_intern hs hadm fun e u hu hle he hcode => .inr ?_
    have hkind := hu.kind_eq_chain he (hknown.mono hle) hcode
    have htyped := (hu.admits he).typed
    rw [hkind] at htyped
    exact .chain h hlength hkind htyped

end Expr

end TermGraph
