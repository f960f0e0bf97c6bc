import Mathlib.Algebra.Quaternion
import TermGraph.Proofs.Polynomial.Canonicity
import TermGraph.Proofs.Ring.Sums

/-!
# Sums and products are sound in every ring

Application, products, matrix products, powers and sums of ordinary expressions have the values
that their names promise, in every ring in which scalars are central and inverses inverse.

* `Store.WellFormed.valueIn_construct` is the main result.
* `Store.valueIn_product_ne` shows what it needs.  The parts of the operands have to be linear, and
  so have products: otherwise an application is no product, and the sides of an application that is
  no product may change places.
-/

namespace TermGraph

open Store (Knows)

namespace Expr

variable {R : Type*} [Ring R] {ν : Expr → R} {d : ℕ}

/-- Application multiplies ordinary expressions. -/
lemma multipliesPair_apply : MultipliesPair ν d apply := by
  intro s v w a b hs hknown hknown' ha hb
  unfold apply
  refine .read ?_
  cases d with
  | zero =>
    unfold applyAux
    exact .throw _
  | succ depth =>
    rw [applyAux, ha.ordinary.function? (good_store.1 hs) hknown]
    simp only [ha.ordinary.linear, hb.ordinary.linear, Bool.and_self, if_true]
    refine Delivers.bind (Q := fun _ _ => True)
      ⟨yields_applyDomain hs a b _, fun _ _ _ _ => trivial⟩ fun domain t ht hle _ _ _ => ?_
    have hmul := multipliesAll_canonicalProduct (ν := ν) (d := depth + 1) t [a, b] ht (by grind)
      (by simpa using ⟨ha.ordinary, hb.ordinary⟩)
    simpa [ha.valueIn, hb.valueIn] using hmul

lemma multipliesAll_product : MultipliesAll ν d product :=
  multipliesAll_foldProduct yields_apply multipliesPair_apply

lemma multipliesAll_chain : MultipliesAll ν d chain :=
  multipliesAll_chainWith multipliesAll_product

end Expr

namespace Store

open TermGraph.Expr

variable {s t : Store} {d : ℕ} {e : Expr}

/-- **Soundness in every ring.**  Let the atoms have any values in a ring in which the scalars are
central and inverses are inverse, and let products of linear expressions be linear.  Whenever a
sum, an application, a product, a matrix product or a natural power of ordinary expressions is
built and no operation on literals leaves the machine integers, the result is valued at the sum,
the product in order, or the power of the values. -/
theorem WellFormed.valueIn_construct {R : Type*} [Ring R] {ν : Expr → R} (hs : s.WellFormed)
    (hexact : t.exact = true) (hν : t.Respects ν) (hclosed : t.Closed) :
    (∀ l : List Expr, s.Knows l → (∀ a ∈ l, a.Ordinary) →
      Expr.sum l d s.watched = .ok e t → e.valueIn ν = (l.map (valueIn ν)).sum) ∧
    (∀ a b : Expr, s.Knows a → s.Knows b → a.Ordinary → b.Ordinary →
      apply a b d s.watched = .ok e t → e.valueIn ν = a.valueIn ν * b.valueIn ν) ∧
    (∀ l : List Expr, s.Knows l → (∀ a ∈ l, a.Ordinary) →
      product l d s.watched = .ok e t → e.valueIn ν = (l.map (valueIn ν)).prod) ∧
    (∀ l : List Expr, s.Knows l → (∀ a ∈ l, a.Ordinary) →
      Expr.chain l d s.watched = .ok e t → e.valueIn ν = (l.map (valueIn ν)).prod) ∧
    (∀ (a n : Expr) (k : ℕ), s.Knows a → s.Knows n → a.Ordinary → IsLiteral k n →
      power a n d s.watched = .ok e t → e.valueIn ν = a.valueIn ν ^ k) := by
  have hgood := good_store.2 hs.watched
  have ht : t ∈ valued ν := ⟨hexact, hν, hclosed⟩
  refine ⟨fun l hl h hrun => ?_, fun a b ha hb h h' hrun => ?_, fun l hl h hrun => ?_,
    fun l hl h hrun => ?_, fun a n k ha hn h hk hrun => ?_⟩
  · exact ensures_sum hgood hl h e t hrun ht
  · exact (multipliesPair_apply _ _ _ a b hgood ha hb h.valuedAt h'.valuedAt e t hrun ht).valueIn
  · exact (multipliesAll_product _ l hgood hl h e t hrun ht).valueIn
  · exact (multipliesAll_chain _ l hgood hl h e t hrun ht).valueIn
  · exact (ensures_power hgood h.valuedAt hk ha hn e t hrun ht).valueIn

/-! ### Quaternions -/

/-- One of the units. -/
def unitI : Quaternion ℤ := ⟨0, 1, 0, 0⟩

/-- Another unit. -/
def unitJ : Quaternion ℤ := ⟨0, 0, 1, 0⟩

lemma unitI_mul_unitJ_ne : unitI * unitJ ≠ unitJ * unitI := by
  intro h
  have hk : (unitI * unitJ).imK = (unitJ * unitI).imK := by rw [h]
  rw [Quaternion.imK_mul, Quaternion.imK_mul] at hk
  simp [unitI, unitJ] at hk

/-- Values in the quaternions: the nodes with ordinals `i` and `j` are units, all other symbols are
one, and all other atoms have the value `w`. -/
noncomputable def units (i j : ℕ) (w : Quaternion ℤ) (e : Expr) : Quaternion ℤ :=
  if e.ordinal = i then unitI else if e.ordinal = j then unitJ else if e.isSymbol then 1 else w

section Units

variable {i j : ℕ} {w : Quaternion ℤ}

lemma units_left (hi : e.ordinal = i) : units i j w e = unitI := if_pos hi

lemma units_right (hi : e.ordinal ≠ i) (hj : e.ordinal = j) : units i j w e = unitJ := by
  rw [units, if_neg hi, if_pos hj]

lemma units_symbol (hi : e.ordinal ≠ i) (hj : e.ordinal ≠ j) (h : e.isSymbol = true) :
    units i j w e = 1 := by
  rw [units, if_neg hi, if_neg hj, if_pos h]

lemma units_atom (hi : e.ordinal ≠ i) (hj : e.ordinal ≠ j) (h : e.isSymbol = false) :
    units i j w e = w := by
  rw [units, if_neg hi, if_neg hj, h]
  rfl

end Units

/-- All scalars are literals and symbols other than the nodes with ordinals `i` and `j`, and there are
no inverses. -/
def hasPlainScalars (i j : ℕ) (s : Store) : Bool :=
  s.nodes.toList.all fun e =>
    (!e.domain.isScalar || e.number?.isSome || e.isSymbol && e.ordinal != i && e.ordinal != j) &&
      match e.kind with
      | .inverse _ => false
      | _ => true

lemma admits_symbol (name : String) (domain : Domain) : s.Admits domain (.symbol name) :=
  ⟨by simp [Kind.children], fun _ h => h.elim, trivial, by simp [Kind.index?]⟩

lemma admits_int (n : Int64) : s.Admits .integers (.number (.int n)) :=
  ⟨by simp [Kind.children], fun _ h => h.elim, rfl, by simp [Kind.index?]⟩

lemma mem_of_knows (h : s.Knows e) : e ∈ s.nodes.toList :=
  Array.mem_toList_iff.2 (Array.mem_of_getElem? h)

lemma closed_of_all (h : (s.nodes.toList.all fun e => !e.isProduct || e.domain.isLinear) = true) :
    s.Closed := fun e he hproduct => by
  simpa [hproduct] using List.all_eq_true.1 h e (mem_of_knows he)

lemma respects_units {i j : ℕ} {w : Quaternion ℤ} (h : s.hasPlainScalars i j = true) :
    s.Respects (units i j w) := by
  have hnode {e : Expr} (he : s.Knows e) := List.all_eq_true.1 h e (mem_of_knows he)
  refine ⟨fun e he hscalar => ?_, fun e a he hkind => ?_⟩
  · obtain ⟨hplain, -⟩ := Bool.and_eq_true_iff.1 (hnode he)
    simp only [hscalar, Bool.not_true, Bool.false_or, Bool.or_eq_true, Bool.and_eq_true,
      bne_iff_ne] at hplain
    obtain ⟨ordinal, domain, kind⟩ := e
    rcases hplain with hnumber | ⟨⟨hsymbol, hi⟩, hj⟩
    · cases kind <;> simp only [number?, Expr.kind, Option.isSome_none, Bool.false_eq_true] at hnumber
      rw [valueIn]
      exact intCast_mem _ _
    · have hvalue := units_symbol (w := w) hi hj hsymbol
      cases kind <;> simp only [isSymbol, Expr.kind, Bool.false_eq_true] at hsymbol
      rw [valueIn_symbol rfl, hvalue]
      exact one_mem _
  · obtain ⟨-, hinverse⟩ := Bool.and_eq_true_iff.1 (hnode he)
    rw [hkind] at hinverse
    cases hinverse

/-- Twice the product of two matrices, one after the other, has twice the product of two units as its
value. -/
theorem valueIn_construct_product :
    let s₁ := (initial.intern .matrices (.symbol "a")).2
    let a := (initial.intern .matrices (.symbol "a")).1
    let s₂ := (s₁.intern .matrices (.symbol "b")).2
    let b := (s₁.intern .matrices (.symbol "b")).1
    let s := (s₂.intern .integers (.number (.int 2))).2
    let two := (s₂.intern .integers (.number (.int 2))).1
    let ν := units a.ordinal b.ordinal 1
    ∃ e t, product [a, two, b] 3 s.watched = .ok e t ∧
      e.valueIn ν = a.valueIn ν * (2 * b.valueIn ν) := by
  intro s₁ a s₂ b s two ν
  have hchecked : (match product [a, two, b] 3 s.watched with
      | .ok _ t => t.exact && t.hasPlainScalars a.ordinal b.ordinal &&
          t.nodes.toList.all fun e => !e.isProduct || e.domain.isLinear
      | .error _ _ => false) = true := by
    decide +kernel
  cases hrun : product [a, two, b] 3 s.watched with
  | error _ _ =>
    rw [hrun] at hchecked
    cases hchecked
  | ok e t =>
    rw [hrun] at hchecked
    simp only [Bool.and_eq_true] at hchecked
    obtain ⟨⟨hexact, hplain⟩, hclosed⟩ := hchecked
    obtain ⟨hs₁, ha, -⟩ := wellFormed_initial.intern (admits_symbol "a" .matrices)
    obtain ⟨hs₂, hb, -⟩ := hs₁.intern (admits_symbol "b" .matrices)
    obtain ⟨hs, htwo, -⟩ := hs₂.intern (admits_int 2)
    have hle₂ : s₁ ≤ s₂ := le_intern _ _ _
    have hle : s₂ ≤ s := le_intern _ _ _
    have hliteral : IsLiteral 2 two := .of_kind (n := 2) rfl rfl
    have hknown : s.Knows [a, two, b] := by
      simp only [knows_cons]
      exact ⟨(ha.mono hle₂).mono hle, htwo, hb.mono hle, knows_nil⟩
    have hordinary : ∀ e ∈ [a, two, b], e.Ordinary := by
      simp only [List.forall_mem_cons]
      exact ⟨.of_symbol rfl rfl, .of_literal hliteral, .of_symbol rfl rfl, by simp⟩
    have hν : t.Respects ν := respects_units hplain
    have hvalue := (hs.valueIn_construct hexact hν (closed_of_all hclosed)).2.2.1 [a, two, b] hknown hordinary hrun
    exact ⟨e, t, rfl, by simpa [valueIn_literal hliteral] using hvalue⟩

/-- A product of ordinary operands may have another value once some product is not linear: a
domain that takes products out of the matrices lets a matrix `a` change places with `x * b`. -/
lemma exists_valueIn_product_ne :
    ∃ (s t : Store) (d : ℕ) (l : List Expr) (e : Expr) (ν : Expr → Quaternion ℤ),
      s.WellFormed ∧ s.Knows l ∧ (∀ a ∈ l, a.Ordinary) ∧ product l d s.watched = .ok e t ∧
      t.exact = true ∧ t.Respects ν ∧ e.valueIn ν ≠ (l.map (valueIn ν)).prod := by
  let D : Domain := .custom 1 "D" .reals { left := fun _ _ => some (some .universal) }
  let E : Domain := .custom 2 "E" .matrices
    { either := fun _ _ => some (some .universal), commutes := fun _ => some true }
  let s₁ := (initial.intern E (.symbol "a")).2
  let a := (initial.intern E (.symbol "a")).1
  let s₂ := (s₁.intern D (.symbol "x")).2
  let x := (s₁.intern D (.symbol "x")).1
  let s := (s₂.intern .matrices (.symbol "b")).2
  let b := (s₂.intern .matrices (.symbol "b")).1
  -- What the run leaves behind is checked once and for all.
  have hchecked : (match product [x, b, a] 5 s.watched with
      | .ok e t => t.exact && t.hasPlainScalars a.ordinal b.ordinal && e.isAccess &&
          b.ordinal < e.ordinal
      | .error _ _ => false) = true := by
    decide +kernel
  cases hrun : product [x, b, a] 5 s.watched with
  | error _ _ =>
    rw [hrun] at hchecked
    cases hchecked
  | ok e t =>
    rw [hrun] at hchecked
    simp only [Bool.and_eq_true, decide_eq_true_eq] at hchecked
    obtain ⟨⟨⟨hexact, hplain⟩, haccess⟩, hlt⟩ := hchecked
    obtain ⟨hs₁, hknown₁, -⟩ := wellFormed_initial.intern (admits_symbol "a" E)
    obtain ⟨hs₂, hknown₂, -⟩ := hs₁.intern (admits_symbol "x" D)
    obtain ⟨hs, hknown, -⟩ := hs₂.intern (admits_symbol "b" .matrices)
    have hle₂ : s₁ ≤ s₂ := le_intern _ _ _
    have hle : s₂ ≤ s := le_intern _ _ _
    refine ⟨s, t, 5, [x, b, a], e, units a.ordinal b.ordinal (unitI * unitJ), hs, ?_, ?_, hrun, hexact,
      respects_units hplain, ?_⟩
    · simp only [knows_cons]
      exact ⟨hknown₂.mono hle, hknown, (hknown₁.mono hle₂).mono hle, knows_nil⟩
    · simp only [List.forall_mem_cons]
      exact ⟨.of_symbol rfl rfl, .of_symbol rfl rfl, .of_symbol rfl rfl, by simp⟩
    · -- The result is an atom with the value of `a * b`, while the operands stand for `b * a`.
      have ha : a.ordinal = 50 := by decide +kernel
      have hx : x.ordinal = 51 := by decide +kernel
      have hb : b.ordinal = 52 := by decide +kernel
      have hea : e.ordinal ≠ 50 := by omega
      have heb : e.ordinal ≠ 52 := by omega
      have hsymbol : e.isSymbol = false := by
        cases hkind : e.kind <;> simp [isAccess, isSymbol, hkind] at haccess ⊢
      rw [valueIn_access haccess, units_atom (ha ▸ hea) (hb ▸ heb) hsymbol]
      simp only [List.map_cons, List.map_nil, List.prod_cons, List.prod_nil, mul_one]
      rw [valueIn_symbol (e := x) rfl, valueIn_symbol (e := b) rfl, valueIn_symbol (e := a) rfl,
        units_symbol (by omega) (by omega) rfl, units_right (by omega) rfl, units_left rfl, one_mul]
      exact unitI_mul_unitJ_ne

/-- Values in the integers: applications of symbols that are no products are zero, and all other
atoms are one. -/
def zeroAccess (e : Expr) : ℤ :=
  if e.isAccess then 0 else 1

/-- All inverses are those of symbols. -/
def hasPlainInverses (s : Store) : Bool :=
  s.nodes.toList.all fun e =>
    match e.kind with
    | .inverse a => a.isSymbol
    | _ => true

lemma valueIn_zeroAccess (h : e.isSymbol = true) : e.valueIn zeroAccess = 1 := by
  cases hkind : e.kind with
  | symbol name =>
    rw [valueIn_symbol hkind, zeroAccess, if_neg (by simp [isAccess, hkind])]
  | _ => simp [isSymbol, hkind] at h

lemma respects_zeroAccess (h : s.hasPlainInverses = true) : s.Respects zeroAccess := by
  refine ⟨fun e _ _ => by simp, fun e a he hkind => ?_⟩
  have ha := List.all_eq_true.1 h e (mem_of_knows he)
  rw [hkind] at ha
  rw [valueIn_inverse hkind, valueIn_zeroAccess ha, zeroAccess, if_neg (by simp [isAccess, hkind])]
  simp

/-- Neither condition of `valueIn_construct` can be left out.  Products have to be linear.  And it is
not enough that the operands themselves are linear: when the matrix next to an array in a chain is
cancelled, what is left is the array alone, and the next factor becomes its index. -/
theorem valueIn_product_ne :
    (¬∀ (s t : Store) (d : ℕ) (l : List Expr) (e : Expr) (ν : Expr → Quaternion ℤ),
      s.WellFormed → s.Knows l → (∀ a ∈ l, a.Ordinary) → product l d s.watched = .ok e t →
      t.exact = true → t.Respects ν → e.valueIn ν = (l.map (valueIn ν)).prod) ∧
    ∃ (s t : Store) (d : ℕ) (r a m i two e : Expr) (ν : Expr → ℤ), s.WellFormed ∧
      s.Knows [m, i, two] ∧ (∀ e ∈ [m, i, two], e.domain.isLinear = true) ∧
      r.isSymbol = true ∧ a.isSymbol = true ∧ m.kind = .chain [r, a] ∧ i.kind = .inverse a ∧
      IsLiteral 2 two ∧ product [m, i, two] d s.watched = .ok e t ∧
      t.exact = true ∧ t.Respects ν ∧ t.Closed ∧
      e.valueIn ν ≠ ([m, i, two].map (valueIn ν)).prod := by
  refine ⟨fun h => ?_, ?_⟩
  · obtain ⟨s, t, d, l, e, ν, hs, hl, hordinary, hrun, hexact, hν, hne⟩ :=
      exists_valueIn_product_ne
    exact hne (h s t d l e ν hs hl hordinary hrun hexact hν)
  let s₁ := (initial.intern (.host (.array .real) .declared) (.symbol "r")).2
  let r := (initial.intern (.host (.array .real) .declared) (.symbol "r")).1
  let s₂ := (s₁.intern .matrices (.symbol "a")).2
  let a := (s₁.intern .matrices (.symbol "a")).1
  let s₃ := (s₂.intern .matrices (.chain [r, a])).2
  let m := (s₂.intern .matrices (.chain [r, a])).1
  let s₄ := (s₃.intern .matrices (.inverse a)).2
  let i := (s₃.intern .matrices (.inverse a)).1
  let s := (s₄.intern .integers (.number (.int 2))).2
  let two := (s₄.intern .integers (.number (.int 2))).1
  have hchecked : (match product [m, i, two] 5 s.watched with
      | .ok e t => t.exact && t.hasPlainInverses && e.isAccess &&
          t.nodes.toList.all fun e => !e.isProduct || e.domain.isLinear
      | .error _ _ => false) = true := by
    decide +kernel
  cases hrun : product [m, i, two] 5 s.watched with
  | error _ _ =>
    rw [hrun] at hchecked
    cases hchecked
  | ok e t =>
    rw [hrun] at hchecked
    simp only [Bool.and_eq_true] at hchecked
    obtain ⟨⟨⟨hexact, hplain⟩, haccess⟩, hclosed⟩ := hchecked
    obtain ⟨hs₁, hr, -⟩ := wellFormed_initial.intern
      (admits_symbol "r" (.host (.array .real) .declared))
    have hle₁ : s₁ ≤ s₂ := le_intern _ _ _
    obtain ⟨hs₂, ha, -⟩ := hs₁.intern (admits_symbol "a" .matrices)
    have hadm₃ : s₂.Admits .matrices (.chain [r, a]) :=
      ⟨by simpa [Kind.children] using ⟨hr.mono hle₁, ha⟩, fun _ h => h.elim, rfl,
        by simp [Kind.index?]⟩
    obtain ⟨hs₃, hm, -⟩ := hs₂.intern hadm₃
    have hle₂ : s₂ ≤ s₃ := le_intern _ _ _
    have hadm₄ : s₃.Admits .matrices (.inverse a) :=
      ⟨by simpa [Kind.children] using ha.mono hle₂, fun _ h => h.elim, rfl, by simp [Kind.index?]⟩
    obtain ⟨hs₄, hi, -⟩ := hs₃.intern hadm₄
    obtain ⟨hs, htwo, -⟩ := hs₄.intern (admits_int 2)
    have hle₃ : s₃ ≤ s₄ := le_intern _ _ _
    have hle₄ : s₄ ≤ s := le_intern _ _ _
    have hmkind : m.kind = .chain [r, a] := rfl
    have hikind : i.kind = .inverse a := rfl
    have hliteral : IsLiteral 2 two := .of_kind (n := 2) rfl rfl
    refine ⟨s, t, 5, r, a, m, i, two, e, zeroAccess, hs, ?_, ?_, rfl, rfl, hmkind, hikind, hliteral, hrun,
      hexact, respects_zeroAccess hplain, closed_of_all hclosed, ?_⟩
    · simp only [knows_cons]
      exact ⟨(hm.mono hle₃).mono hle₄, hi.mono hle₄, htwo, knows_nil⟩
    · simp only [List.forall_mem_cons]
      exact ⟨rfl, rfl, rfl, by simp⟩
    · have hi : i.valueIn zeroAccess = 1 := by
        rw [valueIn_inverse hikind, zeroAccess, if_neg (by simp [isAccess, hikind])]
      rw [valueIn_access haccess, zeroAccess, if_pos haccess]
      simp [valueIn_chain hmkind, hi, valueIn_literal hliteral, valueIn_zeroAccess (e := r) rfl,
        valueIn_zeroAccess (e := a) rfl]

end Store

end TermGraph
