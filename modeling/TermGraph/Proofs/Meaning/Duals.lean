import Mathlib.Algebra.DualNumber
import TermGraph.Proofs.Meaning.Scalars

/-!
# Values in dual numbers

The slope of an expression in a direction is the second part of its value in dual numbers, where one
symbol is moved in that direction.  Dual numbers turn the rules of differentiation into laws of
arithmetic: there is one law for each kind of scalar.

* `Expr.value_map`: homomorphisms of rings that agree with the readings preserve values.
* `Reading.dual`: the reading in the dual numbers, where a function moves with its slope.
* `Expr.slope I i e ρ`: how the value of `e` at `ρ` moves with the symbol with ordinal `i`.
-/

namespace TermGraph

open TrivSqZeroExt (fst snd inl inr)

variable {A B : Type} [CommRing A] [CommRing B] {F : Builtin → Prop} {e t a b n : Expr}

/-! ## Homomorphisms -/

namespace Expr

/-- Homomorphisms that agree with the readings preserve values. -/
theorem value_map {J : Reading B} {I : Reading A} (φ : B →+* A)
    (htoInt : ∀ z, I.toInt (φ z) = J.toInt z) (hcall : ∀ f z, φ (J.call f z) = I.call f (φ z))
    (he : e.IsScalar F) (ρ : Valuation B) : φ (e.value J ρ) = e.value I fun i => φ (ρ i) := by
  induction he generalizing ρ with
  | symbol hkind _ => rw [value_symbol hkind, value_symbol hkind]
  | literal hliteral => rw [value_literal hliteral, value_literal hliteral, map_intCast]
  | sum hkind _ _ ih =>
    rw [value_sum hkind, value_sum hkind, map_list_sum, List.map_map]
    exact congrArg List.sum (List.map_congr_left fun t ht => ih t ht ρ)
  | product hkind _ ht _ iht iha =>
    rw [value_product hkind ht.function?, value_product hkind ht.function?, map_mul, iht, iha]
  | power hpower _ _ _ hn ihb => rw [value_power hpower hn, value_power hpower hn, map_pow, ihb]
  | call hkind _ ht hf _ _ iha => rw [value_call hkind ht hf, value_call hkind ht hf, hcall, iha]
  | @indexedSum e index lower upper body hkind _ _ _ _ _ ihl ihu ihb =>
    rw [value_indexedSum hkind, value_indexedSum hkind, map_sum, ← ihl, ← ihu, htoInt, htoInt]
    refine Finset.sum_congr rfl fun k _ => ?_
    rw [ihb]
    refine congrArg (body.value I) (funext fun i => ?_)
    by_cases heq : i = index.ordinal
    · rw [heq, Function.update_self, Function.update_self, map_intCast]
    · rw [Function.update_of_ne heq, Function.update_of_ne heq]

end Expr

/-! ## Dual numbers -/

namespace Reading

variable (I : Reading A)

/-- The slopes of the built-in functions: that of the exponential function is the function itself, and
sine and cosine have each other, up to the sign. -/
def slope (f : Builtin) (z : A) : A :=
  match f with
  | .exp => I.call .exp z
  | .sin => I.call .cos z
  | .cos => -I.call .sin z
  | .log | .pow => 0

/-- The reading in the dual numbers. -/
def dual : Reading (DualNumber A) where
  toInt := I.toInt.comp (TrivSqZeroExt.fstHom A A A).toRingHom
  call f z := inl (I.call f (fst z)) + inr (snd z * I.slope f (fst z))

@[simp] lemma fst_dual_call (f : Builtin) (z : DualNumber A) :
    fst (I.dual.call f z) = I.call f (fst z) := by
  rw [dual, TrivSqZeroExt.fst_add, TrivSqZeroExt.fst_inl, TrivSqZeroExt.fst_inr, add_zero]

@[simp] lemma snd_dual_call (f : Builtin) (z : DualNumber A) :
    snd (I.dual.call f z) = snd z * I.slope f (fst z) := by
  rw [dual, TrivSqZeroExt.snd_add, TrivSqZeroExt.snd_inl, TrivSqZeroExt.snd_inr, zero_add]

end Reading

namespace Expr

/-- The valuation with the symbol with ordinal `i` moved. -/
def moved (i : ℕ) (ρ : Valuation A) : Valuation (DualNumber A) :=
  fun j => inl (ρ j) + inr (if j = i then 1 else 0)

/-- How the value of `e` moves with the symbol with ordinal `i`. -/
noncomputable def slope (I : Reading A) (i : ℕ) (e : Expr) (ρ : Valuation A) : A :=
  snd (e.value I.dual (moved i ρ))

variable {I : Reading A} {i : ℕ} {ρ : Valuation A}

@[simp] lemma fst_moved (j : ℕ) : fst (moved i ρ j) = ρ j := by
  rw [moved, TrivSqZeroExt.fst_add, TrivSqZeroExt.fst_inl, TrivSqZeroExt.fst_inr, add_zero]

@[simp] lemma snd_moved (j : ℕ) : snd (moved i ρ j) = if j = i then 1 else 0 := by
  rw [moved, TrivSqZeroExt.snd_add, TrivSqZeroExt.snd_inl, TrivSqZeroExt.snd_inr, zero_add]

/-- In the first place stands the value. -/
lemma fst_value (he : e.IsScalar F) : fst (e.value I.dual (moved i ρ)) = e.value I ρ := by
  have h := value_map (J := I.dual) (I := I) (TrivSqZeroExt.fstHom A A A).toRingHom (fun _ => rfl)
    (fun f z => by simp) he (moved i ρ)
  simpa using h

/-- The value in dual numbers is made of value and slope. -/
lemma value_dual (he : e.IsScalar F) :
    e.value I.dual (moved i ρ) = inl (e.value I ρ) + inr (e.slope I i ρ) := by
  rw [← fst_value (I := I) (i := i) (ρ := ρ) he, slope, TrivSqZeroExt.inl_fst_add_inr_snd_eq]

lemma slope_of_isSymbol (h : e.isSymbol = true) :
    e.slope I i ρ = if e.ordinal = i then 1 else 0 := by
  rw [slope, value_of_isSymbol h, snd_moved]

lemma slope_literal {k : ℤ} (h : IsLiteral k e) : e.slope I i ρ = 0 := by
  rw [slope, value_literal h, TrivSqZeroExt.snd_intCast]

lemma slope_sum {terms : List Expr} (h : e.kind = .sum terms) :
    e.slope I i ρ = (terms.map fun t => t.slope I i ρ).sum := by
  have hsnd (l : List (DualNumber A)) : snd l.sum = (l.map snd).sum :=
    map_list_sum (TrivSqZeroExt.sndHom A A) l
  rw [slope, value_sum h, hsnd, List.map_map]
  rfl

lemma slope_product (h : e.kind = .apply t a) (ht : t.IsScalar F) (ha : a.IsScalar F) :
    e.slope I i ρ = t.value I ρ * a.slope I i ρ + t.slope I i ρ * a.value I ρ := by
  rw [slope, value_product h ht.function?, DualNumber.snd_mul, fst_value ht, fst_value ha]
  rfl

lemma slope_power {k : ℕ} (h : e.power? = some (b, n)) (hn : IsLiteral k n) (hb : b.IsScalar F) :
    e.slope I i ρ = k * b.value I ρ ^ (k - 1) * b.slope I i ρ := by
  rw [slope, value_power h hn, TrivSqZeroExt.snd_pow, fst_value hb, nsmul_eq_mul, smul_eq_mul,
    mul_assoc]
  rfl

lemma slope_call {f : Builtin} (h : e.kind = .apply t a) (ht : t.kind = .function (.builtin f))
    (hf : f ≠ .pow) (ha : a.IsScalar F) :
    e.slope I i ρ = a.slope I i ρ * I.slope f (a.value I ρ) := by
  rw [slope, value_call h ht hf, Reading.snd_dual_call, fst_value ha, slope]

lemma slope_indexedSum {index lower upper body : Expr}
    (h : e.kind = .indexedSum index lower upper body) (hl : lower.IsScalar F) (hu : upper.IsScalar F)
    (hindex : index.ordinal ≠ i) : e.slope I i ρ =
      ∑ k ∈ Finset.Icc (I.toInt (lower.value I ρ)) (I.toInt (upper.value I ρ)),
        body.slope I i (Function.update ρ index.ordinal (k : A)) := by
  have htoInt (z : DualNumber A) : I.dual.toInt z = I.toInt (fst z) := rfl
  rw [slope, value_indexedSum h, TrivSqZeroExt.snd_sum, htoInt, htoInt, fst_value hl, fst_value hu]
  refine Finset.sum_congr rfl fun k _ => ?_
  -- The index does not move.
  rw [slope]
  congr 2
  funext j
  by_cases heq : j = index.ordinal
  · rw [heq, Function.update_self, moved, Function.update_self, if_neg hindex]
    simp
  · rw [Function.update_of_ne heq, moved, moved, Function.update_of_ne heq]

end Expr

end TermGraph
