import TermGraph.Proofs.Polynomial.Gathering

/-!
# Literals, variables and the nodes above them

The nodes that polynomials are made of, and what the store makes of a request for one.  In a
well-formed store a node is determined by its structure, so each of these requests gives the node
that was asked for and no look-alike.

* `IsLiteral k e`: `e` is the integer literal with value `k`.
* `IsVariable i x`: `x` is the symbol with ordinal `i`, in the integers or the reals.
* `achieves_rawApply`: the application that was asked for.
-/

namespace TermGraph

open Store (Knows)

/-! ## Structures of literals -/

namespace Binary64

lemma isZero_canonical (x : Binary64) : x.canonical.isZero = x.isZero := by
  unfold canonical
  split
  · simp_all [isZero, magnitude]
  · split
    · simp_all only [Bool.not_eq_true]
      decide
    · rfl

/-- The pattern of one stands for itself only. -/
lemma bits_canonical_eq_one (x : Binary64) :
    x.canonical.bits = 0x3ff0000000000000 ↔ x.bits = 0x3ff0000000000000 := by
  have hx : x.bits = 0x3ff0000000000000 → x = ⟨0x3ff0000000000000⟩ := fun h => by rw [← h]
  unfold canonical
  split
  · rename_i hzero
    refine iff_of_false (by decide) fun h => ?_
    rw [hx h] at hzero
    exact absurd hzero (by decide)
  · split
    · rename_i hnan
      refine iff_of_false (by decide) fun h => ?_
      rw [hx h] at hnan
      exact absurd hnan (by decide)
    · rfl

end Binary64

namespace Number

/-- Literals of one structure are alike zero or one, or neither. -/
lemma isZero_isOne_of_code {m n : Number} (h : m.code = n.code) :
    m.isZero = n.isZero ∧ m.isOne = n.isOne := by
  cases m <;> cases n <;> simp only [code, List.cons.injEq, and_true, zero_ne_one, one_ne_zero,
    false_and, true_and] at h
  case int.int m n =>
    have heq := congrArg UInt64.toInt64 (UInt64.toNat_inj.1 h)
    simp only [Int64.toInt64_toUInt64] at heq
    rw [heq]
    exact ⟨rfl, rfl⟩
  case float.float x y =>
    have hbits : x.canonical.bits = y.canonical.bits := UInt64.toNat_inj.1 h
    have heq : x.canonical = y.canonical := congrArg Binary64.mk hbits
    refine ⟨?_, ?_⟩
    · rw [isZero, isZero, ← x.isZero_canonical, heq, y.isZero_canonical]
    · rw [isOne, isOne, Bool.eq_iff_iff, beq_iff_eq, beq_iff_eq, ← x.bits_canonical_eq_one, hbits,
        y.bits_canonical_eq_one]

end Number
/-! ## Requests for nodes -/

section Requests

variable {s : Store} {d : ℕ} {domain : Domain} {kind : Kind}

/-- Whatever follows from the structure of a node holds of the node that is found or made. -/
lemma achieves_intern {Q : Expr → Prop} (hs : Good s) (hadm : s.Admits domain kind)
    (h : ∀ e t, t.WellFormed → s ≤ t → t.Knows e → e.kind.code = kind.code → Q e) :
    Achieves d s (Build.intern domain kind) Q where
  yields := yields_intern hs hadm d
  exact := by
    obtain ⟨hwf, hknown, hcode⟩ := (good_store.1 hs).intern hadm
    exact fun _ => h _ _ hwf (Store.le_intern domain kind s) hknown hcode

end Requests

namespace Kind

/-- The structure of a literal has its code. -/
lemma exists_number_of_code {k : Kind} {n : Number} (h : k.code = (Kind.number n).code) :
    ∃ m, k = .number m ∧ m.code = n.code := by
  cases k <;> simp [code] at h
  case number m => exact ⟨m, rfl, h⟩

lemma eq_number_of_code {k : Kind} {n : Int64} (h : k.code = (Kind.number (.int n)).code) :
    k = .number (.int n) := by
  cases k <;> simp [code] at h
  case number m =>
    cases m with
    | int m =>
      simp only [Number.code, List.cons.injEq, true_and, and_true] at h
      have hm := congrArg UInt64.toInt64 (UInt64.toNat_inj.1 h)
      simp only [Int64.toInt64_toUInt64] at hm
      rw [hm]
    | float x => simp [Number.code] at h

end Kind

namespace Expr

variable {s : Store} {d : ℕ}

/-! ## Literals and variables -/

/-- In the integers or the reals. -/
def IsReal (e : Expr) : Prop :=
  e.domain = .integers ∨ e.domain = .reals

/-- The integer literal with value `k`. -/
structure IsLiteral (k : ℤ) (e : Expr) : Prop where
  /-- It is a literal with this value. -/
  number : ∃ n, e.number? = some n ∧ n.IsInt k
  /-- It lies in the integers. -/
  domain : e.domain = .integers

/-- The symbol with ordinal `i`, in the integers or the reals. -/
structure IsVariable (i : ℕ) (x : Expr) : Prop where
  /-- The ordinal. -/
  ordinal : x.ordinal = i
  /-- It is a symbol. -/
  symbol : ∃ name, x.kind = .symbol name
  /-- It is real. -/
  real : x.IsReal

section Facts

variable {e x : Expr} {i : ℕ} {k : ℤ}

lemma IsReal.isScalar (h : e.IsReal) : e.domain.isScalar = true := by
  rcases h with h | h <;> rw [h] <;> rfl

lemma IsReal.isLinear (h : e.IsReal) : e.domain.isLinear = true := by
  rcases h with h | h <;> rw [h] <;> rfl

lemma IsLiteral.real (h : IsLiteral k e) : e.IsReal := .inl h.domain

lemma IsLiteral.isSome (h : IsLiteral k e) : e.number?.isSome = true := by
  obtain ⟨m, hm, -⟩ := h.number
  rw [hm, Option.isSome_some]

lemma kind_of_number? {n : Number} (h : e.number? = some n) : e.kind = .number n := by
  unfold number? at h
  split at h
  · rw [← Option.some.inj h]
    assumption
  · cases h

lemma IsLiteral.kind (h : IsLiteral k e) : ∃ n : Int64, e.kind = .number (.int n) ∧ n.toInt = k := by
  obtain ⟨_, hn, n, rfl, hk⟩ := h.number
  exact ⟨n, kind_of_number? hn, hk⟩

lemma IsLiteral.of_kind {n : Int64} (h : e.kind = .number (.int n)) (hdomain : e.domain = .integers) :
    IsLiteral n.toInt e :=
  ⟨⟨.int n, by simp [number?, h], Number.isInt_int n⟩, hdomain⟩

lemma IsLiteral.function? (h : IsLiteral k e) : e.function? = none := by
  obtain ⟨n, hkind, -⟩ := h.kind
  simp [Expr.function?, hkind]

lemma IsLiteral.isSymbol (h : IsLiteral k e) : e.isSymbol = false := by
  obtain ⟨n, hkind, -⟩ := h.kind
  simp [Expr.isSymbol, hkind]

lemma IsLiteral.unique {j : ℤ} (h : IsLiteral k e) (h' : IsLiteral j e) : k = j := by
  obtain ⟨n, hn, hk⟩ := h.number
  obtain ⟨m, hm, hj⟩ := h'.number
  rw [hn] at hm
  cases hm
  exact hk.unique hj

lemma IsLiteral.isZero (h : IsLiteral k e) : e.isZero = true ↔ k = 0 := by
  obtain ⟨n, hn, hk⟩ := h.number
  simp only [Expr.isZero, hn]
  exact hk.isZero

lemma IsLiteral.isOne (h : IsLiteral k e) : e.isOne = true ↔ k = 1 := by
  obtain ⟨n, hn, hk⟩ := h.number
  simp only [Expr.isOne, hn]
  exact hk.isOne

/-- In a well-formed store there is one literal of each value. -/
lemma IsLiteral.eq (hs : s.WellFormed) {e' : Expr} (he : s.Knows e) (he' : s.Knows e')
    (h : IsLiteral k e) (h' : IsLiteral k e') : e = e' := by
  obtain ⟨n, hn, hk⟩ := h.kind
  obtain ⟨m, hm, hk'⟩ := h'.kind
  have hnm : n = m := Int64.toInt_inj.1 (hk.trans hk'.symm)
  subst hnm
  exact hs.eq_of_code he he' (by rw [hn, hm]) (by rw [hm]; rfl)

lemma IsVariable.number? (h : IsVariable i x) : x.number? = none := by
  obtain ⟨name, hkind⟩ := h.symbol
  simp [Expr.number?, hkind]

lemma IsVariable.function? (h : IsVariable i x) : x.function? = none := by
  obtain ⟨name, hkind⟩ := h.symbol
  simp [Expr.function?, hkind]

lemma IsVariable.power? (h : IsVariable i x) : x.power? = none := by
  obtain ⟨name, hkind⟩ := h.symbol
  simp [Expr.power?, hkind]

lemma IsVariable.isOne (h : IsVariable i x) : x.isOne = false := by
  simp [Expr.isOne, h.number?]

lemma IsVariable.isConstant (h : IsVariable i x) : x.isConstant = false := by
  obtain ⟨name, hkind⟩ := h.symbol
  obtain ⟨ordinal, domain, kind⟩ := x
  simp only [Expr.kind] at hkind
  subst hkind
  rfl

/-- A real scalar that is no constant. -/
structure IsOpen (e : Expr) : Prop where
  real : e.IsReal
  number? : e.number? = none
  isConstant : e.isConstant = false

lemma IsVariable.isOpen (h : IsVariable i x) : IsOpen x := ⟨h.real, h.number?, h.isConstant⟩

/-- Scalars that are no constants are ordered by their ordinals. -/
lemma IsOpen.le {y : Expr} (hx : IsOpen x) (hy : IsOpen y) :
    x.le y = decide (x.ordinal ≤ y.ordinal) := by
  have hgroup {z : Expr} (hz : IsOpen z) : z.group = 2 := by
    simp [group, hz.number?, hz.isConstant, hz.real.isScalar]
  unfold Expr.le compare
  by_cases heq : x.ordinal = y.ordinal
  · simp [heq]
  · have hne : (x == y) = false := by simpa [← Bool.not_eq_true] using heq
    simp only [hne, Bool.false_eq_true, if_false, hx.number?, hgroup hx, hgroup hy]
    rcases Nat.lt_trichotomy x.ordinal y.ordinal with h | h | h
    · simp [Nat.compare_eq_lt.2 h, h.le]
    · exact absurd h heq
    · simp [Nat.compare_eq_gt.2 h, h]

end Facts

/-! ## Making them -/

section Making

lemma achieves_number (hs : Good s) {n : Number} {k : ℤ} (h : n.IsInt k) :
    Achieves d s (number n) (IsLiteral k) := by
  obtain ⟨m, rfl, rfl⟩ := h
  have hadm : s.Admits .integers (.number (.int m)) :=
    ⟨by simp [Kind.children], fun _ h => h.elim, rfl, by simp [Kind.index?]⟩
  refine achieves_intern hs hadm fun e t ht _ he hcode => ?_
  have hkind := Kind.eq_number_of_code hcode
  have htyped := (ht.admits he).typed
  rw [hkind] at htyped
  exact .of_kind hkind (by simpa [Kind.Typed, Number.isInt] using htyped)

lemma achieves_int (hs : Good s) (n : Int64) : Achieves d s (int n) (IsLiteral n.toInt) :=
  achieves_number hs (Number.isInt_int n)

lemma achieves_one (hs : Good s) : Achieves d s one (IsLiteral 1) := achieves_int hs 1

lemma achieves_zero (hs : Good s) : Achieves d s zero (IsLiteral 0) := achieves_int hs 0

lemma achieves_builtin (hs : Good s) (f : Builtin) :
    Achieves d s (ofFunction (.builtin f)) fun e => e.kind = .function (.builtin f) :=
  achieves_intern hs ⟨by simp [Kind.children], by rintro _ rfl; simp, rfl, by simp [Kind.index?]⟩
    fun _ _ _ _ _ hcode => Kind.eq_builtin_of_code hcode

lemma achieves_pair (hs : Good s) {a b : Expr} (ha : s.Knows a) (hb : s.Knows b) :
    Achieves d s (tuple [a, b]) fun e => e.kind = .tuple [a, b] := by
  have hknown : s.Knows [a, b] := by simp [ha, hb]
  refine achieves_intern hs ⟨hknown, fun _ h => h.elim, rfl, by simp [Kind.index?]⟩
    fun e t ht hle he hcode => ht.kind_eq_tuple he (hknown.mono hle) hcode

lemma applyDomain?_real {t a : Expr} (ht : t.IsReal) (ha : a.IsReal) :
    ∃ domain, applyDomain? t a = some domain ∧ (domain = .integers ∨ domain = .reals) := by
  rcases ht with ht | ht <;> rcases ha with ha | ha <;>
    simp [applyDomain?, Domain.leftApply?, Domain.firstAnswer, Domain.lineage, ht, ha,
      Domain.arithmetic?, Domain.isIntegral, Domain.isScalar, Domain.within, BEq.beq, Domain.same]

/-- The application that was asked for, in a domain that its sides have. -/
lemma achieves_rawApply (hs : Good s) {t a : Expr} (ht : s.Knows t) (ha : s.Knows a)
    {P : Domain → Prop} (h : ∃ domain, applyDomain? t a = some domain ∧ P domain) :
    Achieves d s (rawApply t a) fun e => e.kind = .apply t a ∧ P e.domain := by
  obtain ⟨domain, hdomain, hP⟩ := h
  refine ⟨yields_rawApply hs ht ha d, ?_⟩
  have hrun : rawApply t a = Build.intern domain (.apply t a) := by
    unfold rawApply applyDomain
    rw [hdomain]
    rfl
  rw [hrun]
  refine (achieves_intern hs (admits_apply ht ha hdomain) fun e u hu hle he hcode => ?_).exact
  have hkind := hu.kind_eq_apply he (ht.mono hle) (ha.mono hle) hcode
  refine ⟨hkind, ?_⟩
  have htyped := (hu.admits he).typed
  rw [hkind, Kind.Typed, hdomain, Option.some.injEq] at htyped
  rwa [← htyped]

end Making

end Expr

end TermGraph
