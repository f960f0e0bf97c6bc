import TermGraph.Proofs.Meaning.NormalForms
import TermGraph.Proofs.Termination.Rebuilding

/-!
# Normalization comes to an end

Normalization of an arithmetic expression stays within any depth beyond its weight.  A node over the normal
forms of its children is lighter unless it is the node itself, and so is whatever a rewrite makes of it, so
the recursion goes on with lighter nodes only.

* `Expr.halts_reducePower`, `Expr.halts_unrolled`: what the rewrites make of a node.
* `Expr.halts_reduceNode`: a rewrite makes a node lighter.
* `Expr.halts_normalizeAux`: normalization comes to an end, also where earlier results are remembered.
* `Normalizer.normalize_halts`: so does every call of a normalizer, and the next one after it.
-/

namespace TermGraph

open Store (Knows)

/-! ## Constants -/

section Constants

variable {s : Store} {d : ℕ}

namespace Value

/-- An operation on two numbers gives a number. -/
lemma halts_ofOperation (hs : s.Regular) (op : Number → Number → Number) (a b : Number) :
    Halts Store.Regular d s (ofOperation op a b) fun v => ∃ n, v = .number n := by
  unfold ofOperation
  exact (halts_settle hs _).bind fun n t ht _ _ _ => .pure ht (Store.knows_number _) ⟨n, rfl⟩

/-- A sum of numbers is a number. -/
lemma halts_sum (ev : Evaluator) (hs : s.Regular) {vs : List Value} (h : ∀ v ∈ vs, ∃ n, v = number n) :
    Halts Store.Regular d s (ev.sum vs) fun v => ∃ n, v = .number n := by
  suffices hfold : ∀ {m : Number}, Halts Store.Regular d s (vs.foldlM ev.add (.number m)) fun v =>
      ∃ n, v = .number n from hfold
  induction vs generalizing s with
  | nil => exact .pure hs (Store.knows_number _) ⟨_, rfl⟩
  | cons v vs ih =>
    intro m
    rw [List.forall_mem_cons] at h
    obtain ⟨⟨n, rfl⟩, h⟩ := h
    rw [List.foldlM_cons]
    refine (halts_ofOperation hs .add m n).bind fun w t ht _ _ hw => ?_
    obtain ⟨k, rfl⟩ := hw
    exact ih ht h

end Value

namespace Function

lemma halts_numericArguments (hs : s.Regular) (name : String) (args : List Value) :
    Halts Store.Regular d s (numericArguments name args) fun _ => True := by
  induction args generalizing s with
  | nil => exact .pure hs Store.knows_nil trivial
  | cons v args ih =>
    cases v with
    | number n =>
      rw [numericArguments]
      exact (ih hs).bind fun ns t ht _ hknown _ => .pure ht (Store.knows_cons.2 ⟨trivial, hknown⟩) trivial
    | _ => exact .throw hs (by simp)

/-- A call of a built-in function gives a number or fails. -/
lemma halts_evaluateWith (hs : s.Regular) (normalize : Expr → Build Expr) (f : Builtin)
    (args : List Value) : Halts Store.Regular d s (evaluateWith normalize (.builtin f) args) fun v =>
      ∃ n, v = .number n := by
  unfold evaluateWith
  refine .ite (fun _ => .throw hs (by simp)) fun _ => ?_
  refine (halts_numericArguments hs _ args).bind fun ns t ht _ _ _ => ?_
  unfold Builtin.evaluate
  split
  · exact .pure ht (Store.knows_number _) ⟨_, rfl⟩
  · exact .pure ht (Store.knows_number _) ⟨_, rfl⟩
  · exact .pure ht (Store.knows_number _) ⟨_, rfl⟩
  · exact .pure ht (Store.knows_number _) ⟨_, rfl⟩
  · exact Value.halts_ofOperation ht _ _ _
  · exact .pure ht (Store.knows_number _) ⟨_, rfl⟩

end Function

namespace Expr

variable {N : ℕ} {m : Memo} {e t a b n : Expr} {l : List Expr} {v : Value}

/-- The constants among arithmetic expressions are the literals. -/
lemma IsArithmetic.number_of_value? (h : e.IsArithmetic) (hv : e.value? = some v) :
    ∃ n, v = .number n := by
  obtain ⟨ordinal, domain, kind⟩ := e
  cases h with
  | literal hnumber _ =>
    obtain ⟨n, hkind⟩ := exists_number hnumber
    cases hkind
    exact ⟨n, (Option.some.inj hv).symm⟩
  | symbol hsymbol _ =>
    obtain ⟨name, hkind⟩ := exists_symbol hsymbol
    cases hkind
    simp [Expr.value?] at hv
  | power hpower _ _ _ =>
    obtain ⟨t, a, rfl, -, -⟩ := power?_eq_some.1 hpower
    simp [Expr.value?] at hv
  | sum hkind _ _ _ | product hkind _ _ _ | call hkind _ _ _ _ | indexedSum hkind _ _ _ _ _ =>
    cases hkind
    simp [Expr.value?] at hv

lemma IsArithmetic.numbers_of_values? {vs : List Value} (h : ∀ e ∈ l, e.IsArithmetic)
    (hvs : values? l = some vs) : ∀ v ∈ vs, ∃ n, v = .number n := by
  induction l generalizing vs with
  | nil =>
    cases hvs
    simp
  | cons e l ih =>
    rw [List.forall_mem_cons] at h
    rw [values?] at hvs
    split at hvs
    · rename_i v ws hv hws
      cases hvs
      exact List.forall_mem_cons.2 ⟨h.1.number_of_value? hv, ih h.2 hws⟩
    · cases hvs

end Expr

end Constants

namespace Expr

variable {N : ℕ} {s : Store} {m : Memo} {d depth : ℕ} {e t a b n : Expr} {l fs : List Expr}

/-! ## Powers -/

section Powers

/-- A product of literals is a literal. -/
lemma Multiplied.weight_of_literals (h : Multiplied N l e) (hl : ∀ x ∈ l, x.number?.isSome = true) :
    e.weight N ≤ 1 := by
  have hfactors : l.flatMap factors = l := by
    rw [List.flatMap_congr fun x hx => factors_of_isProduct (e := x) ?_]
    · simp
    · obtain ⟨m, hkind⟩ := exists_number (hl x hx)
      simp [isProduct, hkind]
  have hothers : nonLiterals l = [] := List.filter_eq_nil_iff.2 fun x hx => by
    simpa using Option.isSome_iff_ne_none.1 (hl x hx)
  have hle := h.weight_le
  rw [hfactors, hothers, totalCost_nil] at hle
  split at hle <;> omega

lemma IsArithmetic.isSome_of_weight (h : e.IsArithmetic) (hweight : e.weight N = 1) :
    e.number?.isSome = true := by
  by_contra hnone
  have := h.two_le_weight (N := N) (by simpa using hnone)
  omega

lemma halts_apply (hs : s.Regular) (hknown : s.Knows t) (hknown' : s.Knows a) (ht : t.IsArithmetic)
    (ha : a.IsArithmetic) (hd : t.weight N + a.weight N + 2 ≤ d) :
    Halts Store.Regular d s (apply t a) (Multiplied N [t, a]) := by
  obtain ⟨i, rfl⟩ : ∃ i, d = i + 1 := ⟨d - 1, by omega⟩
  exact Halts.read (halts_applyAux_product hs hknown hknown' ht ha hd)

/-- Factors are multiplied one after the other. -/
lemma halts_foldlM_apply (hs : s.Regular) (hknown : s.Knows e) (hknown' : s.Knows l)
    (he : e.IsArithmetic) (hl : ∀ f ∈ l, f.IsArithmetic) (hd : e.weight N + totalCost N l ≤ d) :
    Halts Store.Regular d s (l.foldlM apply e) fun r =>
      r.IsArithmetic ∧ r.weight N ≤ e.weight N + totalCost N l := by
  induction l generalizing s e with
  | nil => exact .pure hs hknown ⟨he, le_rfl⟩
  | cons f l ih =>
    rw [Store.knows_cons] at hknown'
    rw [List.forall_mem_cons] at hl
    rw [totalCost_cons] at hd ⊢
    rw [List.foldlM_cons]
    refine (halts_apply (N := N) hs hknown hknown'.1 he hl.1 (by omega)).bind
      fun r t ht hle hknownr hr => ?_
    have hcost := hr.weight_le_totalCost
    simp only [totalCost_cons, totalCost_nil] at hcost
    exact (ih ht hknownr (hknown'.2.mono hle) hr.arithmetic hl.2 (by omega)).imp fun r' hr' =>
      ⟨hr'.1, by omega⟩

/-- What powers of the factors of a product weigh as factors. -/
lemma totalCost_of_forall₂ {raised : List Expr} (h : List.Forall₂ (fun f r =>
      r.IsArithmetic ∧ r.weight N ≤ f.weight N * (n.weight N + 1) + 1) fs raised) :
    (∀ r ∈ raised, r.IsArithmetic) ∧
      totalCost N raised ≤ totalWeight N fs * (n.weight N + 1) + 3 * fs.length := by
  induction h with
  | nil => simp
  | cons hr _ ih =>
    rw [List.forall_mem_cons, totalCost_cons, totalWeight_cons, List.length_cons, Nat.add_mul]
    exact ⟨⟨hr.1, ih.1⟩, by omega⟩

lemma totalCost_eq (l : List Expr) : totalCost N l = totalWeight N l + 2 * l.length := by
  induction l with
  | nil => rfl
  | cons e l ih =>
    rw [totalCost_cons, totalWeight_cons, List.length_cons]
    omega

/-- Factors that weigh no more than the depth, with the products between them, are multiplied. -/
lemma halts_product (hs : s.Regular) (hknown : s.Knows l) (hne : l ≠ []) (hl : ∀ e ∈ l, e.IsArithmetic)
    (hd : totalCost N l ≤ d + 2) : Halts Store.Regular d s (product l) fun r =>
      r.IsArithmetic ∧ r.weight N + 2 ≤ totalCost N l := by
  obtain ⟨e, l, rfl⟩ := List.exists_cons_of_ne_nil hne
  rw [Store.knows_cons] at hknown
  rw [List.forall_mem_cons] at hl
  rw [totalCost_cons] at hd ⊢
  exact (halts_foldlM_apply (N := N) hs hknown.1 hknown.2 hl.1 hl.2 (by omega)).imp fun r hr =>
    ⟨hr.1, by omega⟩

/-- A power of a product is heavier than the product of the powers. -/
lemma cost_of_powers_lt {F k w W cost : ℕ} (hk : 2 ≤ k) (hW : 2 ≤ W) (hw : w + 2 = F + 2 * k)
    (hcost : cost ≤ F * W + 3 * k) : cost < w * W + 1 + 2 := by
  obtain ⟨j, rfl⟩ : ∃ j, k = j + 2 := ⟨k - 2, by omega⟩
  obtain rfl : w = F + 2 * (j + 1) := by omega
  have := Nat.mul_le_mul_left (2 * (j + 1)) hW
  rw [Nat.add_mul]
  omega

/-- The product of the exponents of a power of a power is no heavier than the power. -/
lemma exponents_le_power {B p q : ℕ} (hB : 0 < B) :
    p + q + 2 ≤ (B * (p + 1) + 1) * (q + 1) + 1 := by
  have hbase : p + 1 ≤ B * (p + 1) := Nat.le_mul_of_pos_left _ hB
  have hpower : (p + 2) * (q + 1) ≤ (B * (p + 1) + 1) * (q + 1) :=
    Nat.mul_le_mul_right _ (Nat.succ_le_succ hbase)
  have hsum : p + 2 + q ≤ (p + 2) * (q + 1) := by
    rw [Nat.mul_succ, Nat.add_comm]
    exact Nat.add_le_add_right (Nat.le_mul_of_pos_left _ (Nat.succ_pos _)) _
  omega

/-- A power of a power is heavier than the power with the product of the exponents.  Only if both exponents
are as light as literals it matters that the product of literals is a literal. -/
lemma merged_power_lt {B p q r : ℕ} (hp : 1 ≤ p) (hq : 1 ≤ q) (hr : r ≤ p + q + 2)
    (hone : p = 1 → q = 1 → r ≤ 1) : B * (r + 1) + 1 < (B * (p + 1) + 1) * (q + 1) + 1 := by
  have hle : r + 1 ≤ (p + 1) * (q + 1) := by
    by_cases h : p = 1 ∧ q = 1
    · have := hone h.1 h.2
      rw [h.1, h.2]
      omega
    · have : 2 ≤ p * q := by
        rcases Nat.lt_or_ge 1 p with hp' | hp'
        · exact Nat.mul_le_mul hp' hq
        · exact Nat.mul_le_mul hp (show 2 ≤ q by omega)
      rw [show (p + 1) * (q + 1) = p * q + p + q + 1 by ring]
      omega
  have := Nat.mul_le_mul_left B hle
  rw [Nat.add_mul, Nat.mul_assoc]
  omega

/-- Powers of the factors of a product are lighter than a power of the product, the products between them
included. -/
lemma halts_mapM_power (hs : s.Regular) (hknown : s.Knows b) (hknown' : s.Knows n) (hb : b.IsArithmetic)
    (hn : n.IsArithmetic) (hproduct : b.isProduct = true) :
    Halts Store.Regular d s (b.factors.mapM fun f => power f n) fun raised => raised ≠ [] ∧
      (∀ r ∈ raised, r.IsArithmetic) ∧
        totalCost N raised < b.weight N * (n.weight N + 1) + 1 + 2 := by
  have hlength := two_le_length_factors hproduct
  have hcost := totalCost_factors (N := N) b
  rw [totalCost_eq] at hcost
  refine (Halts.mapM hs _ fun f hf t ht hle => halts_power (N := N) ht
    ((knows_factors hs.toWellFormed hknown f hf).mono hle) (hknown'.mono hle) (hb.factors f hf)
      hn).imp fun raised hraised => ?_
  obtain ⟨harith, hcost'⟩ := totalCost_of_forall₂ hraised
  refine ⟨List.ne_nil_of_length_pos ?_, harith, cost_of_powers_lt hlength ?_ hcost.symm hcost'⟩
  · rw [← hraised.length_eq]
    omega
  · exact Nat.succ_le_succ hn.weight_pos

/-- A power of a product or of a power becomes lighter. -/
lemma halts_reducePower (hs : s.Regular) (hknown : s.Knows e) (he : e.IsArithmetic)
    (hpower : e.power? = some (b, n)) (hd : e.weight N ≤ d) :
    Halts Store.Regular d s (reducePower b n) fun next =>
      ∀ e' ∈ next, e'.IsArithmetic ∧ e'.weight N < e.weight N := by
  obtain ⟨hb, hn⟩ := he.of_power hpower
  obtain ⟨hknownb, hknownn⟩ := knows_power? hs.toWellFormed hknown hpower
  rw [weight_power hpower] at hd ⊢
  unfold reducePower
  refine .ite (fun hproduct => ?_) fun _ => ?_
  · rw [Bool.and_eq_true] at hproduct
    refine (halts_mapM_power (N := N) hs hknownb hknownn hb hn hproduct.1).bind
      fun raised t ht _ hknownr hraised => ?_
    obtain ⟨hne, harith, hlt⟩ := hraised
    refine (halts_product (N := N) ht hknownr hne harith (by omega)).map fun r u hknown hr => ?_
    exact ⟨Store.knows_some.2 hknown, by simpa using ⟨hr.1, by omega⟩⟩
  · split
    · rename_i b' m hpower'
      obtain ⟨hb', hm⟩ := hb.of_power hpower'
      obtain ⟨hknownb', hknownm⟩ := knows_power? hs.toWellFormed hknownb hpower'
      have hmpos : 1 ≤ m.weight N := hm.weight_pos
      have hnpos : 1 ≤ n.weight N := hn.weight_pos
      rw [weight_power hpower'] at hd ⊢
      have hcost : totalCost N [m, n] = m.weight N + n.weight N + 2 + 2 := by
        simp only [totalCost_cons, totalCost_nil]
        omega
      have happly : product [m, n] = apply m n := by
        simp [product, foldProduct]
      rw [happly]
      refine (halts_apply (N := N) hs hknownm hknownn hm hn ?_).bind fun r t ht hle hknownr hr => ?_
      · exact (exponents_le_power hb'.weight_pos).trans hd
      have hrle := hr.weight_le_totalCost
      have hlt := merged_power_lt (B := b'.weight N) hmpos hnpos (r := r.weight N) (by omega)
        fun hm1 hn1 => hr.weight_of_literals ?_
      · refine (halts_power (N := N) ht (hknownb'.mono hle) hknownr hb' hr.arithmetic).map
          fun e' u hknown he' => ⟨Store.knows_some.2 hknown, ?_⟩
        simpa only [Option.mem_some_iff, forall_eq'] using ⟨he'.1, he'.2.trans_lt hlt⟩
      · simpa using ⟨hm.isSome_of_weight hm1, hn.isSome_of_weight hn1⟩
    · exact .pure hs Store.knows_none (by simp)

end Powers

/-! ## One step -/

/-- `e` is what one step makes of `a`: it may stand for `a`, and it is lighter. -/
structure Lowers (N : ℕ) (a e : Expr) : Prop extends Lightens N a e where
  /-- It is lighter. -/
  weight_lt : e.weight N < a.weight N
  /-- Symbols stay as they are. -/
  symbol : a.isSymbol = false

section Steps

variable {settings : NormalSettings} {visit : Expr → Memoized Memo Expr}
  {normalize : Expr → Build Expr}

lemma Lowers.of_arithmetic (ha : a.IsArithmetic) (hsymbol : a.isSymbol = false) (he : e.IsArithmetic)
    (hlt : e.weight N < a.weight N) : Lowers N a e :=
  ⟨.of_arithmetic ha he hlt.le, hlt, hsymbol⟩

lemma Settles.of_lowers (h : Lowers N a b) (h' : Settles N b e) : Settles N a e :=
  .of_lt h.toLightens h.weight_lt h.symbol h'

section Next

variable (hm : Memo.Settled (Settles N) (s, m))

include hm

lemma halts_none : Halts (Memo.Settled (Settles N)) d (s, m) (pure none)
    fun next => ∀ e' ∈ next, Lowers N e e' :=
  .pure hm Store.knows_none (by simp)

/-- A step on the store alone. -/
lemma halts_some {x : Build Expr} [Growing x] (hx : Halts Store.Regular d s x (Lowers N e)) :
    Halts (Memo.Settled (Settles N)) d (s, m) (some <$> (liftM x : Memoized Memo Expr))
      fun next => ∀ e' ∈ next, Lowers N e e' :=
  (Halts.lift hm hx).map fun _ _ hknown he' => ⟨Store.knows_some.2 hknown, by simpa using he'⟩

/-- A constant becomes a literal, which is lighter than all arithmetic that is no literal. -/
lemma halts_folded {x : Build Value} [Growing x]
    (hx : Halts Store.Regular d s x fun v => ∃ n, v = .number n) (he : e.IsArithmetic)
    (hnumber : e.number? = none) (hsymbol : e.isSymbol = false) :
    Halts (Memo.Settled (Settles N)) d (s, m) (do
      let v ← (liftM x : Memoized Memo Value)
      some <$> (liftM (constant .declared v) : Memoized Memo Expr))
        fun next => ∀ e' ∈ next, Lowers N e e' := by
  refine (Halts.lift hm hx).bind fun v p hp _ _ hv => ?_
  obtain ⟨t, m'⟩ := p
  obtain ⟨n, rfl⟩ := hv
  rw [constant]
  refine halts_some hp ((halts_literal (N := N) hp.regular n).imp fun r hr =>
    .of_arithmetic he hsymbol hr.1 ?_)
  rw [hr.2]
  exact he.two_le_weight hnumber

/-- One step on an application: constants are multiplied, raised and put in functions, and powers of
products and of powers are written out. -/
lemma halts_reduceNode_apply [∀ e, Growing (normalize e)] (hknown : s.Knows e) (he : e.IsArithmetic)
    (hkind : e.kind = .apply t a) (hd : e.weight N ≤ d) :
    Halts (Memo.Settled (Settles N)) d (s, m)
      (reduceNode settings (settings.applyWith (Function.evaluateWith normalize)) visit e)
        fun next => ∀ e' ∈ next, Lowers N e e' := by
  have hnumber : e.number? = none := by simp [number?, hkind]
  have hsymbol : e.isSymbol = false := by simp [isSymbol, hkind]
  unfold reduceNode
  rw [hkind]
  dsimp only
  split
  · rename_i v w hv hw
    refine halts_folded hm ?_ he hnumber hsymbol
    have hcall {f : Builtin} (ht : t.kind = .function (.builtin f)) :
        Halts Store.Regular d s
          (settings.applyWith (Function.evaluateWith normalize) v w)
            fun v => ∃ n, v = .number n := by
      rw [value?_function ht, Option.some.injEq] at hv
      subst hv
      exact Function.halts_evaluateWith hm.regular normalize f _
    rcases he.apply_cases hkind with ⟨ht, ha⟩ | ⟨b, n, hpower, -, -⟩ | ⟨f, ht, -, -⟩
    · obtain ⟨x, rfl⟩ := ht.number_of_value? hv
      obtain ⟨y, rfl⟩ := ha.number_of_value? hw
      exact Value.halts_ofOperation hm.regular .mul x y
    · obtain ⟨t', a', hkind', ht, -⟩ := power?_eq_some.1 hpower
      obtain ⟨rfl, rfl⟩ := Kind.apply.inj (hkind.symm.trans hkind')
      exact hcall ht
    · exact hcall ht
  · split
    · rename_i b n hpower
      refine Halts.lift hm ((halts_reducePower hm.regular hknown he hpower hd).imp fun next h e' he' => ?_)
      exact .of_arithmetic he hsymbol (h e' he').1 (h e' he').2
    · exact halts_none hm

/-- One step on a sum: constants are added up. -/
lemma halts_reduceNode_sum (he : e.IsArithmetic) (hkind : e.kind = .sum l)
    (apply : Value → Value → Build Value) :
    Halts (Memo.Settled (Settles N)) d (s, m) (reduceNode settings apply visit e)
      fun next => ∀ e' ∈ next, Lowers N e e' := by
  unfold reduceNode
  rw [hkind]
  dsimp only
  split
  · rename_i vs hvs
    exact halts_folded hm (Value.halts_sum _ hm.regular
      (IsArithmetic.numbers_of_values? (he.of_sum hkind).2 hvs)) he (by simp [number?, hkind])
        (by simp [isSymbol, hkind])
  · exact halts_none hm

omit hm in
/-- The bodies of a summation are no heavier than its body. -/
lemma halts_unrolled (hs : s.Regular) {index body : Expr} (hindex : s.Knows index)
    (hknown : s.Knows body) (hsymbol : index.isSymbol = true) (hb : body.IsArithmetic)
    (hd : body.weight N ≤ d) (first : ℤ) (count : ℕ) :
    Halts Store.Regular d s (unrolled index body first count) fun terms => terms.length = count ∧
      (∀ t ∈ terms, t.IsArithmetic) ∧ totalWeight N terms ≤ count * body.weight N := by
  induction count generalizing s first with
  | zero => exact .pure hs Store.knows_nil ⟨rfl, by simp, by simp⟩
  | succ count ih =>
    unfold unrolled
    refine (halts_literal (N := N) hs _).bind fun k t ht hle hknownk hk => ?_
    refine (putsIn_substitute ht (hindex.mono hle) hknownk (hknown.mono hle) hsymbol hk.1 (by omega) hb
      hd).bind fun term u hu hle' hknownt hterm => ?_
    have hle'' := hle.trans hle'
    refine (ih hu (hindex.mono hle'') (hknown.mono hle'') (first + 1)).bind
      fun terms v hv hle₃ hknowns hterms => ?_
    refine .pure hv (Store.knows_cons.2 ⟨hknownt.mono hle₃, hknowns⟩) ⟨by simp [hterms.1], ?_, ?_⟩
    · exact List.forall_mem_cons.2 ⟨hterm.arithmetic hb, hterms.2.1⟩
    · rw [totalWeight_cons, Nat.succ_mul, Nat.add_comm]
      exact Nat.add_le_add hterms.2.2 hterm.weight_le

/-- One step on a summation: it is written out over a short range of integers. -/
lemma halts_reduceNode_indexedSum (hknown : s.Knows e) {index lower upper body : Expr}
    (he : e.IsArithmetic) (hkind : e.kind = .indexedSum index lower upper body)
    (hsymbol : index.isSymbol = true) (hb : body.IsArithmetic) (hN : settings.maxUnroll = N)
    (hd : e.weight N ≤ d) (apply : Value → Value → Build Value) :
    Halts (Memo.Settled (Settles N)) d (s, m) (reduceNode settings apply visit e)
      fun next => ∀ e' ∈ next, Lowers N e e' := by
  have hsymbol' : e.isSymbol = false := by simp [isSymbol, hkind]
  have hknowns := hm.regular.children hknown
  simp only [children, hkind, Kind.children, Store.knows_cons] at hknowns
  have hweight := weight_indexedSum (N := N) hkind
  have hbody : body.weight N ≤ (N + 1) * body.weight N := Nat.le_mul_of_pos_left _ N.succ_pos
  unfold reduceNode
  rw [hkind]
  dsimp only
  split
  · rename_i lo hi hlo hhi
    refine .ite (fun _ => ?_) fun hcount => .ite (fun _ => halts_none hm) fun hshort => ?_
    · refine halts_some hm ((halts_literal (N := N) hm.regular (.int 0)).imp fun r hr =>
        .of_arithmetic he hsymbol' hr.1 ?_)
      omega
    · rw [hN, Nat.not_lt] at hshort
      have hpos : 0 < (hi.toInt - lo.toInt + 1).toNat := by omega
      generalize (hi.toInt - lo.toInt + 1).toNat = count at hshort hpos
      refine (Halts.lift hm (halts_unrolled (N := N) hm.regular hknowns.1 hknowns.2.2.2.1 hsymbol hb
        (by omega) lo.toInt count)).bind fun terms p hp _ hknownt hterms => ?_
      obtain ⟨t, m'⟩ := p
      obtain ⟨rfl, harith, htotal⟩ := hterms
      have hle : totalWeight N terms ≤ N * body.weight N :=
        htotal.trans (Nat.mul_le_mul_right _ hshort)
      have hlt : N * body.weight N < e.weight N := by
        rw [hweight, Nat.succ_mul]
        omega
      refine halts_some hp ((addsUp_sum hp.regular hknownt (List.ne_nil_of_length_pos hpos) harith
        ((hle.trans hlt.le).trans hd)).imp fun r hr => .of_arithmetic he hsymbol' hr.arithmetic ?_)
      exact (hr.weight_le_totalWeight.trans hle).trans_lt hlt
  · exact halts_none hm

/-- One step makes a component lighter, if anything. -/
lemma halts_reduceNode [∀ e, Growing (normalize e)] (hknown : s.Knows e) (hcomponent : Component e)
    (hN : settings.maxUnroll = N) (hd : e.weight N ≤ d) :
    Halts (Memo.Settled (Settles N)) d (s, m)
      (reduceNode settings (settings.applyWith (Function.evaluateWith normalize)) visit e)
        fun next => ∀ e' ∈ next, Lowers N e e' := by
  have hnone {apply : Value → Value → Build Value}
      (hrun : reduceNode settings apply visit e = pure none) :
      Halts (Memo.Settled (Settles N)) d (s, m) (reduceNode settings apply visit e)
        fun next => ∀ e' ∈ next, Lowers N e e' := by
    rw [hrun]
    exact halts_none hm
  cases hcomponent with
  | symbol hsymbol =>
    obtain ⟨name, hkind⟩ := exists_symbol hsymbol
    exact hnone (by simp [reduceNode, hkind])
  | function hkind => exact hnone (by simp [reduceNode, hkind])
  | pair hkind _ _ => exact hnone (by simp [reduceNode, hkind])
  | arithmetic he =>
    have h := he
    cases h with
    | symbol hsymbol _ =>
      obtain ⟨name, hkind⟩ := exists_symbol hsymbol
      exact hnone (by simp [reduceNode, hkind])
    | literal hnumber _ =>
      obtain ⟨n, hkind⟩ := exists_number hnumber
      exact hnone (by simp [reduceNode, hkind])
    | power hpower _ _ _ =>
      obtain ⟨t, a, hkind, -, -⟩ := power?_eq_some.1 hpower
      exact halts_reduceNode_apply hm hknown he hkind hd
    | product hkind _ _ _ | call hkind _ _ _ _ =>
      exact halts_reduceNode_apply hm hknown he hkind hd
    | sum hkind _ _ _ => exact halts_reduceNode_sum hm he hkind _
    | indexedSum hkind _ hindex _ _ hb =>
      exact halts_reduceNode_indexedSum hm hknown he hkind hindex hb hN hd _

end Next

end Steps

/-! ## Normalization -/

/-- `visit` gives normal forms of components that weigh less than `k`, and remembers normal forms only. -/
def Visits (N d k : ℕ) (visit : Expr → Memoized Memo Expr) : Prop :=
  ∀ ⦃s : Store⦄ ⦃m : Memo⦄ ⦃e : Expr⦄, Memo.Settled (Settles N) (s, m) → s.Knows e → Component e →
    e.weight N < k → Halts (Memo.Settled (Settles N)) d (s, m) (visit e) (Settles N e)

section Normalization

variable {visit : Expr → Memoized Memo Expr} [∀ e, Growing (visit e)]

omit [∀ e, Growing (visit e)] in
/-- A node over normal forms of its children is lighter, unless it is the node itself. -/
lemma Rebuilt.lowers {items : List Expr} {r : Expr} (h : Rebuilt N e items r) (he : Component e)
    (hitems : List.Forall₂ (Settles N) e.children items) (hne : r ≠ e) : Lowers N e r := by
  have hchanged : items ≠ e.children := fun hsame => hne (h.same hsame)
  refine ⟨h.toLightens, h.weight_le_weigh.trans_lt ((he.weigh_lt hitems).resolve_left hchanged), ?_⟩
  by_contra hsymbol
  obtain ⟨name, hkind⟩ := exists_symbol (by simpa using hsymbol)
  have hleaf : e.children = [] := by rw [children, hkind, Kind.children]
  rw [hleaf] at hitems hchanged
  exact hchanged (List.forall₂_nil_left_iff.1 hitems)

lemma halts_settleNode {k : ℕ} (hvisit : Visits N d k visit) (hm : Memo.Settled (Settles N) (s, m))
    {reduce : Memoized Memo (Option Expr)} [Growing reduce] (he : Component e) (hknown : s.Knows e)
    (hk : e.weight N ≤ k)
    (hreduce : Halts (Memo.Settled (Settles N)) d (s, m) reduce fun next => ∀ e' ∈ next, Lowers N e e')
    {rebuilt : Expr} (hknown' : s.Knows rebuilt) (hrebuilt : rebuilt ≠ e → Lowers N e rebuilt) :
    Halts (Memo.Settled (Settles N)) d (s, m) (settleNode visit reduce e rebuilt) (Settles N e) := by
  -- Whatever is lighter is visited again.
  have hfurther {t : Store} {m : Memo} {next : Expr} (ht : Memo.Settled (Settles N) (t, m))
      (hnext : t.Knows next) (hlowers : Lowers N e next) :
      Halts (Memo.Settled (Settles N)) d (t, m) (visit next) (Settles N e) :=
    (hvisit ht hnext (hlowers.component he hlowers.symbol) (hlowers.weight_lt.trans_le hk)).imp
      fun _ h => .of_lowers hlowers h
  have := growing_next visit e
  unfold settleNode
  refine .ite (fun _ => ?_) fun hne => hfurther hm hknown' (hrebuilt fun h => hne (by simp [h]))
  refine hreduce.bind fun next p hp hle hnext hlowers => ?_
  obtain ⟨t, m'⟩ := p
  split
  · exact .ite (fun _ => .pure hp (hknown.mono hle) (.refl N e)) fun _ =>
      hfurther hp (Store.knows_some.1 hnext) (hlowers _ rfl)
  · exact .pure hp (hknown.mono hle) (.refl N e)

/-- Components that weigh less than the depth are normalized. -/
lemma visits_normalizeAux (hd : depth ≤ d) (settings : NormalSettings) :
    Visits settings.maxUnroll d depth (normalizeAux depth settings) := by
  induction depth with
  | zero => exact fun _ _ _ _ _ _ hweight => absurd hweight (Nat.not_lt_zero _)
  | succ depth ih =>
    intro s m e hm he hcomponent hweight
    have ih := ih (Nat.le_of_succ_le hd)
    have hchildren := hm.regular.children he
    have hle_d : e.weight settings.maxUnroll ≤ d := by omega
    unfold normalizeAux
    refine .memo ?_
    split
    · rename_i known hknown
      obtain ⟨hknown, hsettles⟩ := hm.get he hknown
      exact .pure hm hknown hsettles
    refine (Halts.mapM hm _ fun c hc p hp hle => ih hp ((hchildren c hc).mono hle)
      (hcomponent.children c hc) ?_).bind fun items p hp hle hitems hsettles => ?_
    · exact (hcomponent.weight_lt c hc).trans_le (Nat.le_of_lt_succ hweight)
    obtain ⟨t, m₁⟩ := p
    have he₁ := he.mono hle
    refine (Halts.lift hp (rebuildsUp_rebuild hp.regular he₁ hitems hcomponent
      (hsettles.imp fun _ _ h => h.toLightens) hle_d)).bind fun rebuilt q hq hle₁ hrebuilt hr => ?_
    obtain ⟨u, m₂⟩ := q
    have he₂ := he₁.mono hle₁
    refine (halts_settleNode ih hq hcomponent he₂ (Nat.le_of_lt_succ hweight)
      (halts_reduceNode hq he₂ hcomponent rfl hle_d) hrebuilt (hr.lowers hcomponent hsettles)).bind
        fun result r hr hle₂ hresult hsettled => ?_
    obtain ⟨v, m₃⟩ := r
    exact .modifyMemo (.pure ((hr.insert (he₂.mono hle₂) hresult hsettled).insert hresult hresult
      (.refl _ result)) hresult hsettled)

end Normalization

end Expr

/-- A normalizer that remembers normal forms only gives one, or fails, within any depth beyond the weight of
the expression, and remembers normal forms only afterwards, also if it failed. -/
lemma Normalizer.halts_normalize {s : Store} {n : Normalizer} {e : Expr} {d : ℕ}
    (hm : Memo.Settled (Expr.Settles n.settings.maxUnroll) (s, n.memo)) (hknown : s.Knows e)
    (he : e.IsArithmetic) (hd : e.weight n.settings.maxUnroll < d) :
    ∃ outcome memo t, n.normalize e d s = .ok (outcome, { n with memo := memo }) t ∧
      Memo.Settled (Expr.Settles n.settings.maxUnroll) (t, memo) ∧ t.Knows outcome ∧
        outcome ≠ .error .depthExceeded := by
  have hvisit := Expr.visits_normalizeAux le_rfl n.settings hm hknown (.arithmetic he) hd
  unfold normalize
  rw [Run.bind_apply_ok (Run.read_apply d s), Run.bind_apply, Build.withMemo]
  cases hr : Expr.normalizeAux d n.settings e d (s, n.memo) with
  | ok r p =>
    obtain ⟨hp, hknown, -⟩ := hvisit.of_ok hr
    exact ⟨.ok r, p.2, p.1, rfl, hp, fun _ h => Except.ok.inj h ▸ hknown, by simp⟩
  | error err p =>
    obtain ⟨hp, herr⟩ := hvisit.of_error hr
    exact ⟨.error err, p.2, p.1, rfl, hp, fun _ h => (by cases h), fun h => herr (Except.error.inj h)⟩

end TermGraph
