import TermGraph.Proofs.Termination.Normalization

/-!
# Sessions come to an end

Formulas are written down, built node by node, and normalized, one expression after the other in
one store and with one normalizer.

* `Formula`: the syntax, with its weight, which bounds the weight of the node that is built.
* `Formula.build`, `Formula.session`: building an expression, and building and normalizing several.
* `Formula.halts_build`: building comes to an end and gives arithmetic.
* `Formula.session_halts`: every session comes to an end, at every depth beyond the weights.
-/

namespace TermGraph

open Store (Knows)

/-- A formula: indices of summations and symbols are counted from the innermost
summation outwards. -/
inductive Formula where
  | place (i : ℕ)
  | literal (n : Number)
  | sum (terms : List Formula)
  | product (factors : List Formula)
  | power (base exponent : Formula)
  | call (f : Builtin) (argument : Formula)
  | indexedSum (lower upper body : Formula)

namespace Formula

/-! ## Building -/

mutual

/-- Builds the node, where `scope` holds the indices and symbols.  A place that nothing is at is zero. -/
def build (scope : List Expr) : Formula → Build Expr
  | place i =>
    match scope[i]? with
    | some e => pure e
    | none => Expr.zero
  | literal n => Expr.number n
  | sum terms => do Expr.sum (← buildAll scope terms)
  | product factors => do Expr.product (← buildAll scope factors)
  | power base exponent => do
    let b ← base.build scope
    let n ← exponent.build scope
    Expr.power b n
  | call f argument => do Expr.call (.builtin f) [← argument.build scope]
  | indexedSum lower upper body => do
    let l ← lower.build scope
    let u ← upper.build scope
    let i ← Expr.beginIndexedSum l u
    let b ← body.build (i :: scope)
    Expr.endIndexedSum l u i b

/-- Builds the nodes of a list. -/
def buildAll (scope : List Expr) : List Formula → Build (List Expr)
  | [] => pure []
  | a :: as => do
    let e ← a.build scope
    return e :: (← buildAll scope as)

end

/-- Builds and normalizes expressions one after the other with one normalizer, and gives the outcomes. -/
def normalizeAll (scope : List Expr) (n : Normalizer) : List Formula → Build (List (Except Error Expr))
  | [] => pure []
  | a :: as => do
    let e ← a.build scope
    let (outcome, n) ← n.normalize e
    return outcome :: (← normalizeAll scope n as)

/-- Makes symbols, integers and reals, and with them builds and normalizes expressions. -/
def session (settings : NormalSettings) (symbols : List (String × Bool)) (requests : List Formula) :
    Build (List (Except Error Expr)) := do
  let scope ← symbols.mapM fun (name, integral) =>
    Expr.symbol name (if integral then .integers else .reals)
  normalizeAll scope { settings := settings } requests

mutual

/-- The weight of the node that is built, or more, if summations are written out up to `N` terms. -/
def weight (N : ℕ) : Formula → ℕ
  | place _ => 3
  | literal _ => 1
  | sum terms => totalWeight N terms + 1
  | product factors => totalWeight N factors + 2 * factors.length + 1
  | power base exponent => base.weight N * (exponent.weight N + 1) + 1
  | call _ argument => argument.weight N + 2
  | indexedSum lower upper body => lower.weight N + upper.weight N + (N + 1) * body.weight N + 3

/-- The weight of the nodes of a list. -/
def totalWeight (N : ℕ) : List Formula → ℕ
  | [] => 0
  | a :: as => a.weight N + totalWeight N as

end

section Building

variable {N d : ℕ} {s : Store} {scope : List Expr} {f : Builtin} {e : Expr}

mutual

theorem growing_build (scope : List Expr) : ∀ a : Formula, Growing (a.build scope)
  | place i => by
    rw [build]
    split <;> infer_instance
  | literal n => by
    rw [build]
    infer_instance
  | sum terms | product terms => by
    have := growing_buildAll scope terms
    rw [build]
    infer_instance
  | power base exponent => by
    have := growing_build scope base
    have := growing_build scope exponent
    rw [build]
    infer_instance
  | call f argument => by
    have := growing_build scope argument
    rw [build]
    infer_instance
  | indexedSum lower upper body => by
    have := growing_build scope lower
    have := growing_build scope upper
    have := fun i => growing_build (i :: scope) body
    rw [build]
    infer_instance

theorem growing_buildAll (scope : List Expr) : ∀ as : List Formula, Growing (buildAll scope as)
  | [] => by
    rw [buildAll]
    infer_instance
  | a :: as => by
    have := growing_build scope a
    have := growing_buildAll scope as
    rw [buildAll]
    infer_instance

end

attribute [instance] growing_build growing_buildAll

/-- What indices and symbols are built with: known arithmetic that weighs no more than a symbol. -/
structure Scoped (N : ℕ) (s : Store) (scope : List Expr) : Prop where
  /-- They are known. -/
  known : s.Knows scope
  /-- They are arithmetic. -/
  arithmetic : ∀ e ∈ scope, e.IsArithmetic
  /-- They weigh no more than a symbol. -/
  weight_le : ∀ e ∈ scope, e.weight N ≤ 3

namespace Scoped

variable {t : Store}

lemma mono (h : Scoped N s scope) (hle : s ≤ t) : Scoped N t scope :=
  ⟨h.known.mono hle, h.arithmetic, h.weight_le⟩

/-- A symbol comes into scope. -/
lemma cons (h : Scoped N s scope) (hknown : s.Knows e) (hsymbol : e.isSymbol = true) (hreal : e.IsReal) :
    Scoped N s (e :: scope) :=
  ⟨Store.knows_cons.2 ⟨hknown, h.known⟩, List.forall_mem_cons.2 ⟨.symbol hsymbol hreal, h.arithmetic⟩,
    List.forall_mem_cons.2 ⟨(Expr.weight_symbol hsymbol).le, h.weight_le⟩⟩

end Scoped

/-- The sum of no terms is zero. -/
lemma halts_sum_nil (hs : s.Regular) : Halts Store.Regular d s (Expr.sum []) fun e =>
    e.IsArithmetic ∧ e.weight N = 1 := by
  have hrun : Expr.sum [] = Expr.int 0 := by
    simp [Expr.sum, Expr.sumWith, Expr.allTerms, Expr.literals, Expr.nonLiterals, Expr.combine,
      Expr.sumDomain, Build.ofExcept, Expr.gather, Expr.sortBy, Sorting.sort, Expr.scaledTerms,
      Expr.ofTerms, Option.filter, Expr.zero]
  rw [hrun]
  exact Expr.halts_literal hs _

/-- A built-in function called with one argument, which is refused by the power function. -/
lemma halts_call (hs : s.Regular) (hknown : s.Knows e) (he : e.IsArithmetic) (hd : 0 < d) :
    Halts Store.Regular d s (Expr.call (.builtin f) [e]) fun r =>
      r.IsArithmetic ∧ r.weight N = e.weight N + 2 := by
  obtain ⟨depth, rfl⟩ : ∃ n, d = n + 1 := ⟨d - 1, by omega⟩
  unfold Expr.call
  refine (Expr.halts_builtin hs f).bind fun t s₁ hs₁ hle hknownt ht => ?_
  rw [Expr.tuple, pure_bind]
  refine Halts.read ?_
  by_cases hf : f = .pow
  · subst hf
    have hthrow : Expr.applyAux (depth + 1) t e =
        throw (.arityMismatch (Function.builtin .pow).name 2 1) := by
      simp [Expr.applyAux, Expr.function?, ht, Expr.callWith, Expr.arguments_of_kind_ne he.kind_ne.2,
        Function.arity, Builtin.arity]
    rw [hthrow]
    exact .throw hs₁ (by simp)
  · rw [Expr.applyAux_call ht hf he.kind_ne.2]
    exact Expr.halts_rawCall hs₁ hknownt (hknown.mono hle) ht hf he

mutual

/-- A formula is built over a scope as arithmetic that is no heavier than the formula. -/
theorem halts_build : ∀ (a : Formula) {s : Store} {scope : List Expr}, s.Regular → Scoped N s scope →
    a.weight N ≤ d → Halts Store.Regular d s (a.build scope) fun e =>
      e.IsArithmetic ∧ e.weight N ≤ a.weight N
  | place i, s, scope, hs, hscope, _ => by
    rw [build]
    split
    · rename_i e he
      have hmem := List.mem_of_getElem? he
      exact .pure hs (hscope.known e hmem) ⟨hscope.arithmetic e hmem, hscope.weight_le e hmem⟩
    · -- Beyond the scope a place stands for zero.
      exact (Expr.halts_literal (N := N) hs (.int 0)).imp fun e he => ⟨he.1, by simp [he.2, weight]⟩
  | literal n, s, scope, hs, _, _ => by
    rw [build]
    exact (Expr.halts_literal (N := N) hs n).imp fun e he => ⟨he.1, he.2.le⟩
  | sum terms, s, scope, hs, hscope, hd => by
    rw [weight] at hd ⊢
    rw [build]
    refine (halts_buildAll terms hs hscope (by omega)).bind fun l t ht hle hknown hl => ?_
    -- The empty sum is a literal, which the bound for sums leaves out.
    by_cases hne : l = []
    · subst hne
      exact (halts_sum_nil (N := N) ht).imp fun e he => ⟨he.1, he.2.trans_le (Nat.le_add_left _ _)⟩
    · refine (Expr.addsUp_sum (N := N) ht hknown hne hl.1 (by omega)).imp fun e he =>
        ⟨he.arithmetic, ?_⟩
      have := he.weight_le_totalWeight
      omega
  | product factors, s, scope, hs, hscope, hd => by
    rw [weight] at hd ⊢
    rw [build]
    refine (halts_buildAll factors hs hscope (by omega)).bind fun l t ht hle hknown hl => ?_
    have hcost := Expr.totalCost_eq (N := N) l
    by_cases hne : l = []
    · subst hne
      exact (Expr.halts_literal (N := N) ht (.int 1)).imp fun e he =>
        ⟨he.1, he.2.trans_le (Nat.le_add_left _ _)⟩
    · refine (Expr.halts_product (N := N) ht hknown hne hl.1 (by omega)).imp fun e he => ⟨he.1, ?_⟩
      omega
  | power base exponent, s, scope, hs, hscope, hd => by
    rw [weight] at hd ⊢
    rw [build]
    have hbase : base.weight N ≤ base.weight N * (exponent.weight N + 1) :=
      Nat.le_mul_of_pos_right _ (Nat.succ_pos _)
    refine (halts_build base hs hscope (by omega)).bind fun b t ht hle hknownb hb => ?_
    refine (halts_build exponent ht (hscope.mono hle) ?_).bind fun n u hu hle' hknownn hn => ?_
    · have hpos : 0 < base.weight N := hb.1.weight_pos.trans_le hb.2
      have := Nat.le_mul_of_pos_left (exponent.weight N + 1) hpos
      omega
    · refine (Expr.halts_power (N := N) hu (hknownb.mono hle') hknownn hb.1 hn.1).imp fun e he =>
        ⟨he.1, he.2.trans (Nat.succ_le_succ ?_)⟩
      exact Nat.mul_le_mul hb.2 (Nat.succ_le_succ hn.2)
  | call f argument, s, scope, hs, hscope, hd => by
    rw [weight] at hd ⊢
    rw [build]
    refine (halts_build argument hs hscope (by omega)).bind fun e t ht hle hknown he => ?_
    refine (halts_call (N := N) ht hknown he.1 (by omega)).imp fun r hr => ⟨hr.1, ?_⟩
    rw [hr.2]
    exact Nat.add_le_add_right he.2 2
  | indexedSum lower upper body, s, scope, hs, hscope, hd => by
    rw [weight] at hd ⊢
    rw [build]
    -- The body counts once for each of the `N` terms that may be written out, and once for itself.
    have hbody : body.weight N ≤ (N + 1) * body.weight N := Nat.le_mul_of_pos_left _ N.succ_pos
    refine (halts_build lower hs hscope (by omega)).bind fun l s₁ hs₁ h₁ hknownl hl => ?_
    refine (halts_build upper hs₁ (hscope.mono h₁) (by omega)).bind fun u s₂ hs₂ h₂ hknownu hu => ?_
    refine (Expr.halts_beginIndexedSum hs₂ l u).bind fun i s₃ hs₃ h₃ hknowni hi => ?_
    have hle := h₁.trans (h₂.trans h₃)
    refine (halts_build body hs₃ ((hscope.mono hle).cons hknowni hi.1 (.inl hi.2)) (by omega)).bind
      fun b s₄ hs₄ h₄ hknownb hb => ?_
    refine (Expr.halts_endIndexedSumWith (N := N) Expr.putsIn_substitute hs₄ (hknowni.mono h₄)
      (hknownl.mono (h₂.trans (h₃.trans h₄))) (hknownu.mono (h₃.trans h₄)) hknownb hi.1 hi.2 hl.1 hu.1
      hb.1 (hb.2.trans (by omega))).imp fun e he => ⟨he.1, he.2.trans ?_⟩
    have := Nat.mul_le_mul_left (N + 1) hb.2
    have := hl.2
    have := hu.2
    omega

theorem halts_buildAll : ∀ (as : List Formula) {s : Store} {scope : List Expr}, s.Regular →
    Scoped N s scope → totalWeight N as ≤ d →
      Halts Store.Regular d s (buildAll scope as) fun l => (∀ e ∈ l, e.IsArithmetic) ∧
        Expr.totalWeight N l ≤ totalWeight N as ∧ l.length = as.length
  | [], s, scope, hs, _, _ => by
    rw [buildAll]
    exact .pure hs Store.knows_nil ⟨by simp, le_rfl, rfl⟩
  | a :: as, s, scope, hs, hscope, hd => by
    rw [totalWeight] at hd ⊢
    rw [buildAll]
    refine (halts_build a hs hscope (by omega)).bind fun e t ht hle hknown he => ?_
    refine (halts_buildAll as ht (hscope.mono hle) (by omega)).bind
      fun l u hu hle' hknown' hl => ?_
    refine .pure hu (Store.knows_cons.2 ⟨hknown.mono hle', hknown'⟩)
      ⟨List.forall_mem_cons.2 ⟨he.1, hl.1⟩, ?_, by simp [hl.2.2]⟩
    rw [Expr.totalWeight_cons]
    exact Nat.add_le_add he.2 hl.2.1

end

end Building

/-! ## Sessions -/

section Sessions

variable {d : ℕ} {s : Store} {scope : List Expr}

instance growing_normalizeAll (scope : List Expr) (n : Normalizer) (requests : List Formula) :
    Growing (normalizeAll scope n requests) := by
  induction requests generalizing n with
  | nil =>
    rw [normalizeAll]
    infer_instance
  | cons a requests ih =>
    rw [normalizeAll]
    infer_instance

/-- Expressions are built and normalized, whatever the normalizer has normalized before. -/
lemma halts_normalizeAll {n : Normalizer}
    (hm : Memo.Settled (Expr.Settles n.settings.maxUnroll) (s, n.memo))
    (hscope : Scoped n.settings.maxUnroll s scope) {requests : List Formula}
    (hd : ∀ a ∈ requests, a.weight n.settings.maxUnroll < d) :
    Halts Store.Regular d s (normalizeAll scope n requests) fun outcomes =>
      ∀ o ∈ outcomes, o ≠ .error .depthExceeded := by
  induction requests generalizing s n with
  | nil => exact .pure hm.regular Store.knows_nil (by simp)
  | cons a requests ih =>
    rw [List.forall_mem_cons] at hd
    rw [normalizeAll]
    refine (halts_build a hm.regular hscope hd.1.le).bind fun e t ht hle hknown he => ?_
    obtain ⟨outcome, memo, u, hrun, hmemo, hknowno, hne⟩ :=
      Normalizer.halts_normalize (hm.mono ht hle) hknown he.1 (he.2.trans_lt hd.1)
    have hle' := hle.trans (Growing.le_of_ok hrun)
    rw [Halts, Run.bind_apply_ok hrun]
    refine (ih (n := { n with memo := memo }) hmemo (hscope.mono hle') hd.2).bind
      fun outcomes v hv hle'' hknowns hnes => ?_
    exact .pure hv (Store.knows_cons.2 ⟨hknowno.mono hle'', hknowns⟩) (List.forall_mem_cons.2 ⟨hne, hnes⟩)

/-- **Normalization terminates.**  Whatever symbols are made and whatever expressions are built from them and
normalized one after the other, in a store where nothing has been built or any other regular one, and for
every limit up to which summations are written out: at every depth beyond the weights of the expressions,
normalization gives a normal form or fails for another reason than the depth. -/
theorem session_halts (hs : s.Regular) (settings : NormalSettings) (symbols : List (String × Bool))
    (requests : List Formula) (hd : ∀ a ∈ requests, a.weight settings.maxUnroll < d) :
    (∃ outcomes t, session settings symbols requests d s = .ok outcomes t ∧
      ∀ o ∈ outcomes, o ≠ .error .depthExceeded) ∨
    ∃ e t, session settings symbols requests d s = .error e t ∧ e ≠ .depthExceeded := by
  have hhalts : Halts Store.Regular d s (session settings symbols requests) fun outcomes =>
      ∀ o ∈ outcomes, o ≠ .error .depthExceeded := by
    unfold session
    refine (Halts.mapM hs symbols fun p _ t ht _ =>
      Expr.halts_symbol ht p.1 (if p.2 then .integers else .reals)).bind
        fun scope t ht _ hknown hscope => ?_
    have hsymbols : ∀ e ∈ scope, e.isSymbol = true ∧ e.IsReal := fun e he => by
      obtain ⟨p, -, hsymbol, hdomain⟩ := Expr.exists_of_forall₂ hscope e he
      refine ⟨hsymbol, ?_⟩
      rw [Expr.IsReal, hdomain]
      cases p.2 <;> simp
    exact halts_normalizeAll (n := { settings := settings }) (.empty ht) ⟨hknown,
      fun e he => .symbol (hsymbols e he).1 (hsymbols e he).2,
      fun e he => (Expr.weight_symbol (hsymbols e he).1).le⟩ hd
  cases hrun : session settings symbols requests d s with
  | ok outcomes t => exact .inl ⟨outcomes, t, rfl, (hhalts.of_ok hrun).2.2⟩
  | error e t => exact .inr ⟨e, t, rfl, (hhalts.of_error hrun).2⟩

/-- A power of a power, whose exponents are multiplied, and the sum of the first two powers of a symbol,
which is written out. -/
theorem session_halts_powers :
    let settings : NormalSettings := { maxUnroll := 2 }
    let symbols := [("x", false), ("n", true)]
    let requests : List Formula := [.power (.power (.place 0) (.place 1)) (.place 1),
      .indexedSum (.literal (.int 1)) (.literal (.int 2)) (.power (.place 1) (.place 0))]
    (∀ a ∈ requests, a.weight settings.maxUnroll < 54) ∧
      ∃ outcomes t, session settings symbols requests 54 Store.initial = .ok outcomes t ∧
        ∀ o ∈ outcomes, o ≠ .error .depthExceeded := by
  intro settings symbols requests
  have hweight : ∀ a ∈ requests, a.weight settings.maxUnroll < 54 := by decide
  have hchecked : (match session settings symbols requests 54 Store.initial with
      | .ok _ _ => true
      | .error _ _ => false) = true := by
    decide +kernel
  clear_value settings symbols requests
  refine ⟨hweight, ?_⟩
  rcases session_halts Store.blank_initial.regular settings symbols requests hweight with h | ⟨e, t, hrun, -⟩
  · exact h
  · rw [hrun] at hchecked
    cases hchecked

end Sessions

end Formula

end TermGraph
