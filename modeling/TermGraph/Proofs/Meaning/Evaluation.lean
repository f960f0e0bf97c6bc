import TermGraph.Proofs.Meaning.NormalForms
import TermGraph.Proofs.Program.Calls
import TermGraph.Proofs.Program.Diagnostics

/-!
# The value of evaluated expressions

With integers for its symbols, plain evaluation of a scalar gives the value of the scalar in the
integers, as long as its operations keep to the integers.  A compiled function does what plain
evaluation does, and normalization preserves the value, so that both ways to evaluate lead to the same
integer.

* `Bindings.Fits`: symbols are bound to their values.
* `Expr.exact_evaluate`: plain evaluation gives the value.
* `Expr.value_compile`: compiled functions and normal forms have the value.
-/

namespace TermGraph

open Store (Knows faithfulStores)

variable {F : Builtin → Prop} {ev : Evaluator} {d : ℕ} {b : Bindings} {s : Store}

/-! ## Growth -/

namespace Arithmetic

variable (ev)

instance growing_add (v w : Value) : Growing ((concrete ev).add v w) := ev.growing_add v w

instance growing_apply (v w : Value) : Growing ((concrete ev).apply v w) :=
  ev.growing_apply v w

instance growing_bound (v : Value) : Growing ((concrete ev).bound v) := by
  unfold bound
  split
  · infer_instance
  · exact growing_throw _

instance growing_sumOver (vs : List Value) (body : Value → Build Value) [∀ v, Growing (body v)] :
    Growing ((concrete ev).sumOver vs body) := by
  unfold sumOver
  infer_instance

instance growing_range (lower upper : Value) (body : Value → Build Value) [∀ v, Growing (body v)] :
    Growing ((concrete ev).range lower upper body) := by
  unfold range
  infer_instance

end Arithmetic

namespace Expr

open Arithmetic (concrete)

variable {e : Expr} {l : List Expr}

lemma growing_evaluateOnto (op : Value → Value → Build Value) [∀ v w, Growing (op v w)]
    (h : ∀ c ∈ l, Growing (c.evaluate (concrete ev) b)) (acc : Value) :
    Growing (evaluateOnto (concrete ev) op b acc l) := by
  induction l generalizing acc with
  | nil =>
    rw [evaluateOnto]
    infer_instance
  | cons c l ih =>
    rw [List.forall_mem_cons] at h
    have := h.1
    have := ih h.2
    rw [evaluateOnto]
    infer_instance

lemma growing_evaluateFold {op : Value → Value → Build Value} [∀ v w, Growing (op v w)]
    (h : ∀ c ∈ l, Growing (c.evaluate (concrete ev) b)) :
    Growing (evaluateFold (concrete ev) op b l) := by
  cases l with
  | nil =>
    rw [evaluateFold]
    infer_instance
  | cons c l =>
    rw [List.forall_mem_cons] at h
    have := h.1
    have := growing_evaluateOnto op h.2
    rw [evaluateFold]
    infer_instance

section Equations

variable {ops : Arithmetic Build} {t a lower upper body index : Expr}

lemma evaluate_symbol {name : String} (h : e.kind = .symbol name) {v : Value}
    (hv : b.lookup e.ordinal = some v) : e.evaluate ops b = pure v := by
  obtain ⟨ordinal, domain, kind⟩ := e
  simp only [Expr.kind] at h
  subst h
  rw [evaluate, show b.lookup ordinal = some v from hv]

lemma evaluate_number {n : Number} (h : e.kind = .number n) :
    e.evaluate ops b = pure (.number n) := by
  obtain ⟨ordinal, domain, kind⟩ := e
  simp only [Expr.kind] at h
  subst h
  rw [evaluate]

lemma evaluate_sum (h : e.kind = .sum l) : e.evaluate ops b = evaluateFold ops ops.add b l := by
  obtain ⟨ordinal, domain, kind⟩ := e
  simp only [Expr.kind] at h
  subst h
  rw [evaluate]

lemma evaluate_apply (h : e.kind = .apply t a) : e.evaluate ops b = (do
    let v ← t.evaluate ops b
    let w ← a.evaluate ops b
    ops.apply v w) := by
  obtain ⟨ordinal, domain, kind⟩ := e
  simp only [Expr.kind] at h
  subst h
  rw [evaluate]

lemma evaluate_power {p n : Expr} (h : e.power? = some (p, n)) : e.evaluate ops b = (do
    let v ← p.evaluate ops b
    let w ← n.evaluate ops b
    ops.apply (.function (.builtin .pow)) (.tuple [v, w])) := by
  obtain ⟨t, a, hkind, ht, ha⟩ := power?_eq_some.1 h
  rw [evaluate_apply hkind]
  obtain ⟨ordinal, domain, kind⟩ := t
  obtain ⟨ordinal', domain', kind'⟩ := a
  simp only [Expr.kind] at ht ha
  subst ht ha
  simp only [evaluate, evaluateAll, pure_bind, bind_assoc]

lemma evaluate_indexedSum (h : e.kind = .indexedSum index lower upper body) : e.evaluate ops b = (do
    let first ← lower.evaluate ops b
    let last ← upper.evaluate ops b
    ops.range first last fun v => body.evaluate ops ((index.ordinal, v) :: b)) := by
  obtain ⟨ordinal, domain, kind⟩ := e
  simp only [Expr.kind] at h
  subst h
  rw [evaluate]

end Equations

/-- Plain evaluation of a scalar only adds to the store. -/
lemma growing_evaluate (ev : Evaluator) (he : e.IsScalar F) (b : Bindings) :
    Growing (e.evaluate (concrete ev) b) := by
  induction he generalizing b with
  | @symbol e name hkind _ =>
    obtain ⟨ordinal, domain, kind⟩ := e
    simp only [Expr.kind] at hkind
    subst hkind
    rw [evaluate]
    split
    · infer_instance
    · exact growing_throw _
  | literal hliteral =>
    obtain ⟨n, hkind, -⟩ := hliteral.kind
    rw [evaluate_number hkind]
    infer_instance
  | sum hkind _ _ ih =>
    rw [evaluate_sum hkind]
    exact growing_evaluateFold fun c hc => ih c hc b
  | product hkind _ _ _ iht iha =>
    have := iht b
    have := iha b
    rw [evaluate_apply hkind]
    infer_instance
  | power hpower _ _ _ hn ihb =>
    obtain ⟨n, hkind, -⟩ := hn.kind
    have := ihb b
    rw [evaluate_power hpower, evaluate_number hkind]
    infer_instance
  | @call e t a f hkind _ ht _ _ _ iha =>
    have := iha b
    obtain ⟨ordinal, domain, kind⟩ := t
    simp only [Expr.kind] at ht
    subst ht
    rw [evaluate_apply hkind, evaluate]
    infer_instance
  | @indexedSum e index lower upper body hkind _ _ _ _ _ ihl ihu ihb =>
    have := ihl b
    have := ihu b
    have := fun v => ihb ((index.ordinal, v) :: b)
    rw [evaluate_indexedSum hkind]
    infer_instance

end Expr

/-! ## Exact operations -/

namespace Arithmetic

variable {v w : Value} {body : Value → Build Value} [∀ v, Growing (body v)]

lemma exact_sumOver {vs : List Value} {ks : List ℤ}
    (h : List.Forall₂ (fun v k => ∀ t, Exact d t (body v) fun w _ => w.IsInt k) vs ks) (s : Store) :
    Exact d s ((concrete ev).sumOver vs body) fun w _ => w.IsInt ks.sum := by
  suffices h : ∀ {v : Value} {j : ℤ} {s : Store}, v.IsInt j → Exact d s
      (vs.foldlM (fun sum v => do (concrete ev).add sum (← body v)) v)
      fun w _ => w.IsInt (j + ks.sum) by
    simpa [sumOver, Number.zero] using h (s := s) (Value.isInt_number (Number.isInt_int 0))
  induction h with
  | nil =>
    intro v j s hv
    simpa using Exact.pure (s := s) hv
  | @cons v k vs ks hbody _ ih =>
    intro acc j s hacc
    rw [List.foldlM_cons, List.sum_cons, ← add_assoc]
    exact ((hbody s).bind fun w t _ _ hw => Evaluator.exact_add hacc hw).bind
      fun sum t _ _ hsum => ih hsum

lemma exact_range {lo hi : ℤ} (hv : v.IsInt lo) (hw : w.IsInt hi) {f : ℤ → ℤ}
    (h : ∀ u k, Value.IsInt k u → ∀ t, Exact d t (body u) fun w _ => w.IsInt (f k)) (s : Store) :
    Exact d s ((concrete ev).range v w body) fun u _ => u.IsInt (∑ k ∈ Finset.Icc lo hi, f k) := by
  obtain ⟨_, rfl, m, rfl, rfl⟩ := hv
  obtain ⟨_, rfl, n, rfl, rfl⟩ := hw
  have hrun : (concrete ev).range (.number (.int m)) (.number (.int n)) body =
      (concrete ev).sumOver (rangeValues m.toInt n.toInt) body := rfl
  rw [hrun, ← Expr.sum_range_eq_sum_Icc]
  refine exact_sumOver ?_ s
  rw [rangeValues, List.forall₂_map_left_iff, List.forall₂_map_right_iff, List.forall₂_same]
  intro j hj
  have hm := m.le_toInt
  have hn := n.toInt_lt
  rw [List.mem_range] at hj
  exact h _ _ ⟨_, rfl, _, rfl, Int64.toInt_ofInt_of_le (by omega) (by omega)⟩

end Arithmetic

/-- A value that is alike to an integer is that integer. -/
lemma Value.Alike.isInt {F : Function → Prop} {v w : Value} {k : ℤ} (h : Alike F v w)
    (hw : w.IsInt k) : v.IsInt k := by
  obtain ⟨n, rfl, hn⟩ := hw
  rcases h.cases with ⟨heq, -⟩ | ⟨_, _, _, -, heq⟩ | ⟨_, _, -, heq, -⟩
  · exact ⟨n, heq, hn⟩
  · cases heq
  · cases heq

/-! ## Evaluation of scalars -/

/-- The symbols that are free in `e` are bound to their values. -/
def Bindings.Fits (b : Bindings) (ρ : Valuation ℤ) (e : Expr) : Prop :=
  ∀ i, e.Free i → ∃ v, b.lookup i = some v ∧ v.IsInt (ρ i)

namespace Bindings.Fits

variable {ρ : Valuation ℤ} {e c : Expr}

lemma operand (h : Bindings.Fits b ρ e) (hc : c ∈ e.operands) : Bindings.Fits b ρ c :=
  fun i hi => h i (.operand hc hi)

lemma mem {l : List ℕ} {args : List Value} (h : Bindings.Fits (l.zip args) ρ e) {i : ℕ}
    (hi : e.Free i) : i ∈ l := by
  obtain ⟨v, hv, -⟩ := h i hi
  obtain ⟨l₁, l₂, hsplit, -⟩ := List.lookup_eq_some_iff.1 hv
  have hmem : (i, v) ∈ l.zip args := by simp [hsplit]
  exact (List.of_mem_zip hmem).1

/-- In the body of a summation, the index is bound too. -/
lemma body (h : Bindings.Fits b ρ e) {index lower upper body : Expr}
    (hkind : e.kind = .indexedSum index lower upper body) {v : Value} {k : ℤ} (hv : v.IsInt k) :
    Bindings.Fits ((index.ordinal, v) :: b) (Function.update ρ index.ordinal k) body := by
  intro i hi
  by_cases heq : i = index.ordinal
  · subst heq
    exact ⟨v, by simp, by simpa using hv⟩
  · obtain ⟨w, hw, hint⟩ := h i (.body (by simp [Expr.body?, hkind])
      (by simpa [Expr.binders, hkind] using Ne.symm heq) hi)
    refine ⟨w, ?_, by simpa [heq] using hint⟩
    rw [List.lookup_cons, beq_false_of_ne heq]
    exact hw

end Bindings.Fits

namespace Expr

open Arithmetic (concrete)

variable {e : Expr} {ρ : Valuation ℤ} {g : Builtin → ℤ → ℤ}

lemma exact_evaluateOnto {l : List Expr} {f : Expr → ℤ}
    (hl : ∀ c ∈ l, Growing (c.evaluate (concrete ev) b))
    (h : ∀ c ∈ l, ∀ t, Exact d t (c.evaluate (concrete ev) b) fun v _ => v.IsInt (f c))
    {acc : Value} {j : ℤ} (hacc : acc.IsInt j) (s : Store) :
    Exact d s (evaluateOnto (concrete ev) (concrete ev).add b acc l)
      fun v _ => v.IsInt (j + (l.map f).sum) := by
  induction l generalizing acc j s with
  | nil =>
    rw [evaluateOnto]
    simpa using Exact.pure (s := s) hacc
  | cons c l ih =>
    rw [List.forall_mem_cons] at hl h
    have := growing_evaluateOnto (concrete ev).add hl.2
    rw [evaluateOnto, List.map_cons, List.sum_cons, ← add_assoc]
    refine (h.1 s).bind fun v t _ _ hv => ?_
    exact (Evaluator.exact_add hacc hv).bind fun sum u _ _ hsum => ih hl.2 h.2 hsum u

/-- **Plain evaluation computes the value.**  If the free symbols of a scalar are bound to integers,
and every operation keeps to the integers, then plain evaluation succeeds with the value of the scalar
in the integers. -/
theorem exact_evaluate (he : e.IsScalar fun _ => False) (hb : Bindings.Fits b ρ e) (s : Store) :
    Exact d s (e.evaluate (concrete ev) b) fun v _ => v.IsInt (e.value (.integers g) ρ) := by
  induction he generalizing b ρ s with
  | @symbol e name hkind _ =>
    obtain ⟨v, hv, hint⟩ := hb e.ordinal (.self (by simp [isSymbol, hkind]) rfl)
    rw [evaluate_symbol hkind hv, value_symbol hkind]
    exact .pure hint
  | literal hliteral =>
    obtain ⟨n, hkind, hn⟩ := hliteral.kind
    rw [evaluate_number hkind, value_literal hliteral]
    exact .pure ⟨.int n, rfl, n, rfl, hn⟩
  | @sum e terms hkind _ hterms ih =>
    have hoperand {c : Expr} (hc : c ∈ terms) : c ∈ e.operands := by simpa [operands, hkind] using hc
    rw [evaluate_sum hkind, value_sum hkind]
    cases terms with
    | nil =>
      rw [evaluateFold]
      exact .pure (Value.isInt_number (Number.isInt_int 0))
    | cons c l =>
      -- A sum starts with its first term, and the others are added to it one by one.
      have hgrowing : ∀ a ∈ l, Growing (a.evaluate (concrete ev) b) := fun a ha =>
        growing_evaluate ev (hterms a (by simp [ha])) b
      have := growing_evaluateOnto (concrete ev).add hgrowing
      rw [evaluateFold, List.map_cons, List.sum_cons]
      refine (ih c (by simp) (hb.operand (hoperand (by simp))) s).bind fun v t _ _ hv => ?_
      exact exact_evaluateOnto hgrowing (fun a ha u =>
        ih a (by simp [ha]) (hb.operand (hoperand (by simp [ha]))) u) hv t
  | @product e t a hkind _ ht ha iht iha =>
    have := growing_evaluate ev ha b
    rw [evaluate_apply hkind, value_product hkind ht.function?]
    refine (iht (hb.operand (by simp [operands, hkind])) s).bind fun v u _ _ hv => ?_
    refine (iha (hb.operand (by simp [operands, hkind])) u).bind fun w u' _ _ hw => ?_
    exact Evaluator.exact_applyWith_number hv hw
  | @power e p n k hpower _ hp _ hn ihp =>
    obtain ⟨t, a, hkind, -, ha⟩ := power?_eq_some.1 hpower
    obtain ⟨m, hm, hk⟩ := hn.kind
    have hbase : Bindings.Fits b ρ p :=
      (hb.operand (c := a) (by simp [operands, hkind])).operand (by simp [operands, ha])
    rw [evaluate_power hpower, evaluate_number hm, value_power hpower hn]
    refine (ihp hbase s).bind fun v u _ _ hv => ?_
    have hpow : Exact d u ((concrete ev).apply (.function (.builtin .pow))
        (.tuple [v, .number (.int m)])) fun w _ => w.IsInt (value (.integers g) ρ p ^ (k : ℤ).toNat) :=
      Evaluator.exact_applyWith_pow ev (normalizeWith { toEvaluator := ev }) hv
        (Value.isInt_number ⟨m, rfl, hk⟩)
    -- The exponent is a literal that is not negative.
    rwa [Int.toNat_natCast] at hpow
  | call _ _ _ _ hf _ _ => exact hf.elim
  | @indexedSum e index lower upper body hkind _ _ hl hu hbody ihl ihu ihb =>
    have := growing_evaluate ev hu b
    have hgrowing (v : Value) : Growing (body.evaluate (concrete ev) ((index.ordinal, v) :: b)) :=
      growing_evaluate ev hbody _
    rw [evaluate_indexedSum hkind, value_indexedSum hkind]
    refine (ihl (hb.operand (by simp [operands, hkind])) s).bind fun first t _ _ hfirst => ?_
    refine (ihu (hb.operand (by simp [operands, hkind])) t).bind fun last u _ _ hlast => ?_
    exact Arithmetic.exact_range hfirst hlast (fun v k hv t => ihb (hb.body hkind hv) t) u

/-! ## Compiled functions and normal forms -/

/-- The function of powers is the only one in scalars without calls. -/
lemma IsScalar.mentions (he : e.IsScalar fun _ => False) : e.Mentions fun f => f = .builtin .pow := by
  induction he with
  | symbol hkind _ =>
    exact mentions_iff.2 ⟨by simp [hkind, Kind.Holds], by simp [children, hkind, Kind.children]⟩
  | literal hliteral =>
    obtain ⟨n, hkind, -⟩ := hliteral.kind
    exact mentions_iff.2 ⟨by simp [hkind, Kind.Holds], by simp [children, hkind, Kind.children]⟩
  | sum hkind _ _ ih =>
    exact mentions_iff.2 ⟨by simp [hkind, Kind.Holds], by simpa [children, hkind, Kind.children] using ih⟩
  | product hkind _ _ _ iht iha =>
    exact mentions_iff.2 ⟨by simp [hkind, Kind.Holds],
      by simpa [children, hkind, Kind.children] using ⟨iht, iha⟩⟩
  | @power e p n k hpower _ _ _ hn ihp =>
    obtain ⟨t, a, hkind, ht, ha⟩ := power?_eq_some.1 hpower
    obtain ⟨m, hm, -⟩ := hn.kind
    have hn : n.Mentions fun f => f = .builtin .pow :=
      mentions_iff.2 ⟨by simp [hm, Kind.Holds], by simp [children, hm, Kind.children]⟩
    have ht : t.Mentions fun f => f = .builtin .pow :=
      mentions_iff.2 ⟨by simp [ht, Kind.Holds], by simp [children, ht, Kind.children]⟩
    have ha : a.Mentions fun f => f = .builtin .pow :=
      mentions_iff.2 ⟨by simp [ha, Kind.Holds], by simpa [children, ha, Kind.children] using ⟨ihp, hn⟩⟩
    exact mentions_iff.2 ⟨by simp [hkind, Kind.Holds],
      by simpa [children, hkind, Kind.children] using ⟨ht, ha⟩⟩
  | call _ _ _ _ hf _ _ => exact hf.elim
  | @indexedSum e index lower upper body hkind _ hindex _ _ _ ihl ihu ihb =>
    obtain ⟨name, hsymbol⟩ := exists_symbol hindex
    have hindex : index.Mentions fun f => f = .builtin .pow :=
      mentions_iff.2 ⟨by simp [hsymbol, Kind.Holds], by simp [children, hsymbol, Kind.children]⟩
    exact mentions_iff.2 ⟨by simp [hkind, Kind.Holds],
      by simpa [children, hkind, Kind.children] using ⟨hindex, ihl, ihu, ihb⟩⟩

/-- A compiled expression agrees with its plain evaluation, where members are declared ones and
matrices are dense. -/
lemma agrees_compile {F : Function → Prop} (hs : s.WellFormed)
    (hF : Arithmetic.Faithful {} d s F) {params : List Expr}
    (hjob : Job.Lowerable s F { value := e, params := params }) {f : CompiledFunction}
    (hf : e.compile params = .ok f) :
    f.evaluator = {} ∧ f.Agrees F d s { value := e, params := params } := by
  have hjobs : ∀ job ∈ [({ value := e, params := params } : Job)], job.Lowerable s F := by
    simpa using hjob
  obtain ⟨hrealizes, hdata⟩ := Job.realizes_unit (.observed {} d s) hs hjobs
  unfold compile at hf
  dsimp only at hf
  cases hvalid : Job.validate { value := e, params := params } with
  | error err =>
    rw [hvalid] at hf
    cases hf
  | ok _ =>
    cases hcompiled : Toolchain.compile {} (Job.unit [{ value := e, params := params }]) with
    | error err =>
      rw [hvalid, hcompiled] at hf
      cases hf
    | ok functions =>
      have hlinked := Toolchain.forall₂_compile rfl hcompiled
      rw [hvalid, hcompiled] at hf
      generalize hsources : (Job.unit [{ value := e, params := params }]).functions = sources
        at hrealizes hlinked
      cases hrealizes with
      | cons hrealized hnil =>
        cases hnil
        cases hlinked with
        | cons hlink hrest =>
          cases hrest
          obtain ⟨p, hp, rfl⟩ := hlink
          cases hf
          exact ⟨rfl, hrealized.agrees hF hjob hdata hp⟩

/-- An expression compiles over the symbols that are free in it, within the register limit. -/
lemma exists_compile (hs : s.WellFormed) (he : s.Knows e) {params : List Expr}
    (hsymbols : ∀ p ∈ params, p.isSymbol = true) (hnodup : (params.map ordinal).Nodup)
    (hregisters : e.FitsRegisters params) (hfree : ∀ i, e.Free i → i ∈ params.map ordinal) :
    ∃ f, e.compile params = .ok f := by
  have hbound (name : String) : name ∉ (e.toJob params).aloneUnit.1.unbounds := by
    rw [mem_unbounds_toJob hs he]
    rintro ⟨x, hx, -, hnone⟩
    exact (referent?_eq_none_iff.1 hnone).1 (hfree _ (free_iff_occursFree.2 ⟨x, hx, rfl⟩))
  rcases (renders_toJob hs he params).compile hregisters with ⟨⟨p, hp⟩, -⟩ | ⟨ds, -, hne, hproblems⟩
  · exact (compile_eq ⟨hsymbols, hnodup⟩).1 p hp
  · obtain ⟨diagnostic, hd⟩ := List.exists_mem_of_ne_nil ds hne
    obtain ⟨name, hname, -⟩ := (hproblems diagnostic.problem).1 ⟨diagnostic, hd, rfl⟩
    exact absurd hname (hbound name)

/-- Where plain evaluation gives an integer, a function that agrees with it gives that integer. -/
lemma exists_call_of_agrees {F : Function → Prop} {params : List Expr} {f : CompiledFunction}
    (hagrees : f.Agrees F d s { value := e, params := params }) (hs : s.WellFormed)
    {args : List Value} (hargs : ∀ v ∈ args, ∃ k, v.IsInt k) (hlength : args.length = f.params.length)
    (htypes : CompiledFunction.checkTypes 0 f.params args = .ok ()) {v : Value} {t : Store} {k : ℤ}
    (hrun : e.evaluate (concrete f.evaluator) ((params.map ordinal).zip args) d s = .ok v t)
    (hv : v.IsInt k) : ∃ r u, f.call args d s = .ok r u ∧ r.value.IsInt k := by
  have hwithin : ∀ w ∈ args, w.Within F := by
    intro w hw f' hf'
    obtain ⟨_, n, rfl, -⟩ := hargs w hw
    cases hf'
  have hsimilar := hagrees.call args hlength htypes hwithin s le_rfl hs
  have hjob : Job.evaluate (concrete f.evaluator) { value := e, params := params } args d s =
      .ok ⟨v, [], []⟩ t := by
    unfold Job.evaluate
    exact (Run.bind_apply_ok hrun).trans rfl
  rw [hjob] at hsimilar
  cases hcall : f.call args d s with
  | error err u =>
    rw [hcall] at hsimilar
    exact hsimilar.elim
  | ok r u =>
    rw [hcall] at hsimilar
    exact ⟨r, u, rfl, hsimilar.value.isInt hv⟩

/-- Puts expressions for symbols, one after the other. -/
def substituteEach (pairs : List (Expr × Expr)) (e : Expr) : Build Expr :=
  pairs.foldlM (fun e p => substitute [p] e) e

instance growing_substituteEach (pairs : List (Expr × Expr)) (e : Expr) :
    Growing (substituteEach pairs e) := by
  unfold substituteEach
  infer_instance

/-- The normal form of a scalar with their values for symbols has its value. -/
lemma ensures_normalizeWith_substituteEach (hd : 0 < d) (hs : Good s) (he : s.Knows e)
    (hscalar : e.IsScalar fun _ => False) (settings : NormalSettings) {pairs : List (Expr × Expr)}
    (hpairs : ∀ p ∈ pairs, s.Knows p ∧ p.1.isSymbol = true ∧ IsLiteral (ρ p.1.ordinal) p.2) :
    Ensures faithfulStores d s (substituteEach pairs e >>= normalizeWith settings) fun r _ =>
      r.IsScalar (fun _ => False) ∧ r.value (.integers g) ρ = e.value (.integers g) ρ := by
  unfold substituteEach
  induction pairs generalizing e s with
  | nil =>
    rw [List.foldlM_nil, pure_bind]
    unfold normalizeWith
    refine .read (.forgetting ?_)
    have hsimplifies := simplifies_normalizeAux (I := .integers g) (fun _ => id) hd d settings
      (good_pair.2 ⟨good_store.1 hs, knows_empty⟩) he (.scalar hscalar) .empty
    exact hsimplifies.ensures.imp fun r _ _ _ h =>
      ⟨(h.2.scalar hscalar).1, congrFun (h.2.scalar hscalar).2 ρ⟩
  | cons p pairs ih =>
    rw [List.forall_mem_cons] at hpairs
    obtain ⟨⟨hknown, hsymbol, hliteral⟩, hrest⟩ := hpairs
    rw [Store.knows_pair] at hknown
    rw [List.foldlM_cons, bind_assoc]
    have hsub := substitutesSymbol_substitute (I := .integers g) hd hs hknown.1 hknown.2 he hsymbol
      (.literal hliteral) hscalar (.of_literal hliteral)
    have hpair : s.Knows [p] := by simpa using Store.knows_pair.2 hknown
    refine (Delivers.mk (yields_substitute s [p] e hs hpair he d) hsub).bind
      fun e' t ht hle he' _ hvalue => ?_
    refine (ih ht he' hvalue.scalar fun q hq =>
      ⟨(hrest q hq).1.mono hle, (hrest q hq).2⟩).imp fun r _ _ _ h => ⟨h.1, h.2.trans ?_⟩
    -- The value that is put in is the one that the symbol has.
    refine (congrFun hvalue.value_eq ρ).trans ?_
    rw [replaced, value_literal hliteral, Int.cast_id, Function.update_eq_self]

/-- **Two ways to evaluate.**  Let the free symbols of a scalar have integers for their values.  If
plain evaluation keeps to the integers, then the scalar compiles over these symbols, and the compiled
function succeeds with the value of the scalar in the integers.  If integers are put for the symbols,
and nothing happens that results could be wrong by, then a literal that is the normal form is that
integer as well. -/
theorem value_compile (hs : s.WellFormed) (hd : 0 < d) (he : s.Knows e)
    (hscalar : e.IsScalar fun _ => False) {params : List Expr}
    (hsymbols : ∀ p ∈ params, p.isSymbol = true) (hnodup : (params.map ordinal).Nodup)
    (honce : e.BindsOnce (params.map ordinal)) (hregisters : e.FitsRegisters params)
    {args : List Value} (hargs : ∀ v ∈ args, ∃ k, v.IsInt k)
    (hfits : Bindings.Fits ((params.map ordinal).zip args) ρ e)
    (hexact : (finalState (e.evaluate (concrete {}) ((params.map ordinal).zip args) d s)).exact =
      true) :
    (∃ f, e.compile params = .ok f ∧ (args.length = f.params.length →
        CompiledFunction.checkTypes 0 f.params args = .ok () →
        ∃ r t, f.call args d s = .ok r t ∧ r.value.IsInt (e.value (.integers g) ρ))) ∧
      ∀ (pairs : List (Expr × Expr)) (settings : NormalSettings) (r : Expr) (t : Store) (n : Number),
        (∀ p ∈ pairs, s.Knows p ∧ p.1.isSymbol = true ∧ IsLiteral (ρ p.1.ordinal) p.2) →
        (substituteEach pairs e >>= normalizeWith settings) d s = .ok r t → t.Faithful →
        r.number? = some n → n.IsInt (e.value (.integers g) ρ) := by
  constructor
  · have hF : Arithmetic.Faithful {} d s fun f => f = .builtin .pow :=
      ⟨by rintro _ rfl; simp, by rintro _ rfl; exact Function.repeatable_of_not_hasBody _ _ _ rfl⟩
    have hjob : Job.Lowerable s (fun f => f = .builtin .pow) { value := e, params := params } :=
      ⟨by simpa [Job.roots] using he, by simpa [Job.roots] using honce,
        by simpa [Job.roots] using hscalar.mentions⟩
    obtain ⟨f, hf⟩ := exists_compile hs he hsymbols hnodup hregisters fun _ => hfits.mem
    refine ⟨f, hf, fun hlength htypes => ?_⟩
    obtain ⟨hevaluator, hagrees⟩ := agrees_compile hs hF hjob hf
    obtain ⟨v, t, hrun, -, hvalue⟩ :=
      (exact_evaluate (g := g) hscalar hfits s).exists_ok hexact
    rw [← hevaluator] at hrun
    exact exists_call_of_agrees hagrees hs hargs hlength htypes hrun hvalue
  · intro pairs settings r t n hpairs hrun ht hn
    obtain ⟨hrscalar, hvalue⟩ := ensures_normalizeWith_substituteEach (g := g) hd (good_store.2 hs)
      he hscalar settings hpairs r t hrun ht
    have hliteral := hrscalar.number (by simp [hn])
    obtain ⟨m, hm, hint⟩ := hliteral.number
    rw [hn] at hm
    cases hm
    rwa [← hvalue, value_literal hliteral, Int.cast_id]

/-- The sum of `k * x` for `k` from one to `n`, for two as the value of `x` and three as that of `n`. -/
theorem value_compile_range :
    let x : Expr := .node 50 .integers (.symbol "x")
    let n : Expr := .node 51 .integers (.symbol "n")
    let k : Expr := .node 2 .integers (.symbol "_1")
    let one : Expr := .node 52 .integers (.number (.int 1))
    let two : Expr := .node 53 .integers (.number (.int 2))
    let three : Expr := .node 54 .integers (.number (.int 3))
    let b : Expr := .node 55 .integers (.apply k x)
    let e : Expr := .node 56 .integers (.indexedSum k one n b)
    let s₁ := (Store.initial.intern .integers (.symbol "x")).2
    let s₂ := (s₁.intern .integers (.symbol "n")).2
    let s₃ := (s₂.intern .integers (.number (.int 1))).2
    let s₄ := (s₃.intern .integers (.number (.int 2))).2
    let s₅ := (s₄.intern .integers (.number (.int 3))).2
    let s₆ := (s₅.intern .integers (.apply k x)).2
    let s := (s₆.intern .integers (.indexedSum k one n b)).2
    ∃ f r t r' t' m, e.compile [x, n] = .ok f ∧
      f.call [.number (.int 2), .number (.int 3)] 20 s = .ok r t ∧ r.value.IsInt 12 ∧
      (substituteEach [(x, two), (n, three)] e >>= normalizeWith {}) 20 s = .ok r' t' ∧
      r'.number? = some m ∧ m.IsInt 12 := by
  intro x n k one two three b e s₁ s₂ s₃ s₄ s₅ s₆ s
  have hadmits {s : Store} {name : String} : s.Admits .integers (.symbol name) :=
    ⟨by simp [Kind.children], fun _ h => h.elim, trivial, by simp [Kind.index?]⟩
  have hadmits' {s : Store} {i : Int64} : s.Admits .integers (.number (.int i)) :=
    ⟨by simp [Kind.children], fun _ h => h.elim, rfl, by simp [Kind.index?]⟩
  have hfactors : s₅.Knows k ∧ s₅.Knows x :=
    ⟨.of_holds (by decide +kernel), .of_holds (by decide +kernel)⟩
  have hb : s₅.Admits .integers (.apply k x) :=
    ⟨by simpa [Kind.children] using hfactors, fun _ h => h.elim, rfl, by simp [Kind.index?]⟩
  have hk : (⟨1, .integers, k⟩ : Placeholder) ∈ s₆.placeholders := List.mem_of_getElem? (i := 0) rfl
  have hparts : s₆.Knows k ∧ s₆.Knows one ∧ s₆.Knows n ∧ s₆.Knows b :=
    ⟨.of_holds (by decide +kernel), .of_holds (by decide +kernel), .of_holds (by decide +kernel),
      .of_holds (by decide +kernel)⟩
  have he : s₆.Admits .integers (.indexedSum k one n b) :=
    ⟨by simpa [Kind.children] using hparts, fun _ h => h.elim, trivial,
      by simpa [Kind.index?] using ⟨_, hk, rfl⟩⟩
  have hs : s.WellFormed := (((((((Store.wellFormed_initial.intern hadmits).1.intern hadmits).1.intern
    hadmits').1.intern hadmits').1.intern hadmits').1.intern hb).1.intern he).1
  have hknown : s.Knows e := .of_holds (by decide +kernel)
  have hone : IsLiteral 1 one := .of_kind (n := 1) rfl rfl
  have hscalar : IsScalar (fun _ => False) e :=
    .indexedSum rfl (.inl rfl) rfl (.literal hone) (.symbol rfl (.inl rfl))
      (.product rfl (.inl rfl) (.symbol rfl (.inl rfl)) (.symbol rfl (.inl rfl)))
  let ρ : Valuation ℤ := fun i => if i = 50 then 2 else 3
  let args : List Value := [.number (.int 2), .number (.int 3)]
  have hfits : Bindings.Fits (([x, n].map ordinal).zip args) ρ e := by
    intro i hi
    obtain ⟨y, hy, rfl⟩ := free_iff_occursFree.1 hi
    have hmem : y.ordinal ∈ [50, 51] := hy.mem_of_scan (d := 3) (by decide) List.not_mem_nil
    simp only [List.mem_cons, List.not_mem_nil, or_false] at hmem
    rcases hmem with hy | hy <;> rw [hy]
    · exact ⟨.number (.int 2), rfl, Value.isInt_number (Number.isInt_int 2)⟩
    · exact ⟨.number (.int 3), rfl, Value.isInt_number (Number.isInt_int 3)⟩
  have hvalue : e.value (.integers fun _ => id) ρ = 12 := by
    rw [value_indexedSum (show e.kind = .indexedSum k one n b from rfl), value_literal hone,
      value_symbol (show n.kind = .symbol "n" from rfl)]
    simp only [value_product (show b.kind = .apply k x from rfl) rfl,
      value_symbol (show k.kind = .symbol "_1" from rfl), value_symbol (show x.kind = .symbol "x" from rfl)]
    decide
  have hcompiles : (e.compile [x, n]).toOption.any (fun f => f.params.length == 2 &&
      (CompiledFunction.checkTypes 0 f.params args).isOk) = true := by
    decide +kernel
  have hexact : (finalState (e.evaluate (concrete {})
      (([x, n].map ordinal).zip args) 20 s)).exact = true := by
    decide +kernel
  have hchecked : (finalState ((substituteEach [(x, two), (n, three)] e >>= normalizeWith {}) 20
      s)).isFaithful = true := by
    decide +kernel
  have hnumber : (EStateM.run' (fun _ => (substituteEach [(x, two), (n, three)] e >>= normalizeWith {}) 20
      s) s).any (fun r => r.number?.isSome) = true := by
    decide +kernel
  have hregisters : e.FitsRegisters [x, n] := by decide +kernel
  have hargs : ∀ v ∈ args, ∃ i, v.IsInt i := by
    simpa [args] using ⟨⟨_, Value.isInt_number (Number.isInt_int 2)⟩,
      ⟨_, Value.isInt_number (Number.isInt_int 3)⟩⟩
  have hsymbols : ∀ p ∈ [x, n], p.isSymbol = true := by simpa using ⟨rfl, rfl⟩
  obtain ⟨⟨f, hf, hcall⟩, hnormal⟩ := value_compile (g := fun _ => id) hs (by decide) hknown hscalar hsymbols
    (by decide) (.of_scan (d := 3) (by decide)) hregisters hargs hfits hexact
  rw [hvalue] at hcall hnormal
  rw [hf] at hcompiles
  obtain ⟨hlength, htypes⟩ := Bool.and_eq_true_iff.1 hcompiles
  cases hcheck : CompiledFunction.checkTypes 0 f.params args with
  | error _ =>
    rw [hcheck] at htypes
    exact absurd htypes Bool.false_ne_true
  | ok _ =>
    obtain ⟨r, t, hrun, hint⟩ := hcall (eq_of_beq hlength).symm hcheck
    cases hrun' : (substituteEach [(x, two), (n, three)] e >>= normalizeWith {}) 20 s with
    | error _ _ =>
      rw [hrun'] at hnumber
      exact absurd hnumber Bool.false_ne_true
    | ok r' t' =>
      rw [hrun'] at hnumber hchecked
      obtain ⟨m, hm⟩ := Option.isSome_iff_exists.1 hnumber
      have hpairs : ∀ p ∈ [(x, two), (n, three)],
          s.Knows p ∧ p.1.isSymbol = true ∧ IsLiteral (ρ p.1.ordinal) p.2 := by
        have htwo : s.Knows (x, two) :=
          Store.knows_pair.2 ⟨.of_holds (by decide +kernel), .of_holds (by decide +kernel)⟩
        have hthree : s.Knows (n, three) :=
          Store.knows_pair.2 ⟨.of_holds (by decide +kernel), .of_holds (by decide +kernel)⟩
        exact List.forall_mem_cons.2 ⟨⟨htwo, rfl, .of_kind (n := 2) rfl rfl⟩,
          List.forall_mem_singleton.2 ⟨hthree, rfl, .of_kind (n := 3) rfl rfl⟩⟩
      exact ⟨f, r, t, r', t', m, hf, hrun, hint, rfl, hm,
        hnormal _ _ r' t' m hpairs hrun' (.of_isFaithful hchecked) hm⟩

end Expr

end TermGraph
