import TermGraph.Proofs.Store.WellFormed

/-!
# Construction keeps the store well formed

For every operation that builds expressions: if the store is well formed and knows the operands,
it is well formed and knows the result afterwards, and it is well formed after a failure too.
There is one lemma for each operation, proved from those of the operations it is made of.
-/

namespace TermGraph

open Store (Knows)

section Steps

variable {α μ : Type} [Knowable α] [Knowable μ] {s t : Store} {m : μ}

lemma yields_intern {domain : Domain} {kind : Kind} (hs : Good s) (h : s.Admits domain kind) :
    Yields s (Build.intern domain kind) := by
  obtain ⟨hwf, hknown, -⟩ := hs.wellFormed.intern h
  exact fun _ => ⟨good_store.2 hwf, hknown⟩

variable [Upkeep]

/-- Whatever follows from the structure of a node holds of the node that is found or made. -/
lemma sound_plain {domain : Domain} {kind : Kind} {d : ℕ} {Q : Expr → Store → Prop} (hs : Good s)
    (h : s.Admits domain kind) (hkind : kind.isPlain = true)
    (hred : kind.Irreducible (Expr.IsCapturedSince Upkeep.since) domain)
    (hQ : ∀ e t, t.WellFormed → s ≤ t → t.Knows e → e.kind.code = kind.code → Q e t) :
    Sound Good d s (Build.intern domain kind) Q := by
  obtain ⟨hwf, hknown, hcode⟩ := hs.wellFormed.intern h
  exact ⟨.of_wellFormed hwf (Upkeep.intern hs.wellFormed h hkind hred hs.holds),
    hQ _ _ hwf (Store.le_intern domain kind s) hknown hcode⟩

lemma yields_plain {domain : Domain} {kind : Kind} (hs : Good s) (h : s.Admits domain kind)
    (hkind : kind.isPlain = true)
    (hred : kind.Irreducible (Expr.IsCapturedSince Upkeep.since) domain) :
    Yields s (Build.intern domain kind) :=
  fun _ => sound_plain hs h hkind hred fun _ _ _ _ he _ => he

/-- Steps that leave nodes, table and placeholders alone. -/
lemma Good.of_eq (hs : Good s) (hle : s ≤ t) (hnodes : t.nodes = s.nodes) (htable : t.table = s.table)
    (hplaceholders : t.placeholders = s.placeholders) : Good t :=
  .of_wellFormed (hs.wellFormed.of_eq hle hnodes htable hplaceholders)
    (Upkeep.of_nodes hle hnodes hs.holds)

lemma sound_settle (hs : Good s) (t : Number.Tracked) (d : ℕ) :
    Sound Good d s (Build.settle t) fun c _ => c = t.value :=
  ⟨hs.of_eq (Growing.le_final (x := Build.settle t) d s) rfl rfl rfl, rfl⟩

lemma yields_settle (hs : Good s) (t : Number.Tracked) : Yields s (Build.settle t) :=
  fun d => (sound_settle hs t d).imp fun _ _ _ _ => trivial

lemma yields_fresh (hs : Good s) : Yields s Build.fresh := fun d =>
  ⟨hs.of_eq (Growing.le_final (x := Build.fresh) d s) rfl rfl rfl, trivial⟩

/-- An identity that is handed out has not been handed out at first. -/
lemma sound_fresh (hs : Good s) (d : ℕ) :
    Sound Good d s Build.fresh fun identity _ => Upkeep.since ≤ identity :=
  ⟨hs.of_eq (Growing.le_final (x := Build.fresh) d s) rfl rfl rfl, Upkeep.since_le hs.holds⟩

lemma yields_noteIndex (hs : Good s) (index body : Expr) : Yields s (Build.noteIndex index body) :=
  fun d => ⟨hs.of_eq (Growing.le_final (x := Build.noteIndex index body) d s) rfl rfl rfl, trivial⟩

lemma sound_lift {x : Build α} [Growing x] {d : ℕ} (hx : Sound Good d s x fun a t => t.Knows a)
    (hm : s.Knows m) :
    Sound Good d (s, m) (liftM x : Memoized μ α) fun a p => p.1.Knows a := by
  show Sound Good d (s, m) (Memoized.lift x) _
  rw [Sound, Memoized.lift]
  cases hr : x d s with
  | ok a t =>
    obtain ⟨ht, ha⟩ := hx.of_ok hr
    exact ⟨ht.pair (hm.mono (Growing.le_of_ok hr)), ha⟩
  | error e t =>
    exact (hx.of_error hr).pair (hm.mono (Growing.le_of_error hr))

lemma yields_lift {x : Build α} [Growing x] (hx : Yields s x) (hm : s.Knows m) :
    Yields (s, m) (liftM x : Memoized μ α) :=
  fun d => sound_lift (hx d) hm

/-- What a computation yields, it yields next to a memo. -/
lemma yields_beside {x : Build α} [Growing x] (hs : Good (s, m)) (hx : Good s → Yields s x) :
    Yields (s, m) (liftM x : Memoized μ α) :=
  yields_lift (hx hs.of_pair) hs.knows_memo

lemma yields_withMemo {x : Memoized μ α} (hx : Yields (s, m) x) :
    Yields s (Build.withMemo m x) := by
  intro d
  have h := hx d
  rw [Sound, Build.withMemo]
  cases hr : x d (s, m) with
  | ok a p =>
    obtain ⟨hp, ha⟩ := h.of_ok hr
    refine ⟨hp.of_pair, Store.knows_pair.2 ⟨fun b hb => ?_, hp.knows_memo⟩⟩
    cases hb
    exact ha
  | error e p =>
    have hp := h.of_error hr
    refine ⟨hp.of_pair, Store.knows_pair.2 ⟨fun b hb => ?_, hp.knows_memo⟩⟩
    cases hb

lemma yields_forgetting {x : Memoized μ α} [Growing x] (hx : Yields (s, m) x) :
    Yields s (Build.forgetting m x) := by
  unfold Build.forgetting
  refine (yields_withMemo hx).bind fun result t ht hle hresult => ?_
  exact .ofExcept ht hresult.1

lemma yields_memo (hs : Good (s, m)) : Yields (s, m) (Memoized.memo : Memoized μ μ) := fun _ =>
  ⟨hs, hs.knows_memo⟩

lemma yields_modifyMemo {f : μ → μ} (hs : Good (s, m)) (hf : s.Knows (f m)) :
    Yields (s, m) (Memoized.modifyMemo f) := fun _ =>
  ⟨hs.of_pair.pair hf, trivial⟩

end Steps

namespace Kind

lemma eq_builtin_of_code {k : Kind} {f : Builtin}
    (h : k.code = (Kind.function (.builtin f)).code) : k = .function (.builtin f) := by
  cases k <;> simp [code] at h
  case function g =>
    cases g with
    | builtin b => cases b <;> cases f <;> simp_all [Function.code, Builtin.index]
    | native _ _ _ | lambda _ _ _ _ => simp [Function.code] at h

/-- The structure of a captured value has its identity. -/
lemma exists_object_of_code {k : Kind} {v : Value} {resolver : ℕ}
    (h : k.code = (Kind.object v resolver).code) :
    ∃ w r, k = .object w r ∧ w.identity = v.identity := by
  cases k <;> simp [code] at h
  case object w r => exact ⟨w, r, rfl, h.1⟩

end Kind

namespace Expr

variable {s : Store}

/-! ## Leaves -/

section Leaves

variable [Upkeep]

lemma yields_symbol (hs : Good s) (name : String) (domain : Domain) :
    Yields s (symbol name domain) :=
  yields_plain hs ⟨by simp [Kind.children], fun _ h => h.elim, trivial, by simp [Kind.index?]⟩ rfl
    trivial

lemma yields_number (hs : Good s) (n : Number) : Yields s (number n) :=
  yields_plain hs ⟨by simp [Kind.children], fun _ h => h.elim, rfl, by simp [Kind.index?]⟩ rfl
    trivial

lemma yields_int (hs : Good s) (n : Int64) : Yields s (int n) := yields_number hs _

lemma yields_zero (hs : Good s) : Yields s zero := yields_int hs 0

lemma yields_one (hs : Good s) : Yields s one := yields_int hs 1

lemma yields_fieldName (hs : Good s) (name : String) : Yields s (fieldName name) :=
  yields_plain hs ⟨by simp [Kind.children], fun _ h => h.elim, rfl, by simp [Kind.index?]⟩ rfl
    trivial

lemma yields_ofFunction (hs : Good s) {f : Function} (hf : s.Knows f) : Yields s (ofFunction f) :=
  yields_plain hs ⟨by simp [Kind.children], by rintro _ rfl; exact hf, rfl, by simp [Kind.index?]⟩
    rfl trivial

lemma yields_tuple (hs : Good s) {items : List Expr} (h : s.Knows items) :
    Yields s (tuple items) := by
  unfold tuple
  split
  · exact .pure hs (by simpa using h)
  · exact yields_plain hs ⟨h, fun _ h => h.elim, rfl, by simp [Kind.index?]⟩ rfl trivial

lemma yields_object (hs : Good s) {v : Value} (hv : s.Knows v) (resolver : Resolver) :
    Yields s (object v resolver) :=
  yields_plain hs ⟨by simp [Kind.children], hv, trivial, by simp [Kind.index?]⟩ rfl
    ⟨Domain.isBuiltin_ofType _ resolver, by rintro ⟨_, _, rfl⟩; rfl⟩

mutual

theorem yields_constant (resolver : Resolver) :
    ∀ {s : Store} (v : Value), Good s → s.Knows v → Yields s (constant resolver v)
  | _, .number n, hs, _ => by
    unfold constant
    exact yields_number hs n
  | _, .function f, hs, h => by
    unfold constant
    exact yields_ofFunction hs (by simpa using h)
  | _, .field name, hs, _ => by
    unfold constant
    exact yields_fieldName hs name
  | _, .tuple items, hs, h => by
    unfold constant
    refine (yields_constants resolver items hs (by simpa using h)).bind fun es t ht hle hes => ?_
    exact yields_tuple ht hes
  | _, .array _ _ _, hs, h | _, .matrix _ _, hs, h | _, .object _ _ _ _, hs, h => by
    unfold constant
    exact yields_object hs h resolver

theorem yields_constants (resolver : Resolver) :
    ∀ {s : Store} (vs : List Value), Good s → s.Knows vs → Yields s (constants resolver vs)
  | _, [], hs, _ => by
    unfold constants
    exact .pure hs (by simp)
  | _, v :: vs, hs, h => by
    unfold constants
    rw [Store.knows_cons] at h
    refine (yields_constant resolver v hs h.1).bind fun e t ht hle he => ?_
    refine (yields_constants resolver vs ht (h.2.mono hle)).bind fun es u hu hle' hes => ?_
    exact .pure hu (by grind)

end

/-- A matrix that is computed is captured under an identity of its own. -/
lemma sound_ofMatrix (hs : Good s) (m : Matrix) (d : ℕ) :
    Sound Good d s (ofMatrix m) fun e t => t.Knows e ∧ e.IsCapturedSince Upkeep.since := by
  unfold ofMatrix Value.ofMatrix
  simp only [bind_assoc, pure_bind]
  refine (sound_fresh hs d).bind fun identity t ht _ hidentity => ?_
  unfold constant object
  refine sound_plain ht
    ⟨by simp [Kind.children], Store.knows_matrix m, trivial, by simp [Kind.index?]⟩ rfl
    ⟨rfl, fun _ => rfl⟩ fun e u _ _ he hcode => ⟨he, ?_⟩
  obtain ⟨w, r, hkind, hsame⟩ := Kind.exists_object_of_code hcode
  exact ⟨w, r, hkind, hidentity.trans_eq hsame.symm⟩

lemma yields_ofMatrix (hs : Good s) (m : Matrix) : Yields s (ofMatrix m) :=
  fun d => (sound_ofMatrix hs m d).imp fun _ _ _ h => h.1

lemma yields_applyDomain (hs : Good s) (target argument : Expr) :
    Yields s (applyDomain target argument) := by
  unfold applyDomain
  split
  · exact .pure hs trivial
  · exact .throw hs _

/-- The domain that is found is that of the application. -/
lemma sound_applyDomain (hs : Good s) (target argument : Expr) (d : ℕ) :
    Sound Good d s (applyDomain target argument)
      fun domain _ => applyDomain? target argument = some domain := by
  unfold applyDomain
  split
  · exact .pure hs ‹_›
  · exact .throw hs _

omit [Upkeep] in
lemma admits_apply {target argument : Expr} {domain : Domain} (ht : s.Knows target)
    (ha : s.Knows argument) (h : applyDomain? target argument = some domain) :
    s.Admits domain (.apply target argument) :=
  ⟨by simp [Kind.children, ht, ha], fun _ h => h.elim, h, by simp [Kind.index?]⟩

/-- Applications that multiply nothing. -/
lemma yields_rawApply_of_isPlain (hs : Good s) {target argument : Expr} (ht : s.Knows target)
    (ha : s.Knows argument) (h : (Kind.apply target argument).isPlain = true) :
    Yields s (rawApply target argument) := by
  intro d
  unfold rawApply
  refine (sound_applyDomain hs target argument d).bind fun domain t hgood hle hdomain => ?_
  exact yields_plain hgood (admits_apply (ht.mono hle) (ha.mono hle) hdomain) h trivial d

omit [Upkeep] in
/-- Functions multiply nothing. -/
lemma not_multiplies_of_function? {target argument : Expr} (h : target.function?.isSome = true) :
    multiplies target argument = false := by
  simp [multiplies, ← Option.not_isSome, h]

omit [Upkeep] in
/-- Applications that multiply nothing, call nothing with a body and raise to no needless exponent. -/
lemma isPlain_apply {target argument : Expr} (hproduct : multiplies target argument = false)
    (hcall : ∀ i name params body, target.function? = some (.lambda i name params body) →
      argument.domain.isBuiltin = false)
    (hpower : ∀ base exponent, target.function? = some (.builtin .pow) →
      argument.kind = .tuple [base, exponent] →
      exponent.isZero = false ∧ base.isOne = false ∧ exponent.isOne = false) :
    (Kind.apply target argument).isPlain = true := by
  simp only [Kind.isPlain, Kind.isProduct, Kind.isSum, Kind.isFormed, hproduct, Bool.not_false,
    Bool.true_and]
  split
  · simp [hcall _ _ _ _ ‹_›]
  · split
    · obtain ⟨hzero, hbase, hone⟩ := hpower _ _ ‹_› ‹_›
      simp [hzero, hbase, hone]
    · rfl
  · rfl

omit [Upkeep] in
/-- Calls of functions without a body. -/
lemma isPlain_call {target argument : Expr} {f : Function} (h : target.function? = some f)
    (hf : ∀ i name params body, f ≠ .lambda i name params body)
    (hpower : ∀ base exponent, f = .builtin .pow → argument.kind = .tuple [base, exponent] →
      exponent.isZero = false ∧ base.isOne = false ∧ exponent.isOne = false) :
    (Kind.apply target argument).isPlain = true :=
  isPlain_apply (not_multiplies_of_function? (by simp [h]))
    (fun i name params body hlambda =>
      absurd (Option.some.inj (h.symm.trans hlambda)) (hf i name params body))
    fun base exponent hpow => hpower base exponent (Option.some.inj (h.symm.trans hpow))

omit [Upkeep] in
lemma function?_of_code {e : Expr} {b : Builtin}
    (h : e.kind.code = (Kind.function (.builtin b)).code) : e.function? = some (.builtin b) := by
  rw [function?, Kind.eq_builtin_of_code h]

/-- The node of a function has its structure. -/
lemma sound_ofFunction (hs : Good s) {f : Function} (hf : s.Knows f) (d : ℕ) :
    Sound Good d s (ofFunction f) fun e t =>
      t.Knows e ∧ e.kind.code = (Kind.function f).code :=
  sound_plain hs
    ⟨by simp [Kind.children], by rintro _ rfl; exact hf, rfl, by simp [Kind.index?]⟩ rfl trivial
    fun _ _ _ _ he hcode => ⟨he, hcode⟩

end Leaves

lemma yields_rawApply (hs : Good s) {target argument : Expr} (ht : s.Knows target)
    (ha : s.Knows argument) : Yields s (rawApply target argument) := by
  intro d
  unfold rawApply
  refine (sound_applyDomain hs target argument d).bind fun domain t hgood hle hdomain => ?_
  exact yields_intern hgood (admits_apply (ht.mono hle) (ha.mono hle) hdomain) d

/-! ## Powers -/

section Powers

variable [Upkeep]

omit [Upkeep] in
/-- Applications of the power function to a base other than one and an exponent other than zero and
one. -/
lemma isPlain_power {target argument base exponent : Expr}
    (htarget : target.function? = some (.builtin .pow)) (hargument : argument.kind = .tuple [base, exponent])
    (hproper : ¬(exponent.isZero || base.isOne) = true) (hone : ¬exponent.isOne = true) :
    (Kind.apply target argument).isPlain = true := by
  refine isPlain_call htarget (by simp) fun b n _ hkind => ?_
  rw [hargument, Kind.tuple.injEq, List.cons.injEq, List.cons.injEq] at hkind
  obtain ⟨rfl, rfl, -⟩ := hkind
  simp_all

lemma yields_powerOf (hs : Good s) {target argument base exponent : Expr} (ht : s.Knows target)
    (ha : s.Knows argument) (hb : s.Knows base) (htarget : target.function? = some (.builtin .pow))
    (hargument : argument.kind = .tuple [base, exponent]) :
    Yields s (powerOf target argument base exponent) := by
  unfold powerOf
  refine .ite (fun _ => yields_one hs) fun hproper => .ite (fun _ => .pure hs hb) fun hone => ?_
  exact yields_rawApply_of_isPlain hs ht ha (isPlain_power htarget hargument hproper hone)

/-- The node of a pair is that pair. -/
lemma sound_pair (hs : Good s) {a b : Expr} (ha : s.Knows a) (hb : s.Knows b) (d : ℕ) :
    Sound Good d s (tuple [a, b]) fun e t => t.Knows e ∧ e.kind = .tuple [a, b] := by
  have hitems : s.Knows [a, b] := by simp [ha, hb]
  exact sound_plain hs ⟨hitems, fun _ h => h.elim, rfl, by simp [Kind.index?]⟩ rfl trivial
    fun e t ht hle he hcode => ⟨he, ht.kind_eq_tuple he (hitems.mono hle) hcode⟩

lemma yields_power (hs : Good s) {base exponent : Expr} (hb : s.Knows base)
    (he : s.Knows exponent) : Yields s (power base exponent) := by
  intro d
  unfold power
  refine (sound_ofFunction hs (by simp) d).bind fun target t ht hle htarget => ?_
  refine (sound_pair ht (hb.mono hle) (he.mono hle) d).bind fun argument u hu hle' hargument => ?_
  exact yields_powerOf hu (by grind) hargument.1 (by grind) (function?_of_code htarget.2)
    hargument.2 d

lemma yields_reciprocal (hs : Good s) {base : Expr} (hb : s.Knows base) :
    Yields s (reciprocal base) := by
  unfold reciprocal
  exact (yields_int hs (-1)).bind fun e t ht hle he => yields_power ht (hb.mono hle) he

omit [Upkeep] in
lemma knows_power? (hs : s.WellFormed) {e base exponent : Expr} (he : s.Knows e)
    (h : e.power? = some (base, exponent)) : s.Knows base ∧ s.Knows exponent := by
  unfold power? at h
  split at h
  · rename_i ordinal domain ordinal' domain' base' exponent' hkind
    cases h
    have hargument : s.Knows (node ordinal' domain' (.tuple [base, exponent])) := by
      refine (hs.children he) _ ?_
      rw [children, hkind]
      simp [Kind.children]
    simpa [children, Kind.children, Expr.kind] using hs.children hargument
  · cases h

end Powers

/-! ## Sums -/

section Sums

variable [Upkeep]

omit [Upkeep] in
lemma allTerms_eq_flatMap (es : List Expr) : allTerms es = es.flatMap terms := by
  induction es with
  | nil => rfl
  | cons e es ih => rw [allTerms, ih, List.flatMap_cons]

omit [Upkeep] in
/-- The terms of a sum are nodes of the graph below it. -/
lemma knows_terms (hs : s.WellFormed) {e : Expr} (he : s.Knows e) : s.Knows e.terms := by
  induction h : sizeOf e using Nat.strongRecOn generalizing e with
  | _ n ih =>
    subst h
    have hchildren := hs.children he
    obtain ⟨ordinal, domain, kind⟩ := e
    cases kind with
    | sum items =>
      rw [terms, allTerms_eq_flatMap]
      intro e' he'
      obtain ⟨c, hc, hmem⟩ := List.mem_flatMap.1 he'
      exact ih _ (sizeOf_lt_of_mem_children hc) (hchildren c hc) rfl e' hmem
    | _ => simpa [terms] using he

omit [Upkeep] in
lemma knows_allTerms (hs : s.WellFormed) {es : List Expr} (hes : s.Knows es) :
    s.Knows (allTerms es) := by
  rw [allTerms_eq_flatMap]
  intro e he
  obtain ⟨c, hc, hmem⟩ := List.mem_flatMap.1 he
  exact knows_terms hs (hes c hc) e hmem

omit [Upkeep] in
/-- The factors of a product are nodes of the graph below it. -/
lemma knows_factors (hs : s.WellFormed) {e : Expr} (he : s.Knows e) : s.Knows e.factors := by
  induction h : sizeOf e using Nat.strongRecOn generalizing e with
  | _ n ih =>
    subst h
    have hchildren := hs.children he
    obtain ⟨ordinal, domain, kind⟩ := e
    cases kind with
    | apply target argument =>
      have hfactors {c : Expr} (hc : c ∈ [target, argument]) : s.Knows c.factors :=
        ih _ (sizeOf_lt_of_mem_children hc) (hchildren c hc) rfl
      by_cases hm : multiplies target argument = true
      · rw [factors_apply _ _ hm, Store.knows_append]
        exact ⟨hfactors (by simp), hfactors (by simp)⟩
      · rw [factors, factorsOnto, if_neg hm]
        simpa using he
    | _ => simpa [factors, factorsOnto] using he

section Gather

variable {α β : Type} {start : α → β} {step : β → α → β} {P : Expr → Prop} {Q : β → Prop}
  {items : List (Expr × α)}

omit [Upkeep] in
lemma gatherFrom_forall {key : Expr} {group : β} (hkey : P key) (hgroup : Q group)
    (hP : ∀ item ∈ items, P item.1) (hstart : ∀ item ∈ items, Q (start item.2))
    (hstep : ∀ b, ∀ item ∈ items, Q b → Q (step b item.2)) :
    ∀ pair ∈ gatherFrom start step key group items, P pair.1 ∧ Q pair.2 := by
  induction items generalizing key group with
  | nil => simp [gatherFrom, hkey, hgroup]
  | cons item items ih =>
    obtain ⟨k, datum⟩ := item
    simp only [List.mem_cons, forall_eq_or_imp] at hP hstart hstep
    rw [gatherFrom]
    split
    · exact ih hkey (hstep group |>.1 hgroup) hP.2 hstart.2 fun b => (hstep b).2
    · simp only [List.mem_cons, forall_eq_or_imp]
      exact ⟨⟨hkey, hgroup⟩, ih hP.1 hstart.1 hP.2 hstart.2 fun b => (hstep b).2⟩

omit [Upkeep] in
/-- What holds of all keys and of all groups as they form holds after gathering. -/
lemma gather_forall (hP : ∀ item ∈ items, P item.1) (hstart : ∀ item ∈ items, Q (start item.2))
    (hstep : ∀ b, ∀ item ∈ items, Q b → Q (step b item.2)) :
    ∀ pair ∈ gather start step items, P pair.1 ∧ Q pair.2 := by
  have hperm : (sortBy Prod.fst items).Perm items := Sorting.sort_perm _ _
  unfold gather
  cases hsorted : sortBy Prod.fst items with
  | nil => simp
  | cons item rest =>
    have hmem : ∀ item' ∈ item :: rest, item' ∈ items := fun item' h =>
      hperm.subset (hsorted ▸ h)
    refine gatherFrom_forall (hP _ (hmem _ (by simp))) (hstart _ (hmem _ (by simp)))
      (fun i hi => hP i (hmem i (by simp [hi]))) (fun i hi => hstart i (hmem i (by simp [hi])))
      fun b i hi => hstep b i (hmem i (by simp [hi]))

omit [Upkeep] in
lemma gather_keys_forall (hP : ∀ item ∈ items, P item.1) :
    ∀ pair ∈ gather start step items, P pair.1 := fun pair hpair =>
  (gather_forall (Q := fun _ => True) hP (fun _ _ => trivial) (fun _ _ _ _ => trivial) pair hpair).1

end Gather

/-- A function of expressions keeps the invariant. -/
def YieldsAll (product : List Expr → Build Expr) : Prop :=
  ∀ (s : Store) (l : List Expr), Good s → s.Knows l → Yields s (product l)

lemma yields_scaledTerm {product : List Expr → Build Expr} (hproduct : YieldsAll product)
    (hs : Good s) {rest : Expr} (hrest : s.Knows rest) (c : Number) :
    Yields s (scaledTerm product rest c) := by
  unfold scaledTerm
  refine .ite (fun _ => .pure hs hrest) fun _ => ?_
  exact (yields_number hs c).bind fun e t ht hle he => hproduct t _ ht (by grind)

variable {product : List Expr → Build Expr} [∀ l, Growing (product l)]

lemma yields_splitCoefficient (hproduct : YieldsAll product) (hs : Good s) {term : Expr}
    (hterm : s.Knows term) : Yields s (splitCoefficient product term) := by
  have hfactors := knows_factors hs.wellFormed hterm
  unfold splitCoefficient
  refine .ite (fun _ => ?_) fun _ => .pure hs (by grind)
  split
  · rename_i first rest hsplit
    rw [hsplit, Store.knows_cons] at hfactors
    split
    · refine (hproduct s rest hs hfactors.2).bind fun e t ht hle he => ?_
      exact .pure ht (by grind)
    · exact .pure hs (by grind)
  · exact .pure hs (by grind)

lemma yields_scaledTerms (hproduct : YieldsAll product) (hs : Good s)
    {groups : List (Expr × Number.Tracked)} (h : ∀ group ∈ groups, s.Knows group.1) :
    Yields s (scaledTerms product groups) := by
  induction groups generalizing s with
  | nil =>
    unfold scaledTerms
    exact .pure hs (by simp)
  | cons group groups ih =>
    obtain ⟨rest, total⟩ := group
    simp only [List.mem_cons, forall_eq_or_imp] at h
    unfold scaledTerms
    refine (yields_settle hs total).bind fun c t ht hle _ => ?_
    have hgroups {u : Store} (hle' : s ≤ u) : ∀ group ∈ groups, u.Knows group.1 :=
      fun group hgroup => (h.2 group hgroup).mono hle'
    refine .ite (fun _ => ih ht (hgroups hle)) fun _ => ?_
    refine (yields_scaledTerm hproduct ht (h.1.mono hle) c).bind fun e u hu hle' he => ?_
    refine (ih hu (hgroups (hle.trans hle'))).bind fun es v hv hle'' hes => ?_
    exact .pure hv (by grind)

lemma sound_sumDomain (hs : Good s) (terms : List Expr) (d : ℕ) :
    Sound Good d s (Build.ofExcept id (sumDomain terms))
      fun domain _ => sumDomain terms = .ok domain := by
  cases sumDomain terms with
  | ok domain => exact .pure hs rfl
  | error e => exact .throw hs e

omit [Upkeep] in
lemma admits_sum {terms : List Expr} {domain : Domain} (h : s.Knows terms)
    (hdomain : sumDomain terms = .ok domain) : s.Admits domain (.sum terms) :=
  ⟨h, fun _ h => h.elim, hdomain, by simp [Kind.index?]⟩

omit [Upkeep] in
/-- Lists that are neither empty nor singletons. -/
lemma two_le_length {l : List Expr} (hnil : l ≠ []) (hsingle : ∀ e, l ≠ [e]) : 2 ≤ l.length := by
  match l with
  | [] => exact absurd rfl hnil
  | [e] => exact absurd rfl (hsingle e)
  | _ :: _ :: _ => simp

omit [∀ l, Growing (product l)] in
/-- Terms can be added up if their sum keeps up what is kept up. -/
lemma yields_ofTerms_of (hs : Good s) {constant : Option Expr} {terms : List Expr}
    (hconstant : s.Knows constant) (hterms : s.Knows terms)
    (h : ∀ (t : Store) (domain : Domain), Good t → s ≤ t → t.Admits domain (.sum terms) →
      2 ≤ terms.length → Upkeep.Holds (t.intern domain (.sum terms)).2) :
    Yields s (ofTerms constant terms) := by
  unfold ofTerms
  split
  · cases constant with
    | none => exact yields_zero hs
    | some c => exact .pure hs (by simpa using hconstant)
  · exact .pure hs (by simpa using hterms)
  · rename_i hnil hsingle
    intro d
    refine (sound_sumDomain hs terms d).bind fun domain t ht hle hdomain => ?_
    have hadm := admits_sum (hterms.mono hle) hdomain
    obtain ⟨hwf, hknown, -⟩ := ht.wellFormed.intern hadm
    exact ⟨.of_wellFormed hwf (h t domain ht hle hadm (two_le_length hnil hsingle)), hknown⟩

variable [Upkeep.Sums]

omit [∀ l, Growing (product l)] in
lemma yields_ofTerms (hs : Good s) {constant : Option Expr} {terms : List Expr}
    (hconstant : s.Knows constant) (hterms : s.Knows terms) : Yields s (ofTerms constant terms) :=
  yields_ofTerms_of hs hconstant hterms fun _ _ ht _ hadm hlength =>
    Upkeep.Sums.intern ht.wellFormed hadm hlength ht.holds

lemma yields_sumWith (hproduct : YieldsAll product) : YieldsAll (sumWith product) := by
  intro s input hs hinput
  have hall := knows_allTerms hs.wellFormed hinput
  unfold sumWith
  refine (Yields.optionMapM hs _ fun total => ?_).bind fun constant s₁ hs₁ h₁ hconstant => ?_
  · exact (yields_settle hs total).bind fun n t ht _ _ => yields_number ht n
  refine (Yields.ofExcept hs₁ fun d _ => Store.knows_plain d).bind fun _ s₂ hs₂ h₂ _ => ?_
  have hothers : s₂.Knows (nonLiterals (allTerms input)) :=
    (hall.of_subset List.filter_sublist.subset).mono (h₁.trans h₂)
  refine (Yields.mapM hs₂ _ fun term hterm t ht hle => ?_).bind fun split s₃ hs₃ h₃ hsplit => ?_
  · exact yields_splitCoefficient hproduct ht ((hothers term hterm).mono hle)
  refine (yields_scaledTerms hproduct hs₃ (gather_keys_forall fun item hitem =>
    (hsplit item hitem).1)).bind fun scaled s₄ hs₄ h₄ hscaled => ?_
  have hconstant : s₄.Knows constant := hconstant.mono (h₂.trans (h₃.trans h₄))
  refine yields_ofTerms hs₄ hconstant (Store.knows_append.2 ⟨Knows.toList fun e he => ?_, hscaled⟩)
  exact hconstant e (Option.mem_filter_iff.1 he).1

end Sums

/-! ## Matrix products -/

section Chains

variable [Upkeep]

lemma yields_generator (hs : Good s) {element : Expr} (h : s.Knows element) (rows cols : ℕ) :
    Yields s (generator rows cols element) :=
  yields_plain hs
    ⟨by simpa [Kind.children] using h, fun _ h => h.elim, rfl, by simp [Kind.index?]⟩ rfl trivial

omit [Upkeep] in
lemma allChainFactorsOnto_eq_foldr (es rest : List Expr) :
    allChainFactorsOnto es rest = es.foldr chainFactorsOnto rest := by
  induction es with
  | nil => rfl
  | cons e es ih => rw [allChainFactorsOnto, ih, List.foldr_cons]

omit [Upkeep] in
/-- The factors of a matrix product are nodes of the graph below it. -/
lemma knows_chainFactorsOnto (hs : s.WellFormed) {e : Expr} {rest : List Expr} (he : s.Knows e)
    (hrest : s.Knows rest) : s.Knows (e.chainFactorsOnto rest) := by
  induction h : sizeOf e using Nat.strongRecOn generalizing e rest with
  | _ n ih =>
    subst h
    have hchildren := hs.children he
    obtain ⟨ordinal, domain, kind⟩ := e
    have hchild {c : Expr} {rest : List Expr} (hc : c ∈ kind.children) (hrest : s.Knows rest) :
        s.Knows (c.chainFactorsOnto rest) :=
      ih _ (sizeOf_lt_of_mem_children hc) (hchildren c hc) hrest rfl
    cases kind with
    | chain items =>
      rw [chainFactorsOnto, allChainFactorsOnto_eq_foldr]
      refine List.foldrRecOn items _ hrest fun l hl c hc => hchild hc hl
    | apply target argument =>
      rw [chainFactorsOnto]
      split
      · exact hchild (by simp [Kind.children]) (hchild (by simp [Kind.children]) hrest)
      · exact Store.knows_cons.2 ⟨he, hrest⟩
    | _ => exact Store.knows_cons.2 ⟨he, hrest⟩

omit [Upkeep] in
lemma knows_allChainFactorsOnto (hs : s.WellFormed) {es : List Expr} (hes : s.Knows es) :
    s.Knows (allChainFactorsOnto es []) := by
  rw [allChainFactorsOnto_eq_foldr]
  exact List.foldrRecOn es _ Store.knows_nil fun l hl c hc => knows_chainFactorsOnto hs (hes c hc) hl

omit [Upkeep] in
/-- The factors of a matrix product have no factors of their own. -/
lemma isLink_of_mem_chainFactorsOnto {e f : Expr} {rest : List Expr}
    (hrest : ∀ f ∈ rest, f.IsLink fun _ => True) (h : f ∈ e.chainFactorsOnto rest) :
    f.IsLink fun _ => True := by
  induction hsize : sizeOf e using Nat.strongRecOn generalizing e f rest with
  | _ n ih =>
    subst hsize
    obtain ⟨ordinal, domain, kind⟩ := e
    have hchild {c f : Expr} {rest : List Expr} (hc : c ∈ kind.children)
        (hrest : ∀ f ∈ rest, f.IsLink fun _ => True) (h : f ∈ c.chainFactorsOnto rest) :
        f.IsLink fun _ => True :=
      ih _ (sizeOf_lt_of_mem_children hc) hrest h rfl
    have hself (hchain : ∀ items, kind ≠ .chain items) (hproduct : kind.isProduct = false) :
        ∀ f ∈ node ordinal domain kind :: rest, f.IsLink fun _ => True :=
      List.forall_mem_cons.2 ⟨⟨hchain, hproduct, fun _ => trivial⟩, hrest⟩
    cases kind with
    | chain items =>
      rw [chainFactorsOnto, allChainFactorsOnto_eq_foldr] at h
      refine List.foldrRecOn (motive := fun l => ∀ f ∈ l, f.IsLink fun _ => True) items _ hrest
        (fun l hl c hc f hf => hchild hc hl hf) f h
    | apply target argument =>
      rw [chainFactorsOnto] at h
      split at h
      · refine hchild (c := target) (by simp [Kind.children]) (fun g hg => ?_) h
        exact hchild (by simp [Kind.children]) hrest hg
      · rename_i hproduct
        exact hself (by simp) (by simpa [Kind.isProduct] using hproduct) f h
    | _ => exact hself (by simp) rfl f h

omit [Upkeep] in
lemma isLink_of_mem_allChainFactorsOnto {es : List Expr} :
    ∀ f ∈ allChainFactorsOnto es [], f.IsLink fun _ => True := by
  rw [allChainFactorsOnto_eq_foldr]
  exact List.foldrRecOn (motive := fun l => ∀ f ∈ l, f.IsLink fun _ => True) es _
    (List.forall_mem_nil _)
    fun l hl c _ f hf => isLink_of_mem_chainFactorsOnto hl hf

/-- Pushing a factor onto factors that do not reduce leaves factors that do not. -/
lemma sound_pushFactor (hs : Good s) {reversed : List Expr} {factor : Expr}
    (hreversed : s.Knows reversed) (hfactor : s.Knows factor) (d : ℕ) :
    Sound Good d s (pushFactor reversed factor) fun r t =>
      t.Knows r ∧ (factor.IsLink (IsCapturedSince Upkeep.since) →
        Linked (IsCapturedSince Upkeep.since) reversed →
        Linked (IsCapturedSince Upkeep.since) r) := by
  unfold pushFactor
  split
  · exact .pure hs ⟨by grind, fun hlink _ => linked_nil.cons hlink (by simp)⟩
  · rename_i last rest
    rw [Store.knows_cons] at hreversed
    split
    · exact .pure hs ⟨hreversed.2, fun _ h => h.tail⟩
    rename_i hcancels
    split
    · rename_i hlast hfactor
      refine (Yields.ofExcept hs (fun m _ => Store.knows_plain m) d).bind fun m t ht hle _ => ?_
      refine (sound_ofMatrix ht m d).bind fun e u hu hle' he => .pure hu ⟨?_, fun _ h => ?_⟩
      · exact Store.knows_cons.2 ⟨he.1, (hreversed.2.mono hle).mono hle'⟩
      · -- What stood next to a constant is none, and the new constant is the inverse of nothing.
        refine h.tail.cons he.2.isLink fun b hb => ⟨.inr ?_, fun _ => .inl he.2⟩
        have hapart := (List.isChain_cons.1 h.isChain).1 b hb
        exact hapart.1.resolve_left (by simp [hlast])
    · rename_i hnot
      refine .pure hs ⟨by grind, fun hlink h => h.cons hlink ?_⟩
      rintro b ⟨⟩
      refine ⟨?_, fun h => absurd (cancels_comm factor last ▸ h) hcancels⟩
      cases hlast : last.matrix? with
      | none => exact .inr rfl
      | some m => exact .inl (Option.eq_none_iff_forall_ne_some.2 fun k hk => hnot m k hlast hk)

lemma yields_pushFactor (hs : Good s) {reversed : List Expr} {factor : Expr}
    (hreversed : s.Knows reversed) (hfactor : s.Knows factor) :
    Yields s (pushFactor reversed factor) :=
  fun d => (sound_pushFactor hs hreversed hfactor d).imp fun _ _ _ h => h.1

/-- The product of factors keeps the invariant if the node for it does, where there are two or more. -/
lemma yields_ofChain (hs : Good s) {factors : List Expr} (h : s.Knows factors)
    (hnode : 2 ≤ factors.length → Yields s (Build.intern .matrices (.chain factors))) :
    Yields s (ofChain factors) := by
  unfold ofChain
  split
  · exact yields_one hs
  · exact .pure hs (by grind)
  · exact hnode (two_le_length ‹_› ‹_›)

omit [Upkeep] in
lemma admits_chain {factors : List Expr} (h : s.Knows factors) : s.Admits .matrices (.chain factors) :=
  ⟨h, fun _ h => h.elim, rfl, by simp [Kind.index?]⟩

lemma yields_chainWith {product : List Expr → Build Expr} (hproduct : YieldsAll product) :
    YieldsAll (chainWith product) := by
  intro s factors hs hfactors
  have hall := knows_allChainFactorsOnto hs.wellFormed hfactors
  have hmatrices := hall.of_subset (List.filter_sublist (p := fun e => !e.domain.isScalar)).subset
  have hscalars := hall.of_subset (List.filter_sublist (p := fun e => e.domain.isScalar)).subset
  have hlinks : ∀ f ∈ (allChainFactorsOnto factors []).filter fun e => !e.domain.isScalar,
      f.IsLink (IsCapturedSince Upkeep.since) := by
    intro f hf
    rw [List.mem_filter, Bool.not_eq_true'] at hf
    exact (isLink_of_mem_allChainFactorsOnto f hf.1).imp (by simp [hf.2])
  intro d
  unfold chainWith
  refine (Sound.foldlM (P := fun r t => t.Knows r ∧ Linked (IsCapturedSince Upkeep.since) r) _ hs
    ⟨Store.knows_nil, linked_nil⟩ fun reversed factor hfactor t ht hle h =>
      (sound_pushFactor ht h.1 ((hmatrices factor hfactor).mono hle) d).imp fun r u _ hr =>
        ⟨hr.1, hr.2 (hlinks factor hfactor) h.2⟩).bind fun reversed t ht hle h => ?_
  have hreversed : t.Knows reversed.reverse := by simpa using h.1
  refine (yields_ofChain ht hreversed (fun hlength => ?_) d).bind fun matrix u hu hle' hmatrix => ?_
  · exact yields_plain ht (admits_chain hreversed)
      (by simpa [Kind.isPlain, Kind.isProduct, Kind.isSum, Kind.isFormed] using hlength) h.2.reverse
  suffices hrest : Yields u _ from hrest d
  refine .ite (fun _ => .pure hu hmatrix) fun _ => hproduct u _ hu ?_
  exact Store.knows_append.2 ⟨(hscalars.mono hle).mono hle', by simpa using hmatrix⟩

lemma yields_inverse (hs : Good s) {a : Expr} (ha : s.Knows a) : Yields s (inverse a) := by
  have hchildren := hs.wellFormed.children ha
  unfold inverse
  refine .ite (fun _ => yields_reciprocal hs ha) fun _ => ?_
  split
  · rename_i inner hkind
    rw [children, hkind] at hchildren
    exact .pure hs (hchildren inner (by simp [Kind.children]))
  · refine (Yields.ofExcept hs fun m _ => Store.knows_plain m).bind fun m t ht hle _ => ?_
    exact yields_ofMatrix ht m
  · rename_i hscalar _ _ hconstant hinverse
    exact yields_plain hs
      ⟨by simpa [Kind.children] using ha, fun _ h => h.elim, rfl, by simp [Kind.index?]⟩ rfl
      ⟨⟨by simpa using hscalar, hconstant⟩, hinverse⟩

lemma yields_transpose (hs : Good s) {a : Expr} (ha : s.Knows a) : Yields s (transpose a) := by
  have hchildren := hs.wellFormed.children ha
  unfold transpose
  refine .ite (fun _ => .pure hs ha) fun _ => ?_
  split
  · rename_i inner hkind
    rw [children, hkind] at hchildren
    exact .pure hs (hchildren inner (by simp [Kind.children]))
  · exact yields_ofMatrix hs _
  · rename_i hscalar _ _ hconstant htranspose
    exact yields_plain hs
      ⟨by simpa [Kind.children] using ha, fun _ h => h.elim, rfl, by simp [Kind.index?]⟩ rfl
      ⟨⟨by simpa using hscalar, hconstant⟩, htranspose⟩

end Chains

/-! ## Products -/

section Products

variable [Upkeep]

lemma yields_splitPower (hs : Good s) {factor : Expr} (h : s.Knows factor) :
    Yields s (splitPower factor) := by
  unfold splitPower
  split
  · rename_i base exponent hpower
    have hparts := knows_power? hs.wellFormed h hpower
    exact .pure hs (by grind)
  · refine (yields_one hs).bind fun e t ht hle he => ?_
    exact .pure ht (by grind)

lemma yields_raisedBase (hs : Good s) {base exponent : Expr} (hb : s.Knows base)
    (he : s.Knows exponent) : Yields s (raisedBase base exponent) := by
  unfold raisedBase
  exact .ite (fun _ => .pure hs hb) fun _ => yields_power hs hb he

variable {sum : List Expr → Build Expr} [∀ l, Growing (sum l)]

lemma yields_raisedBases (hsum : YieldsAll sum) (hs : Good s) {groups : List (Expr × List Expr)}
    (h : s.Knows groups) : Yields s (raisedBases sum groups) := by
  induction groups generalizing s with
  | nil =>
    unfold raisedBases
    exact .pure hs (by simp)
  | cons group groups ih =>
    obtain ⟨base, exponents⟩ := group
    simp only [Store.knows_cons, Store.knows_pair] at h
    obtain ⟨⟨hbase, hexponents⟩, hgroups⟩ := h
    unfold raisedBases
    refine (hsum s exponents hs hexponents).bind fun exponent t ht hle hexponent => ?_
    refine .ite (fun _ => ih ht (hgroups.mono hle)) fun _ => ?_
    refine (yields_raisedBase ht (hbase.mono hle) hexponent).bind fun e u hu hle' he => ?_
    refine (ih hu ((hgroups.mono hle).mono hle')).bind fun es v hv hle'' hes => ?_
    exact .pure hv (by grind)

lemma yields_mergePowers (hsum : YieldsAll sum) (hs : Good s) {scalars : List Expr}
    (h : s.Knows scalars) : Yields s (mergePowers sum scalars) := by
  unfold mergePowers
  refine (Yields.mapM hs _ fun e he t ht hle => yields_splitPower ht ((h e he).mono hle)).bind
    fun split t ht hle hsplit => yields_raisedBases hsum ht ?_
  refine gather_forall (fun item hitem => (hsplit item hitem).1) (fun item hitem => ?_)
    fun es item hitem hes => ?_
  · simpa using (hsplit item hitem).2
  · exact Store.knows_append.2 ⟨hes, by simpa using (hsplit item hitem).2⟩

/-- A function of two expressions keeps the invariant. -/
def YieldsBoth (pair : Expr → Expr → Build Expr) : Prop :=
  ∀ (s : Store) (a b : Expr), Good s → s.Knows a → s.Knows b → Yields s (pair a b)

lemma yields_foldProduct {pair : Expr → Expr → Build Expr} [∀ a b, Growing (pair a b)]
    (hpair : YieldsBoth pair) : YieldsAll (foldProduct pair) := by
  intro s factors hs hfactors
  unfold foldProduct
  split
  · exact yields_one hs
  · rw [Store.knows_cons] at hfactors
    exact .foldlM hs hfactors.1 _ fun b a ha t ht hle hb =>
      hpair t b a ht hb ((hfactors.2 a ha).mono hle)

lemma yields_coefficientFactor (hs : Good s) (c : Number) : Yields s (coefficientFactor c) := by
  unfold coefficientFactor
  refine .ite (fun _ => .pure hs (by simp)) fun _ => ?_
  exact (yields_number hs c).bind fun e t ht hle he => .pure ht (by grind)

lemma yields_mergeMatrices {product : List Expr → Build Expr} [∀ l, Growing (product l)]
    (hproduct : YieldsAll product) (hs : Good s) {factors : List Expr} (h : s.Knows factors) :
    Yields s (mergeMatrices product factors) := by
  unfold mergeMatrices
  refine .ite (fun _ => ?_) fun _ => .pure hs h
  refine (yields_chainWith hproduct s _ hs (h.of_subset List.filter_sublist.subset)).bind
    fun e t ht hle he => .pure ht ?_
  exact Store.knows_append.2
    ⟨(h.of_subset List.filter_sublist.subset).mono hle, knows_factors ht.wellFormed he⟩

end Products

/-! ## Canonical products -/

section Assembly

variable {sum : List Expr → Build Expr} [∀ l, Growing (sum l)]

lemma yields_leftChain (hs : Good s) {factors : List Expr} (h : s.Knows factors) (c : Number) :
    Yields s (leftChain c factors) := by
  unfold leftChain
  split
  · exact yields_number hs c
  · rw [Store.knows_cons] at h
    exact .foldlM hs h.1 _ fun b a ha t ht hle hb => yields_rawApply ht hb ((h.2 a ha).mono hle)

lemma yields_assemble (hsum : YieldsAll sum) : YieldsAll (assemble sum) := by
  intro s factors hs h
  unfold assemble
  refine (yields_settle hs _).bind fun c t ht hle _ => ?_
  refine .ite (fun _ => yields_number ht c) fun _ => ?_
  refine (yields_mergePowers hsum ht ((h.of_subset List.filter_sublist.subset).mono hle)).bind
    fun scalars u hu hle' hscalars => ?_
  refine (yields_coefficientFactor hu c).bind fun front v hv hle'' hfront => ?_
  refine yields_leftChain hv ?_ c
  simp only [Store.knows_append]
  exact ⟨⟨hfront, hscalars.mono hle''⟩,
    (h.of_subset List.filter_sublist.subset).mono (hle.trans (hle'.trans hle''))⟩

lemma yields_productAux (depth : ℕ) : YieldsAll (productAux depth) := by
  induction depth with
  | zero =>
    intro s input hs _
    unfold productAux
    exact .throw hs _
  | succ depth ih =>
    intro s input hs hinput
    have hfactors : s.Knows (input.flatMap factors) := by
      intro e he
      obtain ⟨c, hc, hmem⟩ := List.mem_flatMap.1 he
      exact knows_factors hs.wellFormed (hinput c hc) e hmem
    unfold productAux
    refine (yields_settle hs _).bind fun c t ht hle _ => ?_
    refine .ite (fun _ => yields_number ht c) fun _ => ?_
    refine (yields_mergeMatrices (yields_foldProduct fun s a b hs ha hb => ?_) ht
      (hfactors.mono hle)).bind fun merged u hu hle' hmerged => ?_
    · refine (yields_applyDomain hs a b).bind fun _ t ht hle _ => ih t _ ht ?_
      grind
    · exact yields_assemble (yields_sumWith ih) u merged hu hmerged

end Assembly

end Expr

/-- Canonical products and sums keep up what is kept up. -/
class Upkeep.Products [Upkeep] : Prop where
  /-- Products do, at every depth. -/
  yields_productAux : ∀ depth, Expr.YieldsAll (Expr.productAux depth)
  /-- Sums do. -/
  yields_sum : Expr.YieldsAll Expr.sum

namespace Expr

variable [Upkeep]

lemma yields_canonicalProduct_of (h : ∀ depth, YieldsAll (productAux depth)) :
    YieldsAll canonicalProduct := by
  intro s factors hs hfactors
  unfold canonicalProduct
  refine (Yields.read hs).bind fun depth t ht hle _ => ?_
  exact h depth t _ ht (hfactors.mono hle)

/-- Where sums need no care, it is enough that products keep up what is kept up. -/
lemma products_of [Upkeep.Sums] (h : ∀ depth, YieldsAll (productAux depth)) : Upkeep.Products :=
  ⟨h, yields_sumWith (yields_canonicalProduct_of h)⟩

end Expr

instance : Upkeep.Products := Expr.products_of Expr.yields_productAux

namespace Expr

variable [Upkeep] [Upkeep.Products]

lemma yields_canonicalProduct : YieldsAll canonicalProduct :=
  yields_canonicalProduct_of Upkeep.Products.yields_productAux

lemma yields_sum : YieldsAll sum := Upkeep.Products.yields_sum

end Expr

end TermGraph
