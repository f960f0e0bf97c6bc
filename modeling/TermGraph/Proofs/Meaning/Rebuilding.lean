import TermGraph.Proofs.Meaning.Substitution

/-!
# The value of rebuilt expressions

A node over new children has the value that its kind makes of theirs.  Products, powers and calls are
applied again, and sums are added up again.  A summation is rebuilt by way of a symbol of its own:
its body is written with the new symbol, and the placeholder that it is then given instead may not
occur in that body.

* `delivers_apply`, `delivers_call`: products, powers and calls have the values that they stand for.
* `ensures_endIndexedSumWith`, `delivers_reindexed`: a new summation has the value of the range.
* `composes_rebuildAux`: nodes are rebuilt to what their new children make of them.
* `value_substitute`: substitution gives a symbol the value of its replacement.
-/

namespace TermGraph

open Store (Knows faithfulStores faithfulStores_le)

namespace Kind

lemma eq_indexedSum_of_code {k : Kind} {index lower upper body : Expr}
    (h : k.code = (Kind.indexedSum index lower upper body).code) :
    ∃ index' lower' upper' body', k = .indexedSum index' lower' upper' body' ∧
      index'.ordinal = index.ordinal ∧ lower'.ordinal = lower.ordinal ∧
      upper'.ordinal = upper.ordinal ∧ body'.ordinal = body.ordinal := by
  cases k <;> simp [code] at h
  case indexedSum index' lower' upper' body' => exact ⟨index', lower', upper', body', rfl, h⟩

end Kind

namespace Expr

variable {A : Type} [CommRing A] {F : Builtin → Prop} {I : Reading A} {s : Store} {d : ℕ}
  {e a t b n x r : Expr} {v w y : Valuation A → A}

/-! ## Occurrences -/

section Occurrences

/-- An ordinal is free in an expression if a symbol with this ordinal occurs free. -/
lemma free_iff_occursFree {i : ℕ} : e.Free i ↔ ∃ x, OccursFree x e ∧ x.ordinal = i := by
  constructor
  · intro h
    induction h with
    | self hsymbol heq => exact ⟨_, .symbol hsymbol, heq⟩
    | operand hc _ ih =>
      obtain ⟨x, hx, heq⟩ := ih
      exact ⟨x, .operand hc hx, heq⟩
    | body hb hbinders _ ih =>
      obtain ⟨x, hx, rfl⟩ := ih
      exact ⟨x, .body hb (by simpa using hbinders) hx, rfl⟩
  · rintro ⟨x, hx, rfl⟩
    induction hx with
    | symbol hsymbol => exact .self hsymbol rfl
    | operand hc _ ih => exact .operand hc ih
    | body hb hbinders _ ih => exact .body hb (by simpa using hbinders) ih

lemma Free.exists_below {i : ℕ} (h : e.Free i) : ∃ a, Below a e ∧ a.isSymbol = true ∧ a.ordinal = i := by
  obtain ⟨x, hx, heq⟩ := free_iff_occursFree.1 h
  exact ⟨x, hx.toBelow, hx.isSymbol, heq⟩

/-- What occurs in a known expression is known. -/
lemma Free.lt_size (hs : s.WellFormed) (he : s.Knows e) {i : ℕ} (h : e.Free i) :
    i < s.nodes.size := by
  obtain ⟨a, ha, -, rfl⟩ := h.exists_below
  exact Store.WellFormed.lt_size (ha.knows hs he)

/-- A symbol has itself as its only free symbol. -/
lemma Free.eq_of_isSymbol {i : ℕ} (hx : x.isSymbol = true) (h : x.Free i) : i = x.ordinal := by
  obtain ⟨ordinal, domain, kind⟩ := x
  cases kind <;> simp [isSymbol, Expr.kind] at hx
  cases h with
  | self _ heq => exact heq.symm
  | operand hc _ => simp [operands, Expr.kind] at hc
  | body hb _ _ => simp [body?, Expr.kind] at hb

/-- The index of a summation is among its children. -/
lemma mem_children_of_index? {y : Expr} (h : y ∈ e.kind.index?) : y ∈ e.children := by
  unfold Kind.index? at h
  unfold children
  cases hkind : e.kind <;> simp_all [Kind.children]

/-- A symbol that is newer than an expression is clear of it. -/
lemma Clear.of_size_le (hs : s.WellFormed) (he : s.Knows e) (hr : r.isSymbol = true)
    (hnew : s.nodes.size ≤ r.ordinal) (x : Expr) : Clear x r e := by
  intro a ha y hy _ hfree
  have hlt := Store.WellFormed.lt_size (hs.children (ha.knows hs he) y (mem_children_of_index? hy))
  rw [hfree.eq_of_isSymbol hr] at hlt
  omega

end Occurrences

/-! ## Applications -/

section Applications

variable {depth : ℕ}

/-- The application of numbers or matrices is their product. -/
lemma applyAux_product {domain : Domain} (hdomain : applyDomain? t a = some domain)
    (hm : multiplies t a = true) : applyAux (depth + 1) t a = canonicalProduct [t, a] := by
  simp only [multiplies, Bool.and_eq_true, Option.isNone_iff_eq_none] at hm
  obtain ⟨⟨hfunction, ht⟩, ha⟩ := hm
  have happly : applyDomain t a = pure domain := by rw [applyDomain, hdomain]
  rw [applyAux, hfunction]
  simp only [happly, pure_bind]
  rw [if_pos (by simp [ht, ha])]

/-- The application of the power function to a pair. -/
lemma applyAux_power (ht : t.kind = .function (.builtin .pow)) (ha : a.kind = .tuple [b, n]) :
    applyAux (depth + 1) t a = powerOf t a b n := by
  have hfunction : t.function? = some (.builtin .pow) := by rw [function?, ht]
  have hargs : (Function.builtin .pow).arguments a = [b, n] := by
    simp [Function.arguments, ha, Function.arity, Builtin.arity]
  rw [applyAux, hfunction]
  simp only [callWith, hargs]
  rw [if_neg (by simp [Function.arity, Builtin.arity])]

/-- What is no package of arguments is the only argument in itself. -/
lemma arguments_of_kind_ne (ha : ∀ l, a.kind ≠ .tuple l) (f : Function) : f.arguments a = [a] := by
  unfold Function.arguments
  split
  · exact absurd ‹_› (ha _)
  · rfl

lemma arity_of_ne_pow {f : Builtin} (hf : f ≠ .pow) : f.arity = 1 := by
  cases f <;> first | rfl | exact absurd rfl hf

/-- The application of a function of one argument. -/
lemma applyAux_call {f : Builtin} (ht : t.kind = .function (.builtin f)) (hf : f ≠ .pow)
    (ha : ∀ l, a.kind ≠ .tuple l) : applyAux (depth + 1) t a = rawApply t a := by
  have hfunction : t.function? = some (.builtin f) := by rw [function?, ht]
  have hcall (sub : Substitute) : callWith sub (.builtin f) t a = rawApply t a := by
    simp [callWith, arguments_of_kind_ne ha, Function.arity, arity_of_ne_pow hf]
  rw [applyAux, hfunction]
  exact hcall _

lemma applyDomain?_call {f : Builtin} (ht : t.kind = .function (.builtin f))
    (hdomain : t.domain = .functions) (hf : f ≠ .pow) (ha : ∀ l, a.kind ≠ .tuple l)
    (hscalar : a.domain.isScalar = true) : applyDomain? t a = some .reals := by
  simp [applyDomain?, Domain.leftApply?, Domain.firstAnswer, Domain.lineage, hdomain, function?, ht,
    Function.resultDomain?, arguments_of_kind_ne ha, Function.arity, arity_of_ne_pow hf, hscalar]

/-- The application of scalars is their product. -/
lemma ensures_applyAux_product (hs : Good s) (hd : 0 < d) (hknown : s.Knows t) (hknown' : s.Knows a)
    (ht : HasValue F I v t) (ha : HasValue F I w a) :
    Ensures faithfulStores d s (applyAux depth t a) fun e _ => HasValue F I (v * w) e := by
  cases depth with
  | zero =>
    rw [applyAux]
    exact .throw _
  | succ depth =>
    obtain ⟨domain, hdomain, -⟩ := applyDomain?_real ht.scalar.real ha.scalar.real
    rw [applyAux_product hdomain (by simp [multiplies, ht.scalar.function?, ht.scalar.real.isLinear,
      ha.scalar.real.isLinear])]
    have hproduct := Meaning.achieves_canonicalProduct (M := meaning F I) hs hd (l := [t, a])
      (by simpa using ⟨ht.scalar, ha.scalar⟩) (by simpa using ⟨hknown, hknown'⟩)
    refine (hproduct.ensures faithfulStores_le).imp fun e _ _ _ he => ?_
    simpa [ht.value_eq, ha.value_eq] using he

/-- The power function applied to a pair of a scalar and a literal. -/
lemma ensures_applyAux_power (hs : Good s) {k : ℕ} (hknown : s.Knows t) (hknown' : s.Knows a)
    (ht : t.kind = .function (.builtin .pow)) (ha : a.kind = .tuple [b, n])
    (hb : HasValue F I v b) (hn : IsLiteral k n) :
    Ensures faithfulStores d s (applyAux depth t a) fun e _ => HasValue F I (v ^ k) e := by
  cases depth with
  | zero =>
    rw [applyAux]
    exact .throw _
  | succ depth =>
    rw [applyAux_power ht ha]
    exact (Meaning.achieves_powerOf (M := meaning F I) hs ht ha hknown hknown' hb hn).ensures
      faithfulStores_le

/-- A function of one argument applied to a scalar. -/
lemma ensures_applyAux_call (hs : Good s) {f : Builtin} (hknown : s.Knows t) (hknown' : s.Knows a)
    (ht : t.kind = .function (.builtin f)) (hf : f ≠ .pow) (hF : F f) (ha : HasValue F I v a) :
    Ensures faithfulStores d s (applyAux depth t a) fun e _ =>
      HasValue F I (fun ρ => I.call f (v ρ)) e := by
  cases depth with
  | zero =>
    rw [applyAux]
    exact .throw _
  | succ depth =>
    have htyped := ((good_store.1 hs).admits hknown).typed
    rw [ht] at htyped
    rw [applyAux_call ht hf ha.scalar.kind_ne.2]
    refine ((Expr.achieves_rawApply hs hknown hknown' (P := (· = .reals))
      ⟨.reals, applyDomain?_call ht htyped hf ha.scalar.kind_ne.2 ha.scalar.real.isScalar, rfl⟩).ensures
        faithfulStores_le).imp fun e _ _ _ he =>
          ⟨.call he.1 (.inr he.2) ht hf hF ha.scalar, funext fun ρ => ?_⟩
    rw [← ha.value_eq]
    exact value_call he.1 ht hf

end Applications

/-! ## Operations -/

section Operations

lemma delivers_int (hs : Good s) (k : Int64) :
    Delivers faithfulStores d s (int k) fun e _ => IsLiteral k.toInt e :=
  (achieves_int hs k).delivers faithfulStores_le

lemma delivers_apply (hs : Good s) (hd : 0 < d) (hknown : s.Knows t) (hknown' : s.Knows a)
    (ht : HasValue F I v t) (ha : HasValue F I w a) :
    Delivers faithfulStores d s (apply t a) fun e _ => HasValue F I (v * w) e :=
  ⟨yields_apply s t a hs hknown hknown' d, .read (ensures_applyAux_product hs hd hknown hknown' ht ha)⟩

lemma delivers_foldlM_apply (hs : Good s) (hd : 0 < d) {l : List Expr} {vs : List (Valuation A → A)}
    (h : List.Forall₂ (HasValue F I) vs l) (hknown : s.Knows l) (ha : HasValue F I v a)
    (hknown' : s.Knows a) :
    Delivers faithfulStores d s (l.foldlM apply a) fun e _ => HasValue F I (v * vs.prod) e where
  yields := Yields.foldlM hs hknown' l (fun b e he t ht hle hb =>
    yields_apply t b e ht hb ((hknown e he).mono hle)) d
  ensures := by
    induction h generalizing s v a with
    | nil => exact .pure (by simpa using ha)
    | cons hb _ ih =>
      rw [Store.knows_cons] at hknown
      rw [List.foldlM_cons, List.prod_cons, ← mul_assoc]
      exact (delivers_apply hs hd hknown' hknown.1 ha hb).bind fun e t ht hle he _ hvalue =>
        ih ht (hknown.2.mono hle) hvalue he

/-- A product of scalars in order. -/
lemma delivers_product (hs : Good s) (hd : 0 < d) {l : List Expr} {vs : List (Valuation A → A)}
    (h : List.Forall₂ (HasValue F I) vs l) (hknown : s.Knows l) :
    Delivers faithfulStores d s (product l) fun e _ => HasValue F I vs.prod e := by
  unfold product foldProduct
  cases h with
  | nil =>
    refine ((achieves_one hs).delivers faithfulStores_le).imp fun e _ he => ?_
    simpa using Meaning.denotes_literal (M := meaning F I) he
  | cons hb h =>
    rw [Store.knows_cons] at hknown
    exact delivers_foldlM_apply hs hd h hknown.2 hb hknown.1

lemma delivers_mul (hs : Good s) (hd : 0 < d) (hknown : s.Knows t) (hknown' : s.Knows a)
    (ht : HasValue F I v t) (ha : HasValue F I w a) :
    Delivers faithfulStores d s (product [t, a]) fun e _ => HasValue F I (v * w) e := by
  simpa using delivers_product hs hd (.cons ht (.cons ha .nil)) (by simpa using ⟨hknown, hknown'⟩)

lemma delivers_sum (hs : Good s) (hd : 0 < d) {l : List Expr} (hknown : s.Knows l)
    {vs : List (Valuation A → A)} (h : List.Forall₂ (HasValue F I) vs l) :
    Delivers faithfulStores d s (sum l) fun e _ => HasValue F I vs.sum e := by
  obtain ⟨hscalars, hmap⟩ := Meaning.scalar_of_forall₂ h
  rw [← hmap]
  exact (Meaning.achieves_sum hs hd hknown hscalars).delivers faithfulStores_le

lemma delivers_neg (hs : Good s) (hd : 0 < d) (hknown : s.Knows a) (ha : HasValue F I v a) :
    Delivers faithfulStores d s (neg a) fun e _ => HasValue F I (-v) e where
  yields := yields_neg hs hknown d
  ensures := by
    unfold neg
    refine (delivers_int hs (-1)).bind fun m t ht hle hm _ hliteral => ?_
    have hvalue := (delivers_apply ht hd hm (hknown.mono hle)
      (Meaning.denotes_literal (M := meaning F I) hliteral) (ha)).ensures
    simpa using hvalue

lemma delivers_call (hs : Good s) {f : Builtin} (hf : f ≠ .pow) (hF : F f) (hknown : s.Knows a)
    (ha : HasValue F I v a) : Delivers faithfulStores d s (call (.builtin f) [a]) fun e _ =>
      HasValue F I (fun ρ => I.call f (v ρ)) e where
  yields := yields_call hs (by simp) (by simpa using hknown) d
  ensures := by
    unfold call
    refine ((achieves_builtin hs f).delivers faithfulStores_le).bind
      fun t u hu hle hknownt _ ht => ?_
    simp only [tuple, pure_bind]
    exact .read (ensures_applyAux_call hu hknownt (hknown.mono hle) ht hf hF ha)

lemma delivers_call_pow (hs : Good s) {k : ℕ} (hknown : s.Knows b) (hknown' : s.Knows n)
    (hb : HasValue F I v b) (hn : IsLiteral k n) :
    Delivers faithfulStores d s (call (.builtin .pow) [b, n]) fun e _ =>
      HasValue F I (v ^ k) e where
  yields := yields_call hs (by simp) (by simpa using ⟨hknown, hknown'⟩) d
  ensures := by
    unfold call
    refine ((achieves_builtin hs .pow).delivers faithfulStores_le).bind
      fun t u hu hle hknownt _ ht => ?_
    refine ((achieves_pair hu (hknown.mono hle) (hknown'.mono hle)).delivers faithfulStores_le).bind
      fun a w hw hle' hknowna _ ha => ?_
    exact .read (ensures_applyAux_power hw (hknownt.mono hle') hknowna ht ha hb hn)

end Operations

/-! ## Summations -/

section Summations

variable {substitute : Substitute} [∀ pairs e, Growing (substitute pairs e)]

omit [∀ pairs e, Growing (substitute pairs e)] in
/-- The placeholder for an index over the integers. -/
lemma placeholder_integers (hs : s.WellFormed) (level : ℕ) :
    (s.placeholder level .integers).1.isSymbol = true ∧
      (s.placeholder level .integers).1.domain = .integers := by
  obtain ⟨hwf, -, p, hp, -, hdomain, hsymbol⟩ := hs.placeholderOf level .integers
  rw [← hsymbol, (hwf.placeholder hp).2]
  refine ⟨rfl, ?_⟩
  show p.domain = .integers
  cases hd : p.domain <;> simp [hd, Domain.same] at hdomain ⊢

/-- The placeholder for an index over the integers is a real symbol. -/
lemma delivers_placeholder (hs : Good s) (level : ℕ) :
    Delivers faithfulStores d s (Build.step (Store.placeholder level .integers)) fun p _ =>
      p.isSymbol = true ∧ p.IsScalar F := by
  obtain ⟨hwf, hknown, -⟩ := (good_store.1 hs).placeholderOf level .integers
  obtain ⟨hsymbol, hdomain⟩ := placeholder_integers (good_store.1 hs) level
  obtain ⟨name, hkind⟩ := exists_symbol hsymbol
  exact ⟨⟨good_store.2 hwf, hknown⟩, .step ⟨hsymbol, .symbol hkind (.inl hdomain)⟩⟩

/-- The symbol for the index of a new summation is newer than everything else. -/
lemma delivers_beginIndexedSum (hs : Good s) (lower upper : Expr) :
    Delivers faithfulStores d s (beginIndexedSum lower upper) fun i _ =>
      i.isSymbol = true ∧ i.IsScalar F ∧ i.domain = .integers ∧ s.nodes.size ≤ i.ordinal where
  yields := yields_beginIndexedSum hs lower upper d
  ensures := by
    unfold beginIndexedSum
    refine .ite (fun _ => .throw _) fun _ => .ite (fun _ => .throw _) fun _ => ?_
    exact Ensures.step (f := Store.intern .integers (.symbol "i"))
      ⟨rfl, .symbol rfl (.inl rfl), rfl, le_rfl⟩

/-- The summation node over real expressions. -/
lemma ensures_intern_indexedSum (hs : Good s) {domain : Domain} {index lower upper body : Expr}
    (hindex : ∃ p ∈ s.placeholders, p.symbol = index) (hsymbol : index.isSymbol = true)
    (hl : HasValue F I v lower) (hu : HasValue F I w upper) (hb : HasValue F I y body)
    (hknownl : s.Knows lower) (hknownu : s.Knows upper) (hknownb : s.Knows body) :
    Ensures faithfulStores d s (Build.intern domain (.indexedSum index lower upper body)) fun e _ =>
      HasValue F I (rangeValue I index.ordinal v w y) e := by
  have hknowni : s.Knows index := by
    obtain ⟨p, hp, rfl⟩ := hindex
    exact ((good_store.1 hs).placeholder hp).1
  have hadm : s.Admits domain (.indexedSum index lower upper body) := by
    refine ⟨?_, fun _ h => h.elim, trivial, by simpa [Kind.index?] using hindex⟩
    simpa [Kind.children] using ⟨hknowni, hknownl, hknownu, hknownb⟩
  obtain ⟨hwf, hknown, hcode⟩ := (good_store.1 hs).intern hadm
  have hle := Store.le_intern domain (.indexedSum index lower upper body) s
  rintro _ _ ⟨⟩ hfaithful
  obtain ⟨index', lower', upper', body', hkind, hi, hl', hu', hb'⟩ := Kind.eq_indexedSum_of_code hcode
  have hchildren := hwf.children hknown
  simp only [children, hkind, Kind.children, Store.knows_cons] at hchildren
  -- The node that was found has these very children.
  obtain rfl := Store.WellFormed.eq_of_ordinal hchildren.1 (hknowni.mono hle) hi
  obtain rfl := Store.WellFormed.eq_of_ordinal hchildren.2.1 (hknownl.mono hle) hl'
  obtain rfl := Store.WellFormed.eq_of_ordinal hchildren.2.2.1 (hknownu.mono hle) hu'
  obtain rfl := Store.WellFormed.eq_of_ordinal hchildren.2.2.2.1 (hknownb.mono hle) hb'
  have hreal := Store.Faithful.real hfaithful hknown hkind hb.scalar.real
  refine ⟨.indexedSum hkind hreal hsymbol hl.scalar hu.scalar hb.scalar, funext fun ρ => ?_⟩
  rw [rangeValue, ← hl.value_eq, ← hu.value_eq, ← hb.value_eq]
  exact value_indexedSum hkind

/-- The index of a summation can be renamed to a symbol that is not free in the body. -/
lemma rangeValue_replaced (hr : r.isSymbol = true) (hb : b.IsScalar F)
    (hfree : ¬b.Free r.ordinal) :
    rangeValue I r.ordinal v w (fun ρ => b.value I (replaced I x r ρ)) =
      rangeValue I x.ordinal v w fun ρ => b.value I ρ := by
  funext ρ
  refine Finset.sum_congr rfl fun k _ => ?_
  show b.value I (replaced I x r _) = _
  rw [replaced, value_of_isSymbol hr, Function.update_self]
  by_cases heq : r.ordinal = x.ordinal
  · rw [heq, Function.update_idem]
  · rw [Function.update_comm heq, value_update hb hfree]

/-- The body is written with an index that does not occur in it. -/
lemma delivers_bindIndex (hyields : YieldsSubstituted substitute)
    (hsub : SubstitutesSymbol F I d substitute) (hs : Good s) (hx : s.Knows x) (hknown : s.Knows b)
    (hsymbol : x.isSymbol = true) (hdomain : x.domain = .integers) (hb : b.IsScalar F) :
    Delivers faithfulStores d s (bindIndex substitute x b) fun q t =>
      (∃ p ∈ t.placeholders, p.symbol = q.1) ∧ q.1.isSymbol = true ∧ ¬b.Free q.1.ordinal ∧
        HasValue F I (fun ρ => b.value I (replaced I x q.1 ρ)) q.2 where
  yields := (sound_bindIndex hyields hs hx hknown d).imp fun _ _ _ h => h.1
  ensures := by
    suffices h : Ensures faithfulStores d s (bindIndex substitute x b) fun q _ =>
        q.1.isSymbol = true ∧ ¬b.Free q.1.ordinal ∧
          HasValue F I (fun ρ => b.value I (replaced I x q.1 ρ)) q.2 from
      h.imp fun q t hrun _ hq => ⟨((sound_bindIndex hyields hs hx hknown d).of_ok hrun).2.2, hq⟩
    unfold bindIndex
    rw [hdomain]
    refine (delivers_placeholder (F := F) hs _).bind fun p t ht hle hp _ hplaceholder => ?_
    have hnote : Delivers faithfulStores d t (Build.noteIndex p b) fun _ u => (p, b) ∈ u.bound :=
      ⟨yields_noteIndex ht p b d, .step (by simp [Store.noteIndex])⟩
    refine hnote.bind fun _ u hu hle' _ hfaithful hmem => ?_
    have hle'' := hle.trans hle'
    -- The index does not occur in the body, or the store would not be faithful.
    have hfresh {a : Expr} (ha : Below a b) : a.ordinal ≠ p.ordinal := fun heq =>
      hfaithful.fresh _ hmem (Store.WellFormed.eq_of_ordinal (ha.knows (good_store.1 hu)
        (hknown.mono hle'')) (hp.mono hle') heq ▸ ha)
    have hclear : Clear x p b := fun a ha y hy _ hfree =>
      hfresh (.trans (.step (mem_children_of_index? hy) .refl) ha)
        (hfree.eq_of_isSymbol hplaceholder.1)
    refine (Delivers.mk (hyields u _ b hu (by simpa using ⟨hx.mono hle'', hp.mono hle'⟩)
      (hknown.mono hle'') d) (hsub hu (hx.mono hle'') (hp.mono hle') (hknown.mono hle'') hsymbol
        hplaceholder.2 hb hclear)).bind fun b' w _ _ _ _ hvalue => .pure ⟨hplaceholder.1, ?_, hvalue⟩
    intro hfree
    obtain ⟨a, ha, -, heq⟩ := hfree.exists_below
    exact hfresh ha heq

/-- A summation whose body is written with a symbol for the index has the value of the range. -/
lemma ensures_endIndexedSumWith (hyields : YieldsSubstituted substitute)
    (hsub : SubstitutesSymbol F I d substitute) (hs : Good s) {lower upper : Expr}
    (hx : s.Knows x) (hsymbol : x.isSymbol = true) (hdomain : x.domain = .integers)
    (hl : HasValue F I v lower) (hu : HasValue F I w upper) (hb : HasValue F I y b)
    (hknownl : s.Knows lower) (hknownu : s.Knows upper) (hknownb : s.Knows b) :
    Ensures faithfulStores d s (endIndexedSumWith substitute lower upper x b) fun e _ =>
      HasValue F I (rangeValue I x.ordinal v w y) e := by
  unfold endIndexedSumWith bodyDomain
  cases hresolve : b.domain.resolveSum? b.domain with
  | none =>
    rintro _ _ ⟨⟩
  | some domain =>
    simp only [pure_bind]
    refine (delivers_bindIndex hyields hsub hs hx hknownb hsymbol hdomain hb.scalar).bind
      fun q t ht hle hknown _ hq => ?_
    obtain ⟨hplaceholder, hindex, hfree, hvalue⟩ := hq
    rw [Store.knows_pair] at hknown
    have hrange := rangeValue_replaced (I := I) (x := x) (v := v) (w := w) hindex hb.scalar hfree
    rw [show y = fun ρ => b.value I ρ from hb.value_eq.symm, ← hrange]
    exact ensures_intern_indexedSum ht hplaceholder hindex hl hu hvalue (hknownl.mono hle)
      (hknownu.mono hle) hknown.2

/-- A summation over a body whose index is exchanged for a new symbol has the value of the range. -/
lemma delivers_reindexed (hyields : YieldsSubstituted substitute)
    (hsub : SubstitutesSymbol F I d substitute) (hs : Good s) {index lower upper : Expr}
    (hindex : s.Knows index) (hsymbol : index.isSymbol = true)
    (hl : HasValue F I v lower) (hu : HasValue F I w upper) (hb : HasValue F I y b)
    (hknownl : s.Knows lower) (hknownu : s.Knows upper) (hknownb : s.Knows b) :
    Delivers faithfulStores d s (do
      let i ← beginIndexedSum lower upper
      endIndexedSumWith substitute lower upper i (← substitute [(index, i)] b)) fun e _ =>
        HasValue F I (rangeValue I index.ordinal v w y) e where
  yields := yields_reindexed hyields hs hindex hknownl hknownu hknownb d
  ensures := by
    refine (delivers_beginIndexedSum (F := F) hs lower upper).bind fun i t ht hle hknowni _ hi => ?_
    obtain ⟨hisymbol, hiscalar, hidomain, hnew⟩ := hi
    have hfree : ¬b.Free i.ordinal := fun h => by
      have := h.lt_size (good_store.1 hs) hknownb
      omega
    refine (Delivers.mk (hyields t [(index, i)] b ht (by simpa using ⟨hindex.mono hle, hknowni⟩)
      (hknownb.mono hle) d) (hsub ht (hindex.mono hle) hknowni (hknownb.mono hle) hsymbol hiscalar
        hb.scalar (.of_size_le (good_store.1 hs) hknownb hisymbol hnew index))).bind
      fun b' u hu hle' hknownb' _ hvalue => ?_
    have hle'' := hle.trans hle'
    have hrange := rangeValue_replaced (I := I) (x := index) (v := v) (w := w) hisymbol hb.scalar
      hfree
    rw [show y = fun ρ => b.value I ρ from hb.value_eq.symm, ← hrange]
    exact ensures_endIndexedSumWith hyields hsub hu (hknowni.mono hle') hisymbol hidomain hl ‹_›
      hvalue (hknownl.mono hle'') (hknownu.mono hle'') hknownb'

end Summations

/-! ## Rebuilding -/

section Rebuilding

/-- New children that look like the old ones are the old ones. -/
lemma eq_children_of_all {l : List Expr} (hs : s.WellFormed) (he : s.Knows e) (hl : s.Knows l)
    (hlength : l.length = e.children.length)
    (h : ((l.zip e.children).all fun (new, old) => new == old) = true) : l = e.children := by
  refine Store.WellFormed.eq_of_ordinals hl (hs.children he) (List.ext_getElem (by simpa) ?_)
  intro i hi hi'
  simp only [List.length_map] at hi hi'
  have hmem : (l[i], e.children[i]) ∈ l.zip e.children := by
    rw [← List.getElem_zip (h := by simp; omega)]
    exact List.getElem_mem _
  have hsame := List.all_eq_true.1 h _ hmem
  simpa using hsame

/-- A node over its own children stays; over others it is made anew. -/
lemma ensures_rebuildAux {depth : ℕ} {Q : Expr → Prop} {l : List Expr} {x : Build Expr}
    (hs : Good s) (he : s.Knows e) (hl : s.Knows l) (hlength : l.length = e.children.length)
    (hrun : rebuildAux (depth + 1) e l =
      if (l.zip e.children).all fun (new, old) => new == old then pure e else x)
    (hsame : l = e.children → Q e) (hnew : Ensures faithfulStores d s x fun e' _ => Q e') :
    Ensures faithfulStores d s (rebuildAux (depth + 1) e l) fun e' _ => Q e' := by
  rw [hrun]
  exact .ite (fun h => .pure (hsame (eq_children_of_all (good_store.1 hs) he hl hlength h)))
    fun _ => hnew

variable {depth : ℕ}

lemma composes_rebuildAux (hd : 0 < d) (depth : ℕ) : Composes F I d (rebuildAux depth) := by
  induction depth with
  | zero =>
    -- No depth is left, and there is no result.
    constructor <;> intros <;> rw [rebuildAux] <;> exact .throw _
  | succ depth ih =>
    obtain ⟨-, hrebuild⟩ := yields_applyAux_rebuildAux depth
    have hyields : YieldsSubstituted (substituteWith (rebuildAux depth)) :=
      fun s pairs e hs hpairs he => yields_substituteWith hrebuild hs hpairs he
    have hsub := substitutesSymbol_substituteWith hrebuild ih
    constructor
    case sum =>
      intro s e terms items vs hs he hitems hkind hreal hlength hvalues
      obtain ⟨hscalars, hmap⟩ := Meaning.scalar_of_forall₂ hvalues
      -- Over its own children the node is kept, and over others it is built anew; so in all cases.
      refine ensures_rebuildAux hs he hitems (by simpa [children, hkind, Kind.children])
        (by rw [rebuildAux, hkind]) (fun h => ?_) ?_
      · rw [children, hkind, Kind.children] at h
        refine ⟨.sum hkind hreal (h ▸ hscalars), ?_⟩
        rw [← hmap, h]
        exact (meaning F I).value_sum hkind
      · rw [← hmap]
        exact (Meaning.achieves_sum hs hd hitems hscalars).ensures faithfulStores_le
    case product =>
      intro s e t a t' a' v w hs he ht ha hkind hreal hfunction hv hw
      refine ensures_rebuildAux hs he (by simpa using ⟨ht, ha⟩)
        (by simp [children, hkind, Kind.children]) (by rw [rebuildAux, hkind]) (fun h => ?_)
        (ensures_applyAux_product hs hd ht ha hv hw)
      rw [children, hkind, Kind.children, List.cons.injEq, List.cons.injEq] at h
      obtain ⟨rfl, rfl, -⟩ := h
      refine ⟨.product hkind hreal hv.scalar hw.scalar, ?_⟩
      rw [← hv.value_eq, ← hw.value_eq]
      exact (meaning F I).value_product hkind hfunction
    case pair =>
      intro s e b n b' n' hs he hb hn hkind
      refine ensures_rebuildAux hs he (by simpa using ⟨hb, hn⟩)
        (by simp [children, hkind, Kind.children]) (by rw [rebuildAux, hkind]) (fun h => ?_)
        ((achieves_pair hs hb hn).ensures faithfulStores_le)
      rw [hkind, h, children, hkind, Kind.children]
    case power =>
      intro s e t a a' b n v k hs he ha hkind hreal ht hkind' hb hk hn
      have hknown := ((good_store.1 hs).knows_of_apply he hkind).1
      refine ensures_rebuildAux hs he (by simpa using ⟨hknown, ha⟩)
        (by simp [children, hkind, Kind.children]) (by rw [rebuildAux, hkind]) (fun h => ?_)
        (ensures_applyAux_power hs hknown ha ht hkind' hb hn)
      rw [children, hkind, Kind.children, List.cons.injEq, List.cons.injEq] at h
      obtain ⟨-, rfl, -⟩ := h
      have hpower : e.power? = some (b, n) := power?_eq_some.2 ⟨t, a', hkind, ht, hkind'⟩
      refine ⟨.power hpower hreal hb.scalar hk hn, ?_⟩
      rw [← hb.value_eq]
      exact (meaning F I).value_power hpower hn
    case call =>
      intro s e t a a' f v hs he ha hkind hreal ht hf hF hv
      have hknown := ((good_store.1 hs).knows_of_apply he hkind).1
      refine ensures_rebuildAux hs he (by simpa using ⟨hknown, ha⟩)
        (by simp [children, hkind, Kind.children]) (by rw [rebuildAux, hkind]) (fun h => ?_)
        (ensures_applyAux_call hs hknown ha ht hf hF hv)
      rw [children, hkind, Kind.children, List.cons.injEq, List.cons.injEq] at h
      obtain ⟨-, rfl, -⟩ := h
      refine ⟨.call hkind hreal ht hf hF hv.scalar, ?_⟩
      rw [← hv.value_eq]
      exact funext fun ρ => value_call hkind ht hf
    case indexedSum =>
      intro s e index lower upper body lower' upper' body' v w y hs he hl hu hb hkind hsymbol hreal
        hv hw hy
      have hknown := (good_store.1 hs).children he
      simp only [children, hkind, Kind.children, Store.knows_cons] at hknown
      refine ensures_rebuildAux hs he (by simpa using ⟨hknown.1, hl, hu, hb⟩)
        (by simp [children, hkind, Kind.children]) (by rw [rebuildAux, hkind]) (fun h => ?_)
        (delivers_reindexed hyields hsub hs hknown.1 hsymbol hv hw hy hl hu hb).ensures
      rw [children, hkind, Kind.children, List.cons.injEq, List.cons.injEq, List.cons.injEq,
        List.cons.injEq] at h
      obtain ⟨-, rfl, rfl, rfl, -⟩ := h
      refine ⟨.indexedSum hkind hreal hsymbol hv.scalar hw.scalar hy.scalar, ?_⟩
      rw [← hv.value_eq, ← hw.value_eq, ← hy.value_eq]
      exact funext fun ρ => value_indexedSum hkind

lemma composes_rebuild (hd : 0 < d) : Composes F I d rebuild := by
  have h := composes_rebuildAux (F := F) (I := I) hd d
  exact ⟨h.sum, h.product, h.pair, h.power, h.call, h.indexedSum⟩

/-- Substitution for a symbol puts the value of the replacement in. -/
theorem substitutesSymbol_substitute (hd : 0 < d) : SubstitutesSymbol F I d substitute :=
  substitutesSymbol_substituteWith yields_rebuild (composes_rebuild hd)

/-- **Substitution lemma.**  Let no summation in `e` bind a symbol that is free in `r`.  If `r` can be
substituted for the symbol `x` in `e`, and nothing has happened in the final store that results could
be wrong by, then the value of the result is that of `e` where `x` has the value of `r`. -/
theorem value_substitute (hs : s.WellFormed) (hd : 0 < d) (hx : s.Knows x) (hr : s.Knows r)
    (he : s.Knows e) (hsymbol : x.isSymbol = true) (hrscalar : r.IsScalar F)
    (hescalar : e.IsScalar F) (hclear : Clear x r e) {e' : Expr} {t : Store}
    (hrun : substitute [(x, r)] e d s = .ok e' t) (ht : t.Faithful) :
    e'.IsScalar F ∧ ∀ ρ : Valuation A,
      e'.value I ρ = e.value I (Function.update ρ x.ordinal (r.value I ρ)) := by
  obtain ⟨hscalar, hvalue⟩ := substitutesSymbol_substitute (I := I) hd (good_store.2 hs) hx hr he hsymbol
    hrscalar hescalar hclear e' t hrun ht
  exact ⟨hscalar, congrFun hvalue⟩

/-- In the sum of `y` from one to one, a sum with the same index is put for `y`. -/
theorem value_substitute_sum :
    let s₁ := (Store.initial.intern .reals (.symbol "y")).2
    let y := (Store.initial.intern .reals (.symbol "y")).1
    let s₂ := (s₁.intern .integers (.number .one)).2
    let one := (s₁.intern .integers (.number .one)).1
    let index := (s₂.placeholder 1 .integers).1
    let s₃ := (s₂.intern .reals (.indexedSum index one one y)).2
    let e := (s₂.intern .reals (.indexedSum index one one y)).1
    let r := (s₃.intern .integers (.indexedSum index one one index)).1
    let s := (s₃.intern .integers (.indexedSum index one one index)).2
    let I : Reading ℤ := .integers fun _ => id
    ∃ e' t, substitute [(y, r)] e 9 s = .ok e' t ∧ ∀ ρ : Valuation ℤ,
      e'.value I ρ = e.value I (Function.update ρ y.ordinal (r.value I ρ)) := by
  intro s₁ y s₂ one index s₃ e r s I
  cases hrun : substitute [(y, r)] e 9 s with
  | error _ _ =>
    have hok : (match substitute [(y, r)] e 9 s with | .ok _ _ => true | .error _ _ => false) = true := by
      decide +kernel
    rw [hrun] at hok
    cases hok
  | ok e' t =>
    have hfaithful : (finalState (substitute [(y, r)] e 9 s)).isFaithful = true := by
      decide +kernel
    rw [hrun] at hfaithful
    -- The nodes are made one after the other, and known in all later stores.
    have hadm₁ : Store.initial.Admits .reals (.symbol "y") :=
      ⟨by simp [Kind.children], fun _ h => h.elim, trivial, by simp [Kind.index?]⟩
    obtain ⟨hs₁, hy, -⟩ := Store.wellFormed_initial.intern hadm₁
    have hadm₂ : s₁.Admits .integers (.number .one) :=
      ⟨by simp [Kind.children], fun _ h => h.elim, rfl, by simp [Kind.index?]⟩
    obtain ⟨hs₂, hone, -⟩ := hs₁.intern hadm₂
    obtain ⟨hs₂', hindex, hplaceholder⟩ := hs₂.placeholderOf 1 .integers
    have hsame : (s₂.placeholder 1 .integers).2 = s₂ := rfl
    rw [hsame] at hs₂' hindex hplaceholder
    obtain ⟨p, hp, -, -, hsymbol⟩ := hplaceholder
    have hy₂ : s₂.Knows y := hy.mono (Store.le_intern _ _ _)
    have hadm₃ : s₂.Admits .reals (.indexedSum index one one y) :=
      ⟨by simpa [Kind.children] using ⟨hindex, hone, hy₂⟩, fun _ h => h.elim, trivial,
        by simpa [Kind.index?] using ⟨p, hp, hsymbol⟩⟩
    obtain ⟨hs₃, he, -⟩ := hs₂.intern hadm₃
    have hle₃ : s₂ ≤ s₃ := Store.le_intern _ _ _
    have hadm : s₃.Admits .integers (.indexedSum index one one index) :=
      ⟨by simpa [Kind.children] using ⟨hindex.mono hle₃, hone.mono hle₃, hindex.mono hle₃⟩, fun _ h => h.elim, trivial,
        by simpa [Kind.index?] using ⟨p, hle₃.placeholders.subset hp, hsymbol⟩⟩
    obtain ⟨hs, hr, -⟩ := hs₃.intern hadm
    have hle : s₃ ≤ s := Store.le_intern _ _ _
    have hye : IsScalar (fun _ => False) y := .symbol rfl (.inr rfl)
    have hie : IsScalar (fun _ => False) index := .symbol rfl (.inl rfl)
    have hoe : IsScalar (fun _ => False) one := .literal (.of_kind (n := 1) rfl rfl)
    have hre : IsScalar (fun _ => False) r := .indexedSum rfl (.inl rfl) rfl hoe hoe hie
    have hee : IsScalar (fun _ => False) e := .indexedSum rfl (.inr rfl) rfl hoe hoe hye
    refine ⟨e', t, rfl, (value_substitute hs (by decide) ((hy₂.mono hle₃).mono hle) hr (he.mono hle)
      rfl hre hee ?_ hrun (.of_isFaithful hfaithful)).2⟩
    -- The index of both sums is bound in `r`, so that it is not captured.
    have hfree : ¬r.Free index.ordinal := by
      intro h
      cases h with
      | self h _ => cases h
      | @operand _ c hc h =>
        obtain rfl : c = one := by
          change c ∈ [one, one] at hc
          simpa using hc
        rcases h with ⟨h, -⟩ | ⟨hc, -⟩ | ⟨hb, -, -⟩
        · cases h
        · cases hc
        · cases hb
      | body _ hx _ => exact hx index (.head _) rfl
    refine allIndices_iff.2 ⟨?_, fun c hc => ?_⟩
    · rintro _ ⟨⟩ _
      exact hfree
    · change c ∈ [index, one, one, y] at hc
      simp only [List.mem_cons, List.not_mem_nil, or_false] at hc
      rcases hc with rfl | rfl | rfl | rfl <;> exact allIndices_of_leaf rfl rfl

end Rebuilding

end Expr

end TermGraph
