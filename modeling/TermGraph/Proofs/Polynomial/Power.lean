import TermGraph.Proofs.Polynomial.Literal

/-!
# Powers of variables

A variable to an exponent other than zero is a node of its own, and scalar factors with one base
are merged into it.

* `IsPower i k e`: `e` is the power with exponent `k ≠ 0` of the variable with ordinal `i`.
* `exact_sumWith_literals`: exponents add up to the literal of their sum.
* `IsPowers v l`: `l` lists the powers with exponents `v`, sorted by variable.
* `achieves_mergePowers`: the exponents of merged powers are added, and powers with exponent zero
  go away.
-/

namespace TermGraph

open Store (Knows)

/-- Exponents by the ordinals of variables. -/
abbrev Exponents := ℕ →₀ ℤ

namespace Number

/-- Integers that are combined with an operation on integers. -/
lemma combine_isInt {op : Number → Number → Number} {F : ℤ → ℤ → ℤ} (hop : Computes op F)
    {ns : List Number} {k : ℤ} {ks : List ℤ} (h : List.Forall₂ IsInt ns (k :: ks)) :
    ∃ t, Expr.combine op ns = some t ∧ (t.kept = true → t.value.IsInt (ks.foldl F k)) := by
  cases h with
  | cons hn hns => exact ⟨_, rfl, fun hkept => Tracked.foldl_isInt hop hns (fun _ => hn) hkept⟩

lemma foldl_add_eq_sum (k : ℤ) (ks : List ℤ) : ks.foldl (· + ·) k = (k :: ks).sum := by
  induction ks generalizing k with
  | nil => simp
  | cons j ks ih =>
    rw [List.foldl_cons, ih]
    simp [add_assoc]

lemma foldl_mul_eq_prod (k : ℤ) (ks : List ℤ) : ks.foldl (· * ·) k = (k :: ks).prod := by
  induction ks generalizing k with
  | nil => simp
  | cons j ks ih =>
    rw [List.foldl_cons, ih]
    simp [mul_assoc]

end Number

namespace Expr

variable {s : Store} {d : ℕ}

/-! ## Powers of variables -/

lemma power?_eq_some {e base exponent : Expr} : e.power? = some (base, exponent) ↔
    ∃ t a, e.kind = .apply t a ∧ t.kind = .function (.builtin .pow) ∧
      a.kind = .tuple [base, exponent] := by
  constructor
  · intro h
    unfold power? at h
    split at h
    · rename_i hkind
      cases h
      exact ⟨_, _, hkind, rfl, rfl⟩
    · cases h
  · rintro ⟨⟨i, dt, kt⟩, ⟨j, da, ka⟩, hkind, ht, ha⟩
    simp only [Expr.kind] at ht ha
    subst ht ha
    simp [power?, hkind]

/-- In a well-formed store a power is given by base and exponent. -/
lemma eq_of_power? {e e' b n : Expr} (hs : s.WellFormed) (he : s.Knows e) (he' : s.Knows e')
    (h : e.power? = some (b, n)) (h' : e'.power? = some (b, n)) : e = e' := by
  obtain ⟨t, a, hkind, ht, ha⟩ := power?_eq_some.1 h
  obtain ⟨t', a', hkind', ht', ha'⟩ := power?_eq_some.1 h'
  obtain ⟨hknownt, hknowna⟩ := hs.knows_of_apply he hkind
  obtain ⟨hknownt', hknowna'⟩ := hs.knows_of_apply he' hkind'
  obtain rfl : t = t' := hs.eq_of_kind hknownt hknownt' ht ht' (by simp [Kind.code])
  obtain rfl : a = a' := hs.eq_of_kind hknowna hknowna' ha ha' (by simp [Kind.code])
  exact hs.eq_of_kind he he' hkind hkind' (by simp [Kind.code])

/-- The power with exponent `k` of the variable with ordinal `i`; the exponent is not zero. -/
inductive IsPower (i : ℕ) : ℤ → Expr → Prop
  | base {x : Expr} : IsVariable i x → IsPower i 1 x
  | raised {k : ℤ} {e x exponent : Expr} : e.power? = some (x, exponent) → IsVariable i x →
    IsLiteral k exponent → k ≠ 0 → k ≠ 1 → e.domain = .reals → IsPower i k e

/-- A node that is its own only factor, lies in the reals and is no function. -/
structure IsAtom (e : Expr) : Prop where
  real : e.IsReal
  function? : e.function? = none
  factors : e.factors = [e]

namespace IsPower

variable {i : ℕ} {k : ℤ} {e : Expr}

lemma ne_zero (h : IsPower i k e) : k ≠ 0 := by
  cases h with
  | base _ => exact one_ne_zero
  | raised _ _ _ h _ _ => exact h

lemma isAtom (h : IsPower i k e) : IsAtom e := by
  cases h with
  | base hx =>
    refine ⟨hx.real, hx.function?, ?_⟩
    obtain ⟨name, hkind⟩ := hx.symbol
    obtain ⟨ordinal, domain, kind⟩ := e
    simp only [Expr.kind] at hkind
    subst hkind
    rfl
  | raised hpower _ _ _ _ hdomain =>
    obtain ⟨t, a, hkind, ht, -⟩ := power?_eq_some.1 hpower
    refine ⟨.inr hdomain, by simp [Expr.function?, hkind], ?_⟩
    obtain ⟨ordinal, domain, kind⟩ := e
    simp only [Expr.kind] at hkind
    subst hkind
    simp [Expr.factors, factorsOnto, multiplies, Expr.function?, ht]

lemma number? (h : IsPower i k e) : e.number? = none := by
  cases h with
  | base hx => exact hx.number?
  | raised hpower _ _ _ _ _ =>
    obtain ⟨t, a, hkind, -, -⟩ := power?_eq_some.1 hpower
    simp [Expr.number?, hkind]

lemma isScalarFactor (h : IsPower i k e) : e.isScalarFactor = true := by
  simp [Expr.isScalarFactor, h.number?, h.isAtom.real.isScalar]

/-- In a well-formed store a power of a variable is one node. -/
lemma eq (hs : s.WellFormed) {e' : Expr} (he : s.Knows e) (he' : s.Knows e') (h : IsPower i k e)
    (h' : IsPower i k e') : e = e' := by
  cases h with
  | base hx =>
    cases h' with
    | base hx' =>
      exact Store.WellFormed.eq_of_ordinal he he' (hx.ordinal.trans hx'.ordinal.symm)
    | raised _ _ _ _ hne _ => exact absurd rfl hne
  | raised hpower hx hl _ hne _ =>
    cases h' with
    | base _ => exact absurd rfl hne
    | raised hpower' hx' hl' _ _ _ =>
      obtain ⟨hknown, hknown'⟩ := knows_power? hs he hpower
      obtain ⟨hknown₂, hknown₂'⟩ := knows_power? hs he' hpower'
      obtain rfl := Store.WellFormed.eq_of_ordinal hknown hknown₂
        (hx.ordinal.trans hx'.ordinal.symm)
      obtain rfl := hl.eq hs hknown' hknown₂' hl'
      exact eq_of_power? hs he he' hpower hpower'

end IsPower

lemma applyDomain?_pow {t a x exponent : Expr} (ht : t.kind = .function (.builtin .pow))
    (hdomain : t.domain = .functions) (ha : a.kind = .tuple [x, exponent]) (hx : x.IsReal)
    (hexponent : exponent.IsReal) : applyDomain? t a = some .reals := by
  simp [applyDomain?, Domain.leftApply?, Domain.firstAnswer, Domain.lineage, hdomain, function?, ht,
    Function.resultDomain?, Function.arguments, Function.arity, Builtin.arity, ha, hx.isScalar,
    hexponent.isScalar]

/-- A literal power of a variable. -/
lemma achieves_power (hs : Good s) {i : ℕ} {k : ℤ} {x exponent : Expr} (hx : IsVariable i x)
    (hexponent : IsLiteral k exponent) (hknown : s.Knows x) (hknown' : s.Knows exponent) :
    Achieves d s (power x exponent) fun e => (k = 0 ∧ IsLiteral 1 e) ∨ IsPower i k e := by
  refine ⟨yields_power hs hknown hknown' d, ?_⟩
  unfold power
  refine (achieves_builtin hs .pow).bind fun t s₁ hs₁ h₁ hknownt _ ht => ?_
  have htyped := ((good_store.1 hs₁).admits hknownt).typed
  rw [ht] at htyped
  refine (achieves_pair hs₁ (hknown.mono h₁) (hknown'.mono h₁)).bind
    fun a s₂ hs₂ h₂ hknowna _ ha => ?_
  unfold powerOf
  rw [hx.isOne, Bool.or_false]
  split
  · rename_i hzero
    exact (achieves_one hs₂).exact.imp fun e _ _ _ he => .inl ⟨hexponent.isZero.1 hzero, he⟩
  · rename_i hzero
    rw [hexponent.isZero] at hzero
    split
    · rename_i hone
      rw [hexponent.isOne] at hone
      subst hone
      exact .pure (.inr (.base hx))
    · rename_i hone
      rw [hexponent.isOne] at hone
      refine (achieves_rawApply hs₂ (hknownt.mono h₂) hknowna (P := (· = .reals))
        ⟨.reals, applyDomain?_pow ht htyped ha hx.real hexponent.real, rfl⟩).exact.imp
        fun e _ _ _ he => ?_
      exact .inr (.raised (power?_eq_some.2 ⟨t, a, he.1, ht, ha⟩) hx hexponent hzero hone he.2)

/-! ## Sums of literals -/

/-- The value of an integer literal; anything else counts as zero. -/
def intValue (e : Expr) : ℤ :=
  match e.number? with
  | some n => n.intValue
  | none => 0

lemma IsLiteral.intValue {k : ℤ} {e : Expr} (h : IsLiteral k e) : e.intValue = k := by
  obtain ⟨n, hn, hk⟩ := h.number
  simp [Expr.intValue, hn, hk.intValue]

/-- A list of integer literals. -/
def AreLiterals (es : List Expr) : Prop :=
  ∀ e ∈ es, IsLiteral e.intValue e

lemma IsLiteral.self {k : ℤ} {e : Expr} (h : IsLiteral k e) : IsLiteral e.intValue e := by
  rw [h.intValue]
  exact h

lemma AreLiterals.forall₂ {es : List Expr} (h : AreLiterals es) :
    List.Forall₂ Number.IsInt (literals es) (es.map intValue) := by
  induction es with
  | nil => exact .nil
  | cons e es ih =>
    obtain ⟨n, hn, hk⟩ := (h e (by simp)).number
    rw [literals, List.filterMap_cons, hn, List.map_cons]
    exact .cons hk (ih fun e' he' => h e' (by simp [he']))

lemma AreLiterals.allTerms_eq {es : List Expr} (h : AreLiterals es) :
    allTerms es = es := by
  induction es with
  | nil => rfl
  | cons e es ih =>
    obtain ⟨n, hkind, -⟩ := (h e (by simp)).kind
    obtain ⟨ordinal, domain, kind⟩ := e
    simp only [Expr.kind] at hkind
    subst hkind
    rw [Expr.allTerms, ih fun e' he' => h e' (by simp [he'])]
    rfl

/-- The constant of a sum: none without literals, and else the literal of their sum. -/
def IsConstant (ks : List ℤ) (constant : Option Expr) : Prop :=
  (ks = [] ∧ constant = none) ∨ ∃ e, constant = some e ∧ IsLiteral ks.sum e

lemma achieves_constant (hs : Good s) {ns : List Number} {ks : List ℤ}
    (h : List.Forall₂ Number.IsInt ns ks) :
    Achieves d s ((combine .add ns).mapM fun total => do number (← Build.settle total))
      (IsConstant ks) where
  yields := by
    refine Yields.optionMapM hs _ (fun total => ?_) d
    exact (yields_settle hs total).bind fun n t ht _ _ => yields_number ht n
  exact := by
    cases ks with
    | nil =>
      cases h
      exact .pure (.inl ⟨rfl, rfl⟩)
    | cons k ks =>
      obtain ⟨total, hcombine, hvalue⟩ := Number.combine_isInt Number.computes_add h
      rw [Number.foldl_add_eq_sum] at hvalue
      rw [hcombine, Option.mapM_some, Run.map_eq_bind]
      have hsettle : Achieves d s (Build.settle total) fun n => n.IsInt (k :: ks).sum :=
        ⟨yields_settle hs total d, (exact_settle total).imp fun n _ _ _ hn => hn.1 ▸ hvalue hn.2⟩
      simp only [bind_assoc]
      refine hsettle.bind fun n t ht _ _ _ hn => ?_
      exact (achieves_number ht hn).bind fun e u _ _ _ _ he => .pure (.inr ⟨e, rfl, he⟩)

/-- Literals are added up, and nothing else is done. -/
lemma sumWith_of_areLiterals {product : List Expr → Build Expr} {es : List Expr}
    (h : AreLiterals es) : sumWith product es = (do
      let constant ← (combine .add (literals es)).mapM fun total => do number (← Build.settle total)
      constant.elim zero pure) := by
  have hothers : nonLiterals es = [] := by
    refine List.filter_eq_nil_iff.2 fun e he => ?_
    obtain ⟨n, hn, -⟩ := (h e he).number
    simp [hn]
  unfold sumWith
  simp only [h.allTerms_eq, hothers]
  refine bind_congr fun constant => ?_
  cases constant with
  | none => rfl
  | some c =>
    have hdomain : sumDomain ((some c).toList ++ []) = .ok c.domain := rfl
    have hsum : ofTerms (some c) (((some c).filter fun c => !c.isZero).toList ++ []) = pure c := by
      cases hzero : c.isZero <;> simp [ofTerms, Option.filter, hzero]
    rw [hdomain, List.mapM_nil]
    simp only [Build.ofExcept, gather, sortBy, Sorting.sort, scaledTerms, pure_bind, hsum,
      Option.elim]

/-- Literals add up to the literal of their sum. -/
lemma exact_sumWith_literals {product : List Expr → Build Expr} (hs : Good s) {es : List Expr}
    (h : AreLiterals es) (hne : es ≠ []) :
    Exact d s (sumWith product es) fun e _ => IsLiteral (es.map intValue).sum e := by
  rw [sumWith_of_areLiterals h]
  refine (achieves_constant hs h.forall₂).bind fun constant t _ _ _ _ hconstant => ?_
  obtain ⟨hnil, -⟩ | ⟨c, rfl, hc⟩ := hconstant
  · exact absurd (List.map_eq_nil_iff.1 hnil) hne
  · exact .pure hc

/-! ## Lists of powers -/

/-- A power as the ordinal of its variable and its exponent. -/
def toPower (e : Expr) : ℕ × ℤ :=
  match e.power? with
  | some (x, exponent) => (x.ordinal, exponent.intValue)
  | none => (e.ordinal, 1)

lemma IsPower.toPower {i : ℕ} {k : ℤ} {e : Expr} (h : IsPower i k e) : e.toPower = (i, k) := by
  cases h with
  | base hx => simp [Expr.toPower, hx.power?, hx.ordinal]
  | raised hpower hx hl _ _ _ => simp [Expr.toPower, hpower, hx.ordinal, hl.intValue]

/-- A list of powers of variables. -/
def ArePowers (l : List Expr) : Prop :=
  ∀ e ∈ l, IsPower e.toPower.1 e.toPower.2 e

/-- The powers with exponents `v`, sorted by variable. -/
structure IsPowers (v : Exponents) (l : List Expr) : Prop where
  /-- They are powers of variables. -/
  powers : ArePowers l
  /-- No variable occurs twice. -/
  sorted : (l.map toPower).Pairwise fun p q => p.1 < q.1
  /-- The exponents are as given. -/
  exponents : collect (l.map toPower) = v

lemma IsPower.self {i : ℕ} {k : ℤ} {e : Expr} (h : IsPower i k e) :
    IsPower e.toPower.1 e.toPower.2 e := by
  rw [h.toPower]
  exact h

/-- In a well-formed store, lists with the same powers are equal. -/
lemma ArePowers.eq (hs : s.WellFormed) {l m : List Expr} (hl : s.Knows l) (hm : s.Knows m)
    (h : ArePowers l) (h' : ArePowers m) (heq : l.map toPower = m.map toPower) : l = m := by
  induction l generalizing m with
  | nil => exact (List.map_eq_nil_iff.1 heq.symm).symm
  | cons e l ih =>
    cases m with
    | nil => cases heq
    | cons e' m =>
      rw [List.map_cons, List.map_cons, List.cons.injEq] at heq
      rw [Store.knows_cons] at hl hm
      have he' := h' e' (by simp)
      rw [← heq.1] at he'
      rw [(h e (by simp)).eq hs hl.1 hm.1 he', ih hl.2 hm.2 (fun f hf => h f (by simp [hf]))
        (fun f hf => h' f (by simp [hf])) heq.2]

namespace IsPowers

variable {v w : Exponents} {l m : List Expr}

lemma toPower_eq (h : IsPowers v l) (h' : IsPowers v m) : l.map toPower = m.map toPower := by
  have hne {n : List Expr} (hn : ArePowers n) : ∀ p ∈ n.map toPower, p.2 ≠ 0 := by
    intro p hp
    obtain ⟨e, he, rfl⟩ := List.mem_map.1 hp
    exact (hn e he).ne_zero
  exact eq_of_collect id h.sorted h'.sorted (hne h.powers) (hne h'.powers)
    (h.exponents.trans h'.exponents.symm)

/-- In a well-formed store there is one sorted list of powers for given exponents. -/
lemma eq (hs : s.WellFormed) (hl : s.Knows l) (hm : s.Knows m) (h : IsPowers v l)
    (h' : IsPowers v m) : l = m :=
  h.powers.eq hs hl hm h'.powers (h.toPower_eq h')

lemma nil : IsPowers 0 [] := ⟨by simp [ArePowers], by simp, rfl⟩

lemma eq_nil_iff (h : IsPowers v l) : l = [] ↔ v = 0 := by
  constructor
  · rintro rfl
    exact h.exponents.symm
  · rintro rfl
    exact List.map_eq_nil_iff.1 (h.toPower_eq .nil)

end IsPowers

/-! ## Merging powers -/

/-- A power is split into its variable and the literal of its exponent. -/
lemma achieves_splitPower (hs : Good s) {i : ℕ} {k : ℤ} {e : Expr} (he : s.Knows e)
    (h : IsPower i k e) :
    Achieves d s (splitPower e) fun p => IsVariable i p.1 ∧ IsLiteral k p.2 where
  yields := yields_splitPower hs he d
  exact := by
    unfold splitPower
    cases h with
    | base hx =>
      rw [hx.power?]
      exact (achieves_one hs).bind fun n t _ _ _ _ hn => .pure ⟨hx, hn⟩
    | raised hpower hx hl _ _ _ =>
      rw [hpower]
      exact .pure ⟨hx, hl⟩

/-- A function of expressions adds up literals. -/
def AddsLiterals (d : ℕ) (sum : List Expr → Build Expr) : Prop :=
  ∀ (s : Store) (l : List Expr), Good s → AreLiterals l → l ≠ [] →
    Exact d s (sum l) fun e _ => IsLiteral (l.map intValue).sum e

/-- The exponent of each base is the sum of the exponents that were gathered for it. -/
def summed (groups : List (Expr × List Expr)) : List (ℕ × ℤ) :=
  groups.map fun g => (g.1.ordinal, (g.2.map intValue).sum)

lemma summed_cons (base : Expr) (exponents : List Expr) (groups : List (Expr × List Expr)) :
    summed ((base, exponents) :: groups) =
      (base.ordinal, (exponents.map intValue).sum) :: summed groups := rfl

/-- The bases are variables, and the exponents literals. -/
def ArePowerGroups (groups : List (Expr × List Expr)) : Prop :=
  ∀ g ∈ groups, IsVariable g.1.ordinal g.1 ∧ AreLiterals g.2 ∧ g.2 ≠ []

variable {sum : List Expr → Build Expr} [∀ l, Growing (sum l)]

lemma achieves_raisedBase (hs : Good s) {i : ℕ} {k : ℤ} {x exponent : Expr} (hx : IsVariable i x)
    (hexponent : IsLiteral k exponent) (hk : k ≠ 0) (hknown : s.Knows x)
    (hknown' : s.Knows exponent) : Achieves d s (raisedBase x exponent) (IsPower i k) where
  yields := yields_raisedBase hs hknown hknown' d
  exact := by
    unfold raisedBase
    split
    · rename_i hone
      rw [hexponent.isOne] at hone
      subst hone
      exact .pure (.base hx)
    · refine (achieves_power hs hx hexponent hknown hknown').exact.imp fun e _ _ _ he => ?_
      exact he.resolve_left fun h => hk h.1

lemma achieves_raisedBases (hsum : YieldsAll sum) (hadds : AddsLiterals d sum) (hs : Good s)
    {groups : List (Expr × List Expr)} (h : ArePowerGroups groups) (hknown : s.Knows groups) :
    Achieves d s (raisedBases sum groups) fun l =>
      ArePowers l ∧ l.map toPower = (summed groups).filter fun p => p.2 ≠ 0 where
  yields := yields_raisedBases hsum hs hknown d
  exact := by
    induction groups generalizing s with
    | nil => exact .pure ⟨by simp [ArePowers], rfl⟩
    | cons group groups ih =>
      obtain ⟨base, exponents⟩ := group
      obtain ⟨hbase, hexponents, hne⟩ := h (base, exponents) (by simp)
      have hgroups : ArePowerGroups groups := fun g hg => h g (by simp [hg])
      simp only [Store.knows_cons, Store.knows_pair] at hknown
      have hexponent : Achieves d s (sum exponents) (IsLiteral (exponents.map intValue).sum) :=
        ⟨hsum s exponents hs hknown.1.2 d, hadds s exponents hs hexponents hne⟩
      rw [raisedBases, summed_cons, List.filter_cons]
      refine hexponent.bind fun exponent t ht hle hknown' _ hexponent => ?_
      split
      · rename_i hzero
        rw [hexponent.isZero] at hzero
        simpa [hzero] using ih ht hgroups (hknown.2.mono hle)
      · rename_i hzero
        rw [hexponent.isZero] at hzero
        simp only [ne_eq, hzero, not_false_eq_true, decide_true, if_true]
        refine (achieves_raisedBase ht hbase hexponent hzero (hknown.1.1.mono hle) hknown').bind
          fun e u hu hle' _ _ he => ?_
        refine (show Achieves d u _ _ from ⟨yields_raisedBases hsum hu
          ((hknown.2.mono hle).mono hle') d, ih hu hgroups ((hknown.2.mono hle).mono hle')⟩).bind
          fun l v _ _ _ _ hl => .pure ⟨?_, ?_⟩
        · intro f hf
          rcases List.mem_cons.1 hf with rfl | hf
          · exact he.self
          · exact hl.1 f hf
        · rw [List.map_cons, he.toPower, hl.2]

/-- What splitting makes of a list of powers. -/
lemma split_toPower {l : List Expr} {split : List (Expr × Expr)} (h : List.Forall₂
      (fun e p => IsVariable e.toPower.1 p.1 ∧ IsLiteral e.toPower.2 p.2) l split) :
    (∀ p ∈ split, IsVariable p.1.ordinal p.1 ∧ IsLiteral p.2.intValue p.2) ∧
      split.map (fun p => (p.1.ordinal, p.2.intValue)) = l.map toPower := by
  induction h with
  | nil => simp
  | cons hp _ ih =>
    rw [List.forall_mem_cons, List.map_cons, List.map_cons, hp.1.ordinal, hp.2.intValue, ih.2]
    exact ⟨⟨hp, ih.1⟩, rfl⟩

/-- Merging adds the exponents of powers with one variable. -/
lemma achieves_mergePowers (hsum : YieldsAll sum) (hadds : AddsLiterals d sum) (hs : Good s)
    {l : List Expr} (h : ArePowers l) (hknown : s.Knows l) :
    Achieves d s (mergePowers sum l) (IsPowers (collect (l.map toPower))) where
  yields := yields_mergePowers hsum hs hknown d
  exact := by
    unfold mergePowers
    refine (Achieves.mapM hs l fun e he t ht hle =>
      achieves_splitPower ht ((hknown e he).mono hle) (h e he)).bind
      fun split t ht _ hsplit _ hpowers => ?_
    obtain ⟨hpair, hmap⟩ := split_toPower hpowers
    have hsep : Separated split := fun p hp q hq hordinal =>
      Store.WellFormed.eq_of_ordinal (hsplit p hp).1 (hsplit q hq).1 hordinal
    have hgroups : ArePowerGroups (groups split) := by
      refine gather_forall (P := fun x => IsVariable x.ordinal x)
        (Q := fun es => AreLiterals es ∧ es ≠ []) (fun p hp => (hpair p hp).1)
        (fun p hp => ?_) fun es p hp hes => ?_
      · simpa [AreLiterals] using (hpair p hp).2
      · refine ⟨fun e he => ?_, by simp⟩
        rcases List.mem_append.1 he with he | he
        · exact hes.1 e he
        · rw [List.mem_singleton.1 he]
          exact (hpair p hp).2
    have hknown : t.Knows (groups split) := by
      refine gather_forall (fun p hp => (hsplit p hp).1) (fun p hp => ?_) fun es p hp hes => ?_
      · simpa using (hsplit p hp).2
      · exact Store.knows_append.2 ⟨hes, by simpa using (hsplit p hp).2⟩
    have hsorted : (groups split).Pairwise fun p q => p.1.ordinal < q.1.ordinal :=
      pairwise_gather fun p hp q hq => (hpair p hp).1.isOpen.le (hpair q hq).1.isOpen
    have hsummed : (summed (groups split)).Pairwise fun p q => p.1 < q.1 :=
      List.pairwise_map.2 hsorted
    refine (achieves_raisedBases hsum hadds ht hgroups hknown).exact.imp fun m _ _ _ hm => ?_
    refine ⟨hm.1, ?_, ?_⟩
    · rw [hm.2]
      exact hsummed.filter _
    · rw [hm.2, collect_filter, summed, collect_groups hsep, hmap]

end Expr

end TermGraph
