import TermGraph.Proofs.Meaning.Independence
import TermGraph.Proofs.Termination.Weights

/-!
# The nesting of exponents

Products add up exponents, and sums multiply by coefficients.  What a product hands to a sum, it takes
out of an exponent; so the two recursions go no deeper than exponents are nested, whatever else the
operands hold.  Exponents that are literals do not count, since their sum is a literal again.

* `Expr.exponentDepth`: how deep exponents are nested in an expression.
* `Expr.HasBody e`: `e` is a function with a body.
* `Expr.Nested F k e`: nothing in `e` lies in a custom domain, the functions with a body in it satisfy
  `F`, and its exponents are nested at most `k` deep.
* `Expr.Given F P k e`: such an expression, and a scalar if `P`; its factors and terms are such
  expressions.
* `Expr.Raising F k n`: an exponent of such expressions.
-/

namespace TermGraph

open Store (Knows)

/-- A list has no greater item than a bound if all its items are bounded. -/
lemma foldr_max_le_iff {l : List ℕ} {k : ℕ} : l.foldr max 0 ≤ k ↔ ∀ n ∈ l, n ≤ k := by
  induction l with
  | nil => simp
  | cons n l ih => rw [List.foldr_cons, max_le_iff, ih, List.forall_mem_cons]

/-! ## Built-in domains -/

namespace Domain

variable {d d' d'' : Domain}

/-- Only numeric domains commute with anything. -/
lemma isLinear_of_commutes (hd : d.isBuiltin = true) (hd' : d'.isBuiltin = true)
    (h : d.commutes d' = true) : d.isLinear = true ∧ d'.isLinear = true := by
  cases d <;> first
    | exact absurd hd Bool.false_ne_true
    | cases h
    | (cases hlinear : d'.isLinear with
      | true => exact ⟨rfl, rfl⟩
      | false =>
        have hscalar : d'.isScalar = false := Bool.eq_false_iff.2 fun hs => by
          simp [isLinear_of_isScalar hd' hs] at hlinear
        simp [commutes, firstAnswer, lineage, hlinear, hscalar] at h)

/-- Only numeric domains associate with anything. -/
lemma isLinear_of_associates (hd : d.isBuiltin = true) (h : d.associates d' d'' = true) :
    d.isLinear = true ∧ d'.isLinear = true ∧ d''.isLinear = true := by
  cases d <;> first
    | exact absurd hd Bool.false_ne_true
    | cases h
    | (simp only [associates, firstAnswer, lineage, List.findSome?_cons, Option.getD_some,
        Bool.and_eq_true] at h
       exact ⟨rfl, h⟩)

end Domain

namespace Expr

variable {t a b : Expr} {l : List Expr} {domain : Domain}

lemma isLinear_of_commutes (ht : t.domain.isBuiltin = true) (ha : a.domain.isBuiltin = true)
    (h : t.commutes a = true) : t.domain.isLinear = true ∧ a.domain.isLinear = true := by
  rcases Bool.or_eq_true_iff.1 h with h | h
  · exact Domain.isLinear_of_commutes ht ha h
  · exact (Domain.isLinear_of_commutes ha ht h).symm

lemma isLinear_of_associates (ht : t.domain.isBuiltin = true) (ha : a.domain.isBuiltin = true)
    (hb : b.domain.isBuiltin = true) (h : associates t a b = true) :
    t.domain.isLinear = true ∧ a.domain.isLinear = true ∧ b.domain.isLinear = true := by
  simp only [associates, Bool.or_eq_true] at h
  rcases h with (h | h) | h
  · exact Domain.isLinear_of_associates ht h
  · obtain ⟨ha, ht, hb⟩ := Domain.isLinear_of_associates ha h
    exact ⟨ht, ha, hb⟩
  · obtain ⟨hb, ht, ha⟩ := Domain.isLinear_of_associates hb h
    exact ⟨ht, ha, hb⟩

/-- A sum of terms in built-in domains lies in one. -/
lemma isBuiltin_of_sumDomainFrom {left : Expr} {d : Domain} (hd : d.isBuiltin = true)
    (h : ∀ e ∈ l, e.domain.isBuiltin = true) (hsum : sumDomainFrom left d l = .ok domain) :
    domain.isBuiltin = true := by
  induction l generalizing left d with
  | nil =>
    cases hsum
    exact hd
  | cons e l ih =>
    rw [List.forall_mem_cons] at h
    rw [sumDomainFrom] at hsum
    split at hsum
    · rename_i d' hd'
      obtain ⟨hleft, hright⟩ := Domain.isNumeric_of_resolveSum? hd h.1 hd'
      obtain ⟨d'', hd'', hnumeric, -⟩ := hleft.resolveSum? hright
      obtain rfl : d'' = d' := Option.some.inj (hd''.symm.trans hd')
      exact ih hnumeric.isBuiltin h.2 hsum
    · cases hsum

lemma isBuiltin_of_sumDomain (h : ∀ e ∈ l, e.domain.isBuiltin = true) (hsum : sumDomain l = .ok domain) :
    domain.isBuiltin = true := by
  cases l with
  | nil =>
    cases hsum
    rfl
  | cons e l =>
    rw [List.forall_mem_cons] at h
    exact isBuiltin_of_sumDomainFrom h.1 h.2 hsum

/-- A function with a body, which is called by putting the arguments in the body. -/
def HasBody (e : Expr) : Prop :=
  ∃ i name params body, e.function? = some (.lambda i name params body)

/-- A call of a function without a body lies in the reals. -/
lemma eq_reals_of_applyDomain? (ht : t.domain = .functions) (ha : a.domain.isBuiltin = true)
    (hbody : ¬t.HasBody) (h : applyDomain? t a = some domain) : domain = .reals := by
  rw [applyDomain?_builtin (by rw [ht]; rfl) ha, Domain.leftApply?, ht] at h
  simp only [Domain.firstAnswer, Domain.lineage, List.findSome?_cons] at h
  cases hf : t.function? with
  | none => simp [hf] at h
  | some f =>
    replace h : f.resultDomain? a = some domain := by simpa [hf] using h
    unfold Function.resultDomain? at h
    split at h
    · exact absurd ⟨_, _, _, _, hf⟩ hbody
    · dsimp only at h
      split at h <;> cases h
      rfl

/-- Unless a function with a body is called, an application in built-in domains lies in one. -/
lemma isBuiltin_of_applyDomain? (ht : t.domain.isBuiltin = true) (ha : a.domain.isBuiltin = true)
    (hbody : ¬t.HasBody) (h : applyDomain? t a = some domain) : domain.isBuiltin = true := by
  have hmember {r : Except MemberError HostType} {resolver : Resolver}
      (h : (r.map fun type => Domain.ofType type resolver).toOption = some domain) :
      domain.isBuiltin = true := by
    cases r <;> cases h
    exact Domain.isBuiltin_ofType _ resolver
  cases hdomain : t.domain
  case custom => simp [hdomain, Domain.isBuiltin] at ht
  case matrices | reals | integers =>
    exact (isNumeric_of_applyDomain? (by simp [hdomain, Domain.IsNumeric]) ha h).2.isBuiltin
  case functions =>
    rw [eq_reals_of_applyDomain? hdomain ha hbody h]
    rfl
  case universal | fields =>
    rw [applyDomain?_builtin ht ha, Domain.leftApply?, hdomain] at h
    cases h
  case host type resolver =>
    rw [applyDomain?_builtin ht ha, Domain.leftApply?, hdomain] at h
    simp only [Domain.firstAnswer, Domain.lineage, List.findSome?_cons, Option.join_some] at h
    rw [Domain.access?] at h
    split at h <;> exact hmember h

end Expr

/-! ## How deep exponents are nested -/

/-- How deep exponents are nested in a node, over children in which they are nested as deep as given.  An
exponent that is no literal is one deeper. -/
def Kind.exponentDepth : Kind → List ℕ → ℕ
  | .tuple [_, exponent], [b, n] => if exponent.number?.isSome then b else max b (n + 1)
  | _, ns => ns.foldr max 0

namespace Expr

/-- How deep exponents are nested. -/
def exponentDepth (e : Expr) : ℕ :=
  e.kind.exponentDepth (e.children.attach.map fun c => exponentDepth c.1)
termination_by sizeOf e
decreasing_by exact sizeOf_lt_of_mem_children c.2

variable {F : Expr → Prop} {P : Prop} {j k : ℕ} {s : Store} {c e f t a b n : Expr} {l : List Expr}

lemma exponentDepth_eq (e : Expr) :
    e.exponentDepth = e.kind.exponentDepth (e.children.map exponentDepth) := by
  rw [exponentDepth, List.map_attach_eq_pmap, List.pmap_eq_map]

lemma exponentDepth_pair (h : e.kind = .tuple [b, n]) : e.exponentDepth =
    if n.number?.isSome then b.exponentDepth else max b.exponentDepth (n.exponentDepth + 1) := by
  rw [exponentDepth_eq, children, h]
  rfl

lemma exponentDepth_of_kind_ne (h : ∀ b n, e.kind ≠ .tuple [b, n]) :
    e.exponentDepth = (e.children.map exponentDepth).foldr max 0 := by
  rw [exponentDepth_eq, Kind.exponentDepth]
  exact fun b n _ _ hkind _ => h b n hkind

lemma exponentDepth_literal (h : e.number?.isSome = true) : e.exponentDepth = 0 := by
  obtain ⟨m, hkind⟩ := exists_number h
  rw [exponentDepth_eq, children, hkind]
  rfl

/-- Exponents are nested at most `k` deep if they are in the children, and an exponent that is no literal
is less deep. -/
lemma exponentDepth_le_iff : e.exponentDepth ≤ k ↔ (∀ c ∈ e.children, c.exponentDepth ≤ k) ∧
    ∀ b n, e.kind = .tuple [b, n] → n.number? = none → n.exponentDepth < k := by
  by_cases hpair : ∃ b n, e.kind = .tuple [b, n]
  · obtain ⟨b, n, hkind⟩ := hpair
    have hchildren : e.children = [b, n] := by rw [children, hkind, Kind.children]
    rw [exponentDepth_pair hkind, hchildren]
    -- An exponent that is a literal has no depth, so it bounds nothing.
    cases hnumber : n.number? with
    | none =>
      have hmax : max b.exponentDepth (n.exponentDepth + 1) ≤ k ↔
          (b.exponentDepth ≤ k ∧ n.exponentDepth ≤ k) ∧ n.exponentDepth < k := by omega
      simpa [hkind, hnumber] using hmax
    | some m =>
      have hn := exponentDepth_literal (e := n) (by simp [hnumber])
      simp [hkind, hnumber, hn]
  · push Not at hpair
    rw [exponentDepth_of_kind_ne hpair, foldr_max_le_iff]
    simp [hpair]

/-- Nothing in the expression lies in a custom domain, the functions with a body in it satisfy `F`, and
exponents are nested at most `k` deep. -/
structure Nested (F : Expr → Prop) (k : ℕ) (e : Expr) : Prop where
  /-- What occurs in it lies in built-in domains. -/
  builtin : ∀ a, Below a e → a.domain.isBuiltin = true
  /-- The functions with a body that occur in it. -/
  functions : ∀ a, Below a e → a.HasBody → F a
  /-- Exponents are nested at most so deep. -/
  exponentDepth_le : e.exponentDepth ≤ k

lemma not_hasBody_of_kind_ne (h : ∀ f, e.kind ≠ .function f) : ¬e.HasBody := by
  rintro ⟨i, name, params, body, hf⟩
  unfold function? at hf
  split at hf
  · exact h _ ‹_›
  · cases hf

namespace Nested

lemma isBuiltin (h : Nested F k e) : e.domain.isBuiltin = true := h.builtin e .refl

lemma mono (h : Nested F j e) (hle : j ≤ k) : Nested F k e :=
  ⟨h.builtin, h.functions, h.exponentDepth_le.trans hle⟩

lemma child (h : Nested F k e) (hc : c ∈ e.children) : Nested F k c :=
  ⟨fun a ha => h.builtin a (.step hc ha), fun a ha => h.functions a (.step hc ha),
    (exponentDepth_le_iff.1 h.exponentDepth_le).1 c hc⟩

/-- What is no function with a body is put together from its children, and in a pair the exponent is
nested less deep. -/
lemma of_children (hd : e.domain.isBuiltin = true) (hbody : ¬e.HasBody)
    (hc : ∀ c ∈ e.children, Nested F k c)
    (hpair : ∀ b n, e.kind = .tuple [b, n] → n.number? = none → n.exponentDepth < k) : Nested F k e where
  builtin := forall_below_iff.2 ⟨hd, fun c hc' => (hc c hc').builtin⟩
  functions := forall_below_iff.2 ⟨fun h => absurd h hbody, fun c hc' => (hc c hc').functions⟩
  exponentDepth_le := exponentDepth_le_iff.2 ⟨fun c hc' => (hc c hc').exponentDepth_le, hpair⟩

/-- An application of expressions in a built-in domain. -/
lemma of_apply (hkind : e.kind = .apply t a) (hd : e.domain.isBuiltin = true) (ht : Nested F k t)
    (ha : Nested F k a) : Nested F k e :=
  .of_children hd (not_hasBody_of_kind_ne (by simp [hkind]))
    (by simpa [children, hkind, Kind.children] using ⟨ht, ha⟩) (by simp [hkind])

/-- A function without a body. -/
lemma of_function (hs : s.WellFormed) (he : s.Knows e) {f : Function} (hkind : e.kind = .function f)
    (hbody : ¬e.HasBody) : Nested F k e := by
  have htyped := (hs.admits he).typed
  rw [hkind, Kind.Typed] at htyped
  exact .of_children (by rw [htyped]; rfl) hbody (by simp [children, hkind, Kind.children])
    (by simp [hkind])

/-- What a product of matrices in order is made of. -/
lemma chainFactorsOnto (h : Nested F k e) (hl : ∀ c ∈ l, Nested F k c) :
    ∀ c ∈ e.chainFactorsOnto l, Nested F k c := by
  -- The factors are found in the children, in front of a list that is handed through.
  induction hsize : sizeOf e using Nat.strongRecOn generalizing e l with
  | _ m ih =>
    subst hsize
    have hchild {c : Expr} {rest : List Expr} (hc : c ∈ e.children) (hrest : ∀ c ∈ rest, Nested F k c) :
        ∀ c' ∈ c.chainFactorsOnto rest, Nested F k c' :=
      ih _ (sizeOf_lt_of_mem_children hc) (h.child hc) hrest rfl
    obtain ⟨ordinal, domain, kind⟩ := e
    cases kind with
    | chain items =>
      rw [Expr.chainFactorsOnto, allChainFactorsOnto_eq_foldr]
      exact List.foldrRecOn (motive := fun l => ∀ c ∈ l, Nested F k c) items _ hl fun l hl c hc =>
        hchild hc hl
    | apply t a =>
      rw [Expr.chainFactorsOnto]
      split
      · exact hchild (by simp [children, Expr.kind, Kind.children])
          (hchild (by simp [children, Expr.kind, Kind.children]) hl)
      · exact List.forall_mem_cons.2 ⟨h, hl⟩
    | _ => exact List.forall_mem_cons.2 ⟨h, hl⟩

lemma allChainFactorsOnto (h : ∀ c ∈ l, Nested F k c) : ∀ c ∈ allChainFactorsOnto l [], Nested F k c := by
  rw [allChainFactorsOnto_eq_foldr]
  exact List.foldrRecOn (motive := fun l => ∀ c ∈ l, Nested F k c) l _ (by simp) fun m hm c hc =>
    (h c hc).chainFactorsOnto hm

end Nested

/-! ## Operands and exponents -/

/-- An operand: its exponents are nested at most `k` deep, and it is a scalar if `P`. -/
structure Given (F : Expr → Prop) (P : Prop) (k : ℕ) (e : Expr) : Prop where
  /-- Its exponents are nested at most so deep. -/
  nested : Nested F k e
  /-- It is a scalar. -/
  isScalar : P → e.domain.isScalar = true

namespace Given

/-- A literal. -/
lemma of_number (hnumber : e.number?.isSome = true) (hreal : e.IsReal) : Given F P k e := by
  obtain ⟨m, hkind⟩ := exists_number hnumber
  refine ⟨.of_children ?_ (not_hasBody_of_kind_ne (by simp [hkind]))
    (by simp [children, hkind, Kind.children]) (by simp [hkind]), fun _ => hreal.isScalar⟩
  rcases hreal with hreal | hreal <;> rw [hreal] <;> rfl

lemma of_scalar (h : Given F True k e) : Given F P k e := ⟨h.nested, fun _ => h.isScalar trivial⟩

lemma isNumeric (h : Given F True k e) : e.domain.IsNumeric :=
  Domain.isNumeric_of_isLinear h.nested.isBuiltin
    (Domain.isLinear_of_isScalar h.nested.isBuiltin (h.isScalar trivial))

/-- The factors of an operand. -/
lemma factors (hs : s.WellFormed) (he : s.Knows e) (h : Given F P k e) :
    ∀ f ∈ e.factors, Given F P k f := by
  induction e using inductionOnFactors with
  | single e hproduct => simpa [factors_of_isProduct hproduct] using h
  | product e t a hkind hm iht iha =>
    have hchildren : e.children = [t, a] := by rw [children, hkind, Kind.children]
    obtain ⟨hknown, hknown'⟩ := hs.knows_of_apply he hkind
    have ht : Nested F k t := h.nested.child (by simp [hchildren])
    have ha : Nested F k a := h.nested.child (by simp [hchildren])
    -- Both sides of a product are numeric, and scalars if the product is one.
    have hsides := hm
    simp only [multiplies, Bool.and_eq_true] at hsides
    have hdomain := (domain_of_apply hs he hkind
      (Domain.isNumeric_of_isLinear ht.isBuiltin hsides.1.2)
      (Domain.isNumeric_of_isLinear ha.isBuiltin hsides.2)).2
    rw [factors_of_kind hkind hm]
    exact List.forall_mem_append.2
      ⟨iht hknown ⟨ht, fun hP => (hdomain.1 (h.isScalar hP)).1⟩,
        iha hknown' ⟨ha, fun hP => (hdomain.1 (h.isScalar hP)).2⟩⟩

/-- The terms of an operand. -/
lemma terms (hs : s.WellFormed) (he : s.Knows e) (h : Given F P k e) : ∀ f ∈ e.terms, Given F P k f := by
  induction e using inductionOnTerms with
  | single e hsum =>
    rw [terms_of_kind_ne hsum]
    simpa using h
  | sum e l hkind ih =>
    have hchildren : e.children = l := by rw [children, hkind, Kind.children]
    have hnested : ∀ c ∈ l, Nested F k c := fun c hc => h.nested.child (by rwa [hchildren])
    have hsum := (hs.admits he).typed
    rw [hkind, Kind.Typed] at hsum
    have hscalar : P → ∀ c ∈ l, c.domain.isScalar = true := fun hP => by
      have hnumeric : e.domain.IsNumeric := Domain.isNumeric_of_isLinear h.nested.isBuiltin
        (Domain.isLinear_of_isScalar h.nested.isBuiltin (h.isScalar hP))
      obtain ⟨domain, hdomain, -, hiff⟩ :=
        sumDomain_numeric (isNumeric_of_sumDomain (fun c hc => (hnested c hc).isBuiltin) hsum hnumeric)
      obtain rfl : domain = e.domain := Except.ok.inj (hdomain.symm.trans hsum)
      exact hiff.1 (h.isScalar hP)
    rw [terms_of_kind hkind]
    intro f hf
    obtain ⟨c, hc, hmem⟩ := List.mem_flatMap.1 hf
    exact ih c hc (hs.children he c (by rwa [hchildren])) ⟨hnested c hc, fun hP => hscalar hP c hc⟩ f hmem

end Given

/-- An exponent of such operands: a scalar, in which exponents are nested less deep unless it is a
literal. -/
structure Raising (F : Expr → Prop) (k : ℕ) (n : Expr) : Prop where
  /-- It is a scalar. -/
  given : Given F True k n
  /-- Its exponents are nested less deep. -/
  lt : n.number? = none → n.exponentDepth < k

namespace Raising

lemma of_number (hnumber : n.number?.isSome = true) (hreal : n.IsReal) : Raising F k n :=
  ⟨.of_number hnumber hreal, fun h => by simp [h] at hnumber⟩

/-- In the smallest depth, exponents are literals. -/
lemma isSome (h : Raising F 0 n) : n.number?.isSome = true :=
  Option.isSome_iff_ne_none.2 fun hnone => absurd (h.lt hnone) (Nat.not_lt_zero _)

/-- In other depths, exponents are scalars of the depth before. -/
lemma pred (h : Raising F (k + 1) n) : Given F True k n := by
  refine ⟨⟨h.given.nested.builtin, h.given.nested.functions, ?_⟩, h.given.isScalar⟩
  cases hnumber : n.number? with
  | none => exact Nat.lt_succ_iff.1 (h.lt hnumber)
  | some m => exact (exponentDepth_literal (by simp [hnumber])).le.trans (Nat.zero_le k)

lemma of_given (h : Given F True k n) : Raising F (k + 1) n :=
  ⟨⟨h.nested.mono k.le_succ, h.isScalar⟩, fun _ => Nat.lt_succ_of_le h.nested.exponentDepth_le⟩

/-- The pair of a base and an exponent. -/
lemma pair (h : Raising F k n) (hs : s.WellFormed) (he : s.Knows e) (hkind : e.kind = .tuple [b, n])
    (hb : Nested F k b) : Nested F k e := by
  have htyped := (hs.admits he).typed
  rw [hkind, Kind.Typed] at htyped
  refine .of_children (by rw [htyped]; rfl) (not_hasBody_of_kind_ne (by simp [hkind])) ?_
    fun b' n' hkind' => ?_
  · simpa [children, hkind, Kind.children] using ⟨hb, h.given.nested⟩
  · obtain ⟨-, rfl⟩ : b = b' ∧ n = n' := by simpa [hkind] using hkind'
    exact h.lt

/-- The base and the exponent of a power. -/
lemma of_power (hs : s.WellFormed) (he : s.Knows e) (h : Nested F k e) (hpower : e.power? = some (b, n)) :
    Given F True k b ∧ Raising F k n := by
  obtain ⟨-, hb, hn⟩ := domain_of_power? hs he hpower
  obtain ⟨t, a, hkind, -, ha⟩ := power?_eq_some.1 hpower
  have hpair : Nested F k a := h.child (by simp [children, hkind, Kind.children])
  have hchildren : a.children = [b, n] := by rw [children, ha, Kind.children]
  exact ⟨⟨hpair.child (by simp [hchildren]), fun _ => hb⟩,
    ⟨hpair.child (by simp [hchildren]), fun _ => hn⟩,
    (exponentDepth_le_iff.1 hpair.exponentDepth_le).2 b n ha⟩

end Raising

end Expr

end TermGraph
