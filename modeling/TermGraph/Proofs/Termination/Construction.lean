import TermGraph.Proofs.Termination.Depth
import TermGraph.Proofs.Termination.Nesting
import TermGraph.Proofs.Termination.Products

/-!
# Canonical construction comes to an end

Sums and products of any operands in built-in domains stay within a depth that the nesting of their
exponents bounds; the operands may be functions, tuples, members of host values or captured matrices, and
an operation on them may fail, but for other reasons.

A product adds up the exponents of each base, in which exponents are nested less deep, and a sum
multiplies its terms by their coefficients, in which they are nested just as deep.  What is made from
expressions with exponents nested at most `k` deep has exponents nested at most `k` deep, although it may
be larger than any of them.  A product of several matrices first makes one of them, which adds one level.

* `Expr.Made F P k e`: a result, with at most one matrix among its factors.
* `Expr.AddsExponents`, `Expr.MultipliesGiven`, `Expr.MultipliesPairs`: functions that add up exponents,
  that multiply operands, and that multiply a scalar and a result.
* `Expr.addsExponents_productAux`, `Expr.multipliesGiven_productAux`: sums and products do.
* `Expr.halts_nested_apply`, `Expr.halts_nested_product`: applications, and products in order without
  calls.
* `Expr.exists_ends_product`: products in order, in which calls are taken as they come.
* `Store.Reachable.construction_ends`: construction comes to an end in every store that can be reached.
-/

namespace TermGraph

open Store (Knows)

namespace Expr

variable {F : Expr → Prop} {P : Prop} {s : Store} {d k : ℕ} {e t a b n : Expr} {l : List Expr}

/-- A result: an operand with at most one matrix among its factors. -/
structure Made (F : Expr → Prop) (P : Prop) (k : ℕ) (e : Expr) : Prop extends Given F P k e where
  /-- At most one factor is a matrix. -/
  length_le : (e.factors.filter isMatrixFactor).length ≤ 1

/-- The factors of a scalar are no matrices. -/
lemma Given.filter_isMatrixFactor (hs : s.WellFormed) (he : s.Knows e) (h : Given F True k e) :
    e.factors.filter isMatrixFactor = [] :=
  List.filter_eq_nil_iff.2 fun f hf => by
    simp [isMatrixFactor, (h.factors hs he f hf).isScalar trivial]

/-- A scalar is a result. -/
lemma Given.made (hs : s.WellFormed) (he : s.Knows e) (h : Given F True k e) : Made F P k e :=
  ⟨h.of_scalar, by simp [h.filter_isMatrixFactor hs he]⟩

namespace Made

/-- What is no product is its own only factor. -/
lemma of_factors (h : Given F P k e) (hfactors : e.factors = [e]) : Made F P k e :=
  ⟨h, by rw [hfactors]; exact List.length_filter_le _ _⟩

/-- The factors of an operand. -/
lemma factors (hs : s.WellFormed) (he : s.Knows e) (h : Given F P k e) :
    ∀ f ∈ e.factors, Made F P k f := fun f hf =>
  .of_factors (h.factors hs he f hf) (factors_of_mem_factors hf)

/-- A literal. -/
lemma of_number (hnumber : e.number?.isSome = true) (hreal : e.IsReal) : Made F P k e := by
  obtain ⟨m, hkind⟩ := exists_number hnumber
  exact .of_factors (.of_number hnumber hreal) (factors_of_isProduct (by rw [isProduct, hkind]))

/-- A captured value. -/
lemma of_object (hs : s.Grounded) (he : s.Knows e) {v : Value} {resolver : ℕ}
    (hkind : e.kind = .object v resolver) : Made F False k e := by
  have hnested : Nested F k e := .of_children (hs.builtin he hkind)
    (not_hasBody_of_kind_ne (by simp [hkind])) (by simp [children, hkind, Kind.children])
    (by simp [hkind])
  exact .of_factors ⟨hnested, False.elim⟩ (factors_of_isProduct (by rw [isProduct, hkind]))

end Made

/-! ## Literals and powers -/

section Powers

lemma halts_made_number (hs : s.Grounded) (m : Number) :
    Halts Store.Grounded d s (number m) (Made F P k) :=
  (halts_number hs m).imp fun _ he => .of_number he.1 he.2

/-- An application that may be a type error. -/
lemma halts_application (hs : s.Grounded) (ht : s.Knows t) (ha : s.Knows a) {Q : Expr → Prop}
    (h : ∀ domain, applyDomain? t a = some domain → ∀ e, e.kind = .apply t a → e.domain = domain → Q e) :
    Halts Store.Grounded d s (rawApply t a) Q := by
  cases hdomain : applyDomain? t a with
  | none =>
    have hrun : rawApply t a = throw (.unsupportedApplication t a) := by
      unfold rawApply applyDomain
      rw [hdomain]
      rfl
    rw [hrun]
    exact .throw hs (by simp)
  | some domain =>
    exact (halts_rawApply hs ht ha hdomain).imp fun e he => h domain hdomain e he.1 he.2

/-- A power, for the node of the power function and the pair of base and exponent. -/
lemma halts_given_powerOf (hs : s.Grounded) (hknown : s.Knows t) (hknown' : s.Knows a)
    (ht : t.kind = .function (.builtin .pow)) (hkind : a.kind = .tuple [b, n]) (ha : Nested F k a)
    (hb : P → b.domain.isScalar = true) :
    Halts Store.Grounded d s (powerOf t a b n) (Given F P k) := by
  have hwf := hs.toWellFormed
  have hbody : ¬t.HasBody := by simp [HasBody, function?, ht]
  unfold powerOf
  refine .ite (fun _ => (halts_made_number hs _).imp fun e he => he.toGiven) fun _ =>
    .ite (fun _ => ?_) fun _ => ?_
  · have hchild : b ∈ a.children := by simp [children, hkind, Kind.children]
    exact .pure hs (hwf.children hknown' b hchild) ⟨ha.child hchild, hb⟩
  · refine halts_application hs hknown hknown' fun domain hdomain e he hde => ?_
    have hreals := eq_reals_of_applyDomain?
      (domain_of_function? hwf hknown (f := .builtin .pow) (by rw [function?, ht])) ha.isBuiltin hbody
      hdomain
    subst hreals
    exact ⟨.of_apply he (by rw [hde]; rfl) (.of_function hwf hknown ht hbody) ha,
      fun _ => by rw [hde]; rfl⟩

lemma halts_given_power (hs : s.Grounded) (hknown : s.Knows b) (hknown' : s.Knows n)
    (hb : Given F True k b) (hn : Raising F k n) :
    Halts Store.Grounded d s (power b n) (Given F True k) := by
  unfold power
  refine (halts_builtin hs .pow).bind fun t s₁ hs₁ h₁ hknownt ht => ?_
  refine (halts_pair hs₁ (hknown.mono h₁) (hknown'.mono h₁)).bind fun a s₂ hs₂ h₂ hknowna ha => ?_
  exact halts_given_powerOf hs₂ (hknownt.mono h₂) hknowna ht ha
    (hn.pair hs₂.toWellFormed hknowna ha hb.nested) hb.isScalar

lemma halts_given_raisedBase (hs : s.Grounded) (hknown : s.Knows b) (hknown' : s.Knows n)
    (hb : Given F True k b) (hn : Raising F k n) :
    Halts Store.Grounded d s (raisedBase b n) (Given F True k) := by
  unfold raisedBase
  exact .ite (fun _ => .pure hs hknown hb) fun _ => halts_given_power hs hknown hknown' hb hn

/-- A scalar factor is split into a base and an exponent. -/
lemma halts_given_splitPower (hs : s.Grounded) (hknown : s.Knows e) (he : Given F True k e) :
    Halts Store.Grounded d s (splitPower e) fun p => Given F True k p.1 ∧ Raising F k p.2 := by
  unfold splitPower
  split
  · rename_i b n hpower
    exact .pure hs (knows_power? hs.toWellFormed hknown hpower)
      (Raising.of_power hs.toWellFormed hknown he.nested hpower)
  · refine (halts_int hs 1).bind fun n t ht hle hknownn hn => ?_
    exact .pure ht ⟨hknown.mono hle, hknownn⟩ ⟨he, .of_number (by simp [hn.1]) hn.2⟩

end Powers

/-! ## Products with at most one matrix -/

/-- `f` adds up exponents. -/
def AddsExponents (F : Expr → Prop) (d k : ℕ) (f : List Expr → Build Expr) : Prop :=
  ∀ ⦃s : Store⦄ ⦃l : List Expr⦄, s.Grounded → s.Knows l → l ≠ [] → (∀ n ∈ l, Raising F k n) →
    Halts Store.Grounded d s (f l) (Raising F k)

/-- `f` multiplies operands, which are scalars if `P`. -/
def MultipliesGiven (F : Expr → Prop) (P : Prop) (d k : ℕ) (f : List Expr → Build Expr) : Prop :=
  ∀ ⦃s : Store⦄ ⦃l : List Expr⦄, s.Grounded → s.Knows l → (∀ e ∈ l, Given F P k e) →
    Halts Store.Grounded d s (f l) (Made F P k)

section Products

variable {f : List Expr → Build Expr} [∀ l, Growing (f l)]

/-- Bases to the sums of their exponents. -/
lemma halts_given_raisedBases (hadd : AddsExponents F d k f) (hs : s.Grounded)
    {groups : List (Expr × List Expr)} (hknown : s.Knows groups)
    (hgroups : ∀ g ∈ groups, Given F True k g.1 ∧ g.2 ≠ [] ∧ ∀ n ∈ g.2, Raising F k n) :
    Halts Store.Grounded d s (raisedBases f groups) fun m => ∀ e ∈ m, Given F True k e := by
  induction groups generalizing s with
  | nil => exact .pure hs Store.knows_nil (by simp)
  | cons g groups ih =>
    obtain ⟨b, ns⟩ := g
    simp only [Store.knows_cons, Store.knows_pair] at hknown
    rw [List.forall_mem_cons] at hgroups
    obtain ⟨⟨hb, hne, hns⟩, hgroups⟩ := hgroups
    rw [raisedBases]
    refine (hadd hs hknown.1.2 hne hns).bind fun n t ht hle hknownn hn => ?_
    have hknownt := hknown.2.mono hle
    refine .ite (fun _ => ih ht hknownt hgroups) fun _ => ?_
    refine (halts_given_raisedBase ht (hknown.1.1.mono hle) hknownn hb hn).bind
      fun e u hu hle' hknowne he => ?_
    refine (ih hu (hknownt.mono hle') hgroups).bind fun m v hv hle'' hknownm hm => ?_
    exact .pure hv (Store.knows_cons.2 ⟨hknowne.mono hle'', hknownm⟩) (List.forall_mem_cons.2 ⟨he, hm⟩)

/-- Scalar factors are merged into powers. -/
lemma halts_given_mergePowers (hadd : AddsExponents F d k f) (hs : s.Grounded) (hknown : s.Knows l)
    (hl : ∀ e ∈ l, Given F True k e) :
    Halts Store.Grounded d s (mergePowers f l) fun m => ∀ e ∈ m, Given F True k e := by
  unfold mergePowers
  refine (Halts.mapM hs l fun e he t ht hle =>
    halts_given_splitPower ht ((hknown e he).mono hle) (hl e he)).bind
    fun split t ht _ hsplit hsplits => ?_
  have hgiven : ∀ p ∈ split, Given F True k p.1 ∧ Raising F k p.2 := fun p hp =>
    let ⟨_, _, h⟩ := exists_of_forall₂ hsplits p hp
    h
  refine halts_given_raisedBases hadd ht ?_ ?_
  · refine gather_forall (fun p hp => (hsplit p hp).1) (fun p hp => ?_) fun ns p hp hns => ?_
    · simpa using (hsplit p hp).2
    · exact Store.knows_append.2 ⟨hns, by simpa using (hsplit p hp).2⟩
  · refine gather_forall (P := Given F True k)
      (Q := fun ns : List Expr => ns ≠ [] ∧ ∀ n ∈ ns, Raising F k n)
      (fun p hp => (hgiven p hp).1) (fun p hp => ?_) fun ns p hp hns => ⟨by simp, ?_⟩
    · simpa using (hgiven p hp).2
    · exact List.forall_mem_append.2 ⟨hns.2, by simpa using (hgiven p hp).2⟩

/-- A scalar times a result is a result. -/
lemma halts_made_rawApply (hs : s.Grounded) (hknown : s.Knows e) (hknown' : s.Knows a)
    (he : Given F True k e) (ha : Made F P k a) :
    Halts Store.Grounded d s (rawApply e a) (Made F P k) := by
  refine halts_application hs hknown hknown' fun domain hdomain r hkind hr => ?_
  have hnone : e.function? = none := function?_of_isLinear hs.toWellFormed hknown he.isNumeric.isLinear
  obtain ⟨hanumeric, hnumeric⟩ := isNumeric_of_applyDomain? he.isNumeric ha.nested.isBuiltin hdomain
  obtain ⟨domain', hdomain', -, hscalar⟩ := applyDomain?_numeric he.isNumeric hanumeric
  obtain rfl : domain' = domain := Option.some.inj (hdomain'.symm.trans hdomain)
  subst hr
  refine ⟨⟨.of_apply hkind hnumeric.isBuiltin he.nested ha.nested,
    fun hP => hscalar.2 ⟨he.isScalar trivial, ha.isScalar hP⟩⟩, ?_⟩
  -- The scalar adds no matrix to the factors.
  have hm : multiplies e a = true := by
    simp [multiplies, hnone, he.isNumeric.isLinear, hanumeric.isLinear]
  rw [factors_of_kind hkind hm, List.filter_append, he.filter_isMatrixFactor hs.toWellFormed hknown,
    List.nil_append]
  exact ha.length_le

/-- Factors of which only the last may be no scalar, applied one after the other. -/
lemma halts_made_foldlM_rawApply (hs : s.Grounded) {rest : List Expr} (hknown : s.Knows e)
    (hknown' : s.Knows rest) (h : ∀ f ∈ e :: rest, Made F P k f)
    (hscalar : ∀ f ∈ (e :: rest).dropLast, f.domain.isScalar = true) :
    Halts Store.Grounded d s (rest.foldlM rawApply e) (Made F P k) := by
  induction rest generalizing s e with
  | nil => exact .pure hs hknown (h e (by simp))
  | cons a rest ih =>
    rw [Store.knows_cons] at hknown'
    rw [List.forall_mem_cons, List.forall_mem_cons] at h
    have hes : Given F True k e := ⟨h.1.nested, fun _ => hscalar e (by simp)⟩
    rw [List.foldlM_cons]
    cases rest with
    | nil =>
      exact (halts_made_rawApply hs hknown hknown'.1 hes h.2.1).bind fun r t ht _ hknownr hr =>
        .pure ht hknownr hr
    | cons b rest =>
      simp only [List.dropLast_cons_cons, List.forall_mem_cons] at hscalar
      have has : Made F True k a := ⟨⟨h.2.1.nested, fun _ => hscalar.2.1⟩, h.2.1.length_le⟩
      refine (halts_made_rawApply hs hknown hknown'.1 hes has).bind fun r t ht hle hknownr hr => ?_
      refine ih ht hknownr (hknown'.2.mono hle)
        (List.forall_mem_cons.2 ⟨⟨hr.of_scalar, hr.length_le⟩, h.2.2⟩) ?_
      simpa using ⟨hr.isScalar trivial, hscalar.2.2⟩

/-- The chain of some factors of which only the last may be no scalar. -/
lemma halts_made_leftChain (hs : s.Grounded) (hknown : s.Knows l) (h : ∀ e ∈ l, Made F P k e)
    (hscalar : ∀ e ∈ l.dropLast, e.domain.isScalar = true) (m : Number) :
    Halts Store.Grounded d s (leftChain m l) (Made F P k) := by
  cases l with
  | nil => exact halts_made_number hs m
  | cons e rest =>
    rw [Store.knows_cons] at hknown
    exact halts_made_foldlM_rawApply hs hknown.1 hknown.2 h hscalar

lemma halts_made_coefficientFactor (hs : s.Grounded) (m : Number) :
    Halts Store.Grounded d s (coefficientFactor m) fun front => ∀ e ∈ front, Made F True k e := by
  unfold coefficientFactor
  split
  · exact .pure hs Store.knows_nil (by simp)
  · refine (halts_made_number (F := F) (P := True) (k := k) hs m).bind fun e t ht _ hknown he => ?_
    exact .pure ht (by simpa using hknown) (by simpa using he)

/-- Factors of which at most one is a matrix. -/
lemma halts_made_assemble (hadd : AddsExponents F d k f) (hs : s.Grounded) (hknown : s.Knows l)
    (h : ∀ e ∈ l, Made F P k e) (hmatrices : (l.filter isMatrixFactor).length ≤ 1) :
    Halts Store.Grounded d s (assemble f l) (Made F P k) := by
  unfold assemble
  refine (halts_settle hs _).bind fun m t ht hle _ _ => .ite (fun _ => halts_made_number ht m) fun _ => ?_
  have hsub {p : Expr → Bool} {u : Store} (hle' : s ≤ u) : u.Knows (l.filter p) :=
    (hknown.of_subset List.filter_sublist.subset).mono hle'
  have hscalars : ∀ e ∈ l.filter isScalarFactor, Given F True k e := fun e he => by
    have hfactor := (List.mem_filter.1 he).2
    simp only [isScalarFactor, Bool.and_eq_true] at hfactor
    exact ⟨(h e (List.mem_filter.1 he).1).nested, fun _ => hfactor.2⟩
  refine (halts_given_mergePowers hadd ht (hsub hle) hscalars).bind
    fun scalars u hu hle' hknowns hscalars' => ?_
  refine (halts_made_coefficientFactor (F := F) (k := k) hu m).bind
    fun front v hv hle'' hknownf hfront => ?_
  have hknown' : v.Knows (front ++ scalars) := Store.knows_append.2 ⟨hknownf, hknowns.mono hle''⟩
  have hleading : ∀ e ∈ front ++ scalars, Given F True k e :=
    List.forall_mem_append.2 ⟨fun e he => (hfront e he).toGiven, hscalars'⟩
  -- All factors are scalars but the matrix, which comes last.
  refine halts_made_leftChain hv
    (Store.knows_append.2 ⟨hknown', hsub (hle.trans (hle'.trans hle''))⟩)
    (List.forall_mem_append.2 ⟨fun e he => ?_, fun e he => h e (List.mem_filter.1 he).1⟩)
    (fun e he => (hleading e (mem_of_mem_dropLast hmatrices he)).isScalar trivial) m
  exact (hleading e he).made hv.toWellFormed (hknown' e he)

end Products

/-- The factors of some operands. -/
lemma made_of_mem_flatMap_factors (hs : s.WellFormed) (hknown : s.Knows l) (h : ∀ e ∈ l, Given F P k e) :
    ∀ f ∈ l.flatMap factors, Made F P k f := fun f hf => by
  obtain ⟨e, he, hmem⟩ := List.mem_flatMap.1 hf
  exact Made.factors hs (hknown e he) (h e he) f hmem

/-- If exponents can be added up, operands with at most one matrix can be multiplied. -/
lemma halts_made_productAux {depth : ℕ} (hadd : AddsExponents F d k (sumWith (productAux depth)))
    (hs : s.Grounded) (hknown : s.Knows l) (h : ∀ e ∈ l, Given F P k e)
    (hmatrices : ((l.flatMap factors).filter isMatrixFactor).length ≤ 1) :
    Halts Store.Grounded d s (productAux (depth + 1) l) (Made F P k) := by
  unfold productAux
  refine (halts_settle hs _).bind fun m t ht hle _ _ => .ite (fun _ => halts_made_number ht m) fun _ => ?_
  -- There are no matrices to be merged.
  simp only [mergeMatrices, Nat.not_lt.2 hmatrices, if_false, pure_bind]
  exact halts_made_assemble hadd ht ((Suits.knows_flatMap_factors hs.toWellFormed hknown).mono hle)
    (made_of_mem_flatMap_factors hs.toWellFormed hknown h) hmatrices

/-! ## Sums -/

section Sums

variable {p : List Expr → Build Expr} [∀ l, Growing (p l)]

/-- A term is split into a coefficient and the rest. -/
lemma halts_given_splitCoefficient (hmul : MultipliesGiven F P d k p) (hs : s.Grounded)
    (hknown : s.Knows e) (he : Given F P k e) :
    Halts Store.Grounded d s (splitCoefficient p e) fun q => Given F P k q.1 := by
  have hwhole : Halts Store.Grounded d s (pure (e, .one) : Build (Expr × Number))
      fun q => Given F P k q.1 := .pure hs ⟨hknown, trivial⟩ he
  unfold splitCoefficient
  refine .ite (fun _ => ?_) fun _ => hwhole
  split
  · rename_i first rest hfactors
    have hknownf := knows_factors hs.toWellFormed hknown
    have hgiven := he.factors hs.toWellFormed hknown
    rw [hfactors] at hknownf hgiven
    rw [Store.knows_cons] at hknownf
    rw [List.forall_mem_cons] at hgiven
    split
    · refine (hmul hs hknownf.2 hgiven.2).bind fun r t ht _ hknownr hr => ?_
      exact .pure ht ⟨hknownr, trivial⟩ hr.toGiven
    · exact hwhole
  · exact hwhole

omit [∀ l, Growing (p l)] in
lemma halts_given_scaledTerm (hmul : MultipliesGiven F P d k p) (hs : s.Grounded) (hknown : s.Knows e)
    (he : Given F P k e) (m : Number) : Halts Store.Grounded d s (scaledTerm p e m) (Given F P k) := by
  unfold scaledTerm
  refine .ite (fun _ => .pure hs hknown he) fun _ => ?_
  refine (halts_made_number (F := F) (P := P) (k := k) hs m).bind fun c t ht hle hknownc hc => ?_
  exact (hmul ht (by simpa using ⟨hknownc, hknown.mono hle⟩) (by simpa using ⟨hc.toGiven, he⟩)).imp
    fun r hr => hr.toGiven

lemma halts_given_scaledTerms (hmul : MultipliesGiven F P d k p) (hs : s.Grounded)
    {groups : List (Expr × Number.Tracked)} (hknown : ∀ g ∈ groups, s.Knows g.1)
    (hgroups : ∀ g ∈ groups, Given F P k g.1) :
    Halts Store.Grounded d s (scaledTerms p groups) fun m => ∀ e ∈ m, Given F P k e := by
  induction groups generalizing s with
  | nil => exact .pure hs Store.knows_nil (by simp)
  | cons g groups ih =>
    obtain ⟨r, total⟩ := g
    rw [List.forall_mem_cons] at hknown hgroups
    have hknown' {u : Store} (hle : s ≤ u) : ∀ g ∈ groups, u.Knows g.1 := fun g hg =>
      (hknown.2 g hg).mono hle
    rw [scaledTerms]
    refine (halts_settle hs total).bind fun m t ht hle _ _ =>
      .ite (fun _ => ih ht (hknown' hle) hgroups.2) fun _ => ?_
    refine (halts_given_scaledTerm hmul ht (hknown.1.mono hle) hgroups.1 m).bind
      fun e u hu hle' hknowne he => ?_
    refine (ih hu (hknown' (hle.trans hle')) hgroups.2).bind fun m v hv hle'' hknownm hm => ?_
    exact .pure hv (Store.knows_cons.2 ⟨hknowne.mono hle'', hknownm⟩) (List.forall_mem_cons.2 ⟨he, hm⟩)

omit [∀ l, Growing (p l)] in
/-- Terms that have no sum are a type error. -/
lemma ne_depthExceeded_of_sumDomainFrom {left : Expr} {domain : Domain} {err : Error}
    (h : sumDomainFrom left domain l = .error err) : err ≠ .depthExceeded := by
  induction l generalizing left domain with
  | nil => cases h
  | cons e l ih =>
    rw [sumDomainFrom] at h
    split at h
    · exact ih h
    · cases h
      simp

lemma halts_sumDomain (hs : s.Grounded) (l : List Expr) :
    Halts Store.Grounded d s (Build.ofExcept id (sumDomain l)) fun domain => sumDomain l = .ok domain :=
  .ofExcept hs (fun _ h => ⟨trivial, h⟩) fun err h => by
    cases l with
    | nil => cases h
    | cons e l => exact ne_depthExceeded_of_sumDomainFrom h

/-- The sum of some terms. -/
lemma halts_given_ofTerms (hs : s.Grounded) {constant : Option Expr} (hconstant : s.Knows constant)
    (hknown : s.Knows l) (hc : ∀ c ∈ constant, Given F P k c) (hl : ∀ e ∈ l, Given F P k e) :
    Halts Store.Grounded d s (ofTerms constant l) (Given F P k) := by
  unfold ofTerms
  split
  · cases constant with
    | none => exact (halts_made_number hs _).imp fun e he => he.toGiven
    | some c => exact .pure hs (hconstant c rfl) (hc c rfl)
  · rename_i term
    exact .pure hs (hknown term (by simp)) (hl term (by simp))
  · refine (halts_sumDomain hs l).bind fun domain t ht hle _ hsum => ?_
    refine halts_ordinary ht (admits_sum (hknown.mono hle) hsum) rfl fun e u hu hle' he hcode => ?_
    have hkind := hu.toWellFormed.kind_eq_sum he ((hknown.mono hle).mono hle') hcode
    have htyped := (hu.toWellFormed.admits he).typed
    rw [hkind, Kind.Typed, hsum, Except.ok.injEq] at htyped
    subst htyped
    refine ⟨.of_children (isBuiltin_of_sumDomain (fun c hc => (hl c hc).nested.isBuiltin) hsum)
      (not_hasBody_of_kind_ne (by simp [hkind])) ?_ (by simp [hkind]), fun hP => ?_⟩
    · simpa [children, hkind, Kind.children] using fun c hc => (hl c hc).nested
    · obtain ⟨domain, hdomain, -, hscalar⟩ := sumDomain_numeric (l := l) fun c hc =>
        (Given.mk (hl c hc).nested fun _ => (hl c hc).isScalar hP).isNumeric
      obtain rfl : domain = e.domain := Except.ok.inj (hdomain.symm.trans hsum)
      exact hscalar.2 fun c hc => (hl c hc).isScalar hP

/-- Sums of operands. -/
lemma halts_given_sumWith (hmul : MultipliesGiven F P d k p) (hs : s.Grounded) (hknown : s.Knows l)
    (h : ∀ e ∈ l, Given F P k e) : Halts Store.Grounded d s (sumWith p l) (Given F P k) := by
  have hall : ∀ e ∈ allTerms l, Given F P k e := fun e he => by
    rw [allTerms_eq_flatMap] at he
    obtain ⟨e', he', hmem⟩ := List.mem_flatMap.1 he
    exact (h e' he').terms hs.toWellFormed (hknown e' he') e hmem
  have hothers : ∀ e ∈ nonLiterals (allTerms l), Given F P k e := fun e he =>
    hall e (List.mem_filter.1 he).1
  have hknown' : s.Knows (nonLiterals (allTerms l)) :=
    (knows_allTerms hs.toWellFormed hknown).of_subset List.filter_sublist.subset
  unfold sumWith
  refine (halts_constant hs _).bind fun constant s₁ hs₁ h₁ hknown₁ hconstant => ?_
  have hc : ∀ c ∈ constant, Given F P k c := fun c hc =>
    .of_number (hconstant.2.1 c hc).1 (hconstant.2.1 c hc).2
  refine (halts_sumDomain hs₁ _).bind fun _ s₂ hs₂ h₂ _ _ => ?_
  refine (Halts.mapM hs₂ _ fun e he t ht hle => halts_given_splitCoefficient hmul ht
    ((hknown' e he).mono (h₁.trans (h₂.trans hle))) (hothers e he)).bind
    fun split s₃ hs₃ h₃ hknown₃ hsplit => ?_
  have hsplit' : ∀ q ∈ split, Given F P k q.1 := fun q hq =>
    let ⟨_, _, h⟩ := exists_of_forall₂ hsplit q hq
    h
  refine (halts_given_scaledTerms hmul hs₃ (gather_keys_forall fun q hq => (hknown₃ q hq).1)
    (gather_keys_forall hsplit')).bind fun scaled s₄ hs₄ h₄ hknown₄ hscaled => ?_
  have hknown₅ : s₄.Knows constant := hknown₁.mono (h₂.trans (h₃.trans h₄))
  have hfront : ∀ c ∈ (constant.filter fun c => !c.isZero).toList, c ∈ constant := fun c hc =>
    (Option.mem_filter_iff.1 (Option.mem_toList.1 hc)).1
  exact halts_given_ofTerms hs₄ hknown₅
    (Store.knows_append.2 ⟨fun c hc => hknown₅ c (hfront c hc), hknown₄⟩) hc
    (List.forall_mem_append.2 ⟨fun c hc' => hc c (hfront c hc'), hscaled⟩)

/-- Literals are added up without products. -/
lemma addsExponents_zero (p : List Expr → Build Expr) : AddsExponents F d 0 (sumWith p) := by
  intro s l hs hknown hne hl
  have hterms : allTerms l = l := by
    rw [allTerms_eq_flatMap, List.flatMap_congr fun n hn => terms_of_kind_ne fun items hkind => by
      simpa [number?, hkind] using (hl n hn).isSome]
    simp
  have hothers : nonLiterals l = [] :=
    List.filter_eq_nil_iff.2 fun n hn => by
      obtain ⟨m, hm⟩ := Option.isSome_iff_exists.1 (hl n hn).isSome
      simp [hm]
  have hliterals : literals l ≠ [] := by
    obtain ⟨n, rest, rfl⟩ := List.exists_cons_of_ne_nil hne
    obtain ⟨m, hm⟩ := Option.isSome_iff_exists.1 (hl n (by simp)).isSome
    simp [literals, hm]
  unfold sumWith
  simp only [hterms, hothers]
  refine (halts_constant hs _).bind fun constant t ht _ hknown' hconstant => ?_
  obtain ⟨c, rfl⟩ := Option.isSome_iff_exists.1 (hconstant.1.2 hliterals)
  obtain ⟨hnumber, hreal⟩ := hconstant.2.1 c rfl
  have hdomain : sumDomain ((some c).toList ++ []) = .ok c.domain := rfl
  -- All that is left of the sum is the constant, also if it is zero.
  have hsum : ofTerms (some c) (((some c).filter fun c => !c.isZero).toList ++ []) = pure c := by
    cases hzero : c.isZero <;> simp [ofTerms, Option.filter, hzero]
  rw [hdomain, List.mapM_nil]
  simp only [Build.ofExcept, gather, sortBy, Sorting.sort, scaledTerms, pure_bind, hsum]
  exact .pure ht (Store.knows_some.1 hknown') (.of_number hnumber hreal)

/-- Other exponents are scalars in which exponents are nested less deep. -/
lemma addsExponents_succ (hmul : MultipliesGiven F True d k p) : AddsExponents F d (k + 1) (sumWith p) :=
  fun _ _ hs hknown _ hl =>
    (halts_given_sumWith hmul hs hknown fun n hn => (hl n hn).pred).imp fun _ => .of_given

end Sums

/-! ## The depth of the recursion -/

/-- Scalars have no matrices among their factors. -/
lemma filter_isMatrixFactor_of_scalars (hs : s.WellFormed) (hknown : s.Knows l)
    (h : ∀ e ∈ l, Given F True k e) : (l.flatMap factors).filter isMatrixFactor = [] :=
  List.filter_eq_nil_iff.2 fun f hf => by
    simp [isMatrixFactor, (made_of_mem_flatMap_factors hs hknown h f hf).isScalar trivial]

/-- Exponents can be added up at the depth of their nesting, and operands with at most one matrix can be
multiplied at one more. -/
lemma addsExponents_productAux {depth : ℕ} (hdepth : k ≤ depth) :
    AddsExponents F d k (sumWith (productAux depth)) := by
  -- The sum of exponents multiplies them by coefficients, and they hold exponents one less deep.
  induction k generalizing depth with
  | zero => exact addsExponents_zero (productAux depth)
  | succ k ih =>
    obtain ⟨n, rfl⟩ : ∃ n, depth = n + 1 := ⟨depth - 1, by omega⟩
    refine addsExponents_succ fun s l hs hknown hl => ?_
    refine halts_made_productAux (ih (by omega)) hs hknown hl ?_
    simp [filter_isMatrixFactor_of_scalars hs.toWellFormed hknown hl]

/-! ## Products of matrices in order -/

section Chains

/-- A computed matrix lies in some built-in domain. -/
lemma halts_made_ofMatrix (hs : s.Grounded) (m : Matrix) :
    Halts Store.Grounded d s (ofMatrix m) (Made F False k) := by
  unfold ofMatrix Value.ofMatrix
  simp only [bind_assoc, pure_bind]
  refine (halts_fresh hs).bind fun identity t ht _ _ _ => ?_
  unfold constant object
  have hadm : t.Admits (.ofType (Value.matrix identity m).hostType .declared)
      (.object (.matrix identity m) Resolver.declared.identity) :=
    ⟨by simp [Kind.children], Store.knows_matrix m, trivial, by simp [Kind.index?]⟩
  obtain ⟨-, hknown, hcode⟩ := ht.toWellFormed.intern hadm
  have hgrounded := ht.intern hadm fun _ => Domain.isBuiltin_ofType _ _
  obtain ⟨v, resolver, hkind, -⟩ := Kind.exists_object_of_code hcode
  exact ⟨hgrounded, hknown, .of_object hgrounded hknown hkind⟩

/-- A factor at the end of a reduced chain. -/
lemma halts_made_pushFactor (hs : s.Grounded) {reversed : List Expr} (hknown : s.Knows reversed)
    (hknown' : s.Knows e) (hreversed : ∀ c ∈ reversed, Made F False k c) (he : Made F False k e) :
    Halts Store.Grounded d s (pushFactor reversed e) fun m => ∀ c ∈ m, Made F False k c := by
  unfold pushFactor
  split
  · exact .pure hs (by simpa using hknown') (by simpa using he)
  rename_i last rest
  have hlist := hknown
  have hmade := hreversed
  rw [Store.knows_cons] at hlist
  rw [List.forall_mem_cons] at hmade
  refine .ite (fun _ => .pure hs hlist.2 hmade.2) fun _ => ?_
  split
  · refine (Halts.ofExcept (Q := fun _ => True) hs (fun m _ => ⟨Store.knows_plain m, trivial⟩)
      (by simp)).bind
      fun m t ht hle _ _ => ?_
    refine (halts_made_ofMatrix (F := F) (k := k) ht m).bind fun c u hu hle' hknownc hc => ?_
    exact .pure hu (Store.knows_cons.2 ⟨hknownc, hlist.2.mono (hle.trans hle')⟩)
      (List.forall_mem_cons.2 ⟨hc, hmade.2⟩)
  · exact .pure hs (Store.knows_cons.2 ⟨hknown', hknown⟩) (List.forall_mem_cons.2 ⟨he, hreversed⟩)

/-- The product of a reduced chain. -/
lemma halts_made_ofChain (hs : s.Grounded) (hknown : s.Knows l) (h : ∀ c ∈ l, Made F False k c) :
    Halts Store.Grounded d s (ofChain l) (Made F False k) := by
  unfold ofChain
  split
  · exact halts_made_number hs _
  · exact .pure hs (hknown _ (by simp)) (h _ (by simp))
  · refine halts_ordinary hs (admits_chain hknown) rfl fun e t ht hle he hcode => ?_
    have hkind := ht.toWellFormed.kind_eq_chain he (hknown.mono hle) hcode
    have htyped := (ht.toWellFormed.admits he).typed
    rw [hkind, Kind.Typed] at htyped
    have hnested : Nested F k e := .of_children (by rw [htyped]; rfl)
      (not_hasBody_of_kind_ne (by simp [hkind]))
      (by simpa [children, hkind, Kind.children] using fun c hc => (h c hc).nested) (by simp [hkind])
    exact .of_factors ⟨hnested, False.elim⟩ (factors_of_isProduct (by rw [isProduct, hkind]))

/-- `f` multiplies a scalar and a result. -/
def MultipliesPairs (F : Expr → Prop) (d k : ℕ) (f : Expr → Expr → Build Expr) : Prop :=
  ∀ ⦃P : Prop⦄ ⦃s : Store⦄ ⦃a b : Expr⦄, s.Grounded → s.Knows a → s.Knows b → Given F True k a →
    Made F P k b → Halts Store.Grounded d s (f a b) (Made F P k)

variable {f : Expr → Expr → Build Expr} [∀ a b, Growing (f a b)]

/-- Scalars and a last result are multiplied one after the other. -/
lemma halts_made_foldProduct (hf : MultipliesPairs F d k f) (hs : s.Grounded) (hknown : s.Knows l)
    (hknown' : s.Knows e) (hl : ∀ c ∈ l, Given F True k c) (he : Made F P k e) :
    Halts Store.Grounded d s (foldProduct f (l ++ [e])) (Made F P k) := by
  cases l with
  | nil => exact .pure hs hknown' he
  | cons c l =>
    rw [Store.knows_cons] at hknown
    rw [List.forall_mem_cons] at hl
    rw [List.cons_append, foldProduct, List.foldlM_append]
    refine (Halts.foldlM (Q := Made F True k) hs hknown.1 (hl.1.made hs.toWellFormed hknown.1) l
      fun a ha r t ht hle hknownr hr => ?_).bind fun r t ht hle hknownr hr => ?_
    · have hknowna := (hknown.2 a ha).mono hle
      exact hf (P := True) ht hknownr hknowna hr.toGiven ((hl.2 a ha).made ht.toWellFormed hknowna)
    · rw [List.foldlM_cons]
      exact (hf ht hknownr (hknown'.mono hle) hr.toGiven he).bind fun r t ht _ hknownr hr =>
        .pure ht hknownr hr

/-- A product of operands in order. -/
lemma halts_made_chainWith (hf : MultipliesPairs F d k f) (hs : s.Grounded) (hknown : s.Knows l)
    (h : ∀ c ∈ l, Nested F k c) :
    Halts Store.Grounded d s (chainWith (foldProduct f) l) (Made F False k) := by
  have hnested := Nested.allChainFactorsOnto h
  have hlink : ∀ c ∈ allChainFactorsOnto l [], c.IsLink fun _ => True := fun _ hc =>
    isLink_of_mem_allChainFactorsOnto _ hc
  have hknown := knows_allChainFactorsOnto hs.toWellFormed hknown
  unfold chainWith
  dsimp only
  generalize allChainFactorsOnto l [] = all at hnested hlink hknown
  have hmade : ∀ c ∈ all, Made F False k c := fun c hc =>
    .of_factors ⟨hnested c hc, False.elim⟩ (factors_of_isProduct (hlink c hc).not_product)
  have hsub {p : Expr → Bool} {u : Store} (hle : s ≤ u) : u.Knows (all.filter p) :=
    (hknown.of_subset List.filter_sublist.subset).mono hle
  refine (Halts.foldlM (Q := fun m => ∀ c ∈ m, Made F False k c) hs Store.knows_nil (by simp) _
    fun c hc m t ht hle hknownm hm => halts_made_pushFactor ht hknownm (hsub hle c hc) hm
      (hmade c (List.mem_filter.1 hc).1)).bind fun reversed t ht hle hknownr hreversed => ?_
  refine (halts_made_ofChain ht (Store.knows_reverse.2 hknownr) fun c hc =>
    hreversed c (List.mem_reverse.1 hc)).bind fun matrix u hu hle' hknownm hmatrix => ?_
  refine .ite (fun _ => .pure hu hknownm hmatrix) fun _ => ?_
  refine halts_made_foldProduct hf hu (hsub (hle.trans hle')) hknownm (fun c hc => ?_) hmatrix
  obtain ⟨hc, hscalar⟩ := List.mem_filter.1 hc
  exact ⟨hnested c hc, fun _ => hscalar⟩

end Chains

/-! ## Products of any operands -/

/-- An application whose domain is checked before. -/
lemma halts_applyDomain (hs : s.Grounded) (t a : Expr) :
    Halts Store.Grounded d s (applyDomain t a) fun domain => applyDomain? t a = some domain := by
  unfold applyDomain
  split
  · exact .pure hs trivial ‹_›
  · exact .throw hs (by simp)

/-- The function for the product of two operands that products of several matrices use. -/
lemma multipliesPairs_productAux {depth : ℕ} (hdepth : k < depth) :
    MultipliesPairs F d k fun a b => applyDomain a b >>= fun _ => productAux depth [a, b] := by
  intro P s a b hs hknown hknown' ha hb
  obtain ⟨n, rfl⟩ : ∃ n, depth = n + 1 := ⟨depth - 1, by omega⟩
  refine (halts_applyDomain hs a b).bind fun _ t ht hle _ _ => ?_
  refine halts_made_productAux (addsExponents_productAux (by omega)) ht
    (by simpa using ⟨hknown.mono hle, hknown'.mono hle⟩) (by simpa using ⟨ha.of_scalar, hb.toGiven⟩) ?_
  simpa [ha.filter_isMatrixFactor hs.toWellFormed hknown] using hb.length_le

/-- Operands can be multiplied at two more than the depth of their exponents. -/
lemma multipliesGiven_productAux {depth : ℕ} (hdepth : k < depth) :
    MultipliesGiven F P d k (productAux (depth + 1)) := by
  intro s l hs hknown h
  have hadd : AddsExponents F d k (sumWith (productAux depth)) := addsExponents_productAux hdepth.le
  by_cases hmatrices : ((l.flatMap factors).filter isMatrixFactor).length ≤ 1
  · exact halts_made_productAux hadd hs hknown h hmatrices
  have hmade := made_of_mem_flatMap_factors hs.toWellFormed hknown h
  have hknown' := Suits.knows_flatMap_factors hs.toWellFormed hknown
  unfold productAux
  dsimp only
  generalize l.flatMap factors = fs at hmatrices hmade hknown'
  -- The product is no scalar, as there are several matrices among its factors.
  have hP : ¬P := fun hP => hmatrices <| by
    rw [List.filter_eq_nil_iff.2 fun f hf => by simp [isMatrixFactor, (hmade f hf).isScalar hP]]
    simp
  have hresult {e : Expr} (he : Made F False k e) : Made F P k e :=
    ⟨⟨he.nested, fun h => absurd h hP⟩, he.length_le⟩
  refine (halts_settle hs _).bind fun m t ht hle _ _ => .ite (fun _ => halts_made_number ht m) fun _ => ?_
  have hsub {p : Expr → Bool} : t.Knows (fs.filter p) :=
    (hknown'.of_subset List.filter_sublist.subset).mono hle
  rw [mergeMatrices, if_pos (not_le.1 hmatrices)]
  simp only [bind_assoc, pure_bind]
  refine (halts_made_chainWith (multipliesPairs_productAux hdepth) ht hsub fun c hc =>
    (hmade c (List.mem_filter.1 hc).1).nested).bind fun combined u hu hle' hknownc hcombined => ?_
  have hothers : ∀ f ∈ fs.filter fun e => !e.isMatrixFactor, Made F False k f := fun f hf =>
    let hf := hmade f (List.mem_filter.1 hf).1
    ⟨⟨hf.nested, False.elim⟩, hf.length_le⟩
  refine (halts_made_assemble hadd hu (Store.knows_append.2
    ⟨hsub.mono hle', knows_factors hu.toWellFormed hknownc⟩) (List.forall_mem_append.2
      ⟨hothers, Made.factors hu.toWellFormed hknownc hcombined.toGiven⟩) ?_).imp fun _ => hresult
  rw [List.filter_append, List.filter_filter]
  simpa using hcombined.length_le

lemma multipliesGiven_canonicalProduct (hd : k + 2 ≤ d) : MultipliesGiven F P d k canonicalProduct := by
  obtain ⟨n, rfl⟩ : ∃ n, d = n + 1 := ⟨d - 1, by omega⟩
  exact fun s l hs hknown h =>
    (multipliesGiven_productAux (by omega) hs hknown h).of_run_eq (canonicalProduct_apply l _ s)

/-! ## Application -/

section Application

lemma halts_nested_rawApply (hs : s.Grounded) (hknown : s.Knows t) (hknown' : s.Knows a)
    (ht : Nested F k t) (ha : Nested F k a) (hbody : ¬t.HasBody) :
    Halts Store.Grounded d s (rawApply t a) (Nested F k) :=
  halts_application hs hknown hknown' fun _ hdomain _ he hde =>
    .of_apply he (hde ▸ isBuiltin_of_applyDomain? ht.isBuiltin ha.isBuiltin hbody hdomain) ht ha

/-- A call of a function without a body. -/
lemma halts_nested_callWith (substitute : Substitute) (hs : s.Grounded) (hknown : s.Knows t)
    (hknown' : s.Knows a) {f : Function} (hf : t.function? = some f) (ha : Nested F k a)
    (hbody : ¬t.HasBody) : Halts Store.Grounded d s (callWith substitute f t a) (Nested F k) := by
  have hkind : t.kind = .function f := by
    unfold function? at hf
    split at hf <;> cases hf
    assumption
  have ht : Nested F k t := .of_function hs.toWellFormed hknown hkind hbody
  unfold callWith
  refine .ite (fun _ => .throw hs (by simp)) fun _ => ?_
  split
  · exact absurd ⟨_, _, _, _, hf⟩ hbody
  · rename_i b n hargs
    exact (halts_given_powerOf (P := False) hs hknown hknown' hkind (arguments_pow.1 hargs) ha
      False.elim).imp fun _ he => he.nested
  · exact halts_nested_rawApply hs hknown hknown' ht ha hbody

/-- What is no function is multiplied, if it can only be applied to scalars and matrices. -/
lemma halts_made_apply (hd : k + 2 ≤ d) (hs : s.Grounded) (hknown : s.Knows t) (hknown' : s.Knows a)
    (ht : Given F P k t) (ha : Given F P k a) (hlinear : t.domain.isLinear = true)
    (h : ∀ domain, applyDomain? t a = some domain → a.domain.isLinear = true) :
    Halts Store.Grounded d s (apply t a) (Made F P k) := by
  obtain ⟨n, rfl⟩ : ∃ n, d = n + 1 := ⟨d - 1, by omega⟩
  unfold apply
  refine .read ?_
  rw [applyAux, function?_of_isLinear hs.toWellFormed hknown hlinear]
  refine (halts_applyDomain hs t a).bind fun domain u hu hle _ hdomain => ?_
  rw [if_pos (by simp [hlinear, h domain hdomain])]
  exact multipliesGiven_canonicalProduct hd hu (by simpa using ⟨hknown.mono hle, hknown'.mono hle⟩)
    (by simpa using ⟨ht, ha⟩)

lemma multipliesPairs_apply (hd : k + 2 ≤ d) : MultipliesPairs F d k apply :=
  fun _ _ _ _ hs hknown hknown' ha hb =>
    halts_made_apply hd hs hknown hknown' ha.of_scalar hb.toGiven ha.isNumeric.isLinear fun _ hdomain =>
      (isNumeric_of_applyDomain? ha.isNumeric hb.nested.isBuiltin hdomain).1.isLinear

/-- Anything but a function with a body can be applied. -/
lemma halts_nested_apply (hd : k + 2 ≤ d) (hs : s.Grounded) (hknown : s.Knows t) (hknown' : s.Knows a)
    (ht : Nested F k t) (ha : Nested F k a) (hbody : ¬t.HasBody) :
    Halts Store.Grounded d s (apply t a) (Nested F k) := by
  by_cases hlinear : t.domain.isLinear = true ∧ a.domain.isLinear = true
  · exact (halts_made_apply (P := False) hd hs hknown hknown' ⟨ht, False.elim⟩ ⟨ha, False.elim⟩ hlinear.1
      fun _ _ => hlinear.2).imp fun _ he => he.nested
  obtain ⟨n, rfl⟩ : ∃ n, d = n + 1 := ⟨d - 1, by omega⟩
  unfold apply
  refine .read ?_
  rw [applyAux]
  split
  · rename_i f hf
    exact halts_nested_callWith _ hs hknown hknown' hf ha hbody
  refine (halts_applyDomain hs t a).bind fun domain u hu hle _ hdomain => ?_
  rw [if_neg (by simpa using hlinear)]
  have hcommutes : t.commutes a = false := Bool.eq_false_iff.2 fun h =>
    hlinear (isLinear_of_commutes ht.isBuiltin ha.isBuiltin h)
  have hstands : Halts Store.Grounded (n + 1) u (Build.intern domain (.apply t a)) (Nested F k) :=
    (halts_intern_apply hu (hknown.mono hle) (hknown'.mono hle) hdomain).imp fun e he =>
      .of_apply he.1 (he.2 ▸ isBuiltin_of_applyDomain? ht.isBuiltin ha.isBuiltin hbody hdomain) ht ha
  simp only [hcommutes, Bool.false_and, Bool.false_eq_true, if_false]
  split
  · rename_i innerTarget innerArgument hkind
    refine .ite (fun hassociates => ?_) fun _ => hstands
    -- Only numeric domains associate, and there the argument is a product of scalars and matrices.
    have hchildren : a.children = [innerTarget, innerArgument] := by rw [children, hkind, Kind.children]
    have hinner : Nested F k innerTarget := ha.child (by simp [hchildren])
    have hinner' : Nested F k innerArgument := ha.child (by simp [hchildren])
    obtain ⟨htarget, hleft, hright⟩ := isLinear_of_associates ht.isBuiltin hinner.isBuiltin
      hinner'.isBuiltin hassociates
    have hnumeric := (domain_of_apply hs.toWellFormed hknown' hkind
      (Domain.isNumeric_of_isLinear hinner.isBuiltin hleft)
      (Domain.isNumeric_of_isLinear hinner'.isBuiltin hright)).1
    exact absurd ⟨htarget, hnumeric.isLinear⟩ hlinear
  · exact hstands

end Application

/-! ## Products in order -/

/-- A product in order, of operands in which there are no functions with a body. -/
lemma halts_nested_product (hd : k + 2 ≤ d) (hs : s.Grounded) (hknown : s.Knows l)
    (h : ∀ e ∈ l, Nested (fun _ => False) k e) :
    Halts Store.Grounded d s (product l) (Nested (fun _ => False) k) := by
  unfold product foldProduct
  cases l with
  | nil => exact (halts_made_number hs _).imp fun e he => Given.nested (P := False) he.toGiven
  | cons e l =>
    rw [Store.knows_cons] at hknown
    rw [List.forall_mem_cons] at h
    exact .foldlM hs hknown.1 h.1 l fun a ha f t ht hle hknownf hf => halts_nested_apply hd ht hknownf
      ((hknown.2 a ha).mono hle) hf (h.2 a ha) (hf.functions f .refl)

/-- Nothing in the expression lies in a custom domain. -/
def OverBuiltins (e : Expr) : Prop :=
  ∀ a, Below a e → a.domain.isBuiltin = true

/-- With a bound for its exponents, it is such an expression as above. -/
lemma OverBuiltins.nested (h : e.OverBuiltins) (hk : e.exponentDepth ≤ k) : Nested (fun _ => True) k e :=
  ⟨h, fun _ _ _ => trivial, hk⟩

/-- The run comes to an end within the depth: with a node over built-in domains, of the store that it
leads to, or with an error other than that the depth is exceeded. -/
def Ends (d : ℕ) (s : Store) (x : Build Expr) : Prop :=
  (∃ e t, x d s = .ok e t ∧ t.Knows e ∧ e.OverBuiltins) ∨
    ∃ err t, x d s = .error err t ∧ err ≠ .depthExceeded

namespace Ends

variable {x : Build Expr} {d' : ℕ}

lemma of_halts {I : Store → Prop} (h : Halts I d s x (Nested F k)) : Ends d s x := by
  cases hr : x d s with
  | ok e t => exact .inl ⟨e, t, hr, (h.of_ok hr).2.1, (h.of_ok hr).2.2.builtin⟩
  | error err t => exact .inr ⟨err, t, hr, (h.of_error hr).2⟩

/-- A greater depth changes nothing. -/
lemma eq_of_le [Persists x x] (h : Ends d s x) (hle : d ≤ d') : x d' s = x d s :=
  Persists.eq_of_le hle fun t ht => by
    rcases h with ⟨e, u, hr, -⟩ | ⟨err, u, hr, herr⟩
    · rw [hr] at ht
      cases ht
    · rw [hr] at ht
      cases ht
      exact herr rfl

lemma mono [Persists x x] (h : Ends d s x) (hle : d ≤ d') : Ends d' s x := by
  rw [Ends, h.eq_of_le hle]
  exact h

end Ends

/-- In the product in order of the operands, what has been multiplied so far is a function with a body,
and its call with the next operand goes astray: at no depth does it come to an end in built-in domains. -/
def CallsAstray (s : Store) (l : List Expr) : Prop :=
  ∃ l₁ a l₂ d f t, l = l₁ ++ a :: l₂ ∧ product l₁ d s = .ok f t ∧ f.HasBody ∧
    ∀ d', ¬Ends d' t (apply f a)

lemma product_concat (hne : l ≠ []) (a : Expr) :
    product (l ++ [a]) = product l >>= fun f => apply f a := by
  obtain ⟨e, rest, rfl⟩ := List.exists_cons_of_ne_nil hne
  simp [product, foldProduct, List.foldlM_append]

/-- A product in order leads to a store that can be reached. -/
lemma reachable_of_product {f : Expr} {t : Store} (hs : s.Reachable) (hknown : s.Knows l)
    (hr : product l d s = .ok f t) : t.Reachable := by
  have hstep := hs.step (.product l) d hknown
  have hrun : (Operation.product l).run d s = .ok () t := by
    show ((fun _ => ()) <$> product l : Build Unit) d s = .ok () t
    rw [Run.map_eq_bind, Run.bind_apply_ok hr]
    rfl
  rwa [hrun] at hstep

/-- A product in order comes to an end unless a call on the way goes astray. -/
lemma exists_ends_product (hs : s.Reachable) (hknown : s.Knows l)
    (h : ∀ e ∈ l, e.OverBuiltins) : (∃ d, Ends d s (product l)) ∨ CallsAstray s l := by
  -- The product is applied to one operand after the other, so the induction takes off the last one.
  induction l using List.reverseRecOn with
  | nil =>
    exact .inl ⟨0, .of_halts ((halts_made_number (F := fun _ => True) (P := False) (k := 0) hs.grounded
      _).imp fun e he => he.nested)⟩
  | append_singleton l a ih =>
    rw [Store.knows_append] at hknown
    rw [List.forall_mem_append] at h
    have hknowna : s.Knows a := by simpa using hknown.2
    have ha : a.OverBuiltins := by simpa using h.2
    rcases List.eq_nil_or_concat l with rfl | ⟨l', b, hl⟩
    · exact .inl ⟨0, .inl ⟨a, s, rfl, hknowna, ha⟩⟩
    have hne : l ≠ [] := by simp [hl]
    rcases ih hknown.1 h.1 with ⟨d, hends⟩ | ⟨l₁, b, l₂, d, f, t, rfl, hrun, hcall⟩
    · rcases id hends with ⟨f, t, hr, hknownf, hf⟩ | ⟨err, t, hr, herr⟩
      · have hknowna := hknowna.mono (Growing.le_of_ok hr)
        have hlast : (∃ d', Ends d' t (apply f a)) ∨ CallsAstray s (l ++ [a]) := by
          by_cases hbody : f.HasBody
          · by_cases hend : ∃ d', Ends d' t (apply f a)
            · exact .inl hend
            · exact .inr ⟨l, a, [], d, f, t, rfl, hr, hbody, not_exists.1 hend⟩
          · exact .inl ⟨_, .of_halts (halts_nested_apply le_rfl (reachable_of_product hs hknown.1 hr).grounded
              hknownf hknowna (hf.nested (le_max_left _ _)) (ha.nested (le_max_right _ _)) hbody)⟩
        -- At the greater of both depths, both steps come to what they come to at their own.
        refine hlast.imp_left fun ⟨d', hend⟩ => ⟨max d d', ?_⟩
        rw [Ends, product_concat hne, Run.bind_apply, hends.eq_of_le (le_max_left d d'), hr]
        exact hend.mono (le_max_right d d')
      · refine .inl ⟨d, .inr ⟨err, t, ?_, herr⟩⟩
        rw [product_concat hne, Run.bind_apply, hr]
    · exact .inr ⟨l₁, b, l₂ ++ [a], d, f, t, by simp, hrun, hcall⟩

/-- A depth that suffices for sums and products of some operands. -/
def constructionDepth (l : List Expr) : ℕ :=
  (l.map exponentDepth).foldr max 0 + 2

end Expr

namespace Store.Reachable

open TermGraph.Expr

variable {s : Store} {l : List Expr} {d : ℕ}

/-- **Canonical construction comes to an end.**  The operands `l` are any expressions over built-in
domains in a store that can be reached.  Two levels of recursion more than exponents are nested in them
suffice for their sum, for their product as matrices, for the application of a scalar or a matrix among
them to another operand and, if there are no functions with a body in them, for their product in order.

Whatever functions there are, the product in order comes to an end at some depth and at every greater
one, as long as the calls on the way do.  A call of a function with a body is a substitution and no part
of this recursion.  It may go on for ever, since a function can be called with itself, and it may leave
the built-in domains, since the body can lie in any. -/
theorem construction_ends (hs : s.Reachable) (hknown : s.Knows l)
    (hbuiltin : ∀ e ∈ l, e.OverBuiltins) :
    (∀ d, constructionDepth l ≤ d →
      Ends d s (sum l) ∧ Ends d s (chain l) ∧
      (∀ t ∈ l, ∀ a ∈ l, t.domain.isLinear = true → Ends d s (apply t a)) ∧
      ((∀ e ∈ l, ∀ f, Below f e → ¬f.HasBody) → Ends d s (product l))) ∧
    ((∃ d, ∀ d', d ≤ d' → Ends d' s (product l)) ∨ CallsAstray s l) := by
  have hgrounded := hs.grounded
  have hdepth : ∀ e ∈ l, e.exponentDepth ≤ (l.map exponentDepth).foldr max 0 := fun e he =>
    foldr_max_le_iff.1 le_rfl _ (List.mem_map_of_mem he)
  have hnested : ∀ e ∈ l, Nested (fun _ => True) ((l.map exponentDepth).foldr max 0) e := fun e he =>
    (hbuiltin e he).nested (hdepth e he)
  refine ⟨fun d hd => ⟨?_, ?_, fun t ht a ha hlinear => ?_, fun hbody => ?_⟩, ?_⟩
  · exact .of_halts ((halts_given_sumWith (P := False) (multipliesGiven_canonicalProduct hd) hgrounded
      hknown fun e he => ⟨hnested e he, False.elim⟩).imp fun e he => he.nested)
  · exact .of_halts ((halts_made_chainWith (multipliesPairs_apply hd) hgrounded hknown hnested).imp
      fun e he => he.nested)
  · have hbody : ¬t.HasBody := fun ⟨_, _, _, _, hf⟩ => by
      rw [function?_of_isLinear hgrounded.toWellFormed (hknown t ht) hlinear] at hf
      cases hf
    exact .of_halts (halts_nested_apply hd hgrounded (hknown t ht) (hknown a ha) (hnested t ht)
      (hnested a ha) hbody)
  · exact .of_halts (halts_nested_product hd hgrounded hknown fun e he =>
      ⟨hbuiltin e he, hbody e he, hdepth e he⟩)
  · exact (exists_ends_product hs hknown hbuiltin).imp_left fun ⟨d, hends⟩ =>
      ⟨d, fun d' hle => hends.mono hle⟩

/-- A symbol to the power of itself, twice, and a matrix. -/
theorem construction_ends_power :
    let x : Expr := .node 50 .reals (.symbol "x")
    let m : Expr := .node 51 .matrices (.symbol "M")
    let pow : Expr := .node 52 .functions (.function (.builtin .pow))
    let pair : Expr := .node 53 .universal (.tuple [x, x])
    let e : Expr := .node 54 .reals (.apply pow pair)
    let s₁ := finalState ((Operation.symbol "x" .reals).run 9 initial)
    let s₂ := finalState ((Operation.symbol "M" .matrices).run 9 s₁)
    let s := finalState ((Operation.power x x).run 9 s₂)
    initial.Reaches s ∧ s.Knows [e, e, m] ∧
      (∀ c ∈ [e, e, m], c.OverBuiltins) ∧ constructionDepth [e, e, m] ≤ 3 ∧
      (∀ c ∈ [e, e, m], ∀ f, Below f c → ¬f.HasBody) ∧
      Ends 3 s (sum [e, e, m]) ∧ Ends 3 s (chain [e, e, m]) ∧ Ends 3 s (apply e m) ∧
      Ends 3 s (product [e, e, m]) := by
  intro x m pow pair e s₁ s₂ s
  have hx : s₂.Knows x := rfl
  have hm : s₂.Knows m := rfl
  have hs₂ : initial.Reaches s₂ := .step _ 9 (.step _ 9 .refl trivial) trivial
  have hs : initial.Reaches s := .step _ 9 hs₂ (by simpa [Operation.KnownBy] using hx)
  have he : s.Knows e := rfl
  have hle : s₂ ≤ s := Growing.le_final (x := (Operation.power x x).run) 9 s₂
  have hknown : s.Knows [e, e, m] := by simpa using ⟨he, hm.mono hle⟩
  have hbelow : ∀ c ∈ [e, e, m], ∀ a, Below a c → a.domain.isBuiltin = true ∧ ¬a.HasBody := by
    have hleaf {a : Expr} (hbuiltin : a.domain.isBuiltin = true) (hnil : a.children = [])
        (hbody : ¬a.HasBody) : ∀ b, Below b a → b.domain.isBuiltin = true ∧ ¬b.HasBody :=
      forall_below_iff.2 ⟨⟨hbuiltin, hbody⟩, by simp [hnil]⟩
    have hnone {a : Expr} (h : ∀ f, a.kind ≠ .function f) := not_hasBody_of_kind_ne h
    have hx := hleaf (a := x) rfl rfl (hnone (by simp [x, Expr.kind]))
    have hm := hleaf (a := m) rfl rfl (hnone (by simp [m, Expr.kind]))
    have hpow := hleaf (a := pow) rfl rfl (by simp [HasBody, function?, pow, Expr.kind])
    have hpair : ∀ b, Below b pair → b.domain.isBuiltin = true ∧ ¬b.HasBody :=
      forall_below_iff.2 ⟨⟨rfl, hnone (by simp [pair, Expr.kind])⟩,
        List.forall_mem_cons.2 ⟨hx, List.forall_mem_singleton.2 hx⟩⟩
    have he : ∀ b, Below b e → b.domain.isBuiltin = true ∧ ¬b.HasBody :=
      forall_below_iff.2 ⟨⟨rfl, hnone (by simp [e, Expr.kind])⟩,
        List.forall_mem_cons.2 ⟨hpow, List.forall_mem_singleton.2 hpair⟩⟩
    exact List.forall_mem_cons.2 ⟨he, List.forall_mem_cons.2 ⟨he, List.forall_mem_singleton.2 hm⟩⟩
  have hbuiltin : ∀ c ∈ [e, e, m], c.OverBuiltins := fun c hc a ha => (hbelow c hc a ha).1
  have hdepth : constructionDepth [e, e, m] ≤ 3 := by
    have hnil {k : ℕ} {a : Expr} (h : a.children = []) : a.exponentDepth ≤ k := exponentDepth_le_iff.2
      ⟨by simp [h], fun b n hkind => by simp [children, hkind, Kind.children] at h⟩
    have hpair : pair.exponentDepth ≤ 1 := by
      rw [exponentDepth_pair rfl]
      exact max_le (hnil rfl) (Nat.succ_le_succ (hnil rfl))
    have he : e.exponentDepth ≤ 1 := exponentDepth_le_iff.2
      ⟨List.forall_mem_cons.2 ⟨hnil rfl, List.forall_mem_singleton.2 hpair⟩, by simp [e, Expr.kind]⟩
    refine Nat.add_le_add_right (foldr_max_le_iff.2 ?_) 2
    exact List.forall_mem_cons.2 ⟨he, List.forall_mem_cons.2 ⟨he, List.forall_mem_singleton.2 (hnil rfl)⟩⟩
  have hbody : ∀ c ∈ [e, e, m], ∀ f, Below f c → ¬f.HasBody := fun c hc f hf => (hbelow c hc f hf).2
  obtain ⟨hsum, hchain, happly, hproduct⟩ := (construction_ends hs.reachable hknown hbuiltin).1 3 hdepth
  exact ⟨hs, hknown, hbuiltin, hdepth, hbody, hsum, hchain, happly e (by simp) m (by simp) rfl,
    hproduct hbody⟩

end Store.Reachable

end TermGraph
