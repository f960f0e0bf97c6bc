import TermGraph.Proofs.Termination.Halting
import TermGraph.Proofs.Termination.Weights
import TermGraph.Proofs.Typing.Products

/-!
# Sums and products come to an end

Sums and products of arithmetic expressions stay within a depth that the weights of the operands bound,
and a result weighs no more than a bound that gathers its literals into one.

Products add up the exponents of a base and sums multiply terms by their coefficients, so each is made by
the other.  Exponents weigh less than the factors that they come from, and a term without its coefficient
less than the term, which is why the two recursions end.

* `Expr.AddedUp`, `Expr.Multiplied`: what is known of the sum of some terms and of the product of some
  factors.
* `Expr.AddsUp`, `Expr.MultipliesUp`: functions that add up terms of a given weight, and that multiply
  factors of a given weight.
* `Expr.multipliesUp_canonicalProduct`, `Expr.addsUp_sum`: canonical products and sums do.
-/

namespace TermGraph

open Store (Knows)

namespace Expr

variable {N : ℕ} {s : Store} {d k : ℕ} {e t a b n : Expr} {l ns : List Expr}

/-! ## Literals and powers -/

section Making

variable {I : Store → Prop} [Store.Lasting I]

lemma halts_symbol (hs : s.Regular) (name : String) (domain : Domain) :
    Halts Store.Regular d s (symbol name domain) fun e => e.isSymbol = true ∧ e.domain = domain := by
  have hadm : s.Admits domain (.symbol name) :=
    ⟨by simp [Kind.children], fun _ h => h.elim, trivial, by simp [Kind.index?]⟩
  exact ⟨hs.intern hadm (by simp), (hs.toWellFormed.intern hadm).2.1, rfl, rfl⟩

lemma halts_number (hs : I s) (m : Number) :
    Halts I d s (number m) fun e => e.number?.isSome = true ∧ e.IsReal := by
  have hadm : s.Admits (if m.isInt then .integers else .reals) (.number m) :=
    ⟨by simp [Kind.children], fun _ h => h.elim, rfl, by simp [Kind.index?]⟩
  exact halts_ordinary hs hadm rfl fun e t ht _ he hcode =>
    (Store.Lasting.wellFormed ht).literal_of_code he hcode

/-- A literal is arithmetic and as light as can be. -/
lemma halts_literal (hs : s.Regular) (m : Number) :
    Halts Store.Regular d s (number m) fun e => e.IsArithmetic ∧ e.weight N = 1 :=
  (halts_number hs m).imp fun _ he => ⟨.literal he.1 he.2, weight_literal he.1⟩

/-- An integer literal is the literal that was asked for. -/
lemma halts_int (hs : I s) (m : Int64) :
    Halts I d s (int m) fun e => e.number? = some (.int m) ∧ e.IsReal := by
  have hadm : s.Admits .integers (.number (.int m)) :=
    ⟨by simp [Kind.children], fun _ h => h.elim, rfl, by simp [Kind.index?]⟩
  refine halts_ordinary hs hadm rfl fun e t ht _ he hcode =>
    ⟨?_, ((Store.Lasting.wellFormed ht).literal_of_code he hcode).2⟩
  rw [number?, Kind.eq_number_of_code hcode]

lemma halts_builtin (hs : I s) (f : Builtin) :
    Halts I d s (ofFunction (.builtin f)) fun e => e.kind = .function (.builtin f) :=
  halts_ordinary hs ⟨by simp [Kind.children], by rintro _ rfl; simp, rfl, by simp [Kind.index?]⟩ rfl
    fun _ _ _ _ _ hcode => Kind.eq_builtin_of_code hcode

lemma halts_pair (hs : I s) (hb : s.Knows b) (hn : s.Knows n) :
    Halts I d s (tuple [b, n]) fun e => e.kind = .tuple [b, n] := by
  have hknown : s.Knows [b, n] := by simp [hb, hn]
  exact halts_ordinary hs ⟨hknown, fun _ h => h.elim, rfl, by simp [Kind.index?]⟩ rfl
    fun e t ht hle he hcode =>
      (Store.Lasting.wellFormed ht).kind_eq_tuple he (hknown.mono hle) hcode

/-- The node of an application, in a domain that its sides have. -/
lemma halts_intern_apply (hs : I s) (ht : s.Knows t) (ha : s.Knows a) {domain : Domain}
    (hdomain : applyDomain? t a = some domain) :
    Halts I d s (Build.intern domain (.apply t a)) fun e => e.kind = .apply t a ∧ e.domain = domain := by
  refine halts_ordinary hs (admits_apply ht ha hdomain) rfl fun e u hu hle he hcode => ?_
  have hu := Store.Lasting.wellFormed hu
  have hkind := hu.kind_eq_apply he (ht.mono hle) (ha.mono hle) hcode
  have htyped := (hu.admits he).typed
  rw [hkind, Kind.Typed, hdomain, Option.some.injEq] at htyped
  exact ⟨hkind, htyped.symm⟩

/-- The application that was asked for, in a domain that its sides have. -/
lemma halts_rawApply (hs : I s) (ht : s.Knows t) (ha : s.Knows a) {domain : Domain}
    (hdomain : applyDomain? t a = some domain) : Halts I d s (rawApply t a) fun e =>
      e.kind = .apply t a ∧ e.domain = domain := by
  have hrun : rawApply t a = Build.intern domain (.apply t a) := by
    unfold rawApply applyDomain
    rw [hdomain]
    rfl
  rw [hrun]
  exact halts_intern_apply hs ht ha hdomain

/-- The product of two operands as it stands. -/
lemma halts_rawProduct (hs : s.Regular) (hknown : s.Knows t) (hknown' : s.Knows a)
    (ht : t.IsArithmetic) (ha : a.IsArithmetic) : Halts Store.Regular d s (rawApply t a) fun e =>
      e.IsArithmetic ∧ e.weight N = t.weight N + a.weight N + 2 := by
  obtain ⟨domain, hdomain, hreal⟩ := applyDomain?_real ht.isReal ha.isReal
  refine (halts_rawApply hs hknown hknown' hdomain).imp fun e he => ?_
  exact ⟨.product he.1 (by rwa [IsReal, he.2]) ht ha, weight_product he.1 ht.function?⟩

/-- A power, for the node of the power function and the pair of base and exponent. -/
lemma halts_powerOf (hs : s.Regular) (hknown : s.Knows t) (hknown' : s.Knows a)
    (ht : t.kind = .function (.builtin .pow)) (hkind : a.kind = .tuple [b, n])
    (hb : b.IsArithmetic) (hn : n.IsArithmetic) : Halts Store.Regular d s (powerOf t a b n) fun e =>
      e.IsArithmetic ∧ e.weight N ≤ b.weight N * (n.weight N + 1) + 1 := by
  have hknownb := (hs.knows_of_pair hknown' hkind).1
  unfold powerOf
  refine .ite (fun _ => ?_) fun _ => .ite (fun _ => ?_) fun _ => ?_
  · exact (halts_literal (N := N) hs (.int 1)).imp fun e he => ⟨he.1, by simp [he.2]⟩
  · exact .pure hs hknownb ⟨hb, (Nat.le_mul_of_pos_right _ (Nat.succ_pos _)).trans (Nat.le_succ _)⟩
  · have htyped := (hs.admits hknown).typed
    rw [ht] at htyped
    refine (halts_rawApply hs hknown hknown'
      (applyDomain?_pow ht htyped hkind hb.isReal hn.isReal)).imp fun e he => ?_
    have hpower := power?_eq_some.2 ⟨t, a, he.1, ht, hkind⟩
    exact ⟨.power hpower (.inr he.2) hb hn, (weight_power hpower).le⟩

lemma halts_power (hs : s.Regular) (hknown : s.Knows b) (hknown' : s.Knows n) (hb : b.IsArithmetic)
    (hn : n.IsArithmetic) : Halts Store.Regular d s (power b n) fun e =>
      e.IsArithmetic ∧ e.weight N ≤ b.weight N * (n.weight N + 1) + 1 := by
  unfold power
  refine (halts_builtin hs .pow).bind fun t s₁ hs₁ h₁ hknownt ht => ?_
  refine (halts_pair hs₁ (hknown.mono h₁) (hknown'.mono h₁)).bind fun a s₂ hs₂ h₂ hknowna ha => ?_
  exact halts_powerOf hs₂ (hknownt.mono h₂) hknowna ht ha hb hn

end Making

/-! ## What is known of sums and products -/

section Bounds

/-- The weight of the terms that are no literals. -/
def openWeight (N : ℕ) (l : List Expr) : ℕ :=
  totalWeight N (nonLiterals (allTerms l))

/-- `e` is the sum of the terms `l`: it weighs what their terms weigh, all literals together as one. -/
structure AddedUp (N : ℕ) (l : List Expr) (e : Expr) : Prop where
  /-- It is arithmetic. -/
  arithmetic : e.IsArithmetic
  /-- The literals are one literal. -/
  weight_le : e.weight N ≤ (if literals (allTerms l) = [] then 0 else 1) + openWeight N l
  /-- The sum of the literal one alone is one. -/
  isOne : ∀ n, l = [n] → n.number? = some .one → e.isOne = true

/-- `e` is the product of the factors `l`: its factors weigh what the factors of `l` weigh, all literals
together as one. -/
structure Multiplied (N : ℕ) (l : List Expr) (e : Expr) : Prop where
  /-- It is arithmetic. -/
  arithmetic : e.IsArithmetic
  /-- The literals are one literal. -/
  weight_le : e.weight N + 2 ≤ (if literals (l.flatMap factors) = [] then 0 else 3) +
    totalCost N (nonLiterals (l.flatMap factors))

/-- The literals of a list weigh as much as one literal, if there are any. -/
lemma ite_literals_le_totalWeight (l : List Expr) : (if literals l = [] then 0 else 1) ≤
    totalWeight N (l.filter fun e => e.number?.isSome) := by
  induction l with
  | nil => simp [literals]
  | cons e l ih =>
    cases h : e.number? with
    | none => simpa [literals, h] using ih
    | some m => simp [literals, h, weight_literal (N := N) (e := e) (by simp [h])]

lemma ite_literals_le_totalCost (l : List Expr) : (if literals l = [] then 0 else 3) ≤
    totalCost N (l.filter fun e => e.number?.isSome) := by
  induction l with
  | nil => simp [literals]
  | cons e l ih =>
    cases h : e.number? with
    | none => simpa [literals, h] using ih
    | some m => simp [literals, h, weight_literal (N := N) (e := e) (by simp [h])]

lemma nonLiterals_eq_filter (l : List Expr) :
    nonLiterals l = l.filter fun e => !e.number?.isSome := by
  simp [nonLiterals]

/-- A sum weighs no more than its terms. -/
lemma AddedUp.weight_le_totalWeight (h : AddedUp N l e) : e.weight N ≤ totalWeight N l := by
  have hle := h.weight_le
  have hliterals := ite_literals_le_totalWeight (N := N) (allTerms l)
  have htotal := totalWeight_filter (N := N) (fun e => e.number?.isSome) (allTerms l)
  rw [openWeight, nonLiterals_eq_filter] at hle
  rw [totalWeight_allTerms] at htotal
  omega

/-- A product weighs no more than its factors, the products between them included. -/
lemma Multiplied.weight_le_totalCost (h : Multiplied N l e) : e.weight N + 2 ≤ totalCost N l := by
  have hle := h.weight_le
  have hliterals := ite_literals_le_totalCost (N := N) (l.flatMap factors)
  have htotal := totalCost_filter (N := N) (fun e => e.number?.isSome) (l.flatMap factors)
  rw [nonLiterals_eq_filter] at hle
  rw [totalCost_flatMap_factors] at htotal
  omega

end Bounds

/-! ## Exponents -/

section Exponents

/-- The weight of the power of a base to an exponent, with the product that attaches it: the power with the
exponent one is the base. -/
def pairCost (N : ℕ) (b n : Expr) : ℕ :=
  if n.number? = some .one then b.weight N + 2 else b.weight N * (n.weight N + 1) + 3

/-- The weight of the powers of a base to some exponents, with the products that attach them. -/
def groupCost (N : ℕ) (b : Expr) (ns : List Expr) : ℕ :=
  (ns.map (pairCost N b)).sum

@[simp] lemma groupCost_cons : groupCost N b (n :: ns) = pairCost N b n + groupCost N b ns := rfl

lemma openWeight_cons : openWeight N (n :: ns) = openWeight N [n] + openWeight N ns := by
  simp [openWeight, allTerms, nonLiterals]

lemma openWeight_le (n : Expr) : openWeight N [n] ≤ n.weight N := by
  have htotal := totalWeight_filter (N := N) (fun e => e.number?.isSome) n.terms
  rw [totalWeight_terms] at htotal
  simp only [openWeight, allTerms, List.append_nil, nonLiterals_eq_filter]
  omega

lemma openWeight_literal (h : n.number?.isSome = true) : openWeight N [n] = 0 := by
  obtain ⟨m, hkind⟩ := exists_number h
  have hterms : n.terms = [n] := terms_of_kind_ne (by simp [hkind])
  simp [openWeight, allTerms, hterms, nonLiterals, Option.isSome_iff_ne_none.1 h]

/-- The exponents that are no literals are paid for by their powers. -/
lemma mul_openWeight_le_pairCost (b n : Expr) :
    b.weight N * (openWeight N [n] + 1) + 2 ≤ pairCost N b n := by
  unfold pairCost
  split
  · rename_i hone
    simp [openWeight_literal (N := N) (n := n) (by simp [hone])]
  · have hle := Nat.mul_le_mul_left (b.weight N) (Nat.add_le_add_right (openWeight_le (N := N) n) 1)
    exact (Nat.add_le_add_right hle 2).trans (Nat.le_succ _)

lemma mul_openWeight_le (b : Expr) (ns : List Expr) :
    b.weight N * openWeight N ns ≤ groupCost N b ns := by
  induction ns with
  | nil => simp [openWeight, allTerms, nonLiterals]
  | cons n ns ih =>
    have := mul_openWeight_le_pairCost (N := N) b n
    rw [openWeight_cons, groupCost_cons, Nat.mul_add]
    rw [Nat.mul_add] at this
    omega

lemma mul_openWeight_lt (b : Expr) (hne : ns ≠ []) :
    b.weight N * (openWeight N ns + 1) + 2 ≤ groupCost N b ns := by
  obtain ⟨n, ns, rfl⟩ := List.exists_cons_of_ne_nil hne
  have := mul_openWeight_le_pairCost (N := N) b n
  have := mul_openWeight_le (N := N) b ns
  rw [openWeight_cons, groupCost_cons]
  simp only [Nat.mul_add] at *
  omega

/-- A base to the sum of its exponents is paid for by the powers with the exponents, unless the sum is
one. -/
lemma AddedUp.mul_weight_le (h : AddedUp N ns n) (hne : ns ≠ []) (hone : n.isOne = false) (b : Expr) :
    b.weight N * (n.weight N + 1) + 3 ≤ groupCost N b ns := by
  obtain ⟨m, rest, rfl⟩ := List.exists_cons_of_ne_nil hne
  by_cases hrest : rest = []
  · -- A single exponent other than one, which is its own sum.
    subst hrest
    have hm : m.number? ≠ some .one := fun hm => by simp [h.isOne m rfl hm] at hone
    have hle := h.weight_le_totalWeight
    simp only [totalWeight_cons, totalWeight_nil, Nat.add_zero] at hle
    simpa [groupCost, pairCost, hm] using
      Nat.mul_le_mul_left (b.weight N) (Nat.add_le_add_right hle 1)
  · -- The literal among the exponents is paid for by the second power.
    have hle : n.weight N ≤ openWeight N (m :: rest) + 1 := by
      have := h.weight_le
      split at this <;> omega
    have := Nat.mul_le_mul_left (b.weight N) (Nat.add_le_add_right hle 1)
    have := mul_openWeight_le_pairCost (N := N) b m
    have := mul_openWeight_lt (N := N) b hrest
    rw [openWeight_cons] at *
    rw [groupCost_cons]
    simp only [Nat.mul_add] at *
    omega

/-- A factor that is no literal as a base and an exponent. -/
structure SplitAs (N : ℕ) (f : Expr) (p : Expr × Expr) : Prop where
  /-- The base is arithmetic. -/
  base : p.1.IsArithmetic
  /-- The exponent is arithmetic. -/
  exponent : p.2.IsArithmetic
  /-- The power is no heavier than the factor. -/
  pairCost_le : pairCost N p.1 p.2 ≤ f.weight N + 2
  /-- The exponent is lighter. -/
  weight_lt : p.2.weight N < f.weight N

lemma halts_splitPower (hs : s.Regular) (hknown : s.Knows e) (he : e.IsArithmetic)
    (hnumber : e.number? = none) : Halts Store.Regular d s (splitPower e) (SplitAs N e) := by
  unfold splitPower
  split
  · rename_i b n hpower
    obtain ⟨hb, hn⟩ := he.of_power hpower
    have hpos : 1 ≤ b.weight N := hb.weight_pos
    refine .pure hs (knows_power? hs.toWellFormed hknown hpower) ⟨hb, hn, ?_, ?_⟩
    · rw [weight_power hpower, pairCost]
      split
      · exact Nat.add_le_add_right ((Nat.le_mul_of_pos_right _ (Nat.succ_pos _)).trans
          (Nat.le_succ _)) 2
      · exact le_rfl
    · rw [weight_power hpower]
      exact Nat.lt_succ_of_lt (Nat.lt_of_lt_of_le (Nat.lt_succ_self _)
        (Nat.le_mul_of_pos_left _ hpos))
  · refine (halts_int hs 1).bind fun n t ht hle hknown' hn => ?_
    refine .pure ht ⟨hknown.mono hle, hknown'⟩ ⟨he, .literal (by simp [hn.1]) hn.2, ?_, ?_⟩
    · simp [pairCost, hn.1, Number.one]
    · rw [weight_literal (by simp [hn.1])]
      exact he.two_le_weight hnumber

end Exponents

/-! ## Products -/

/-- `f` adds up terms that weigh at most `k`. -/
def AddsUp (N d k : ℕ) (f : List Expr → Build Expr) : Prop :=
  ∀ ⦃s : Store⦄ ⦃l : List Expr⦄, s.Regular → s.Knows l → l ≠ [] → (∀ e ∈ l, e.IsArithmetic) →
    totalWeight N l ≤ k → Halts Store.Regular d s (f l) (AddedUp N l)

/-- `f` multiplies factors whose product weighs at most `k`. -/
def MultipliesUp (N d k : ℕ) (f : List Expr → Build Expr) : Prop :=
  ∀ ⦃s : Store⦄ ⦃l : List Expr⦄, s.Regular → s.Knows l → l ≠ [] → (∀ e ∈ l, e.IsArithmetic) →
    totalCost N l ≤ k + 2 → Halts Store.Regular d s (f l) (Multiplied N l)

section Products

variable {f : List Expr → Build Expr} [∀ l, Growing (f l)]

lemma halts_raisedBase (hs : s.Regular) (hknown : s.Knows b) (hknown' : s.Knows n)
    (hb : b.IsArithmetic) (hn : AddedUp N ns n) (hne : ns ≠ []) :
    Halts Store.Regular d s (raisedBase b n) fun e =>
      e.IsArithmetic ∧ e.weight N + 2 ≤ groupCost N b ns := by
  unfold raisedBase
  refine .ite (fun _ => .pure hs hknown ⟨hb, ?_⟩) fun hone => ?_
  · exact (Nat.add_le_add_right (Nat.le_mul_of_pos_right _ (Nat.succ_pos _)) 2).trans
      (mul_openWeight_lt b hne)
  · refine (halts_power (N := N) hs hknown hknown' hb hn.arithmetic).imp fun e he => ⟨he.1, ?_⟩
    exact (Nat.add_le_add_right he.2 2).trans (hn.mul_weight_le hne (by simpa using hone) b)

/-- The powers of bases to the sums of their exponents weigh no more than the powers that were
gathered. -/
lemma halts_raisedBases (hadds : AddsUp N d k f) (hs : s.Regular)
    {groups : List (Expr × List Expr)} (hknown : s.Knows groups)
    (hgroups : ∀ g ∈ groups, g.1.IsArithmetic ∧ g.2 ≠ [] ∧ (∀ n ∈ g.2, n.IsArithmetic) ∧
      totalWeight N g.2 ≤ k) : Halts Store.Regular d s (raisedBases f groups) fun m =>
        (∀ e ∈ m, e.IsArithmetic) ∧ totalCost N m ≤ (groups.map fun g => groupCost N g.1 g.2).sum := by
  induction groups generalizing s with
  | nil => exact .pure hs Store.knows_nil ⟨by simp, by simp⟩
  | cons g groups ih =>
    obtain ⟨b, ns⟩ := g
    simp only [Store.knows_cons, Store.knows_pair] at hknown
    rw [List.forall_mem_cons] at hgroups
    obtain ⟨⟨hb, hne, hns, hk⟩, hgroups⟩ := hgroups
    rw [raisedBases, List.map_cons, List.sum_cons]
    refine (hadds hs hknown.1.2 hne hns hk).bind fun n t ht hle hknownn hn => ?_
    have hknownt := hknown.2.mono hle
    refine .ite (fun _ => ?_) fun _ => ?_
    · exact (ih ht hknownt hgroups).imp fun m hm => ⟨hm.1, hm.2.trans (Nat.le_add_left _ _)⟩
    · refine (halts_raisedBase ht (hknown.1.1.mono hle) hknownn hb hn hne).bind
        fun e u hu hle' hknowne he => ?_
      refine (ih hu (hknownt.mono hle') hgroups).bind fun m v hv hle'' hknownm hm => ?_
      refine .pure hv (Store.knows_cons.2 ⟨hknowne.mono hle'', hknownm⟩)
        ⟨List.forall_mem_cons.2 ⟨he.1, hm.1⟩, ?_⟩
      rw [totalCost_cons]
      exact Nat.add_le_add he.2 hm.2

/-- Gathering keeps sums over the items. -/
lemma sum_groups {α : Type} {items : List (Expr × α)} (hsep : Separated items) (φ : Expr → α → ℕ) :
    ((groups items).map fun g => (g.2.map (φ g.1)).sum).sum =
      (items.map fun p => φ p.1 p.2).sum := by
  rw [← ((flatMap_groups hsep).map fun p => φ p.1 p.2).sum_eq]
  induction groups items with
  | nil => rfl
  | cons g gs ih =>
    rw [List.map_cons, List.sum_cons, ih, List.flatMap_cons, List.map_append, List.sum_append,
      List.map_map]
    rfl

/-- What splitting makes of a list of factors. -/
lemma splitAs_spec {split : List (Expr × Expr)} (h : List.Forall₂ (SplitAs N) l split) :
    (∀ p ∈ split, p.1.IsArithmetic ∧ p.2.IsArithmetic) ∧
      (split.map fun p => pairCost N p.1 p.2).sum ≤ totalCost N l ∧
      (split.map fun p => p.2.weight N + 3).sum ≤ totalCost N l := by
  induction h with
  | nil => simp
  | cons hp _ ih =>
    have := hp.pairCost_le
    have := hp.weight_lt
    simp only [List.forall_mem_cons, List.map_cons, List.sum_cons, totalCost_cons]
    exact ⟨⟨⟨hp.base, hp.exponent⟩, ih.1⟩, by omega, by omega⟩

lemma totalWeight_add_three_le (hne : ns ≠ []) :
    totalWeight N ns + 3 ≤ (ns.map fun n => n.weight N + 3).sum := by
  obtain ⟨n, ns, rfl⟩ := List.exists_cons_of_ne_nil hne
  have hle : totalWeight N ns ≤ (ns.map fun n => n.weight N + 3).sum :=
    List.sum_le_sum fun n _ => Nat.le_add_right _ 3
  rw [totalWeight_cons, List.map_cons, List.sum_cons]
  omega

/-- Merging powers makes the factors no heavier. -/
lemma halts_mergePowers (hadds : AddsUp N d k f) (hs : s.Regular) (hknown : s.Knows l)
    (hl : ∀ e ∈ l, e.IsArithmetic ∧ e.number? = none) (hk : totalCost N l ≤ k + 3) :
    Halts Store.Regular d s (mergePowers f l) fun m =>
      (∀ e ∈ m, e.IsArithmetic) ∧ totalCost N m ≤ totalCost N l := by
  unfold mergePowers
  refine (Halts.mapM hs l fun e he t ht hle =>
    halts_splitPower (N := N) ht ((hknown e he).mono hle) (hl e he).1 (hl e he).2).bind
    fun split t ht _ hsplit hsplits => ?_
  obtain ⟨harith, hcost, hweight⟩ := splitAs_spec hsplits
  have hsep : Separated split := fun p hp q hq hordinal =>
    Store.WellFormed.eq_of_ordinal (hsplit p hp).1 (hsplit q hq).1 hordinal
  have hcost' := (sum_groups hsep (pairCost N)).trans_le hcost
  have hweight' := (sum_groups hsep fun _ n => n.weight N + 3).trans_le hweight
  have hgroups : ∀ g ∈ groups split, g.1.IsArithmetic ∧ g.2 ≠ [] ∧ ∀ n ∈ g.2, n.IsArithmetic := by
    refine gather_forall (P := IsArithmetic) (Q := fun ns : List Expr => ns ≠ [] ∧ ∀ n ∈ ns, n.IsArithmetic)
      (fun p hp => (harith p hp).1) (fun p hp => ?_) fun ns p hp hns => ⟨by simp, ?_⟩
    · simpa using (harith p hp).2
    · exact List.forall_mem_append.2 ⟨hns.2, by simpa using (harith p hp).2⟩
  have hknown' : t.Knows (groups split) := by
    refine gather_forall (fun p hp => (hsplit p hp).1) (fun p hp => ?_) fun ns p hp hns => ?_
    · simpa using (hsplit p hp).2
    · exact Store.knows_append.2 ⟨hns, by simpa using (hsplit p hp).2⟩
  refine (halts_raisedBases hadds ht hknown' fun g hg => ?_).imp fun m hm =>
    ⟨hm.1, hm.2.trans hcost'⟩
  obtain ⟨hb, hne, hns⟩ := hgroups g hg
  refine ⟨hb, hne, hns, ?_⟩
  have hle := List.single_le_sum (by simp) _
    (List.mem_map_of_mem (f := fun g : Expr × List Expr => (g.2.map fun n => n.weight N + 3).sum) hg)
  have := totalWeight_add_three_le (N := N) hne
  omega

/-- A chain of factors weighs what they weigh with the products between them. -/
lemma halts_foldlM_rawApply (hs : s.Regular) {rest : List Expr} (hknown : s.Knows e)
    (hknown' : s.Knows rest) (he : e.IsArithmetic) (hrest : ∀ f ∈ rest, f.IsArithmetic) :
    Halts Store.Regular d s (rest.foldlM rawApply e) fun r =>
      r.IsArithmetic ∧ r.weight N = e.weight N + totalCost N rest := by
  induction rest generalizing s e with
  | nil => exact .pure hs hknown ⟨he, rfl⟩
  | cons a rest ih =>
    rw [Store.knows_cons] at hknown'
    rw [List.forall_mem_cons] at hrest
    rw [List.foldlM_cons]
    refine (halts_rawProduct (N := N) hs hknown hknown'.1 he hrest.1).bind fun r t ht hle hknownr hr => ?_
    refine (ih ht hknownr (hknown'.2.mono hle) hr.1 hrest.2).imp fun r' hr' => ⟨hr'.1, ?_⟩
    rw [hr'.2, hr.2, totalCost_cons]
    omega

/-- The chain of no factors is the coefficient. -/
lemma halts_leftChain (hs : s.Regular) (hknown : s.Knows l) (hl : ∀ e ∈ l, e.IsArithmetic)
    (c : Number) : Halts Store.Regular d s (leftChain c l) fun e =>
      e.IsArithmetic ∧ e.weight N + 2 ≤ max 3 (totalCost N l) := by
  cases l with
  | nil => exact (halts_literal (N := N) hs c).imp fun e he => ⟨he.1, by simp [he.2]⟩
  | cons e rest =>
    rw [Store.knows_cons] at hknown
    rw [List.forall_mem_cons] at hl
    refine (halts_foldlM_rawApply (N := N) hs hknown.1 hknown.2 hl.1 hl.2).imp fun r hr => ⟨hr.1, ?_⟩
    rw [hr.2, totalCost_cons]
    omega

lemma halts_coefficientFactor (hs : s.Regular) (c : Number) :
    Halts Store.Regular d s (coefficientFactor c) fun front =>
      (∀ e ∈ front, e.IsArithmetic) ∧ totalCost N front ≤ if c.isOne then 0 else 3 := by
  unfold coefficientFactor
  split
  · exact .pure hs Store.knows_nil ⟨by simp, le_rfl⟩
  · refine (halts_literal (N := N) hs c).bind fun e t ht _ hknown he => ?_
    exact .pure ht (by simpa using hknown) ⟨by simpa using he.1, by simp [he.2]⟩

lemma coefficient_of_literals (h : literals l = []) : (coefficient l).value = .one := by
  simp [coefficient, combine, h, Number.Tracked.of]

lemma filter_isScalarFactor_of_arithmetic (h : ∀ e ∈ l, e.IsArithmetic) :
    l.filter isScalarFactor = nonLiterals l :=
  List.filter_congr fun e he => by simp [isScalarFactor, (h e he).isReal.isScalar]

lemma filter_isMatrixFactor_of_arithmetic (h : ∀ e ∈ l, e.IsArithmetic) :
    l.filter isMatrixFactor = [] :=
  List.filter_eq_nil_iff.2 fun e he => by simp [isMatrixFactor, (h e he).isReal.isScalar]

/-- Some factors weigh at least as much as one literal. -/
lemma three_le_cost (hl : ∀ e ∈ l, e.IsArithmetic) (hne : l ≠ []) :
    3 ≤ (if literals l = [] then 0 else 3) + totalCost N (nonLiterals l) := by
  obtain ⟨e, l, rfl⟩ := List.exists_cons_of_ne_nil hne
  cases h : e.number? with
  | none =>
    have := (hl e (by simp)).weight_pos (N := N)
    simp [nonLiterals, h]
    omega
  | some m => simp [literals, h]

/-- The product of factors that are no products. -/
lemma halts_assemble (hadds : AddsUp N d k f) (hs : s.Regular) (hknown : s.Knows l)
    (hl : ∀ e ∈ l, e.IsArithmetic) (hne : l ≠ []) (hk : totalCost N (nonLiterals l) ≤ k + 3) :
    Halts Store.Regular d s (assemble f l) fun e => e.IsArithmetic ∧
      e.weight N + 2 ≤ (if literals l = [] then 0 else 3) + totalCost N (nonLiterals l) := by
  have hthree := three_le_cost (N := N) hl hne
  unfold assemble
  rw [filter_isScalarFactor_of_arithmetic hl, filter_isMatrixFactor_of_arithmetic hl]
  refine (halts_settle hs _).bind fun c t ht hle _ hc => .ite (fun _ => ?_) fun _ => ?_
  · refine (halts_literal (N := N) ht c).imp fun e he => ⟨he.1, ?_⟩
    rwa [he.2]
  have hothers : ∀ e ∈ nonLiterals l, e.IsArithmetic ∧ e.number? = none := fun e he =>
    ⟨hl e (List.mem_filter.1 he).1, by simpa using (List.mem_filter.1 he).2⟩
  have hknown' : (store t).Knows (nonLiterals l) :=
    (hknown.mono hle).of_subset List.filter_sublist.subset
  refine (halts_mergePowers hadds ht hknown' hothers hk).bind fun scalars u hu hle' hknowns hscalars => ?_
  refine (halts_coefficientFactor (N := N) hu c).bind fun front v hv hle'' hknownf hfront => ?_
  have hcost : totalCost N front ≤ if literals l = [] then 0 else 3 := by
    refine hfront.2.trans ?_
    split
    · exact Nat.zero_le _
    · rename_i hone
      rw [if_neg fun h => hone (by rw [hc, coefficient_of_literals h]; rfl)]
  rw [List.append_nil]
  refine (halts_leftChain (N := N) hv
    (Store.knows_append.2 ⟨hknownf, hknowns.mono hle''⟩)
    (List.forall_mem_append.2 ⟨hfront.1, hscalars.1⟩) c).imp fun e he => ⟨he.1, he.2.trans ?_⟩
  rw [totalCost_append]
  omega

end Products

/-- If exponents of a smaller weight can be added up, factors can be multiplied. -/
lemma multipliesUp_succ {depth : ℕ} (hadds : AddsUp N d k (sumWith (productAux depth))) :
    MultipliesUp N d (k + 1) (productAux (depth + 1)) := by
  intro s l hs hknown hne hl hk
  have hfactors : ∀ f ∈ l.flatMap factors, f.IsArithmetic := fun f hf => by
    obtain ⟨e, he, hmem⟩ := List.mem_flatMap.1 hf
    exact (hl e he).factors f hmem
  have htotal := totalCost_flatMap_factors (N := N) l
  have hne' : l.flatMap factors ≠ [] := fun hnil => by
    obtain ⟨e, l, rfl⟩ := List.exists_cons_of_ne_nil hne
    rw [hnil, totalCost_nil, totalCost_cons] at htotal
    omega
  have hcost : totalCost N (nonLiterals (l.flatMap factors)) ≤ k + 3 := by
    have := totalCost_filter (N := N) (fun e => e.number?.isNone) (l.flatMap factors)
    rw [nonLiterals]
    omega
  unfold productAux
  refine (halts_settle hs _).bind fun c t ht hle _ hc => .ite (fun _ => ?_) fun _ => ?_
  · refine (halts_literal (N := N) ht c).imp fun e he => ⟨he.1, ?_⟩
    rw [he.2]
    exact three_le_cost hfactors hne'
  · have hmatrices : ¬1 < ((l.flatMap factors).filter isMatrixFactor).length := by
      simp [filter_isMatrixFactor_of_arithmetic hfactors]
    simp only [mergeMatrices, hmatrices, if_false, pure_bind]
    exact (halts_assemble hadds ht ((Suits.knows_flatMap_factors hs.toWellFormed hknown).mono hle) hfactors
      hne' hcost).imp fun e he => ⟨he.1, he.2⟩

/-! ## Sums -/

section Sums

variable {p : List Expr → Build Expr} [∀ l, Growing (p l)]

/-- The weight of an expression times a coefficient: with the coefficient one it is the expression, if that
is no smaller than a symbol. -/
def termWeight (N : ℕ) (r : Expr) (c : Number) : ℕ :=
  if c = .one ∧ 3 ≤ r.weight N then r.weight N else r.weight N + 3

lemma weight_le_termWeight (r : Expr) (c : Number) : r.weight N ≤ termWeight N r c := by
  unfold termWeight
  split
  · exact le_rfl
  · exact Nat.le_add_right _ 3

lemma three_le_termWeight (r : Expr) (c : Number) : 3 ≤ termWeight N r c := by
  unfold termWeight
  split
  · exact (‹_ ∧ _›).2
  · exact Nat.le_add_left 3 _

/-- An expression times the sum of several coefficients is paid for by the products with each, unless the
sum is one. -/
lemma weight_add_three_le {r : Expr} {cs : List Number} {total : Number.Tracked}
    (h : Collapses Number.Tracked.of (Number.Tracked.combine .add) cs total)
    (hone : total.value.isOne = false) : r.weight N + 3 ≤ (cs.map (termWeight N r)).sum := by
  obtain ⟨c, rest, rfl, rfl⟩ := h
  cases rest with
  | nil =>
    have hc : c ≠ .one := by
      rintro rfl
      cases hone
    simp [termWeight, hc]
  | cons c' rest =>
    have := weight_le_termWeight (N := N) r c
    have := three_le_termWeight (N := N) r c'
    simp only [List.map_cons, List.sum_cons]
    omega

/-- A term that is no literal as a coefficient and the rest. -/
structure ScaledAs (N : ℕ) (t : Expr) (q : Expr × Number) : Prop where
  /-- The rest is arithmetic. -/
  arithmetic : q.1.IsArithmetic
  /-- The rest with the coefficient is no heavier than the term. -/
  termWeight_le : termWeight N q.1 q.2 ≤ t.weight N

lemma halts_splitCoefficient (hmul : MultipliesUp N d k p) (hs : s.Regular) (hknown : s.Knows e)
    (he : e.IsArithmetic) (hthree : 3 ≤ e.weight N) (hk : e.weight N ≤ k) :
    Halts Store.Regular d s (splitCoefficient p e) (ScaledAs N e) := by
  have hself : ScaledAs N e (e, .one) := ⟨he, by simp [termWeight, hthree]⟩
  have hwhole : Halts Store.Regular d s (pure (e, .one) : Build (Expr × Number)) (ScaledAs N e) :=
    .pure hs ⟨hknown, trivial⟩ hself
  unfold splitCoefficient
  refine .ite (fun hproduct => ?_) fun _ => hwhole
  split
  · rename_i first rest hfactors
    have hcost := totalCost_factors (N := N) e
    have hknownf := knows_factors hs.toWellFormed hknown
    have harith := he.factors
    rw [hfactors] at hcost hknownf harith
    rw [Store.knows_cons] at hknownf
    rw [List.forall_mem_cons] at harith
    split
    · rename_i c hc
      rw [totalCost_cons, weight_literal (by simp [hc])] at hcost
      have hne : rest ≠ [] := by
        rintro rfl
        rw [totalCost_nil] at hcost
        omega
      refine (hmul hs hknownf.2 hne harith.2 (by omega)).bind fun r t ht hle hknownr hr => ?_
      refine .pure ht ⟨hknownr, trivial⟩ ⟨hr.arithmetic, ?_⟩
      have := hr.weight_le_totalCost
      simp only [termWeight]
      split <;> omega
    · exact hwhole
  · exact hwhole

omit [∀ l, Growing (p l)] in
lemma halts_scaledTerm (hmul : MultipliesUp N d k p) (hs : s.Regular) (hknown : s.Knows e)
    (he : e.IsArithmetic) {cs : List Number} {total : Number.Tracked}
    (htotal : Collapses Number.Tracked.of (Number.Tracked.combine .add) cs total)
    (hk : (cs.map (termWeight N e)).sum ≤ k) :
    Halts Store.Regular d s (scaledTerm p e total.value) fun r =>
      r.IsArithmetic ∧ r.weight N ≤ (cs.map (termWeight N e)).sum := by
  unfold scaledTerm
  refine .ite (fun _ => .pure hs hknown ⟨he, ?_⟩) fun hone => ?_
  · obtain ⟨c, rest, rfl, -⟩ := htotal
    exact (weight_le_termWeight e c).trans (Nat.le_add_right _ _)
  · have hle := weight_add_three_le (N := N) (r := e) htotal (by simpa using hone)
    refine (halts_literal (N := N) hs _).bind fun m t ht hle' hknownm hm => ?_
    have hcost : totalCost N [m, e] = e.weight N + 3 + 2 := by
      simp only [totalCost_cons, totalCost_nil, hm.2]
      omega
    have hl : ∀ c ∈ [m, e], c.IsArithmetic := by simpa using ⟨hm.1, he⟩
    refine (hmul ht (by simpa using ⟨hknownm, hknown.mono hle'⟩) (by simp) hl (by omega)).imp
      fun r hr => ⟨hr.arithmetic, ?_⟩
    have := hr.weight_le_totalCost
    omega

/-- Terms for their coefficients weigh no more than the terms that were gathered. -/
lemma halts_scaledTerms (hmul : MultipliesUp N d k p) (hs : s.Regular)
    {groups : List (Expr × Number.Tracked)} {groups' : List (Expr × List Number)}
    (heq : List.Forall₂ (fun g g' => g.1 = g'.1 ∧
      Collapses Number.Tracked.of (Number.Tracked.combine .add) g'.2 g.2) groups groups')
    (hknown : ∀ g ∈ groups, s.Knows g.1) (hgroups : ∀ g ∈ groups, g.1.IsArithmetic)
    (hk : (groups'.map fun g => (g.2.map (termWeight N g.1)).sum).sum ≤ k) :
    Halts Store.Regular d s (scaledTerms p groups) fun m =>
      (∀ e ∈ m, e.IsArithmetic) ∧
        totalWeight N m ≤ (groups'.map fun g => (g.2.map (termWeight N g.1)).sum).sum := by
  induction heq generalizing s with
  | nil => exact .pure hs Store.knows_nil ⟨by simp, by simp⟩
  | @cons g g' groups groups' hg _ ih =>
    obtain ⟨r, total⟩ := g
    obtain ⟨r', cs⟩ := g'
    obtain rfl : r = r' := hg.1
    have htotal : Collapses Number.Tracked.of (Number.Tracked.combine .add) cs total := hg.2
    rw [List.forall_mem_cons] at hknown hgroups
    simp only [List.map_cons, List.sum_cons] at hk ⊢
    have hknown' {u : Store} (hle : s ≤ u) : ∀ g ∈ groups, u.Knows g.1 := fun g hg =>
      (hknown.2 g hg).mono hle
    rw [scaledTerms]
    refine (halts_settle hs total).bind fun c t ht hle _ hc => .ite (fun _ => ?_) fun _ => ?_
    · exact (ih ht (hknown' hle) hgroups.2 (by omega)).imp fun m hm =>
        ⟨hm.1, hm.2.trans (Nat.le_add_left _ _)⟩
    · subst hc
      refine (halts_scaledTerm (e := r) hmul ht (hknown.1.mono hle) hgroups.1 htotal (by omega)).bind
        fun e u hu hle' hknowne he => ?_
      refine (ih hu (hknown' (hle.trans hle')) hgroups.2 (by omega)).bind
        fun m v hv hle'' hknownm hm => ?_
      refine .pure hv (Store.knows_cons.2 ⟨hknowne.mono hle'', hknownm⟩)
        ⟨List.forall_mem_cons.2 ⟨he.1, hm.1⟩, ?_⟩
      rw [totalWeight_cons]
      exact Nat.add_le_add he.2 hm.2

/-- What splitting makes of a list of terms. -/
lemma scaledAs_spec {split : List (Expr × Number)} (h : List.Forall₂ (ScaledAs N) l split) :
    (∀ q ∈ split, q.1.IsArithmetic) ∧
      (split.map fun q => termWeight N q.1 q.2).sum ≤ totalWeight N l := by
  induction h with
  | nil => simp
  | cons hq _ ih =>
    simp only [List.forall_mem_cons, List.map_cons, List.sum_cons, totalWeight_cons]
    exact ⟨⟨hq.arithmetic, ih.1⟩, Nat.add_le_add hq.termWeight_le ih.2⟩

/-- The constant of a sum is one literal for all literals, and the literal one if that is the only one. -/
lemma halts_constant {I : Store → Prop} [Store.Lasting I] (hs : I s) (ms : List Number) :
    Halts I d s ((combine .add ms).mapM fun total => do number (← Build.settle total))
      fun constant => (constant.isSome = true ↔ ms ≠ []) ∧
        (∀ c ∈ constant, c.number?.isSome = true ∧ c.IsReal) ∧
        (ms = [.one] → ∀ c ∈ constant, c.number? = some .one) := by
  cases ms with
  | nil => exact .pure hs Store.knows_none ⟨by simp, by simp, by simp⟩
  | cons m ms =>
    rw [combine, Option.mapM_some, Run.map_eq_bind]
    simp only [bind_assoc]
    refine (halts_settle hs _).bind fun c t ht _ _ hc => ?_
    have hone : m :: ms = [.one] → c = .one := fun h => by
      obtain ⟨rfl, rfl⟩ := List.cons_eq_cons.1 h
      exact hc
    have hnumber : Halts I d t (number c) fun e =>
        (e.number?.isSome = true ∧ e.IsReal) ∧ (c = .one → e.number? = some .one) := by
      by_cases hc' : c = .one
      · subst hc'
        exact (halts_int ht 1).imp fun e he => ⟨⟨by simp [he.1], he.2⟩, fun _ => he.1⟩
      · exact (halts_number ht c).imp fun e he => ⟨he, fun h => absurd h hc'⟩
    refine hnumber.bind fun e u hu _ hknown he => ?_
    refine .pure hu (Store.knows_some.2 hknown) ⟨by simp, by simpa using he.1, fun h => ?_⟩
    simpa using he.2 (hone h)

/-- The sum of some terms without a literal other than the first. -/
lemma halts_ofTerms (hs : s.Regular) {constant : Option Expr} (hconstant : s.Knows constant)
    (hknown : s.Knows l) (hc : ∀ c ∈ constant, c.number?.isSome = true ∧ c.IsReal)
    (hl : ∀ e ∈ l, e.IsArithmetic) : Halts Store.Regular d s (ofTerms constant l) fun e =>
      e.IsArithmetic ∧ e.weight N ≤ max 1 (totalWeight N l) := by
  unfold ofTerms
  split
  · cases constant with
    | none => exact (halts_literal (N := N) hs (.int 0)).imp fun e he => ⟨he.1, by simp [he.2]⟩
    | some c =>
      obtain ⟨hnumber, hreal⟩ := hc c rfl
      exact .pure hs (hconstant c rfl) ⟨.literal hnumber hreal, by simp [weight_literal hnumber]⟩
  · rename_i term
    exact .pure hs (hknown term (by simp)) ⟨hl term (by simp), by simp⟩
  · rename_i hne hne'
    have hlength : 2 ≤ l.length := by
      obtain _ | ⟨a, _ | ⟨b, l⟩⟩ := l
      · exact absurd rfl hne
      · exact absurd rfl (hne' a)
      · simp
    obtain ⟨domain, hdomain, -⟩ := sumDomain_real fun e he => (hl e he).isReal
    rw [hdomain]
    show Halts Store.Regular d s (Build.intern domain (.sum l)) _
    refine halts_ordinary hs (admits_sum hknown hdomain) rfl fun e t ht hle he hcode => ?_
    have hkind := ht.kind_eq_sum he (hknown.mono hle) hcode
    have hreal := IsReal.of_sum ht.toWellFormed he hkind fun e he => (hl e he).isReal
    exact ⟨.sum hkind hreal hlength hl, (weight_sum hkind).le.trans (le_max_right _ _)⟩

omit [∀ l, Growing (p l)] in
/-- The sum of the literal one alone is one. -/
lemma halts_sumWith_one (hs : s.Regular) (hn : n.number? = some .one) :
    Halts Store.Regular d s (sumWith p [n]) fun e => e.isOne = true := by
  obtain ⟨m, hkind⟩ := exists_number (e := n) (by simp [hn])
  have hterms : allTerms [n] = [n] := by
    simp [allTerms, terms_of_kind_ne (e := n) (by simp [hkind])]
  have hliterals : literals [n] = [.one] := by simp [literals, hn]
  have hothers : nonLiterals [n] = [] := by simp [nonLiterals, hn]
  unfold sumWith
  simp only [hterms, hothers, hliterals]
  refine (halts_constant hs _).bind fun constant t ht _ hknown hc => ?_
  obtain ⟨c, rfl⟩ := Option.isSome_iff_exists.1 (hc.1.2 (by simp))
  have hone := hc.2.2 rfl c rfl
  have hisOne : c.isOne = true := by rw [isOne, hone]; rfl
  have hzero : c.isZero = false := by rw [isZero, hone]; rfl
  have hdomain : sumDomain ((some c).toList ++ []) = .ok c.domain := rfl
  have hsum : ofTerms (some c) (((some c).filter fun c => !c.isZero).toList ++ []) = pure c := by
    simp [ofTerms, Option.filter, hzero]
  rw [hdomain, List.mapM_nil]
  simp only [Build.ofExcept, gather, sortBy, Sorting.sort, scaledTerms, pure_bind, hsum]
  exact .pure ht (Store.knows_some.1 hknown) hisOne

/-- Some terms weigh at least as much as one literal. -/
lemma one_le_weight (hl : ∀ e ∈ l, e.IsArithmetic) (hne : l ≠ []) :
    1 ≤ (if literals l = [] then 0 else 1) + totalWeight N (nonLiterals l) := by
  obtain ⟨e, l, rfl⟩ := List.exists_cons_of_ne_nil hne
  cases h : e.number? with
  | none =>
    have := (hl e (by simp)).weight_pos (N := N)
    simp [nonLiterals, h]
    omega
  | some m => simp [literals, h]

/-- The sum of terms that are no sums. -/
lemma halts_sumWith (hmul : MultipliesUp N d k p) (hs : s.Regular) (hknown : s.Knows (allTerms l))
    (hall : ∀ t ∈ allTerms l, t.IsArithmetic ∧ ∀ l, t.kind ≠ .sum l) (hne : allTerms l ≠ [])
    (hk : openWeight N l ≤ k) : Halts Store.Regular d s (sumWith p l) fun e => e.IsArithmetic ∧
      e.weight N ≤ (if literals (allTerms l) = [] then 0 else 1) + openWeight N l := by
  have hone := one_le_weight (N := N) (fun t ht => (hall t ht).1) hne
  have hothers : ∀ t ∈ nonLiterals (allTerms l), t.IsArithmetic ∧ 3 ≤ t.weight N := fun t ht => by
    obtain ⟨hmem, hnumber⟩ := List.mem_filter.1 ht
    obtain ⟨harith, hsum⟩ := hall t hmem
    exact ⟨harith, harith.three_le_weight (by simpa using hnumber) hsum⟩
  have hknown' : s.Knows (nonLiterals (allTerms l)) := hknown.of_subset List.filter_sublist.subset
  unfold sumWith
  refine (halts_constant hs _).bind fun constant s₁ hs₁ h₁ hknown₁ hc => ?_
  obtain ⟨hsome, hliteral, -⟩ := hc
  obtain ⟨domain, hdomain, -⟩ := sumDomain_real
    (l := constant.toList ++ nonLiterals (allTerms l)) (List.forall_mem_append.2
      ⟨fun c hc => (hliteral c (by simpa using hc)).2, fun t ht => (hothers t ht).1.isReal⟩)
  simp only [hdomain, Build.ofExcept, pure_bind]
  refine (Halts.mapM hs₁ _ fun t ht u hu hle => halts_splitCoefficient (N := N) hmul hu
    ((hknown' t ht).mono (h₁.trans hle)) (hothers t ht).1 (hothers t ht).2 ?_).bind
    fun split s₂ hs₂ h₂ hknown₂ hsplit => ?_
  · exact (List.single_le_sum (by simp) _ (List.mem_map_of_mem ht)).trans hk
  obtain ⟨harith, hweight⟩ := scaledAs_spec hsplit
  have hsep : Separated split := fun p hp q hq hordinal =>
    Store.WellFormed.eq_of_ordinal (hknown₂ p hp).1 (hknown₂ q hq).1 hordinal
  -- Gathering does not add to the weight of the terms.
  rw [← sum_groups hsep (termWeight N)] at hweight
  refine (halts_scaledTerms hmul hs₂ gather_eq_groups
    (gather_keys_forall fun q hq => (hknown₂ q hq).1) (gather_keys_forall harith)
    (hweight.trans hk)).bind fun scaled s₃ hs₃ h₃ hknown₃ hscaled => ?_
  have hknown₄ : s₃.Knows constant := hknown₁.mono (h₂.trans h₃)
  have hfront : ∀ c ∈ (constant.filter fun c => !c.isZero).toList, c ∈ constant := fun c hc =>
    (Option.mem_filter_iff.1 (Option.mem_toList.1 hc)).1
  refine (halts_ofTerms (N := N) hs₃ hknown₄
    (Store.knows_append.2 ⟨fun c hc => hknown₄ c (hfront c hc), hknown₃⟩) hliteral
    (List.forall_mem_append.2 ⟨fun c hc => ?_, hscaled.1⟩)).imp fun e he => ⟨he.1, he.2.trans ?_⟩
  · obtain ⟨hnumber, hreal⟩ := hliteral c (hfront c hc)
    exact .literal hnumber hreal
  · -- The constant weighs one, if there is any literal at all.
    have hcost : totalWeight N (constant.filter fun c => !c.isZero).toList ≤
        if literals (allTerms l) = [] then 0 else 1 := by
      cases constant with
      | none => simp
      | some c =>
        have hweight := weight_literal (N := N) (hliteral c rfl).1
        rw [if_neg (hsome.1 rfl)]
        cases hzero : c.isZero <;> simp [Option.filter, hzero, hweight]
    have := hscaled.2.trans hweight
    rw [totalWeight_append, openWeight]
    omega

/-- If products of terms can be multiplied, the terms can be added up. -/
lemma addsUp_sumWith (hmul : MultipliesUp N d k p) : AddsUp N d k (sumWith p) := by
  intro s l hs hknown hne hl hk
  have hall : ∀ t ∈ allTerms l, t.IsArithmetic ∧ ∀ l, t.kind ≠ .sum l := fun t ht => by
    rw [allTerms_eq_flatMap] at ht
    obtain ⟨e, he, hmem⟩ := List.mem_flatMap.1 ht
    exact (hl e he).terms t hmem
  have htotal := totalWeight_allTerms (N := N) l
  have hne' : allTerms l ≠ [] := fun hnil => by
    obtain ⟨e, l, rfl⟩ := List.exists_cons_of_ne_nil hne
    have := (hl e (by simp)).weight_pos (N := N)
    rw [hnil, totalWeight_nil, totalWeight_cons] at htotal
    omega
  have hopen : openWeight N l ≤ k := by
    have := totalWeight_filter (N := N) (fun e => e.number?.isNone) (allTerms l)
    rw [openWeight, nonLiterals]
    omega
  have hsum := halts_sumWith (d := d) hmul hs (knows_allTerms hs.toWellFormed hknown) hall hne' hopen
  by_cases hone : ∃ n, l = [n] ∧ n.number? = some .one
  · obtain ⟨n, rfl, hn⟩ := hone
    exact (hsum.and (halts_sumWith_one hs hn)).imp fun e he =>
      ⟨he.1.1, he.1.2, fun _ _ _ => he.2⟩
  · exact hsum.imp fun e he => ⟨he.1, he.2, fun n hl hn => absurd ⟨n, hl, hn⟩ hone⟩

end Sums

/-- Factors whose product weighs at most `k` can be multiplied at depth `k`. -/
lemma multipliesUp_productAux (k : ℕ) : MultipliesUp N d k (productAux k) := by
  induction k with
  | zero =>
    intro s l hs _ hne hl hk
    obtain ⟨e, l, rfl⟩ := List.exists_cons_of_ne_nil hne
    have := (hl e (by simp)).weight_pos (N := N)
    rw [totalCost_cons] at hk
    omega
  | succ k ih => exact multipliesUp_succ (addsUp_sumWith ih)

/-- Factors whose product weighs no more than the depth have a canonical product. -/
lemma multipliesUp_canonicalProduct : MultipliesUp N d d canonicalProduct :=
  fun s l hs hknown hne hl hk =>
    (multipliesUp_productAux d hs hknown hne hl hk).of_run_eq (canonicalProduct_apply l d s)

/-- Terms that weigh no more than the depth have a canonical sum. -/
lemma addsUp_sum : AddsUp N d d sum :=
  addsUp_sumWith multipliesUp_canonicalProduct

end Expr

end TermGraph
