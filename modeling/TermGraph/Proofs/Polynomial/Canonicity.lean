import TermGraph.Proofs.Polynomial.Sum
import TermGraph.Proofs.Store.Sharing

/-!
# Canonicity of expanded polynomials

A sum of monomials is one node, whatever the order and the bracketing in which the monomials were
multiplied and added up: it depends on the Laurent polynomial alone.

* `Monomial` and `Summation`: the ways to build a product of literals and powers, and a sum of such
  products, each with the polynomial that it denotes.
* `Store.Reachable.canonical`: two sums are the same node exactly if they denote the same Laurent
  polynomial with integer coefficients.
-/

namespace TermGraph

open Store (Knows)

/-- Laurent polynomials with integer coefficients, in variables that are named by ordinals. -/
abbrev Laurent := AddMonoidAlgebra ℤ Exponents

/-! ## Ways to build products and sums -/

/-- A product of integer literals and of powers of symbols, in any order and bracketing. -/
inductive Monomial where
  /-- An integer literal. -/
  | literal (n : Int64)
  /-- A symbol. -/
  | symbol (x : Expr)
  /-- A symbol to a literal exponent. -/
  | power (x : Expr) (n : Int64)
  /-- The product of two. -/
  | mul (a b : Monomial)
  /-- The product of a list. -/
  | product (items : List Monomial)

/-- A sum of monomials, in any order and bracketing. -/
inductive Summation where
  /-- A single monomial. -/
  | term (m : Monomial)
  /-- The sum of two. -/
  | add (a b : Summation)
  /-- The sum of a list. -/
  | sum (items : List Summation)

namespace Monomial

mutual

/-- Builds the product. -/
def build : Monomial → Build Expr
  | .literal n => Expr.int n
  | .symbol x => pure x
  | .power x n => do Expr.power x (← Expr.int n)
  | .mul a b => do
    let e ← a.build
    Expr.apply e (← b.build)
  | .product items => do Expr.product (← buildAll items)

/-- Builds all products of a list. -/
def buildAll : List Monomial → Build (List Expr)
  | [] => pure []
  | m :: ms => do
    let e ← m.build
    return e :: (← buildAll ms)

end

mutual

/-- The Laurent polynomial that the product denotes. -/
noncomputable def denote : Monomial → Laurent
  | .literal n => .single 0 n.toInt
  | .symbol x => .single (.single x.ordinal 1) 1
  | .power x n => .single (.single x.ordinal n.toInt) 1
  | .mul a b => a.denote * b.denote
  | .product items => denoteAll items

/-- The product of the polynomials of a list. -/
noncomputable def denoteAll : List Monomial → Laurent
  | [] => 1
  | m :: ms => m.denote * denoteAll ms

end

mutual

/-- The symbols that occur. -/
def symbols : Monomial → List Expr
  | .literal _ => []
  | .symbol x | .power x _ => [x]
  | .mul a b => a.symbols ++ b.symbols
  | .product items => allSymbols items

/-- The symbols that occur in a list. -/
def allSymbols : List Monomial → List Expr
  | [] => []
  | m :: ms => m.symbols ++ allSymbols ms

end

end Monomial

namespace Summation

mutual

/-- Builds the sum. -/
def build : Summation → Build Expr
  | .term m => m.build
  | .add a b => do
    let e ← a.build
    Expr.add e (← b.build)
  | .sum items => do Expr.sum (← buildAll items)

/-- Builds all sums of a list. -/
def buildAll : List Summation → Build (List Expr)
  | [] => pure []
  | p :: ps => do
    let e ← p.build
    return e :: (← buildAll ps)

end

mutual

/-- The Laurent polynomial that the sum denotes. -/
noncomputable def denote : Summation → Laurent
  | .term m => m.denote
  | .add a b => a.denote + b.denote
  | .sum items => denoteAll items

/-- The sum of the polynomials of a list. -/
noncomputable def denoteAll : List Summation → Laurent
  | [] => 0
  | p :: ps => p.denote + denoteAll ps

end

mutual

/-- The symbols that occur. -/
def symbols : Summation → List Expr
  | .term m => m.symbols
  | .add a b => a.symbols ++ b.symbols
  | .sum items => allSymbols items

/-- The symbols that occur in a list. -/
def allSymbols : List Summation → List Expr
  | [] => []
  | p :: ps => p.symbols ++ allSymbols ps

end

end Summation

namespace Store

/-- `x` is a symbol of the integers or the reals. -/
structure HasVariable (s : Store) (x : Expr) : Prop where
  /-- The store knows it. -/
  known : s.Knows x
  /-- It is a symbol. -/
  symbol : x.isSymbol = true
  /-- It is an integer or a real number. -/
  real : x.domain = .integers ∨ x.domain = .reals

lemma HasVariable.isVariable {s : Store} {x : Expr} (h : s.HasVariable x) :
    Expr.IsVariable x.ordinal x := by
  refine ⟨rfl, ?_, h.real⟩
  have hsymbol := h.symbol
  unfold Expr.isSymbol at hsymbol
  split at hsymbol
  · exact ⟨_, ‹_›⟩
  · cases hsymbol

lemma HasVariable.mono {s t : Store} {x : Expr} (h : s.HasVariable x) (hle : s ≤ t) :
    t.HasVariable x :=
  ⟨h.known.mono hle, h.symbol, h.real⟩

/-- The same store, watched from here on for operations on integers that give no integer. -/
def watched (s : Store) : Store :=
  { s with exact := true }

end Store

/-! ## Monomials -/

namespace Monomial

mutual

theorem growing_build : ∀ m : Monomial, Growing m.build
  | .literal n => by unfold build; infer_instance
  | .symbol x => by unfold build; infer_instance
  | .power x n => by unfold build; infer_instance
  | .mul a b => by
    have := growing_build a
    have := growing_build b
    unfold build
    infer_instance
  | .product items => by
    have := growing_buildAll items
    unfold build
    infer_instance

theorem growing_buildAll : ∀ ms : List Monomial, Growing (buildAll ms)
  | [] => by unfold buildAll; infer_instance
  | m :: ms => by
    have := growing_build m
    have := growing_buildAll ms
    unfold buildAll
    infer_instance

end

instance (m : Monomial) : Growing m.build := growing_build m

instance (ms : List Monomial) : Growing (buildAll ms) := growing_buildAll ms

mutual

theorem yields_build : ∀ (m : Monomial) {s : Store}, Good s →
    (∀ x ∈ m.symbols, s.HasVariable x) → Yields s m.build
  | .literal n, _, hs, _ => by
    unfold build
    exact Expr.yields_int hs n
  | .symbol x, _, hs, h => by
    unfold build
    exact .pure hs (h x (by simp [symbols])).known
  | .power x n, _, hs, h => by
    unfold build
    refine (Expr.yields_int hs n).bind fun e t ht hle he => ?_
    exact Expr.yields_power ht ((h x (by simp [symbols])).known.mono hle) he
  | .mul a b, _, hs, h => by
    unfold build
    refine (yields_build a hs fun x hx => h x (by simp [symbols, hx])).bind fun e t ht hle he => ?_
    refine (yields_build b ht fun x hx => (h x (by simp [symbols, hx])).mono hle).bind
      fun f u hu hle' hf => ?_
    exact Expr.yields_apply u e f hu (he.mono hle') hf
  | .product items, _, hs, h => by
    unfold build
    refine (yields_buildAll items hs fun x hx => h x (by simpa [symbols] using hx)).bind
      fun l t ht hle hl => ?_
    exact Expr.yields_product t l ht hl

theorem yields_buildAll : ∀ (ms : List Monomial) {s : Store}, Good s →
    (∀ x ∈ allSymbols ms, s.HasVariable x) → Yields s (buildAll ms)
  | [], _, hs, _ => by
    unfold buildAll
    exact .pure hs (by simp)
  | m :: ms, _, hs, h => by
    unfold buildAll
    refine (yields_build m hs fun x hx => h x (by simp [allSymbols, hx])).bind
      fun e t ht hle he => ?_
    refine (yields_buildAll ms ht fun x hx => (h x (by simp [allSymbols, hx])).mono hle).bind
      fun l u hu hle' hl => ?_
    exact .pure hu (by grind)

end

open TermGraph.Expr (IsMonomial)

/-- A way to build a product gives the monomial with the coefficient and exponents of `p`. -/
structure Gives (d : ℕ) (m : Monomial) (p : ℤ × Exponents) : Prop where
  /-- The denotation is this monomial. -/
  denote : m.denote = .single p.2 p.1
  /-- Building it gives this monomial. -/
  build : ∀ s : Store, Good s → (∀ x ∈ m.symbols, s.HasVariable x) →
    Achieves d s m.build (IsMonomial p.1 p.2)

variable {d : ℕ}

lemma gives_power (x : Expr) (n : Int64) :
    Gives d (.power x n) (1, Finsupp.single x.ordinal n.toInt) where
  denote := by unfold denote; rfl
  build s hs h := by
    refine ⟨yields_build _ hs h d, ?_⟩
    have hx := h x (by simp [symbols])
    unfold build
    refine (Expr.achieves_int hs n).bind fun e t ht hle he _ hliteral => ?_
    refine (Expr.achieves_power ht hx.isVariable hliteral (hx.known.mono hle) he).exact.imp
      fun f _ _ _ hf => ?_
    rcases hf with ⟨hzero, hone⟩ | hpower
    · exact .literal (.inr (by simp [hzero])) hone
    · exact hpower.isMonomial

lemma gives_mul (hd : 0 < d) {a b : Monomial} {p q : ℤ × Exponents} (ha : Gives d a p)
    (hb : Gives d b q) : Gives d (.mul a b) (p.1 * q.1, p.2 + q.2) where
  denote := by
    unfold denote
    rw [ha.denote, hb.denote, AddMonoidAlgebra.single_mul_single]
  build s hs h := by
    refine ⟨yields_build _ hs h d, ?_⟩
    simp only [symbols, List.mem_append] at h
    unfold build
    refine (ha.build s hs fun x hx => h x (.inl hx)).bind fun e t ht hle he _ he' => ?_
    refine (hb.build t ht fun x hx => (h x (.inr hx)).mono hle).bind
      fun f u hu hle' hf _ hf' => ?_
    exact (Expr.achieves_apply hu hd he' hf' (he.mono hle') hf).exact

mutual

theorem exists_gives (hd : 0 < d) : ∀ m : Monomial, ∃ p, Gives d m p
  | .literal n => ⟨(n.toInt, 0), by unfold denote; rfl, fun s hs h => by
    refine ⟨yields_build _ hs h d, ?_⟩
    unfold build
    exact (Expr.achieves_int hs n).exact.imp fun e _ _ _ he => .literal (.inr rfl) he⟩
  | .symbol x => ⟨(1, Finsupp.single x.ordinal 1), by unfold denote; rfl, fun s hs h => by
    refine ⟨yields_build _ hs h d, ?_⟩
    unfold build
    exact .pure (Expr.IsPower.base (h x (by simp [symbols])).isVariable).isMonomial⟩
  | .power x n => ⟨_, gives_power x n⟩
  | .mul a b => by
    obtain ⟨p, hp⟩ := exists_gives hd a
    obtain ⟨q, hq⟩ := exists_gives hd b
    exact ⟨_, gives_mul hd hp hq⟩
  | .product items => by
    obtain ⟨ps, hdenote, hbuild⟩ := exists_gives_all hd items
    refine ⟨((ps.map Prod.fst).prod, (ps.map Prod.snd).sum), by unfold denote; exact hdenote,
      fun s hs h => ⟨yields_build _ hs h d, ?_⟩⟩
    rw [symbols] at h
    unfold build
    refine (show Achieves d s _ _ from ⟨yields_buildAll items hs h d, hbuild s hs h⟩).bind
      fun l t ht hle hl _ hl' => ?_
    exact (Expr.achieves_product ht hd hl' hl).exact

theorem exists_gives_all (hd : 0 < d) : ∀ ms : List Monomial, ∃ ps : List (ℤ × Exponents),
    denoteAll ms = .single (ps.map Prod.snd).sum (ps.map Prod.fst).prod ∧
      ∀ s : Store, Good s → (∀ x ∈ allSymbols ms, s.HasVariable x) →
        Exact d s (buildAll ms) fun l _ => List.Forall₂ (fun p e => IsMonomial p.1 p.2 e) ps l
  | [] => ⟨[], by unfold denoteAll; rfl, fun s hs h => by
    unfold buildAll
    exact .pure .nil⟩
  | m :: ms => by
    obtain ⟨p, hp⟩ := exists_gives hd m
    obtain ⟨ps, hdenote, hbuild⟩ := exists_gives_all hd ms
    refine ⟨p :: ps, ?_, fun s hs h => ?_⟩
    · unfold denoteAll
      rw [hp.denote, hdenote, AddMonoidAlgebra.single_mul_single]
      rfl
    · simp only [allSymbols, List.mem_append] at h
      unfold buildAll
      refine (hp.build s hs fun x hx => h x (.inl hx)).bind fun e t ht hle he _ he' => ?_
      have hms : ∀ x ∈ allSymbols ms, t.HasVariable x := fun x hx => (h x (.inr hx)).mono hle
      refine (show Achieves d t _ _ from ⟨yields_buildAll ms ht hms d, hbuild t ht hms⟩).bind
        fun l u _ _ _ _ hl => ?_
      exact .pure (.cons he' hl)

end

end Monomial

/-! ## Sums -/

namespace Summation

mutual

theorem growing_build : ∀ p : Summation, Growing p.build
  | .term m => by unfold build; infer_instance
  | .add a b => by
    have := growing_build a
    have := growing_build b
    unfold build
    infer_instance
  | .sum items => by
    have := growing_buildAll items
    unfold build
    infer_instance

theorem growing_buildAll : ∀ ps : List Summation, Growing (buildAll ps)
  | [] => by unfold buildAll; infer_instance
  | p :: ps => by
    have := growing_build p
    have := growing_buildAll ps
    unfold buildAll
    infer_instance

end

instance (p : Summation) : Growing p.build := growing_build p

instance (ps : List Summation) : Growing (buildAll ps) := growing_buildAll ps

mutual

theorem yields_build : ∀ (p : Summation) {s : Store}, Good s →
    (∀ x ∈ p.symbols, s.HasVariable x) → Yields s p.build
  | .term m, _, hs, h => by
    unfold build
    exact m.yields_build hs fun x hx => h x (by simpa [symbols] using hx)
  | .add a b, _, hs, h => by
    unfold build
    refine (yields_build a hs fun x hx => h x (by simp [symbols, hx])).bind fun e t ht hle he => ?_
    refine (yields_build b ht fun x hx => (h x (by simp [symbols, hx])).mono hle).bind
      fun f u hu hle' hf => ?_
    exact Expr.yields_sum u [e, f] hu (by grind)
  | .sum items, _, hs, h => by
    unfold build
    refine (yields_buildAll items hs fun x hx => h x (by simpa [symbols] using hx)).bind
      fun l t ht hle hl => ?_
    exact Expr.yields_sum t l ht hl

theorem yields_buildAll : ∀ (ps : List Summation) {s : Store}, Good s →
    (∀ x ∈ allSymbols ps, s.HasVariable x) → Yields s (buildAll ps)
  | [], _, hs, _ => by
    unfold buildAll
    exact .pure hs (by simp)
  | p :: ps, _, hs, h => by
    unfold buildAll
    refine (yields_build p hs fun x hx => h x (by simp [allSymbols, hx])).bind
      fun e t ht hle he => ?_
    refine (yields_buildAll ps ht fun x hx => (h x (by simp [allSymbols, hx])).mono hle).bind
      fun l u hu hle' hl => ?_
    exact .pure hu (by grind)

end

open TermGraph.Expr (IsPolynomial HasTerms)

variable {d : ℕ}

mutual

/-- Building a sum gives the node of the polynomial that it denotes. -/
theorem exact_build (hd : 0 < d) : ∀ (p : Summation) {s : Store}, Good s →
    (∀ x ∈ p.symbols, s.HasVariable x) →
      Exact d s p.build fun e t => IsPolynomial t p.denote.coeff e
  | .term m, s, hs, h => by
    obtain ⟨q, hq⟩ := m.exists_gives hd
    unfold build denote
    refine (hq.build s hs fun x hx => h x (by simpa [symbols] using hx)).exact.imp
      fun e t _ _ he => ?_
    rw [hq.denote]
    exact .of_isMonomial he
  | .add a b, s, hs, h => by
    simp only [symbols, List.mem_append] at h
    unfold build denote
    have ha : ∀ x ∈ a.symbols, s.HasVariable x := fun x hx => h x (.inl hx)
    refine (exact_build hd a hs ha).bind fun e t hrun _ he => ?_
    obtain ⟨ht, hknown⟩ := (yields_build a hs ha d).of_ok hrun
    have hle : s ≤ t := Growing.le_of_ok hrun
    have hb : ∀ x ∈ b.symbols, t.HasVariable x := fun x hx => (h x (.inr hx)).mono hle
    refine (exact_build hd b ht hb).bind fun f u hrun' _ hf => ?_
    obtain ⟨hu, hknown'⟩ := (yields_build b ht hb d).of_ok hrun'
    have hle' : t ≤ u := Growing.le_of_ok hrun'
    refine Expr.exact_sum hu hd (l := [e, f]) (by grind) ?_
    simpa [Expr.allTerms] using he.hasTerms.append hf.hasTerms
  | .sum items, s, hs, h => by
    rw [symbols] at h
    unfold build denote
    refine (exact_buildAll hd items hs h).bind fun l t hrun _ hl => ?_
    obtain ⟨ht, hknown⟩ := (yields_buildAll items hs h d).of_ok hrun
    exact Expr.exact_sum ht hd hknown hl

theorem exact_buildAll (hd : 0 < d) : ∀ (ps : List Summation) {s : Store}, Good s →
    (∀ x ∈ allSymbols ps, s.HasVariable x) →
      Exact d s (buildAll ps) fun l _ => HasTerms (denoteAll ps).coeff (Expr.allTerms l)
  | [], s, hs, h => by
    unfold buildAll denoteAll
    exact .pure .nil
  | p :: ps, s, hs, h => by
    simp only [allSymbols, List.mem_append] at h
    unfold buildAll denoteAll
    have hp : ∀ x ∈ p.symbols, s.HasVariable x := fun x hx => h x (.inl hx)
    refine (exact_build hd p hs hp).bind fun e t hrun _ he => ?_
    obtain ⟨ht, -⟩ := (yields_build p hs hp d).of_ok hrun
    have hle : s ≤ t := Growing.le_of_ok hrun
    refine (exact_buildAll hd ps ht fun x hx => (h x (.inr hx)).mono hle).bind fun l u _ _ hl => ?_
    exact .pure (he.hasTerms.append hl)

end

end Summation

/-! ## Canonicity -/

namespace Store

variable {s : Store}

lemma WellFormed.watched (hs : s.WellFormed) : s.watched.WellFormed :=
  ⟨hs.ordinal, fun h => ⟨(hs.admits h).children, (hs.admits h).functions, (hs.admits h).typed,
    (hs.admits h).index⟩, hs.below, hs.table_sound, hs.table_complete, hs.placeholder, hs.distinct,
    hs.rowIndex, hs.colIndex⟩

/-- **Canonicity.**  Two sums of monomials are built, `p` in a store that can be reached and `q`
after any further operations, and no coefficients or exponents leave the machine integers as they
are combined.  Then both are built, and they are the same node exactly if they denote the same
Laurent polynomial. -/
theorem Reachable.canonical {t : Store} {p q : Summation} {d d' : ℕ} (hs : s.Reachable)
    (hp : ∀ x ∈ p.symbols, s.HasVariable x) (hd : 0 < d)
    (hexact : (finalState (p.build d s.watched)).exact = true)
    (ht : (finalState (p.build d s.watched)).Reaches t) (hq : ∀ x ∈ q.symbols, t.HasVariable x)
    (hd' : 0 < d') (hexact' : (finalState (q.build d' t.watched)).exact = true) :
    ∃ a b s' t', p.build d s.watched = .ok a s' ∧ q.build d' t.watched = .ok b t' ∧
      (a = b ↔ p.denote = q.denote) := by
  have hwf := hs.wellFormed.watched
  have hp' : ∀ x ∈ p.symbols, s.watched.HasVariable x := fun x hx =>
    ⟨(hp x hx).known, (hp x hx).symbol, (hp x hx).real⟩
  have hq' : ∀ x ∈ q.symbols, t.watched.HasVariable x := fun x hx =>
    ⟨(hq x hx).known, (hq x hx).symbol, (hq x hx).real⟩
  obtain ⟨a, s', hrun, -, ha⟩ := (p.exact_build hd (good_store.2 hwf) hp').exists_ok hexact
  obtain ⟨hs', hknown⟩ := (p.yields_build (good_store.2 hwf) hp' d).of_ok hrun
  rw [hrun] at ht
  have hwft : t.WellFormed := ht.wellFormed (good_store.1 hs')
  have htwatched := good_store.2 hwft.watched
  obtain ⟨b, t', hrun', -, hb⟩ := (q.exact_build hd' htwatched hq').exists_ok hexact'
  obtain ⟨ht', hknown'⟩ := (q.yields_build htwatched hq' d').of_ok hrun'
  have hle : ∀ e : Expr, s'.Knows e → t'.Knows e := by
    intro e he
    have hknown : t.Knows e := he.mono ht.le
    have hknown' : t.watched.Knows e := hknown
    exact hknown'.mono (Growing.le_of_ok hrun')
  refine ⟨a, b, s', t', hrun, hrun', fun heq => ?_, fun heq => ?_⟩
  · subst heq
    exact AddMonoidAlgebra.coeff_injective (ha.unique hb)
  · rw [heq] at ha
    exact (ha.mono (good_store.1 hs') (good_store.1 ht') hle).eq (good_store.1 ht') (hle a hknown)
      hknown' hb

/-- Twice the row index plus the row index is three times the row index. -/
theorem canonical_rowIndex :
    let p : Summation :=
      .add (.term (.mul (.symbol .rowIndex) (.literal 2))) (.term (.symbol .rowIndex))
    let q : Summation := .term (.mul (.literal 3) (.symbol .rowIndex))
    let t := finalState (p.build 1 initial.watched)
    ∃ a b s' t', p.build 1 initial.watched = .ok a s' ∧ q.build 1 t.watched = .ok b t' ∧ a = b := by
  intro p q t
  have hx {s : Store} (h : s.Knows Expr.rowIndex) : s.HasVariable .rowIndex := ⟨h, rfl, .inl rfl⟩
  have hp : ∀ x ∈ p.symbols, initial.HasVariable x := by
    simpa [p, Summation.symbols, Monomial.symbols] using hx wellFormed_initial.rowIndex
  have hknows (r : Summation) : (finalState (r.build 1 initial.watched)).Knows Expr.rowIndex := by
    have hknown : initial.watched.Knows Expr.rowIndex := wellFormed_initial.rowIndex
    exact hknown.mono (Growing.le_final (x := r.build) 1 initial.watched)
  have hq : ∀ x ∈ q.symbols, t.HasVariable x := by
    simpa [q, Summation.symbols, Monomial.symbols] using hx (hknows p)
  obtain ⟨a, b, s', t', hrun, hrun', heq⟩ := Reachable.canonical (t := t) (d := 1)
    blank_initial.reachable hp Nat.one_pos (by decide +kernel) .refl hq Nat.one_pos (by decide +kernel)
  refine ⟨a, b, s', t', hrun, hrun', heq.2 ?_⟩
  simp only [p, q, Summation.denote, Monomial.denote, AddMonoidAlgebra.single_mul_single, zero_add,
    add_zero, ← AddMonoidAlgebra.single_add]
  rfl

end Store

end TermGraph
