import TermGraph.Proofs.Polynomial.Canonicity
import TermGraph.Proofs.Typing.Rebuilding

/-!
# Substitution and types

An expression is put for a symbol whose domain contains its own.  Then scalars stay scalars, and the
result lies in the domain of the original, except for integers: products merge equal factors, and the
power that they give is a real.  It still stands for an integer, but it is refused as a bound of a
summation.

* `Store.Fits s x r`: `r` may be put for the symbol `x`.
* `Store.Reachable.substitute_typed`: what substitution gives, or refuses.
-/

namespace TermGraph

open Store (Knows typedStores)

namespace Domain

variable {d d' : Domain}

/-- What is contained in the integers, the reals or the matrices. -/
lemma IsNumeric.of_within (hd : d.isBuiltin = true) (hd' : d'.IsNumeric) (h : d.within d' = true) :
    d.IsNumeric ∧ (d'.isScalar = true → d.isScalar = true) ∧ (d' = .integers → d = .integers) := by
  cases d with
  | custom => exact absurd hd Bool.false_ne_true
  | _ => rcases hd' with rfl | rfl | rfl <;>
      simp_all [IsNumeric, Domain.within, lineage, isScalar, BEq.beq, same]

/-- Everything is contained in the matrices, and scalars are contained in the reals. -/
lemma IsNumeric.within (hd : d.IsNumeric) (hd' : d'.IsNumeric)
    (hscalar : d'.isScalar = true → d.isScalar = true) (hintegers : d' = .integers → d = .integers) :
    d.within d' = true := by
  rcases hd' with rfl | rfl | rfl <;> rcases hd with rfl | rfl | rfl <;>
    simp_all [Domain.within, lineage, isScalar, BEq.beq, same]

end Domain

namespace Expr

variable {s : Store} {d j k : ℕ} {e r : Expr}

/-- Parts of expressions of rank `k` are rebuilt at depths above `k + j + 1`. -/
lemma rebuilds_rebuild (hd : k + j + 2 ≤ d) : Rebuilds d j k rebuild :=
  fun _ _ _ hs he hitems hpart hreplaced =>
    (rebuilds_rebuildAux le_rfl hd hs he hitems hpart hreplaced).of_run_eq
      (Run.bind_apply_ok (Run.read_apply d _))

/-- What may stand in the place of an expression lies in its domain, unless that is the integers and
there is a power in the result. -/
lemma ReplacedBy.within (hs : s.WellFormed) (htyped : s.SumsTyped) (hr : s.Knows r)
    (h : ReplacedBy j e r) (he : Ranked k e) (hwhole : e.domain = .integers → e.Whole) :
    r.domain.within e.domain = true ∨
      (e.domain = .integers ∧ r.domain = .reals ∧ r.Whole ∧ r.HasPower) := by
  have hranked := h.ranked he
  by_cases hintegers : e.domain = .integers
  · have hrwhole := h.whole (hwhole hintegers)
    rcases hrwhole.real with hd | hd
    · exact .inl (hranked.numeric.within he.numeric (h.isScalar he) fun _ => hd)
    · refine .inr ⟨hintegers, hd, hrwhole, (integral_or_hasPower hs htyped hr hrwhole).resolve_left ?_⟩
      rw [hd]
      simp
  · exact .inl (hranked.numeric.within he.numeric (h.isScalar he) fun h => absurd h hintegers)

end Expr

namespace Store

/-- A check that summations lie in the domains of their bodies. -/
def areSumsTyped (s : Store) : Bool :=
  s.nodes.all fun e =>
    match e.kind with
    | .indexedSum _ _ _ body => e.domain == body.domain
    | _ => true

lemma SumsTyped.of_areSumsTyped {s : Store} (h : s.areSumsTyped = true) : s.SumsTyped := by
  intro e index lower upper body he hkind hnumeric
  have hsame := Array.all_eq_true'.1 h e (Array.mem_of_getElem? he)
  rw [hkind] at hsame
  rcases hnumeric with hd | hd | hd <;> simp only [hd] at hsame ⊢ <;>
    cases hd' : e.domain <;> simp_all [BEq.beq, Domain.same]

variable {s : Store} {d j : ℕ} {e x r : Expr}

/-- A bound that was refused is a real that stands for an integer and has a power. -/
lemma Refuses.exists_hasPower {err : Error} (h : s.Refuses err) (hs : s.WellFormed)
    (htyped : s.SumsTyped) :
    ∃ b : Expr, err = .boundNotIntegral b ∧ b.domain = .reals ∧ b.Whole ∧ b.HasPower := by
  obtain ⟨b, rfl, hknown, hwhole, hdomain⟩ := h
  have hreal : b.domain = .reals := hwhole.real.resolve_left fun h => by
    rw [h] at hdomain
    cases hdomain
  refine ⟨b, rfl, hreal, hwhole,
    (Expr.integral_or_hasPower hs htyped hknown hwhole).resolve_left ?_⟩
  rw [hreal]
  simp

/-- The expression `r` may be put for the symbol `x`, whose domain contains that of `r`. -/
structure Fits (s : Store) (x r : Expr) : Prop where
  /-- What is replaced is a symbol. -/
  symbol : x.isSymbol = true
  /-- It is a number or matrix. -/
  linear : x.domain.isLinear = true
  /-- The replacement is made of numbers and matrices. -/
  elementary : r.Elementary
  /-- The replacement lies in the domain of the symbol. -/
  within : r.domain.within x.domain = true
  /-- Both are known. -/
  known : s.Knows x ∧ s.Knows r

/-- What fits a symbol may stand in its place. -/
lemma Fits.replacedBy (hs : s.WellFormed) (hled : s.Led) (hb : s.Builtin) (hsums : s.SumsTyped)
    (h : s.Fits x r) (hj : r.ordinal ≤ j) : Expr.ReplacedBy j x r := by
  have hnumeric := Domain.isNumeric_of_isLinear (hb x h.known.1) h.linear
  obtain ⟨hr, hscalar, hintegers⟩ := hnumeric.of_within (hb r h.known.2) h.within
  have hranked := h.elementary.ranked hs hled hb hsums h.known.2 hr.isLinear
  exact .of_isSymbol h.symbol hnumeric ⟨hranked.mono hj, hscalar⟩ fun hx =>
    h.elementary.whole hs hb hsums h.known.2 (hintegers hx)

/-- **Substitution keeps types.**  Let `e` be an elementary scalar or matrix in a store without custom
domains, and let every replacement fit its symbol.  At depths of at least twice the number of nodes, and
if the operations on integers gave integers and all summations over ranges lie in the domains of their
bodies, substitution gives an expression in the domain of `e`, or, if that is the integers, a real that
stands for an integer and has a power; or it refuses such a real as a bound of a summation. -/
theorem Reachable.substitute_typed {pairs : List (Expr × Expr)} (hs : s.Reachable) (hb : s.Builtin)
    (he : s.Knows e) (helementary : e.Elementary) (hlinear : e.domain.isLinear = true)
    (hpairs : ∀ p ∈ pairs, s.Fits p.1 p.2) (hd : 2 * s.nodes.size ≤ d)
    (hexact : (finalState (Expr.substitute pairs e d s.watched)).exact = true)
    (htyped : (finalState (Expr.substitute pairs e d s.watched)).SumsTyped) :
    (∃ r t, Expr.substitute pairs e d s.watched = .ok r t ∧
      (r.domain.within e.domain = true ∨
        (e.domain = .integers ∧ r.domain = .reals ∧ r.Whole ∧ r.HasPower))) ∨
    ∃ b t, Expr.substitute pairs e d s.watched = .error (.boundNotIntegral b) t ∧
      b.domain = .reals ∧ b.Whole ∧ b.HasPower := by
  have hwf := hs.wellFormed
  have hwatched := good_store.2 hwf.watched
  have hle : s.watched ≤ finalState (Expr.substitute pairs e d s.watched) :=
    Growing.le_final (x := Expr.substitute pairs e) d s.watched
  have hsums : s.SumsTyped := fun {e index lower upper body} he hkind hbody =>
    htyped (Knows.mono (show s.watched.Knows e from he) hle) hkind hbody
  have hfits : ∀ p ∈ pairs, Expr.ReplacedBy (s.nodes.size - 1) p.1 p.2 := fun p hp =>
    (hpairs p hp).replacedBy hwf hs.led hb hsums
      (Nat.le_sub_one_of_lt (WellFormed.lt_size (hpairs p hp).known.2))
  have hranked := helementary.ranked hwf hs.led hb hsums he hlinear
  have hdepth : e.ordinal + (s.nodes.size - 1) + 2 ≤ d := by
    have := WellFormed.lt_size he
    omega
  have hcompletes := Expr.completes_substituteWith Expr.yields_rebuild (Expr.rebuilds_rebuild hdepth)
    hwatched (fun p hp => (hpairs p hp).known) hfits he (.ranked hranked)
  have hmem : finalState (Expr.substitute pairs e d s.watched) ∈ typedStores := ⟨hexact, htyped⟩
  cases hrun : Expr.substitute pairs e d s.watched with
  | ok r t =>
    rw [hrun] at hmem
    obtain ⟨ht, hr⟩ := hcompletes.yields.of_ok hrun
    exact .inl ⟨r, t, rfl, (hcompletes.resolves.of_ok hrun hmem).within (good_store.1 ht) hmem.2 hr
      hranked fun h => helementary.whole hwf hb hsums he h⟩
  | error err t =>
    rw [hrun] at hmem
    have ht := good_store.1 (hcompletes.yields.of_error hrun)
    obtain ⟨b, rfl, hb⟩ := (hcompletes.resolves.of_error hrun hmem).exists_hasPower ht hmem.2
    exact .inr ⟨b, t, rfl, hb⟩

end Store

/-! ## The square of an integer -/

namespace Square

/-- An integer. -/
def x : Expr := .node 50 .integers (.symbol "x")

/-- A second integer. -/
def y : Expr := .node 51 .integers (.symbol "y")

/-- A third integer, which is put for both. -/
def z : Expr := .node 52 .integers (.symbol "z")

/-- The literal one. -/
def one : Expr := .node 53 .integers (.number .one)

/-- The product of the first two. -/
def product : Expr := .node 54 .integers (.apply x y)

/-- The symbol that the summation is written with at first. -/
def temporary : Expr := .node 55 .integers (.symbol "i")

/-- The index of the summation. -/
def index : Expr := .node 2 .integers (.symbol "_1")

/-- The sum of the integers from one to the product. -/
def summation : Expr := .node 56 .integers (.indexedSum index one product index)

/-- The operations that make these, the last one first. -/
def operations : List Operation :=
  [.endIndexedSum one product temporary temporary, .beginIndexedSum one product, .apply x y,
    .number .one, .symbol "z" .integers, .symbol "y" .integers, .symbol "x" .integers]

/-- The store that has them. -/
def store : Store := operations.foldr (fun op s => finalState (op.run 9 s)) Store.initial

lemma reaches_store : Store.initial.Reaches store := by
  refine .step (.endIndexedSum one product temporary temporary) 9 (.step (.beginIndexedSum one product) 9
    (.step (.apply x y) 9 (.step (.number .one) 9 (.step (.symbol "z" .integers) 9
      (.step (.symbol "y" .integers) 9 (.step (.symbol "x" .integers) 9 .refl trivial) trivial) trivial)
        trivial) ?_) ?_) ?_
  all_goals simp only [Operation.KnownBy, Store.knows_cons]
  · exact ⟨rfl, rfl, by simp⟩
  · exact ⟨rfl, rfl, by simp⟩
  · exact ⟨rfl, rfl, rfl, rfl, by simp⟩

lemma builtin_store : store.Builtin := fun e he => by
  have hnodes : store.nodes.toList.all (·.domain.isBuiltin) = true := by decide +kernel
  exact List.all_eq_true.1 hnodes e (Array.mem_toList_iff.2 (Array.mem_of_getElem? he))

lemma elementary_product : product.Elementary := by
  refine .intro (.inl rfl) fun c hc => ?_
  change c ∈ [x, y] at hc
  simp only [List.mem_cons, List.not_mem_nil, or_false] at hc
  rcases hc with rfl | rfl <;> exact .of_leaf rfl rfl

lemma elementary_summation : summation.Elementary := by
  refine .intro ⟨⟨rfl, rfl, rfl⟩, rfl⟩ fun c hc => ?_
  change c ∈ [index, one, product, index] at hc
  simp only [List.mem_cons, List.not_mem_nil, or_false] at hc
  rcases hc with rfl | rfl | rfl | rfl
  · exact .of_leaf rfl rfl
  · exact .of_leaf trivial rfl
  · exact elementary_product
  · exact .of_leaf rfl rfl

/-- The third integer is put for the others. -/
lemma fits : ∀ p ∈ [(x, z), (y, z)], store.Fits p.1 p.2 := by
  have hz : z.Elementary := .of_leaf rfl rfl
  intro p hp
  simp only [List.mem_cons, List.not_mem_nil, or_false] at hp
  rcases hp with rfl | rfl <;> exact ⟨rfl, rfl, hz, rfl, rfl, rfl⟩

/-- A bound was refused, and all operations on integers gave integers. -/
def refusesBound : EStateM.Result Error Store Expr → Bool
  | .error (.boundNotIntegral _) t => t.exact
  | _ => false

lemma exists_of_refusesBound {outcome : EStateM.Result Error Store Expr}
    (h : refusesBound outcome = true) :
    ∃ b t, outcome = .error (.boundNotIntegral b) t ∧ t.exact = true := by
  obtain ⟨_, _⟩ | ⟨err, t⟩ := outcome
  · cases h
  · cases err with
    | boundNotIntegral b => exact ⟨b, t, rfl, h⟩
    | _ => cases h

/-- The square is no longer in the domain of the product, and it is refused as a bound. -/
theorem substitute_leaves_integers :
    Store.initial.Reaches store ∧ store.Builtin ∧ (∀ p ∈ [(x, z), (y, z)], store.Fits p.1 p.2) ∧
      (store.Knows product ∧ product.Elementary) ∧ (store.Knows summation ∧ summation.Elementary) ∧
      (∃ r t, Expr.substitute [(x, z), (y, z)] product 200 store.watched = .ok r t ∧ t.exact = true ∧
        r.domain.within product.domain = false) ∧
      ∃ b t, Expr.substitute [(x, z), (y, z)] summation 200 store.watched =
        .error (.boundNotIntegral b) t ∧ t.exact = true := by
  refine ⟨reaches_store, builtin_store, fits, ⟨rfl, elementary_product⟩, ⟨rfl, elementary_summation⟩,
    ?_, ?_⟩
  · have hrun : (match Expr.substitute [(x, z), (y, z)] product 200 store.watched with
        | .ok r t => t.exact && !r.domain.within product.domain
        | .error _ _ => false) = true := by decide +kernel
    split at hrun
    · rename_i r t h
      simp only [Bool.and_eq_true, Bool.not_eq_true'] at hrun
      exact ⟨r, t, h, hrun⟩
    · cases hrun
  · have hrun : refusesBound (Expr.substitute [(x, z), (y, z)] summation 200 store.watched) = true := by
      decide +kernel
    exact exists_of_refusesBound hrun

/-- The square stands for an integer. -/
theorem substitute_square : ∃ r t,
    Expr.substitute [(x, z), (y, z)] product 200 store.watched = .ok r t ∧ r.domain = .reals ∧
      r.Whole ∧ r.HasPower := by
  have hrun : (match Expr.substitute [(x, z), (y, z)] product 200 store.watched with
      | .ok r t => t.exact && t.areSumsTyped && !r.domain.within product.domain
      | .error _ _ => false) = true := by decide +kernel
  cases h : Expr.substitute [(x, z), (y, z)] product 200 store.watched with
  | error err t =>
    rw [h] at hrun
    cases hrun
  | ok r t =>
    simp only [h, Bool.and_eq_true, Bool.not_eq_true'] at hrun
    obtain ⟨⟨hexact, htyped⟩, hwithin⟩ := hrun
    have hfinal : finalState (Expr.substitute [(x, z), (y, z)] product 200 store.watched) = t := by
      rw [h]
      rfl
    rcases Store.Reachable.substitute_typed reaches_store.reachable builtin_store (e := product) rfl
      elementary_product rfl fits (d := 200) (by decide +kernel) (by rw [hfinal]; exact hexact)
      (by rw [hfinal]; exact Store.SumsTyped.of_areSumsTyped htyped) with ⟨r', t', h', hr⟩ | ⟨b, t', h', -⟩
    · rw [h] at h'
      cases h'
      rw [hwithin] at hr
      simp only [Bool.false_eq_true, false_or] at hr
      exact ⟨r, t, rfl, hr.2⟩
    · rw [h] at h'
      cases h'

end Square

end TermGraph
