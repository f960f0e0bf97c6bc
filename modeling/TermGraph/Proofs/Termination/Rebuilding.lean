import TermGraph.Proofs.Meaning.Rebuilding
import TermGraph.Proofs.Termination.Products
import TermGraph.Proofs.Typing.Substitution

/-!
# Rebuilding and substitution come to an end

A node over new children is made anew, and a summation over a range is given a new index, which is put in
its body by substitution, which rebuilds the nodes of the body.  The body is lighter than the summation, so
this ends at any depth that the weight of the node bounds.  Nothing becomes heavier: an index weighs as much
as any other symbol, and more than a literal.

* `Expr.RebuildsUp`: nodes of a given weight are rebuilt.
* `Expr.PutsIn`: a symbol or a literal is put for an index in expressions of a given weight.
* `Expr.rebuildsUp_rebuild`, `Expr.putsIn_substitute`: both hold for weights up to the depth.
-/

namespace TermGraph

open Store (Knows)

namespace Expr

variable {N : ℕ} {s : Store} {m : Memo} {d k depth : ℕ} {e t a t' a' b n x r : Expr}
  {l items : List Expr}

/-! ## Applications -/

section Applications

/-- A call of a built-in function as it stands. -/
lemma halts_rawCall (hs : s.Regular) (hknown : s.Knows t) (hknown' : s.Knows a) {f : Builtin}
    (ht : t.kind = .function (.builtin f)) (hf : f ≠ .pow) (ha : a.IsArithmetic) :
    Halts Store.Regular d s (rawApply t a) fun e =>
      e.IsArithmetic ∧ e.weight N = a.weight N + 2 := by
  have htyped := (hs.admits hknown).typed
  rw [ht] at htyped
  have hdomain : applyDomain? t a = some .reals :=
    applyDomain?_call ht htyped hf ha.kind_ne.2 ha.isReal.isScalar
  refine (halts_rawApply hs hknown hknown' hdomain).imp fun e he => ?_
  exact ⟨.call he.1 (.inr he.2) ht hf ha, weight_call he.1 ht hf⟩

/-- The application of two operands is their product. -/
lemma halts_applyAux_product (hs : s.Regular) (hknown : s.Knows t) (hknown' : s.Knows a)
    (ht : t.IsArithmetic) (ha : a.IsArithmetic) (hd : t.weight N + a.weight N + 2 ≤ d) :
    Halts Store.Regular d s (applyAux (depth + 1) t a) (Multiplied N [t, a]) := by
  obtain ⟨domain, hdomain, -⟩ := applyDomain?_real ht.isReal ha.isReal
  have hm : multiplies t a = true := by
    simp [multiplies, ht.function?, ht.isReal.isLinear, ha.isReal.isLinear]
  have hcost : totalCost N [t, a] ≤ d + 2 := by
    simp only [totalCost_cons, totalCost_nil]
    omega
  rw [applyAux_product hdomain hm]
  exact multipliesUp_canonicalProduct hs (by simpa using ⟨hknown, hknown'⟩) (by simp)
    (by simpa using ⟨ht, ha⟩) hcost

/-- An application over lighter sides is made anew. -/
lemma halts_applyAux (hs : s.Regular) (hknown : s.Knows t') (hknown' : s.Knows a')
    (he : e.IsArithmetic) (hkind : e.kind = .apply t a) (ht : Lightens N t t')
    (ha : Lightens N a a') (hd : e.weight N ≤ d) :
    Halts Store.Regular d s (applyAux (depth + 1) t' a') fun r =>
      r.IsArithmetic ∧ r.weight N ≤ e.kind.weigh N [t'.weight N, a'.weight N] := by
  rw [hkind]
  rcases he.apply_cases hkind with ⟨htarith, haarith⟩ | ⟨b, n, hpower, hb, hn⟩ | ⟨f, htf, hf, haarith⟩
  · have hle := ht.weight_le
    have hle' := ha.weight_le
    rw [weight_product hkind htarith.function?] at hd
    refine (halts_applyAux_product (N := N) hs hknown hknown' (ht.arithmetic htarith)
      (ha.arithmetic haarith) (by omega)).imp fun r hr => ⟨hr.arithmetic, ?_⟩
    have hcost := hr.weight_le_totalCost
    simp only [totalCost_cons, totalCost_nil] at hcost
    simp only [Kind.weigh, htarith.function?, Option.isNone_none, if_true]
    omega
  · obtain ⟨t₀, a₀, hkind₀, htpow, hpair⟩ := power?_eq_some.1 hpower
    obtain ⟨rfl, rfl⟩ := Kind.apply.inj (hkind.symm.trans hkind₀)
    obtain rfl := ht.function _ htpow
    obtain ⟨b', n', hpair', hb', hn'⟩ := ha.pair b n hpair hb hn
    rw [applyAux_power htpow hpair']
    refine (halts_powerOf (N := N) hs hknown hknown' htpow hpair' hb' hn').imp fun r hr =>
      ⟨hr.1, hr.2.trans ?_⟩
    simp [Kind.weigh, function?, htpow, weight_builtin htpow, weight_pair hpair', Nat.add_comm]
  · obtain rfl := ht.function _ htf
    have ha' := ha.arithmetic haarith
    rw [applyAux_call htf hf ha'.kind_ne.2]
    refine (halts_rawCall (N := N) hs hknown hknown' htf hf ha').imp fun r hr => ⟨hr.1, ?_⟩
    rw [hr.2]
    simp [Kind.weigh, function?, htf, weight_builtin htf, hf, Nat.add_comm]

end Applications

/-! ## Summations -/

/-- A symbol or a literal is put for an index in expressions that weigh at most `k`. -/
def PutsIn (N d k : ℕ) (substitute : Substitute) : Prop :=
  ∀ ⦃s : Store⦄ ⦃x r e : Expr⦄, s.Regular → s.Knows x → s.Knows r → s.Knows e →
    x.isSymbol = true → r.IsArithmetic → r.weight N ≤ 3 → e.IsArithmetic → e.weight N ≤ k →
      Halts Store.Regular d s (substitute [(x, r)] e) (Lightens N e)

section Summations

lemma halts_beginIndexedSum (hs : s.Regular) (lower upper : Expr) :
    Halts Store.Regular d s (beginIndexedSum lower upper) fun i =>
      i.isSymbol = true ∧ i.domain = .integers := by
  unfold beginIndexedSum
  exact .ite (fun _ => .throw hs (by simp)) fun _ => .ite (fun _ => .throw hs (by simp)) fun _ =>
    halts_symbol hs "i" .integers

lemma resolveSum?_real {domain domain' : Domain} (h : domain = .integers ∨ domain = .reals)
    (hsum : domain.resolveSum? domain = some domain') : domain' = .integers ∨ domain' = .reals := by
  rcases h with rfl | rfl
  · exact .inl (Option.some.inj hsum).symm
  · exact .inr (Option.some.inj hsum).symm

variable {substitute : Substitute} [∀ pairs e, Growing (substitute pairs e)]

/-- The summation node over real expressions. -/
lemma halts_intern_indexedSum (hs : s.Regular) {domain : Domain} {index lower upper body : Expr}
    (hdomain : domain = .integers ∨ domain = .reals)
    (hindex : ∃ p ∈ s.placeholders, p.symbol = index) (hsymbol : index.isSymbol = true)
    (hl : lower.IsArithmetic) (hu : upper.IsArithmetic) (hb : body.IsArithmetic)
    (hknownl : s.Knows lower) (hknownu : s.Knows upper) (hknownb : s.Knows body) :
    Halts Store.Regular d s (Build.intern domain (.indexedSum index lower upper body)) fun e =>
      e.IsArithmetic ∧
        e.weight N = lower.weight N + upper.weight N + (N + 1) * body.weight N + 3 := by
  have hknowni : s.Knows index := by
    obtain ⟨p, hp, rfl⟩ := hindex
    exact (hs.placeholder hp).1
  have hadm : s.Admits domain (.indexedSum index lower upper body) := by
    refine ⟨?_, fun _ h => h.elim, trivial, by simpa [Kind.index?] using hindex⟩
    simpa [Kind.children] using ⟨hknowni, hknownl, hknownu, hknownb⟩
  refine halts_intern hs hadm (fun _ _ => hdomain) fun e t ht hle he hcode => ?_
  obtain ⟨index', lower', upper', body', hkind, hi, hl', hu', hb'⟩ := Kind.eq_indexedSum_of_code hcode
  have hchildren := ht.children he
  simp only [children, hkind, Kind.children, Store.knows_cons] at hchildren
  -- The node that was found has these very children.
  obtain rfl := Store.WellFormed.eq_of_ordinal hchildren.1 (hknowni.mono hle) hi
  obtain rfl := Store.WellFormed.eq_of_ordinal hchildren.2.1 (hknownl.mono hle) hl'
  obtain rfl := Store.WellFormed.eq_of_ordinal hchildren.2.2.1 (hknownu.mono hle) hu'
  obtain rfl := Store.WellFormed.eq_of_ordinal hchildren.2.2.2.1 (hknownb.mono hle) hb'
  exact ⟨.indexedSum hkind (ht.real he hkind hb.isReal) hsymbol hl hu hb, weight_indexedSum hkind⟩

/-- A summation whose body is written with a symbol for the index. -/
lemma halts_endIndexedSumWith (hsub : PutsIn N d k substitute) (hs : s.Regular)
    {lower upper : Expr} (hknown : s.Knows x) (hknownl : s.Knows lower) (hknownu : s.Knows upper)
    (hknownb : s.Knows b) (hx : x.isSymbol = true) (hdomain : x.domain = .integers)
    (hl : lower.IsArithmetic) (hu : upper.IsArithmetic) (hb : b.IsArithmetic) (hk : b.weight N ≤ k) :
    Halts Store.Regular d s (endIndexedSumWith substitute lower upper x b) fun e =>
      e.IsArithmetic ∧
        e.weight N ≤ lower.weight N + upper.weight N + (N + 1) * b.weight N + 3 := by
  unfold endIndexedSumWith bodyDomain
  cases hsum : b.domain.resolveSum? b.domain with
  | none => exact .throw hs (by simp)
  | some domain =>
    simp only [pure_bind, bindIndex, bind_assoc]
    rw [hdomain]
    refine .step ?_
    obtain ⟨-, hknownp, p, hp, -, -, hplaceholder⟩ :=
      hs.toWellFormed.placeholderOf (b.nesting + 1) .integers
    obtain ⟨hpsymbol, hpdomain⟩ := placeholder_integers hs.toWellFormed (b.nesting + 1)
    have hs₁ := hs.placeholderOf (b.nesting + 1) .integers
    have h₁ := Store.le_placeholder (b.nesting + 1) .integers s
    generalize s.placeholder (b.nesting + 1) .integers = q at *
    obtain ⟨index, s₁⟩ := q
    refine (halts_noteIndex hs₁ index b).bind fun _ s₂ hs₂ h₂ _ _ => ?_
    have hle := h₁.trans h₂
    have hindex : index.weight N ≤ 3 := (weight_symbol hpsymbol).le
    refine (hsub hs₂ (hknown.mono hle) (hknownp.mono h₂) (hknownb.mono hle) hx
      (.symbol hpsymbol (.inl hpdomain)) hindex hb hk).bind fun body s₃ hs₃ h₃ hknownb' hbody => ?_
    refine (halts_intern_indexedSum (N := N) hs₃ (resolveSum?_real hb.isReal hsum)
      ⟨p, (h₂.trans h₃).placeholders.subset hp, hplaceholder⟩ hpsymbol hl hu (hbody.arithmetic hb)
      (hknownl.mono (hle.trans h₃)) (hknownu.mono (hle.trans h₃)) hknownb').imp fun e he =>
        ⟨he.1, ?_⟩
    have := Nat.mul_le_mul_left (N + 1) hbody.weight_le
    rw [he.2]
    omega

/-- A summation over a body whose index is exchanged for a new symbol. -/
lemma halts_reindexed (hsub : PutsIn N d k substitute) (hs : s.Regular) {index lower upper : Expr}
    (hknown : s.Knows index) (hknownl : s.Knows lower) (hknownu : s.Knows upper)
    (hknownb : s.Knows b) (hindex : index.isSymbol = true) (hl : lower.IsArithmetic)
    (hu : upper.IsArithmetic) (hb : b.IsArithmetic) (hk : b.weight N ≤ k) :
    Halts Store.Regular d s (do
      let i ← beginIndexedSum lower upper
      endIndexedSumWith substitute lower upper i (← substitute [(index, i)] b)) fun e =>
        e.IsArithmetic ∧
          e.weight N ≤ lower.weight N + upper.weight N + (N + 1) * b.weight N + 3 := by
  refine (halts_beginIndexedSum hs lower upper).bind fun i t ht hle hknowni hi => ?_
  refine (hsub ht (hknown.mono hle) hknowni (hknownb.mono hle) hindex (.symbol hi.1 (.inl hi.2))
    (weight_symbol hi.1).le hb hk).bind fun body u hu' hle' hknownb' hbody => ?_
  have hle'' := hle.trans hle'
  refine (halts_endIndexedSumWith hsub hu' (hknowni.mono hle') (hknownl.mono hle'')
    (hknownu.mono hle'') hknownb' hi.1 hi.2 hl hu (hbody.arithmetic hb)
    (hbody.weight_le.trans hk)).imp fun e he => ⟨he.1, he.2.trans ?_⟩
  have := Nat.mul_le_mul_left (N + 1) hbody.weight_le
  omega

end Summations

/-! ## Substitution -/

/-- Nodes that weigh at most `k` are rebuilt over lighter children. -/
def RebuildsUp (N d k : ℕ) (rebuild : Rebuild) : Prop :=
  ∀ ⦃s : Store⦄ ⦃e : Expr⦄ ⦃items : List Expr⦄, s.Regular → s.Knows e → s.Knows items → Component e →
    List.Forall₂ (Lightens N) e.children items → e.weight N ≤ k →
      Halts Store.Regular d s (rebuild e items) (Rebuilt N e items)

section Substitution

variable {rebuild : Rebuild} {map : Memo} [∀ e children, Growing (rebuild e children)]

/-- What a list of nodes is sent to. -/
lemma halts_substituteAll (hm : Memo.Settled (Lightens N) (s, m))
    (h : ∀ c ∈ l, ∀ (t : Store) (m : Memo), Memo.Settled (Lightens N) (t, m) → s ≤ t →
      Halts (Memo.Settled (Lightens N)) d (t, m) (substituteFrom rebuild map c) (Lightens N c)) :
    Halts (Memo.Settled (Lightens N)) d (s, m) (substituteAll rebuild map l)
      (List.Forall₂ (Lightens N) l) := by
  induction l generalizing s m with
  | nil =>
    unfold substituteAll
    exact .pure hm Store.knows_nil .nil
  | cons c l ih =>
    rw [List.forall_mem_cons] at h
    unfold substituteAll
    refine (h.1 s m hm le_rfl).bind fun r p hp hle hknown hr => ?_
    refine (ih hp fun c hc t m ht hle' => h.2 c hc t m ht (hle.trans hle')).bind
      fun items q hq hle' hitems hforall => ?_
    exact .pure hq (Store.knows_cons.2 ⟨hknown.mono hle', hitems⟩) (.cons hr hforall)

/-- Components are sent to lighter ones. -/
lemma halts_substituteFrom (hrebuild : RebuildsUp N d k rebuild)
    (hm : Memo.Settled (Lightens N) (s, m)) (hknown : s.Knows map)
    (hmap : Memo.Relates (Lightens N) s map) (he : s.Knows e) (hcomponent : Component e)
    (hk : e.weight N ≤ k) :
    Halts (Memo.Settled (Lightens N)) d (s, m) (substituteFrom rebuild map e) (Lightens N e) := by
  induction hsize : sizeOf e using Nat.strongRecOn generalizing s m e with
  | _ i ih =>
    subst hsize
    cases hfound : map[e.ordinal]? with
    | some r =>
      have hrun : substituteFrom rebuild map e = pure r := by
        unfold substituteFrom
        rw [hfound]
      rw [hrun]
      exact .pure hm (hknown _ _ hfound) (hmap.get he hfound)
    | none =>
      obtain hrun | ⟨before, l, after, hchildren, hrun⟩ := substituteFrom_of_none rebuild hfound
      · rw [hrun]
        exact .remember hm he (.pure hm he (.refl N e))
      · rw [hrun]
        refine .remember hm he ?_
        have hknowns := hm.regular.children he
        rw [hchildren] at hknowns
        simp only [Store.knows_append] at hknowns
        have hmem {c : Expr} (hc : c ∈ l) : c ∈ e.children := by
          rw [hchildren]
          simp [hc]
        refine (halts_substituteAll (N := N) hm fun c hc t m ht hle =>
          ih _ (sizeOf_lt_of_mem_children (hmem hc)) ht (hknown.mono hle) (hmap.mono hle)
            ((hknowns.1.2 c hc).mono hle) (hcomponent.children c (hmem hc))
            ((hcomponent.weight_lt c (hmem hc)).le.trans hk) rfl).bind
          fun items p hp hle hitems hforall => ?_
        obtain ⟨t, m'⟩ := p
        have hall : t.Knows (before ++ items ++ after) := Store.knows_append.2
          ⟨Store.knows_append.2 ⟨hknowns.1.1.mono hle, hitems⟩, hknowns.2.mono hle⟩
        have hforall' : List.Forall₂ (Lightens N) e.children (before ++ items ++ after) := by
          rw [hchildren]
          have hrefl (l : List Expr) : List.Forall₂ (Lightens N) l l :=
            List.forall₂_same.2 fun c _ => .refl N c
          exact List.rel_append (List.rel_append (hrefl before) hforall) (hrefl after)
        exact .lift hp ((hrebuild hp.regular (he.mono hle) hall hcomponent hforall' hk).imp
          fun r hr => hr.toLightens)

/-- A lighter expression may stand for a symbol. -/
lemma Lightens.of_symbol (hx : x.isSymbol = true) (hr : r.IsArithmetic) (hle : r.weight N ≤ 3) :
    Lightens N x r where
  weight_le := by rwa [weight_symbol hx]
  arithmetic _ := hr
  function f hkind := by simp [isSymbol, hkind] at hx
  pair b n hkind := by simp [isSymbol, hkind] at hx

/-- With nodes that are rebuilt, symbols and literals are put for indices. -/
lemma putsIn_substituteWith (hrebuild : RebuildsUp N d k rebuild) :
    PutsIn N d k (substituteWith rebuild) := by
  intro s x r e hs hx hr he hsymbol harith hle hearith hk
  unfold substituteWith
  refine .ite (fun _ => .pure hs he (.refl N e)) fun _ => .forgetting (R := Lightens N) ?_
  have hreplaced : Lightens N x r := .of_symbol hsymbol harith hle
  have hmap : Memo.Relates (Lightens N) s (replacements [(x, r)]) :=
    relates_replacements (by simpa using ⟨hx, hreplaced⟩)
  have hknown : s.Knows (replacements [(x, r)]) := knows_replacements (by simpa using ⟨hx, hr⟩)
  exact halts_substituteFrom hrebuild (.empty hs) hknown hmap he (.arithmetic hearith) hk

end Substitution

/-! ## Rebuilding -/

section Rebuilding

lemma all_zip_self (l : List Expr) : ((l.zip l).all fun (new, old) => new == old) = true := by
  induction l with
  | nil => rfl
  | cons e l ih =>
    rw [List.zip_cons_cons, List.all_cons, ih]
    simp

/-- A node over its own children stays; over others it is made anew. -/
lemma halts_rebuildAux {y : Build Expr} (hs : s.Regular) (he : s.Knows e) (hknown : s.Knows items)
    (hlength : items.length = e.children.length)
    (hrun : rebuildAux (depth + 1) e items =
      if (items.zip e.children).all fun (new, old) => new == old then pure e else y)
    (hnew : Halts Store.Regular d s y fun r =>
      Lightens N e r ∧ r.weight N ≤ e.kind.weigh N (items.map (weight N))) :
    Halts Store.Regular d s (rebuildAux (depth + 1) e items) (Rebuilt N e items) := by
  rw [hrun]
  refine .ite (fun hall => ?_) fun hall => hnew.imp fun r hr => ⟨hr.1, fun hsame => ?_, hr.2⟩
  · obtain rfl := eq_children_of_all hs.toWellFormed he hknown hlength hall
    exact .pure hs he ⟨.refl N e, fun _ => rfl, (weight_eq N e).le⟩
  · subst hsame
    exact absurd (all_zip_self e.children) hall

/-- Leaves stay. -/
lemma halts_rebuildAux_leaf (hs : s.Regular) (he : s.Knows e) (hchildren : e.children = [])
    (hitems : List.Forall₂ (Lightens N) e.children items) :
    Halts Store.Regular d s (rebuildAux (depth + 1) e items) (Rebuilt N e items) := by
  have hnil : items = [] := by
    rw [hchildren] at hitems
    exact List.forall₂_nil_left_iff.1 hitems
  have hrun : rebuildAux (depth + 1) e items = pure e := by
    rw [rebuildAux, hnil]
    rfl
  rw [hrun]
  exact .pure hs he ⟨.refl N e, fun _ => rfl, by rw [hnil, ← hchildren, ← weight_eq]⟩

/-- Lighter children make a node no heavier. -/
lemma weigh_le_weight (hitems : List.Forall₂ (Lightens N) e.children items) :
    e.kind.weigh N (items.map (weight N)) ≤ e.weight N := by
  rw [weight_eq]
  refine e.kind.weigh_le (List.forall₂_map_left_iff.2 (List.forall₂_map_right_iff.2 ?_))
  exact hitems.flip.imp fun _ _ h => h.weight_le

/-- Arithmetic that is no heavier than the children of a node make it may stand for the node. -/
lemma Lightens.of_weigh (he : e.IsArithmetic) (hr : r.IsArithmetic)
    (hitems : List.Forall₂ (Lightens N) e.children items)
    (hle : r.weight N ≤ e.kind.weigh N (items.map (weight N))) : Lightens N e r :=
  .of_arithmetic he hr (hle.trans (weigh_le_weight hitems))

/-- Products, powers and calls are applied anew. -/
lemma halts_rebuildAux_apply (hs : s.Regular) (hknown : s.Knows e) (hknowns : s.Knows items)
    (he : e.IsArithmetic) (hkind : e.kind = .apply t a)
    (hitems : List.Forall₂ (Lightens N) e.children items) (hdepth : e.weight N ≤ depth + 1)
    (hd : e.weight N ≤ d) :
    Halts Store.Regular d s (rebuildAux (depth + 1) e items) (Rebuilt N e items) := by
  have hthree := he.three_le_weight (N := N) (by simp [number?, hkind]) (by simp [hkind])
  obtain ⟨i, rfl⟩ : ∃ i, depth = i + 1 := ⟨depth - 1, by omega⟩
  have hforall := hitems
  simp only [children, hkind, Kind.children] at hforall
  rcases hforall with _ | @⟨_, t', _, _, ht, _ | @⟨_, a', _, _, ha, _ | _⟩⟩
  simp only [Store.knows_cons] at hknowns
  refine halts_rebuildAux hs hknown (by simpa using ⟨hknowns.1, hknowns.2.1⟩)
    (by simp [children, hkind, Kind.children]) (by rw [rebuildAux, hkind]) ?_
  exact (halts_applyAux hs hknowns.1 hknowns.2.1 he hkind ht ha hd).imp fun r hr =>
    ⟨.of_weigh he hr.1 hitems hr.2, hr.2⟩

/-- Pairs of a base and an exponent are paired anew. -/
lemma halts_rebuildAux_pair (hs : s.Regular) (he : s.Knows e) (hknown : s.Knows items)
    (hkind : e.kind = .tuple [b, n]) (hitems : List.Forall₂ (Lightens N) e.children items) :
    Halts Store.Regular d s (rebuildAux (depth + 1) e items) (Rebuilt N e items) := by
  have hlength := hitems.length_eq.symm
  have hle := weigh_le_weight hitems
  simp only [children, hkind, Kind.children] at hitems
  rcases hitems with _ | @⟨_, b', _, _, hb, _ | @⟨_, n', _, _, hn, _ | _⟩⟩
  simp only [Store.knows_cons] at hknown
  refine halts_rebuildAux hs he (by simpa using ⟨hknown.1, hknown.2.1⟩) hlength
    (by rw [rebuildAux, hkind]) ?_
  refine (halts_pair hs hknown.1 hknown.2.1).imp fun r hr => ?_
  have hweight : r.weight N = e.kind.weigh N ([b', n'].map (weight N)) := by
    rw [weight_pair hr, hkind]
    rfl
  refine ⟨⟨hweight.trans_le hle, fun h => absurd hkind (h.kind_ne.2 _), fun f h => ?_,
    fun x y h hx hy => ?_⟩, hweight.le⟩
  · rw [hkind] at h
    cases h
  · rw [hkind, Kind.tuple.injEq, List.cons.injEq, List.cons.injEq] at h
    obtain ⟨rfl, rfl, -⟩ := h
    exact ⟨b', n', hr, hb.arithmetic hx, hn.arithmetic hy⟩

/-- Sums are added up anew. -/
lemma halts_rebuildAux_sum (hs : s.Regular) (hknown : s.Knows e) (hknowns : s.Knows items)
    (he : e.IsArithmetic) (hkind : e.kind = .sum l)
    (hitems : List.Forall₂ (Lightens N) e.children items) (hd : e.weight N ≤ d) :
    Halts Store.Regular d s (rebuildAux (depth + 1) e items) (Rebuilt N e items) := by
  obtain ⟨hlength, hterms⟩ := he.of_sum hkind
  have hforall := hitems
  simp only [children, hkind, Kind.children] at hforall
  have harith : ∀ t ∈ items, t.IsArithmetic := fun t ht => by
    obtain ⟨c, hc, hlight⟩ := exists_of_forall₂ hforall t ht
    exact hlight.arithmetic (hterms c hc)
  have hne : items ≠ [] := by
    rintro rfl
    simp [hforall.length_eq] at hlength
  have hweigh : e.kind.weigh N (items.map (weight N)) = totalWeight N items := by
    rw [hkind]
    rfl
  refine halts_rebuildAux hs hknown hknowns hitems.length_eq.symm (by rw [rebuildAux, hkind]) ?_
  refine (addsUp_sum (N := N) hs hknowns hne harith ?_).imp fun r hr => ?_
  · exact hweigh ▸ (weigh_le_weight hitems).trans hd
  · have hle := hweigh.symm ▸ hr.weight_le_totalWeight
    exact ⟨.of_weigh he hr.arithmetic hitems hle, hle⟩

/-- Summations get a new index. -/
lemma halts_rebuildAux_indexedSum (hsub : PutsIn N d k (substituteWith (rebuildAux depth)))
    (hs : s.Regular) (hknown : s.Knows e) (hknowns : s.Knows items) (he : e.IsArithmetic)
    {index lower upper body : Expr} (hkind : e.kind = .indexedSum index lower upper body)
    (hindex : index.isSymbol = true) (hl : lower.IsArithmetic) (hu : upper.IsArithmetic)
    (hb : body.IsArithmetic) (hitems : List.Forall₂ (Lightens N) e.children items)
    (hk : e.weight N ≤ k + 1) :
    Halts Store.Regular d s (rebuildAux (depth + 1) e items) (Rebuilt N e items) := by
  have hforall := hitems
  simp only [children, hkind, Kind.children] at hforall
  rcases hforall with _ | @⟨_, i', _, _, -, _ | @⟨_, l', _, _, hl', _ |
    @⟨_, u', _, _, hu', _ | @⟨_, b', _, _, hb', _ | _⟩⟩⟩⟩
  have hchildren := hs.children hknown
  rw [children, hkind, Kind.children, Store.knows_cons] at hchildren
  have hknowns' := hknowns
  simp only [Store.knows_cons] at hknowns'
  obtain ⟨-, hknownl, hknownu, hknownb, -⟩ := hknowns'
  have hbody : body.weight N < e.weight N :=
    (Component.arithmetic he).weight_lt body (by simp [children, hkind, Kind.children])
  have hle := hb'.weight_le
  refine halts_rebuildAux hs hknown hknowns hitems.length_eq.symm (by rw [rebuildAux, hkind]) ?_
  refine (halts_reindexed hsub hs hchildren.1 hknownl hknownu hknownb hindex (hl'.arithmetic hl)
    (hu'.arithmetic hu) (hb'.arithmetic hb) (by omega)).imp fun r hr => ?_
  have hrle : r.weight N ≤ e.kind.weigh N ([i', l', u', b'].map (weight N)) := by
    rw [hkind]
    exact hr.2
  exact ⟨.of_weigh he hr.1 hitems hrle, hrle⟩

/-- Components that weigh no more than the depth are rebuilt. -/
lemma rebuildsUp_rebuildAux (hd : depth ≤ d) : RebuildsUp N d depth (rebuildAux depth) := by
  induction depth with
  | zero =>
    intro s e items hs _ _ hcomponent _ hk
    exact absurd hk (Nat.not_le.2 hcomponent.weight_pos)
  | succ depth ih =>
    intro s e items hs he hknown hcomponent hitems hk
    have hleaf (hchildren : e.children = []) :
        Halts Store.Regular d s (rebuildAux (depth + 1) e items) (Rebuilt N e items) :=
      halts_rebuildAux_leaf hs he hchildren hitems
    cases hcomponent with
    | symbol h =>
      obtain ⟨name, hkind⟩ := exists_symbol h
      exact hleaf (by rw [children, hkind, Kind.children])
    | function hkind => exact hleaf (by rw [children, hkind, Kind.children])
    | pair hkind _ _ => exact halts_rebuildAux_pair hs he hknown hkind hitems
    | arithmetic harith =>
      have h := harith
      cases h with
      | symbol h _ =>
        obtain ⟨name, hkind⟩ := exists_symbol h
        exact hleaf (by rw [children, hkind, Kind.children])
      | literal h _ =>
        obtain ⟨m, hkind⟩ := exists_number h
        exact hleaf (by rw [children, hkind, Kind.children])
      | sum hkind _ _ _ =>
        exact halts_rebuildAux_sum hs he hknown harith hkind hitems (hk.trans hd)
      | power hpower _ _ _ =>
        obtain ⟨t, a, hkind, -, -⟩ := power?_eq_some.1 hpower
        exact halts_rebuildAux_apply hs he hknown harith hkind hitems hk (hk.trans hd)
      | product hkind _ _ _ | call hkind _ _ _ _ =>
        exact halts_rebuildAux_apply hs he hknown harith hkind hitems hk (hk.trans hd)
      | indexedSum hkind _ hindex hl hu hb =>
        -- The body is lighter than the summation, and it is rebuilt with less depth.
        have hsub : PutsIn N d depth (substituteWith (rebuildAux depth)) :=
          putsIn_substituteWith (ih (Nat.le_of_succ_le hd))
        exact halts_rebuildAux_indexedSum hsub hs he hknown harith hkind hindex hl hu hb hitems hk

/-- Components that weigh no more than the depth are rebuilt. -/
lemma rebuildsUp_rebuild : RebuildsUp N d d rebuild :=
  fun _ _ _ hs he hknown hcomponent hitems hk =>
    (rebuildsUp_rebuildAux le_rfl hs he hknown hcomponent hitems hk).read

/-- Symbols and literals are put for indices in expressions that weigh no more than the depth. -/
lemma putsIn_substitute : PutsIn N d d substitute :=
  putsIn_substituteWith rebuildsUp_rebuild

end Rebuilding

end Expr

end TermGraph
