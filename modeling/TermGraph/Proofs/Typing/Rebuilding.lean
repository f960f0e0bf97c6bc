import TermGraph.Proofs.Meaning.Rebuilding
import TermGraph.Proofs.Typing.Substitution

/-!
# Rebuilt expressions keep their types

Nodes over new children may stand in the place of the old ones if the new children may stand in the place
of theirs.  Only a summation can be refused: the products in a new bound may have merged equal factors
to a power, and a power is a real.
-/

namespace TermGraph

open Store (Knows typedStores typedStores_le)

namespace Expr

variable {s : Store} {d i j k : ℕ} {P : Prop} {e t a b n r x : Expr} {l : List Expr}

/-! ## Operations -/

namespace Suits

lemma achieves_reciprocal (hs : Good s) (hb : Suits True k b) (hknown : s.Knows b) :
    Achieves d s (reciprocal b) (Suits True k) where
  yields := yields_reciprocal hs hknown d
  exact := by
    unfold reciprocal int
    exact (achieves_literal hs _).bind fun n t ht hle hn _ hliteral =>
      (achieves_power ht hb (.of_number hliteral.1 hliteral.2) (hknown.mono hle) hn).exact

lemma achieves_inverse (hs : Good s) (ha : Ranked k a) (hknown : s.Knows a) :
    Achieves d s (inverse a) (Ranked k) := by
  have hchildren := (good_store.1 hs).children hknown
  unfold inverse
  by_cases hscalar : a.domain.isScalar = true
  · rw [if_pos hscalar]
    exact (achieves_reciprocal hs ⟨ha, fun _ => hscalar⟩ hknown).imp fun _ he => he.ranked
  · rw [if_neg hscalar, ha.matrix?]
    split
    · rename_i inner hkind
      have hmem : inner ∈ a.children := by simp [children, hkind, Kind.children]
      exact .pure hs (hchildren _ hmem) ((ha.of_matrixOperation (by rw [hkind]; rfl)).2 _ hmem)
    · contradiction
    · exact achieves_matrixOperation hs rfl (by simpa [Kind.children] using hknown)
        (by simpa [Kind.children] using ha)

lemma achieves_transpose (hs : Good s) (ha : Ranked k a) (hknown : s.Knows a) :
    Achieves d s (transpose a) (Ranked k) := by
  have hchildren := (good_store.1 hs).children hknown
  unfold transpose
  by_cases hscalar : a.domain.isScalar = true
  · rw [if_pos hscalar]
    exact .pure hs hknown ha
  · rw [if_neg hscalar, ha.matrix?]
    split
    · rename_i inner hkind
      have hmem : inner ∈ a.children := by simp [children, hkind, Kind.children]
      exact .pure hs (hchildren _ hmem) ((ha.of_matrixOperation (by rw [hkind]; rfl)).2 _ hmem)
    · contradiction
    · exact achieves_matrixOperation hs rfl (by simpa [Kind.children] using hknown)
        (by simpa [Kind.children] using ha)

/-- The application of a scalar or matrix to another one. -/
lemma achieves_applyAux (hd : k + 1 < d) (hs : Good s) {depth : ℕ} (ht : Suits P k t)
    (ha : Suits P k a) (hknown : s.Knows t) (hknown' : s.Knows a) :
    Achieves d s (applyAux (depth + 1) t a) (Suits P k) := by
  obtain ⟨domain, hdomain, -⟩ := applyDomain?_numeric ht.ranked.numeric ha.ranked.numeric
  rw [applyAux_product hdomain (by simp [multiplies, ht.ranked.function?, ht.ranked.numeric.isLinear,
    ha.ranked.numeric.isLinear])]
  exact achieves_canonicalProduct hd hs (by simpa using ⟨hknown, hknown'⟩) (by simpa using ⟨ht, ha⟩)

lemma pairing_applyAux (hd : k + 1 < d) (depth : ℕ) : Pairing d k (applyAux (depth + 1)) :=
  fun _ _ _ _ hs hknown hknown' ha hb => achieves_applyAux hd hs ha.of_scalar hb hknown hknown'

/-- The call of a function of one argument. -/
lemma achieves_call (hs : Good s) {f : Builtin} (ht : t.kind = .function (.builtin f)) (hf : f ≠ .pow)
    (ha : Suits True k a) (hknown : s.Knows t) (hknown' : s.Knows a) :
    Achieves d s (rawApply t a) (Suits P k) := by
  have htyped := ((good_store.1 hs).admits hknown).typed
  rw [ht] at htyped
  have hscalar := ha.isScalar trivial
  refine (achieves_rawApply hs hknown hknown' (P := (· = .reals)) ⟨.reals, applyDomain?_call ht htyped hf
    ha.ranked.kind_ne.2.1 hscalar, rfl⟩).imp fun e he => ?_
  exact ⟨.call he.1 ht hf he.2 hscalar ha.ranked, fun _ => by rw [he.2]; rfl⟩

end Suits

/-! ## Summations -/

section Summations

variable {substitute : Substitute} [∀ pairs e, Growing (substitute pairs e)]

/-- The summation `e` over a range of integers has the domain of its body, which may stand in the place
of `b`. -/
structure Sums (lower upper b e : Expr) : Prop where
  /-- The bounds lie in the integers. -/
  bounds : lower.domain = .integers ∧ upper.domain = .integers
  /-- It is a summation over the range. -/
  exists_body : ∃ index body, e.kind = .indexedSum index lower upper body ∧ e.domain = body.domain ∧
    (index.isSymbol = true ∧ index.domain = .integers) ∧ RefinedBy 0 b body

/-- The body is written with an index. -/
lemma completes_bindIndex (hyields : YieldsSubstituted substitute) (hsub : Renames d k substitute)
    (hs : Good s) (hx : x.isSymbol = true ∧ x.domain = .integers) (hb : Ranked k b)
    (hknown : s.Knows x) (hknown' : s.Knows b) :
    Completes typedStores d s (bindIndex substitute x b) fun q t =>
      (∃ p ∈ t.placeholders, p.symbol = q.1) ∧ (q.1.isSymbol = true ∧ q.1.domain = .integers) ∧
        RefinedBy 0 b q.2 where
  yields := (sound_bindIndex hyields hs hknown hknown' d).imp fun _ _ _ h => h.1
  resolves := by
    suffices h : Resolves typedStores d s (bindIndex substitute x b) fun q _ =>
        (q.1.isSymbol = true ∧ q.1.domain = .integers) ∧ RefinedBy 0 b q.2 from
      h.imp fun q t hrun _ hq => ⟨((sound_bindIndex hyields hs hknown hknown' d).of_ok hrun).2.2, hq⟩
    unfold bindIndex
    rw [hx.2]
    obtain ⟨hwf, hknownp, -⟩ := (good_store.1 hs).placeholderOf (b.nesting + 1) .integers
    have hplaceholder : Completes typedStores d s
        (Build.step (Store.placeholder (b.nesting + 1) .integers)) fun p _ =>
          p.isSymbol = true ∧ p.domain = .integers :=
      ⟨⟨good_store.2 hwf, hknownp⟩, .step (placeholder_integers (good_store.1 hs) _)⟩
    refine hplaceholder.bind fun p t ht hle hp _ hpi => ?_
    have hnote : Completes typedStores d t (Build.noteIndex p b) fun _ _ => True :=
      ⟨yields_noteIndex ht p b d, .step trivial⟩
    refine hnote.bind fun _ u hu hle' _ _ _ => ?_
    have hle'' := hle.trans hle'
    exact (hsub hu (hknown.mono hle'') (hp.mono hle') (hknown'.mono hle'') hx hpi hb).bind
      fun b' w _ _ _ _ hb' => .pure ⟨hpi, hb'⟩

/-- The node of a summation, which lies in the domain of its body in the stores that count. -/
lemma resolves_intern_indexedSum (hs : Good s) {domain : Domain} {index lower upper body : Expr}
    (hindex : ∃ p ∈ s.placeholders, p.symbol = index) (hknownl : s.Knows lower)
    (hknownu : s.Knows upper) (hknownb : s.Knows body) (hbody : body.domain.IsNumeric) :
    Resolves typedStores d s (Build.intern domain (.indexedSum index lower upper body)) fun e _ =>
      e.kind = .indexedSum index lower upper body ∧ e.domain = body.domain := by
  have hknowni : s.Knows index := by
    obtain ⟨p, hp, rfl⟩ := hindex
    exact ((good_store.1 hs).placeholder hp).1
  have hadm : s.Admits domain (.indexedSum index lower upper body) := by
    refine ⟨?_, fun _ h => h.elim, trivial, by simpa [Kind.index?] using hindex⟩
    simpa [Kind.children] using ⟨hknowni, hknownl, hknownu, hknownb⟩
  obtain ⟨hwf, hknown, hcode⟩ := (good_store.1 hs).intern hadm
  have hle := Store.le_intern domain (.indexedSum index lower upper body) s
  intro htyped
  obtain ⟨index', lower', upper', body', hkind, hi, hl', hu', hb'⟩ := Kind.eq_indexedSum_of_code hcode
  have hchildren := hwf.children hknown
  simp only [children, hkind, Kind.children, Store.knows_cons] at hchildren
  -- The node that was found has these very children.
  obtain rfl := Store.WellFormed.eq_of_ordinal hchildren.1 (hknowni.mono hle) hi
  obtain rfl := Store.WellFormed.eq_of_ordinal hchildren.2.1 (hknownl.mono hle) hl'
  obtain rfl := Store.WellFormed.eq_of_ordinal hchildren.2.2.1 (hknownu.mono hle) hu'
  obtain rfl := Store.WellFormed.eq_of_ordinal hchildren.2.2.2.1 (hknownb.mono hle) hb'
  exact ⟨hkind, htyped.2 hknown hkind hbody⟩

/-- A summation over a range of integers whose body is written with a symbol for the index. -/
lemma resolves_endIndexedSumWith (hyields : YieldsSubstituted substitute)
    (hsub : Renames d k substitute) (hs : Good s) {lower upper : Expr}
    (hx : x.isSymbol = true ∧ x.domain = .integers)
    (hbounds : lower.domain = .integers ∧ upper.domain = .integers) (hb : Ranked k b)
    (hknown : s.Knows x) (hknownl : s.Knows lower) (hknownu : s.Knows upper) (hknownb : s.Knows b) :
    Resolves typedStores d s (endIndexedSumWith substitute lower upper x b) fun e _ =>
      Sums lower upper b e := by
  obtain ⟨domain, hdomain, -⟩ := hb.numeric.resolveSum? hb.numeric
  unfold endIndexedSumWith bodyDomain
  simp only [hdomain, pure_bind]
  refine (completes_bindIndex hyields hsub hs hx hb hknown hknownb).bind
    fun q t ht hle hknown _ hq => ?_
  obtain ⟨hplaceholder, hindex, hbody⟩ := hq
  rw [Store.knows_pair] at hknown
  exact (resolves_intern_indexedSum ht hplaceholder (hknownl.mono hle) (hknownu.mono hle) hknown.2
    (hbody.ranked hb).numeric).imp fun e _ _ _ he =>
      ⟨hbounds, q.1, q.2, he.1, he.2, hindex, hbody⟩

/-- A bound that stands for an integer is refused unless it lies in the integers. -/
lemma completes_beginIndexedSum (hs : Good s) {lower upper : Expr} (hl : lower.Whole)
    (hu : upper.Whole) (hknownl : s.Knows lower) (hknownu : s.Knows upper) :
    Completes typedStores d s (beginIndexedSum lower upper) fun i _ =>
      (lower.domain = .integers ∧ upper.domain = .integers) ∧
        i.isSymbol = true ∧ i.domain = .integers where
  yields := yields_beginIndexedSum hs lower upper d
  resolves := by
    have hintegers {b : Expr} (hb : b.Whole) (hintegral : b.domain.isIntegral = true) :
        b.domain = .integers := by
      rcases hb.real with h | h
      · exact h
      · rw [h] at hintegral
        cases hintegral
    unfold beginIndexedSum
    refine .ite (fun h => .throw ⟨lower, rfl, hknownl, hl, by simpa using h⟩) fun hlower => ?_
    refine .ite (fun h => .throw ⟨upper, rfl, hknownu, hu, by simpa using h⟩) fun hupper => ?_
    exact .step (f := Store.intern .integers (.symbol "i"))
      ⟨⟨hintegers hl (by simpa using hlower), hintegers hu (by simpa using hupper)⟩, rfl, rfl⟩

/-- A summation over a body whose index is exchanged for a new symbol. -/
lemma resolves_reindexed (hyields : YieldsSubstituted substitute) (hsub : Renames d k substitute)
    (hs : Good s) {index lower upper : Expr} (hindex : index.isSymbol = true ∧ index.domain = .integers)
    (hl : lower.Whole) (hu : upper.Whole) (hb : Ranked k b) (hknown : s.Knows index)
    (hknownl : s.Knows lower) (hknownu : s.Knows upper) (hknownb : s.Knows b) :
    Resolves typedStores d s (do
      let i ← beginIndexedSum lower upper
      endIndexedSumWith substitute lower upper i (← substitute [(index, i)] b)) fun e _ =>
        Sums lower upper b e := by
  refine (completes_beginIndexedSum hs hl hu hknownl hknownu).bind fun i t ht hle hi _ hspec => ?_
  obtain ⟨hbounds, hsymbol⟩ := hspec
  refine (hsub ht (hknown.mono hle) hi (hknownb.mono hle) hindex hsymbol hb).bind
    fun b' u hu' hle' hb' _ hrefined => ?_
  have hle'' := hle.trans hle'
  refine (resolves_endIndexedSumWith hyields hsub hu' hsymbol hbounds (hrefined.ranked hb)
    (hi.mono hle') (hknownl.mono hle'') (hknownu.mono hle'') hb').imp fun e _ _ _ he => ?_
  obtain ⟨q, body, hkind, hdomain, hq, hbody⟩ := he.exists_body
  exact ⟨hbounds, q, body, hkind, hdomain, hq, hrefined.trans hbody⟩

end Summations

/-! ## Rebuilding -/

section Rebuilding

variable {depth : ℕ} {items : List Expr}

/-- Of what has a rank and is no literal, only the type and the least rank matter. -/
lemma Ranked.resolves (h : Ranked k e) (hnumber : e.number? = none) {x : Build Expr}
    (hx : ∀ i ≤ k, Ranked i e → Achieves d s x (Suits (e.domain.isScalar = true) (i + j)))
    (hwhole : e.Whole → Achieves d s x Whole) :
    Resolves typedStores d s x fun r _ => ReplacedBy j e r := by
  obtain ⟨i, hle, hi, hleast⟩ := h.exists_least
  by_cases hw : e.Whole
  · exact (((hx i hle hi).and (hwhole hw)).completes typedStores_le).resolves.imp
      fun r _ _ _ hr => .of_least hi hleast hnumber hr.1 fun _ => hr.2
  · exact ((hx i hle hi).completes typedStores_le).resolves.imp
      fun r _ _ _ hr => .of_least hi hleast hnumber hr fun h => absurd h hw

/-- Sums of replacements may stand in the place of sums. -/
lemma Ranked.resolves_sum (hd : k + j < d) (hs : Good s) (h : Ranked k e) (hkind : e.kind = .sum l)
    (hknown : s.Knows items) (hitems : List.Forall₂ (ReplacedBy j) l items) :
    Resolves typedStores d s (Expr.sum items) fun r _ => ReplacedBy j e r := by
  refine h.resolves (by simp [number?, hkind]) (fun i hle hi => ?_) fun hwhole => ?_
  · obtain ⟨hranked, hscalar⟩ := hi.of_sum hkind
    refine Suits.achieves_sum (by omega) hs hknown fun r hr => ?_
    obtain ⟨c, hc, hcr⟩ := exists_of_forall₂ hitems r hr
    exact ⟨hcr.ranked (hranked c hc), fun he => hcr.isScalar (hranked c hc) (hscalar he c hc)⟩
  · refine achieves_whole_sum hs (by omega) hknown fun r hr => ?_
    obtain ⟨c, hc, hcr⟩ := exists_of_forall₂ hitems r hr
    exact hcr.whole ((Whole.sum_iff hkind hwhole.real).1 hwhole c hc)

/-- Products of replacements may stand in the place of products. -/
lemma Ranked.resolves_product (hd : k + j + 1 < d) (hs : Good s) (h : Ranked k e)
    (hkind : e.kind = .apply t a) (hm : multiplies t a = true) {t' a' : Expr} (hknown : s.Knows t')
    (hknown' : s.Knows a') (ht : ReplacedBy j t t') (ha : ReplacedBy j a a') :
    Resolves typedStores d s (applyAux (depth + 1) t' a') fun r _ => ReplacedBy j e r := by
  refine h.resolves (by simp [number?, hkind]) (fun i hle hi => ?_) fun hwhole => ?_
  · obtain ⟨⟨htarget, hargument⟩, hscalar, hscalar'⟩ := hi.of_product hkind hm
    exact Suits.achieves_applyAux (by omega) hs
      ⟨ht.ranked htarget, fun _ => ht.isScalar htarget hscalar⟩
      ⟨ha.ranked hargument, fun he => ha.isScalar hargument (hscalar' he)⟩ hknown hknown'
  · have hfunction : t.function? = none := by
      simp only [multiplies, Bool.and_eq_true, Option.isNone_iff_eq_none] at hm
      exact hm.1.1
    obtain ⟨htw, haw⟩ := (Whole.product_iff hkind hfunction hwhole.real).1 hwhole
    have ht' := ht.whole htw
    have ha' := ha.whole haw
    obtain ⟨domain, hdomain, -⟩ := applyDomain?_real ht'.real ha'.real
    rw [applyAux_product hdomain (by simp [multiplies, ht'.function?, ht'.real.isLinear,
      ha'.real.isLinear])]
    exact achieves_whole_product hs (by omega) (by simpa using ⟨hknown, hknown'⟩)
      (by simpa using ⟨ht', ha'⟩)

/-- Powers of replacements may stand in the place of powers. -/
lemma Ranked.resolves_power (hs : Good s) (h : Ranked k e) (hkind : e.kind = .apply t a)
    (ht : t.kind = .function (.builtin .pow)) (ha : a.kind = .tuple [b, n]) {a' : Expr}
    (hknown : s.Knows t) (hknown' : s.Knows a') (hreplaced : ReplacedBy j a a') :
    Resolves typedStores d s (applyAux (depth + 1) t a') fun r _ => ReplacedBy j e r := by
  have hpower : e.power? = some (b, n) := power?_eq_some.2 ⟨t, a, hkind, ht, ha⟩
  obtain ⟨b', n', ha', hb, hn⟩ := hreplaced.pair ha
  rw [applyAux_power ht ha']
  refine h.resolves (by simp [number?, hkind]) (fun i _ hi => ?_) fun hwhole => ?_
  · obtain ⟨⟨hbase, hscalar⟩, -⟩ := hi.of_power hpower
    exact (Suits.achieves_powerOf hs ht ha' hknown hknown'
      ⟨hb.ranked hbase, fun _ => hb.isScalar hbase hscalar⟩
      (hn.exponent (.of_power hi hpower))).imp fun _ hr => hr.of_scalar
  · obtain ⟨hbase, m, -, hliteral⟩ := (Whole.power_iff hpower hwhole.real).1 hwhole
    obtain rfl := hn.literal (by
      obtain ⟨m, hm, -⟩ := hliteral.number
      simp [hm])
    exact achieves_whole_power hs ht ha' hknown hknown' (hb.whole hbase) hliteral

/-- Calls with replacements may stand in the place of calls. -/
lemma Ranked.resolves_call (hs : Good s) (h : Ranked k e) {f : Builtin} (hkind : e.kind = .apply t a)
    (ht : t.kind = .function (.builtin f)) (hf : f ≠ .pow) {a' : Expr} (hknown : s.Knows t)
    (hknown' : s.Knows a') (hreplaced : ReplacedBy j a a') :
    Resolves typedStores d s (applyAux (depth + 1) t a') fun r _ => ReplacedBy j e r := by
  have ha' := hreplaced.ranked (h.of_call hkind ht hf).1
  rw [applyAux_call ht hf ha'.kind_ne.2.1]
  refine h.resolves (by simp [number?, hkind]) (fun i _ hi => ?_) fun hwhole => ?_
  · obtain ⟨ha, hscalar⟩ := hi.of_call hkind ht hf
    exact Suits.achieves_call hs ht hf ⟨hreplaced.ranked ha, fun _ => hreplaced.isScalar ha hscalar⟩
      hknown hknown'
  · rcases hwhole.apply_cases hkind with ⟨htw, -⟩ | ⟨_, _, _, hpower, -⟩
    · have hfunction := htw.function?
      simp [Expr.function?, ht] at hfunction
    · obtain ⟨t', a', hkind', ht', -⟩ := power?_eq_some.1 hpower
      rw [hkind, Kind.apply.injEq] at hkind'
      rw [← hkind'.1, ht, Kind.function.injEq, Function.builtin.injEq] at ht'
      exact absurd ht' hf

/-- Operations on replacements may stand in the place of operations on matrices. -/
lemma Ranked.resolves_matrixOperation (h : Ranked k e) (hoperation : e.kind.isMatrixOperation = true)
    {x : Build Expr} (hx : ∀ i ≤ k, (∀ c ∈ e.children, Ranked i c) → Achieves d s x (Ranked (i + j))) :
    Resolves typedStores d s x fun r _ => ReplacedBy j e r := by
  have hdomain : e.domain = .matrices := (h.of_matrixOperation hoperation).1
  refine h.resolves ?_ (fun i hle hi => ?_) fun hwhole => ?_
  · unfold number?
    cases hkind : e.kind <;> simp [hkind, Kind.isMatrixOperation] at hoperation ⊢
  · refine (hx i hle (hi.of_matrixOperation hoperation).2).imp fun r hr => ⟨hr, fun hscalar => ?_⟩
    rw [hdomain] at hscalar
    cases hscalar
  · rcases hwhole.real with hreal | hreal <;> rw [hdomain] at hreal <;> cases hreal

/-- Summations over replacements may stand in the place of summations. -/
lemma Ranked.resolves_indexedSum {substitute : Substitute} [∀ pairs e, Growing (substitute pairs e)]
    (hyields : YieldsSubstituted substitute) (hsub : ∀ i < k, Renames d (i + j) substitute)
    (hs : Good s) (h : Ranked k e) {index lower upper body lower' upper' body' : Expr}
    (hkind : e.kind = .indexedSum index lower upper body) (hl : ReplacedBy j lower lower')
    (hu : ReplacedBy j upper upper') (hb : ReplacedBy j body body') (hknown : s.Knows index)
    (hknownl : s.Knows lower') (hknownu : s.Knows upper') (hknownb : s.Knows body') :
    Resolves typedStores d s (do
      let i ← beginIndexedSum lower' upper'
      endIndexedSumWith substitute lower' upper' i (← substitute [(index, i)] body')) fun r _ =>
        ReplacedBy j e r := by
  obtain ⟨_, hle, hi, hleast⟩ := h.exists_least
  obtain ⟨i, rfl, hdomain, hindex, ⟨hlwhole, huwhole⟩, hlower, hupper, hbody⟩ := hi.of_indexedSum hkind
  refine (resolves_reindexed hyields (hsub i (by omega)) hs hindex (hl.whole hlwhole)
    (hu.whole huwhole) (hb.ranked hbody) hknown hknownl hknownu hknownb).imp fun r _ _ _ hr => ?_
  obtain ⟨⟨hld, hud⟩, q, body'', hkind', hdomain', hq, hrefined⟩ := hr
  refine .of_least hi hleast (by simp [number?, hkind]) ⟨?_, fun hscalar => ?_⟩ fun hwhole => ?_
  · have hr : Ranked (i + j + 1) r := .indexedSum hkind' hdomain' hq ⟨hl.whole hlwhole, hld⟩
      ⟨hu.whole huwhole, hud⟩ (hl.ranked hlower) (hu.ranked hupper)
      (hrefined.ranked (hb.ranked hbody))
    exact hr.mono (by omega)
  · rw [hdomain] at hscalar
    rw [hdomain']
    exact hrefined.isScalar (hb.ranked hbody) (hb.isScalar hbody hscalar)
  · have hbwhole := hrefined.whole (hb.whole (hwhole.of_indexedSum hkind))
    refine .indexedSum hkind' ?_ hbwhole
    rw [IsReal, hdomain']
    exact hbwhole.real

/-- A node over its own children stays; over others it is made anew. -/
lemma resolves_rebuildAux {x : Build Expr}
    (hrun : rebuildAux (depth + 1) e items =
      if (items.zip e.children).all fun (new, old) => new == old then pure e else x)
    (hx : Resolves typedStores d s x fun r _ => ReplacedBy j e r) :
    Resolves typedStores d s (rebuildAux (depth + 1) e items) fun r _ => ReplacedBy j e r := by
  rw [hrun]
  exact .ite (fun _ => .pure (.refl j e)) fun _ => hx

/-- A node without children stays. -/
lemma resolves_rebuildAux_leaf (hchildren : e.children = [])
    (hitems : List.Forall₂ (ReplacedBy j) e.children items) :
    Resolves typedStores d s (rebuildAux (depth + 1) e items) fun r _ => ReplacedBy j e r := by
  rw [hchildren, List.forall₂_nil_left_iff] at hitems
  subst hitems
  rw [rebuildAux, if_pos (by simp)]
  exact .pure (.refl j e)

/-- Applications of rank `k` are rebuilt by application. -/
lemma Ranked.resolves_apply (hd : k + j + 1 < d) (hs : Good s) (h : Ranked k e)
    (hkind : e.kind = .apply t a) {t' a' : Expr} (hknown : s.Knows t') (hknown' : s.Knows a')
    (ht : ReplacedBy j t t') (ha : ReplacedBy j a a') :
    Resolves typedStores d s (applyAux (depth + 1) t' a') fun r _ => ReplacedBy j e r := by
  have hparts := h.parts
  rw [hkind] at hparts
  rcases hparts with ⟨hm, -⟩ | ⟨b, n, hpower, -⟩ | ⟨f, hfunction, hf, -⟩
  · exact h.resolves_product hd hs hkind hm hknown hknown' ht ha
  · obtain ⟨t₀, a₀, hkind', hpow, hpair⟩ := power?_eq_some.1 hpower
    rw [hkind, Kind.apply.injEq] at hkind'
    obtain ⟨rfl, rfl⟩ := hkind'
    obtain rfl := ht.function (by simp [Expr.function?, hpow])
    exact h.resolves_power hs hkind hpow hpair hknown hknown' ha
  · obtain rfl := ht.function (by simp [Expr.function?, hfunction])
    exact h.resolves_call hs hkind hfunction hf hknown hknown' ha

/-- Parts of expressions of rank `k` are rebuilt at depths above `k + j + 1`. -/
theorem rebuilds_rebuildAux (hd : depth ≤ d) (hdepth : k + j + 2 ≤ depth) :
    Rebuilds d j k (rebuildAux depth) := by
  induction depth generalizing j k with
  | zero => omega
  | succ depth ih =>
    obtain ⟨happly, hrebuild⟩ := yields_applyAux_rebuildAux depth
    have hyields : YieldsSubstituted (substituteWith (rebuildAux depth)) :=
      fun s pairs e hs hpairs he => yields_substituteWith hrebuild hs hpairs he
    -- Summations rename their placeholder in the body, whose rank is below theirs.
    have hsub : ∀ i < k, Renames d (i + j) (substituteWith (rebuildAux depth)) := fun i hi =>
      renames_substituteWith hrebuild (ih (by omega) (by omega))
    obtain ⟨depth, rfl⟩ : ∃ n, depth = n + 1 := ⟨depth - 1, by omega⟩
    intro s e items hs he hknown hpart hitems
    have hchildren := (good_store.1 hs).children he
    cases hpart with
    | function hkind => exact resolves_rebuildAux_leaf (by simp [children, hkind, Kind.children]) hitems
    | pair hkind _ _ =>
      simp only [children, hkind, Kind.children, List.forall₂_cons_left_iff,
        List.forall₂_nil_left_iff] at hitems
      obtain ⟨b', _, hb, ⟨n', _, hn, rfl, rfl⟩, rfl⟩ := hitems
      simp only [Store.knows_cons] at hknown
      refine resolves_rebuildAux (by rw [rebuildAux, hkind]) ?_
      exact ((achieves_pair hs hknown.1 hknown.2.1).completes typedStores_le).resolves.imp
        fun r _ _ _ hr => .of_pair hkind hr hb.toRefinedBy hn.toRefinedBy
    | ranked h =>
      cases hkind : e.kind with
      | symbol _ | number _ =>
        exact resolves_rebuildAux_leaf (by simp [children, hkind, Kind.children]) hitems
      | sum l =>
        rw [children, hkind, Kind.children] at hitems
        exact resolves_rebuildAux (by rw [rebuildAux, hkind])
          (h.resolves_sum (by omega) hs hkind hknown hitems)
      | apply t a =>
        simp only [children, hkind, Kind.children, List.forall₂_cons_left_iff,
          List.forall₂_nil_left_iff] at hitems
        obtain ⟨t', _, ht, ⟨a', _, ha, rfl, rfl⟩, rfl⟩ := hitems
        simp only [Store.knows_cons] at hknown
        exact resolves_rebuildAux (by rw [rebuildAux, hkind])
          (h.resolves_apply (by omega) hs hkind hknown.1 hknown.2.1 ht ha)
      | chain l =>
        refine resolves_rebuildAux (by rw [rebuildAux, hkind])
          (h.resolves_matrixOperation (by rw [hkind]; rfl) fun i hle hl => ?_)
        -- The factors of a chain are applied to each other at the depth that is left.
        refine Suits.achieves_chainWith happly (Suits.pairing_applyAux (by omega) depth) hs hknown
          fun r hr => ?_
        obtain ⟨c, hc, hcr⟩ := exists_of_forall₂ hitems r hr
        exact hcr.ranked (hl c hc)
      | generator rows cols c =>
        simp only [children, hkind, Kind.children, List.forall₂_cons_left_iff,
          List.forall₂_nil_left_iff] at hitems
        obtain ⟨c', _, hc, rfl, rfl⟩ := hitems
        refine resolves_rebuildAux (by rw [rebuildAux, hkind])
          (h.resolves_matrixOperation (by rw [hkind]; rfl) fun i hle hl => ?_)
        exact Suits.achieves_matrixOperation hs rfl (by simpa [Kind.children] using hknown)
          (by simpa [Kind.children] using hc.ranked (hl c (by simp [children, hkind, Kind.children])))
      | inverse c =>
        simp only [children, hkind, Kind.children, List.forall₂_cons_left_iff,
          List.forall₂_nil_left_iff] at hitems
        obtain ⟨c', _, hc, rfl, rfl⟩ := hitems
        simp only [Store.knows_cons] at hknown
        exact resolves_rebuildAux (by rw [rebuildAux, hkind])
          (h.resolves_matrixOperation (by rw [hkind]; rfl) fun i hle hl => Suits.achieves_inverse hs
            (hc.ranked (hl c (by simp [children, hkind, Kind.children]))) hknown.1)
      | transpose c =>
        simp only [children, hkind, Kind.children, List.forall₂_cons_left_iff,
          List.forall₂_nil_left_iff] at hitems
        obtain ⟨c', _, hc, rfl, rfl⟩ := hitems
        simp only [Store.knows_cons] at hknown
        exact resolves_rebuildAux (by rw [rebuildAux, hkind])
          (h.resolves_matrixOperation (by rw [hkind]; rfl) fun i hle hl => Suits.achieves_transpose hs
            (hc.ranked (hl c (by simp [children, hkind, Kind.children]))) hknown.1)
      | indexedSum index lower upper body =>
        simp only [children, hkind, Kind.children, List.forall₂_cons_left_iff,
          List.forall₂_nil_left_iff, Store.knows_cons] at hitems hchildren
        obtain ⟨index', _, -, ⟨lower', _, hl, ⟨upper', _, hu, ⟨body', _, hb, rfl, rfl⟩, rfl⟩, rfl⟩,
          rfl⟩ := hitems
        simp only [Store.knows_cons] at hknown
        exact resolves_rebuildAux (by rw [rebuildAux, hkind])
          (h.resolves_indexedSum hyields hsub hs hkind hl hu hb hchildren.1 hknown.2.1 hknown.2.2.1
            hknown.2.2.2.1)
      | object _ _ | field _ | function _ | tuple _ | collectionSum _ _ _ =>
        -- No expression of these kinds has a rank.
        have hparts := h.parts
        rw [hkind] at hparts
        exact hparts.elim

end Rebuilding

end Expr

end TermGraph
