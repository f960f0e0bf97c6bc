import TermGraph.Proofs.Store.Construction

/-!
# Substitution and application keep the store well formed

Substitution carries a memo of earlier results, so the invariant is that the store also knows
whatever the memo holds.  Application, rebuilding and substitution call each other, and all three
go by one induction on the depth.
-/

namespace TermGraph

open Store (Knows)

section Memos

variable {α : Type} [Knowable α] {s : Store} {m : Memo}

lemma knows_insert (hm : s.Knows m) {e : Expr} (he : s.Knows e) (k : ℕ) :
    s.Knows (m.insert k e : Memo) := by
  intro k' e' h
  rw [Std.TreeMap.getElem?_insert] at h
  split at h
  · cases h
    exact he
  · exact hm k' e' h

lemma knows_empty : s.Knows (∅ : Memo) := by
  intro k e h
  simp at h

variable [Upkeep]

lemma yields_remember {e : Expr} {x : Memoized Memo Expr} [Growing x] (hs : Good (s, m))
    (hx : Yields (s, m) x) : Yields (s, m) (Memoized.remember e x) := by
  unfold Memoized.remember
  intro d
  have hmemo : Sound Good d (s, m) (Memoized.memo : Memoized Memo Memo)
      fun a t => t = (s, m) ∧ a = m := ⟨hs, rfl, rfl⟩
  refine hmemo.bind fun known p hp hle hknown => ?_
  obtain ⟨rfl, rfl⟩ := hknown
  split
  · rename_i result hresult
    exact .pure hs (hs.knows_memo _ _ hresult)
  · refine (hx d).bind fun result p hp hle hresult => ?_
    obtain ⟨t, m'⟩ := p
    refine (yields_modifyMemo hp (knows_insert hp.knows_memo hresult _) d).bind
      fun _ p' hp' hle' _ => ?_
    exact .pure hp' (hresult.mono hle')

end Memos

namespace Expr

variable [Upkeep] {s : Store} {m : Memo}

/-! ## Substitution -/

section Substitution

/-- A function that gives nodes new children keeps the invariant. -/
def YieldsRebuilt (rebuild : Rebuild) : Prop :=
  ∀ (s : Store) (e : Expr) (children : List Expr), Good s → s.Knows e → s.Knows children →
    Yields s (rebuild e children)

omit [Upkeep] in
lemma knows_replacements {pairs : List (Expr × Expr)} (h : s.Knows pairs) :
    s.Knows (replacements pairs) := by
  unfold replacements
  refine List.foldlRecOn pairs _ knows_empty fun map hmap pair hpair => ?_
  dsimp only
  split
  · exact hmap
  · exact knows_insert hmap (h pair hpair).2 _

variable {rebuild : Rebuild} [∀ e children, Growing (rebuild e children)] {map : Memo}

lemma yields_substituteAll {es : List Expr} (hs : Good (s, m))
    (h : ∀ e ∈ es, ∀ (t : Store) (m' : Memo), Good (t, m') → s ≤ t →
      Yields (t, m') (substituteFrom rebuild map e)) :
    Yields (s, m) (substituteAll rebuild map es) := by
  induction es generalizing s m with
  | nil =>
    unfold substituteAll
    exact .pure hs (by simp)
  | cons e es ih =>
    unfold substituteAll
    refine (h e (by simp) s m hs le_rfl).bind fun e' p hp hle he' => ?_
    obtain ⟨t, m'⟩ := p
    refine (ih hp fun a ha u m'' hu hle' =>
      h a (by simp [ha]) u m'' hu (hle.trans hle')).bind fun es' p hp' hle' hes' => ?_
    exact .pure hp' (Store.knows_cons.2 ⟨he'.mono hle', hes'⟩)

lemma yields_substituteFrom (hrebuild : YieldsRebuilt rebuild) (hs : Good (s, m))
    (hmap : s.Knows map) {e : Expr} (he : s.Knows e) :
    Yields (s, m) (substituteFrom rebuild map e) := by
  induction h : sizeOf e using Nat.strongRecOn generalizing e s m with
  | _ n ih =>
    subst h
    have hchildren := hs.wellFormed.children he
    -- What the induction gives for a child, from any later state.
    have hchild : ∀ c ∈ e.children, ∀ (t : Store) (m' : Memo), Good (t, m') → s ≤ t →
        Yields (t, m') (substituteFrom rebuild map c) := fun c hc t m' ht hle =>
      ih _ (sizeOf_lt_of_mem_children hc) ht (hmap.mono hle) ((hchildren c hc).mono hle) rfl
    have hlift {t : Store} {m' : Memo} (ht : Good (t, m')) (hle : s ≤ t) {l : List Expr}
        (hl : t.Knows l) : Yields (t, m') (liftM (rebuild e l) : Memoized Memo Expr) :=
      yields_lift (hrebuild t e l ht.of_pair (he.mono hle) hl) ht.knows_memo
    obtain ⟨ordinal, domain, kind⟩ := e
    unfold substituteFrom
    split
    · rename_i replacement hfound
      exact .pure hs (hmap _ _ hfound)
    · cases kind with
      | tuple items | sum items | chain items =>
        refine yields_remember hs ?_
        refine (yields_substituteAll hs hchild).bind fun items p hp hle hitems => ?_
        exact hlift hp hle hitems
      | apply target argument =>
        refine yields_remember hs ?_
        refine (hchild target (by simp [children, Kind.children, Expr.kind]) s m hs le_rfl).bind
          fun target p hp hle htarget => ?_
        refine (hchild argument (by simp [children, Kind.children, Expr.kind]) _ _ hp hle).bind
          fun argument q hq hle' hargument => ?_
        exact hlift hq (hle.trans hle') (by grind)
      | generator _ _ inner | inverse inner | transpose inner =>
        refine yields_remember hs ?_
        refine (hchild inner (by simp [children, Kind.children, Expr.kind]) s m hs le_rfl).bind
          fun inner p hp hle hinner => ?_
        exact hlift hp hle (by grind)
      | indexedSum index lower upper body =>
        refine yields_remember hs ?_
        simp only [children, Kind.children, Expr.kind, Store.knows_cons] at hchildren
        have hindex := hchildren.1
        have hbody := hchildren.2.2.2.1
        have hlower := hchild lower (by simp [children, Kind.children, Expr.kind])
        have hupper := hchild upper (by simp [children, Kind.children, Expr.kind])
        refine .ite (fun _ => ?_) fun _ => ?_
        · refine (hlower s m hs le_rfl).bind fun lower p hp hle hlower => ?_
          refine (hupper _ _ hp hle).bind fun upper q hq hle' hupper => ?_
          exact hlift hq (hle.trans hle') (by grind)
        · refine (hlower s m hs le_rfl).bind fun lower p hp hle hlower => ?_
          refine (hupper _ _ hp hle).bind fun upper q hq hle' hupper => ?_
          refine (hchild body (by simp [children, Kind.children, Expr.kind]) _ _ hq
            (hle.trans hle')).bind fun body r hr hle'' hbody => ?_
          exact hlift hr (hle.trans (hle'.trans hle'')) (by grind)
      | collectionSum index collection body =>
        refine yields_remember hs ?_
        simp only [children, Kind.children, Expr.kind, Store.knows_cons] at hchildren
        have hindex := hchildren.1
        have hbody := hchildren.2.2.1
        have hcollection := hchild collection (by simp [children, Kind.children, Expr.kind])
        refine .ite (fun _ => ?_) fun _ => ?_
        · refine (hcollection s m hs le_rfl).bind fun collection p hp hle hcollection => ?_
          exact hlift hp hle (by grind)
        · refine (hcollection s m hs le_rfl).bind fun collection p hp hle hcollection => ?_
          refine (hchild body (by simp [children, Kind.children, Expr.kind]) _ _ hp hle).bind
            fun body q hq hle' hbody => ?_
          exact hlift hq (hle.trans hle') (by grind)
      | symbol _ | number _ | object _ _ | field _ | function _ =>
        exact yields_remember hs (.pure hs he)

lemma yields_substituteWith (hrebuild : YieldsRebuilt rebuild) (hs : Good s)
    {pairs : List (Expr × Expr)} (hpairs : s.Knows pairs) {e : Expr} (he : s.Knows e) :
    Yields s (substituteWith rebuild pairs e) := by
  unfold substituteWith
  refine .ite (fun _ => .pure hs he) fun _ => yields_forgetting ?_
  exact yields_substituteFrom hrebuild (hs.pair knows_empty)
    (knows_replacements hpairs) he

end Substitution

/-! ## Summations -/

section Summations

/-- A function that substitutes keeps the invariant. -/
def YieldsSubstituted (substitute : Substitute) : Prop :=
  ∀ (s : Store) (pairs : List (Expr × Expr)) (e : Expr), Good s → s.Knows pairs → s.Knows e →
    Yields s (substitute pairs e)

lemma yields_bodyDomain (hs : Good s) (body : Expr) : Yields s (bodyDomain body) := by
  unfold bodyDomain
  split
  · exact .pure hs trivial
  · exact .throw hs _

variable {substitute : Substitute}

omit [Upkeep] in
/-- The arguments of a power are those of a pair. -/
lemma arguments_pow {a b n : Expr} :
    (Function.builtin .pow).arguments a = [b, n] ↔ a.kind = .tuple [b, n] := by
  unfold Function.arguments
  split
  · rename_i items hkind
    rw [hkind, Kind.tuple.injEq]
    rfl
  · rename_i hkind
    exact iff_of_false (by simp) (hkind _)

lemma yields_callWith (hsub : YieldsSubstituted substitute) (hs : Good s) {f : Function}
    {target argument : Expr} (hf : s.Knows f) (ht : s.Knows target) (ha : s.Knows argument)
    (htarget : target.function? = some f) :
    Yields s (callWith substitute f target argument) := by
  have hargs : s.Knows (f.arguments argument) := by
    have hchildren := hs.wellFormed.children ha
    unfold Function.arguments
    split
    · rename_i items hkind
      rw [children, hkind] at hchildren
      split
      · simpa using ha
      · exact hchildren
    · simpa using ha
  unfold callWith
  refine .ite (fun _ => .throw hs _) fun _ => ?_
  split
  · rw [Store.knows_lambda] at hf
    refine hsub s _ _ hs (fun pair hpair => ?_) hf.2
    exact ⟨hf.1 _ (List.of_mem_zip hpair).1, hargs _ (List.of_mem_zip hpair).2⟩
  · rename_i base exponent hsplit
    rw [hsplit, Store.knows_cons] at hargs
    exact yields_powerOf hs ht ha hargs.1 htarget (arguments_pow.1 hsplit)
  · rename_i hlambda _ hpow
    refine yields_rawApply_of_isPlain hs ht ha (isPlain_call htarget hlambda fun b n hf hkind => ?_)
    subst hf
    exact (hpow b n rfl (arguments_pow.2 hkind)).elim

variable [∀ pairs e, Growing (substitute pairs e)]

omit [∀ pairs e, Growing (substitute pairs e)] in
lemma good_placeholder (hs : Good s) (level : ℕ) (domain : Domain) :
    Good (s.placeholder level domain).2 := by
  refine .of_wellFormed (hs.wellFormed.placeholderOf level domain).1 ?_
  have hadm : s.Admits domain (.symbol (Store.placeholderName level)) :=
    ⟨by simp [Kind.children], fun _ h => h.elim, trivial, by simp [Kind.index?]⟩
  have hsymbol := Upkeep.intern hs.wellFormed hadm rfl trivial hs.holds
  rw [Store.placeholder]
  split
  · exact hs.holds
  · exact Upkeep.of_nodes (s := (s.intern domain (.symbol (Store.placeholderName level))).2)
      ⟨id, id, List.prefix_append _ _, le_rfl, id, List.suffix_refl _⟩ rfl hsymbol

/-- The index that is bound is a placeholder. -/
lemma sound_bindIndex (hsub : YieldsSubstituted substitute) (hs : Good s) {temporary body : Expr}
    (htemporary : s.Knows temporary) (hbody : s.Knows body) (d : ℕ) :
    Sound Good d s (bindIndex substitute temporary body) fun bound t =>
      t.Knows bound ∧ ∃ p ∈ t.placeholders, p.symbol = bound.1 := by
  obtain ⟨-, hknown, p, hp, -, -, hsymbol⟩ :=
    hs.wellFormed.placeholderOf (body.nesting + 1) temporary.domain
  have hplaceholder : Sound Good d s
      (Build.step (Store.placeholder (body.nesting + 1) temporary.domain)) fun index t =>
        t.Knows index ∧ ∃ p ∈ t.placeholders, p.symbol = index :=
    ⟨good_placeholder hs _ _, hknown, p, hp, hsymbol⟩
  unfold bindIndex
  refine hplaceholder.bind fun index t ht hle hindex => ?_
  obtain ⟨hindex, p, hp, rfl⟩ := hindex
  refine (yields_noteIndex ht p.symbol body d).bind fun _ u hu hle' _ => ?_
  refine (hsub u _ body hu (by grind) ((hbody.mono hle).mono hle') d).bind
    fun bound v hv hle'' hbound => ?_
  exact .pure hv ⟨by grind, p, (hle'.trans hle'').placeholders.subset hp, rfl⟩

lemma yields_beginIndexedSum (hs : Good s) (lower upper : Expr) :
    Yields s (beginIndexedSum lower upper) := by
  unfold beginIndexedSum
  refine .ite (fun _ => .throw hs _) fun _ => .ite (fun _ => .throw hs _) fun _ => ?_
  exact yields_symbol hs _ _

lemma yields_endIndexedSumWith (hsub : YieldsSubstituted substitute) (hs : Good s)
    {lower upper temporary body : Expr} (hl : s.Knows lower) (hu : s.Knows upper)
    (ht : s.Knows temporary) (hb : s.Knows body) :
    Yields s (endIndexedSumWith substitute lower upper temporary body) := by
  intro d
  unfold endIndexedSumWith
  refine (yields_bodyDomain hs body d).bind fun domain s₁ hs₁ h₁ _ => ?_
  refine (sound_bindIndex hsub hs₁ (ht.mono h₁) (hb.mono h₁) d).bind fun bound s₂ hs₂ h₂ hbound => ?_
  obtain ⟨index, body⟩ := bound
  obtain ⟨hknown, hindex⟩ := hbound
  have hadm : s₂.Admits domain (.indexedSum index lower upper body) := by
    refine ⟨?_, fun _ h => h.elim, trivial, by simpa [Kind.index?] using hindex⟩
    simp only [Kind.children, Store.knows_cons]
    grind
  exact yields_plain hs₂ hadm rfl trivial d

/-- A summation over a body whose index is exchanged for a new symbol. -/
lemma yields_reindexed (hsub : YieldsSubstituted substitute) (hs : Good s)
    {index lower upper body : Expr} (hindex : s.Knows index) (hl : s.Knows lower) (hu : s.Knows upper)
    (hb : s.Knows body) : Yields s (do
      let i ← beginIndexedSum lower upper
      endIndexedSumWith substitute lower upper i (← substitute [(index, i)] body)) := by
  refine (yields_beginIndexedSum hs lower upper).bind fun i t ht hle hi => ?_
  refine (hsub t _ body ht (by grind) (hb.mono hle)).bind fun body' u hu' hle' hbody' => ?_
  have hle'' := hle.trans hle'
  exact yields_endIndexedSumWith hsub hu' (hl.mono hle'') (hu.mono hle'') (hi.mono hle') hbody'

lemma yields_beginCollectionSum (hs : Good s) (collection : Expr) :
    Yields s (beginCollectionSum collection) := by
  have helement : Yields s (elementDomain collection) := by
    unfold elementDomain
    split
    · exact .ofExcept hs fun d _ => Store.knows_plain d
    · split
      · exact .ofExcept hs fun d _ => Store.knows_plain d
      · exact .throw hs _
  unfold beginCollectionSum
  exact helement.bind fun domain t ht _ _ => yields_symbol ht _ domain

lemma yields_endCollectionSumWith (hsub : YieldsSubstituted substitute) (hs : Good s)
    {collection temporary body : Expr} (hc : s.Knows collection) (ht : s.Knows temporary)
    (hb : s.Knows body) :
    Yields s (endCollectionSumWith substitute collection temporary body) := by
  intro d
  unfold endCollectionSumWith
  refine (yields_bodyDomain hs body d).bind fun domain s₁ hs₁ h₁ _ => ?_
  refine (sound_bindIndex hsub hs₁ (ht.mono h₁) (hb.mono h₁) d).bind fun bound s₂ hs₂ h₂ hbound => ?_
  obtain ⟨index, body⟩ := bound
  obtain ⟨hknown, hindex⟩ := hbound
  have hadm : s₂.Admits domain (.collectionSum index collection body) := by
    refine ⟨?_, fun _ h => h.elim, trivial, by simpa [Kind.index?] using hindex⟩
    simp only [Kind.children, Store.knows_cons]
    grind
  exact yields_plain hs₂ hadm rfl trivial d

end Summations

/-! ## Application -/

variable [Upkeep.Products]

omit [Upkeep] [Upkeep.Products] in
/-- The function that a known node is refers to known expressions only. -/
lemma knows_function? (hs : s.WellFormed) {e : Expr} (he : s.Knows e) {f : Function}
    (h : e.function? = some f) : s.Knows f := by
  unfold function? at h
  split at h
  · rename_i g hkind
    cases h
    exact (hs.admits he).functions f (by rw [hkind]; rfl)
  · cases h

omit [Upkeep] [Upkeep.Products] in
/-- Only members of custom domains commute with functions. -/
lemma isBuiltin_eq_false_of_commutes (hs : s.WellFormed) {e f : Expr} (hf : s.Knows f)
    (hfunction : f.function?.isSome = true) (h : e.commutes f = true) : e.domain.isBuiltin = false := by
  have htyped := (hs.admits hf).typed
  unfold function? at hfunction
  split at hfunction
  · rename_i g hkind
    rw [hkind, Kind.Typed] at htyped
    rw [commutes, htyped] at h
    cases hdomain : e.domain <;> rw [hdomain] at h <;> first
      | rfl
      | cases h
  · cases hfunction

/-- Application and rebuilding call each other with less depth. -/
lemma yields_applyAux_rebuildAux (depth : ℕ) :
    YieldsBoth (applyAux depth) ∧ YieldsRebuilt (rebuildAux depth) := by
  induction depth with
  | zero =>
    refine ⟨fun s a b hs _ _ => ?_, fun s e children hs _ _ => ?_⟩
    · unfold applyAux
      exact .throw hs _
    · unfold rebuildAux
      exact .throw hs _
  | succ depth ih =>
    obtain ⟨happly, hrebuild⟩ := ih
    have hsub : YieldsSubstituted (substituteWith (rebuildAux depth)) :=
      fun s pairs e hs hpairs he => yields_substituteWith hrebuild hs hpairs he
    refine ⟨fun s target argument hs ht ha => ?_, fun s e news hs he hnews => ?_⟩
    · unfold applyAux
      split
      · rename_i f hf
        exact yields_callWith hsub hs (knows_function? hs.wellFormed ht hf) ht ha hf
      · rename_i hnone
        intro d
        refine (sound_applyDomain hs target argument d).bind fun domain t hgood hle hdomain => ?_
        have ht := ht.mono hle
        have ha := ha.mono hle
        have hchildren := hgood.wellFormed.children ha
        suffices h : Yields t _ from h d
        refine .ite (fun _ => yields_canonicalProduct t _ hgood (by grind)) fun hlinear => ?_
        have hplain : multiplies target argument = false ∧ multiplies argument target = false := by
          simp only [multiplies]
          grind
        have hswapped (h : (target.commutes argument && argument.compare target == .lt) = true) :
            (Kind.apply argument target).isPlain = true := by
          rw [Bool.and_eq_true] at h
          refine isPlain_apply hplain.2 (fun _ _ _ _ hf =>
            isBuiltin_eq_false_of_commutes hgood.wellFormed ha (by simp [hf]) h.1) fun b n hf hpair => ?_
          -- A pair lies in no custom domain, so it does not commute with the power function.
          have hcustom := isBuiltin_eq_false_of_commutes hgood.wellFormed ha (by simp [hf]) h.1
          have htyped := (hgood.wellFormed.admits ht).typed
          rw [hpair, Kind.Typed] at htyped
          rw [htyped] at hcustom
          cases hcustom
        have hstands : Yields t (if target.commutes argument && argument.compare target == .lt then
            rawApply argument target else Build.intern domain (.apply target argument)) :=
          .ite (fun hswap => yields_rawApply_of_isPlain hgood ha ht (hswapped hswap)) fun _ =>
            yields_plain hgood (admits_apply ht ha hdomain)
              (isPlain_apply hplain.1 (by simp [hnone]) (by simp [hnone])) trivial
        dsimp only
        split
        · rename_i innerTarget innerArgument hkind
          simp only [children, hkind, Kind.children, Store.knows_cons] at hchildren
          refine .ite (fun _ => ?_) fun _ => hstands
          refine (happly t _ _ hgood ht hchildren.1).bind fun left u hu hle' hleft => ?_
          exact happly u _ _ hu hleft (hchildren.2.1.mono hle')
        · exact hstands
    · have hchildren := hs.wellFormed.children he
      unfold rebuildAux
      refine .ite (fun _ => .pure hs he) fun _ => ?_
      dsimp only
      split
      · exact yields_tuple hs hnews
      · exact yields_sum s _ hs hnews
      · exact yields_chainWith (yields_foldProduct happly) s _ hs hnews
      · simp only [Store.knows_cons] at hnews
        exact happly s _ _ hs hnews.1 hnews.2.1
      · exact yields_generator hs (by simpa using hnews) _ _
      · exact yields_inverse hs (by simpa using hnews)
      · exact yields_transpose hs (by simpa using hnews)
      · rename_i index _ _ _ _ lower upper body hkind _
        simp only [children, hkind, Kind.children, Store.knows_cons] at hchildren hnews
        exact yields_reindexed hsub hs hchildren.1 hnews.2.1 hnews.2.2.1 hnews.2.2.2.1
      · rename_i index _ _ _ collection body hkind _
        simp only [children, hkind, Kind.children, Store.knows_cons] at hchildren hnews
        refine (yields_beginCollectionSum hs collection).bind fun v t ht hle hv => ?_
        refine (hsub t _ body ht (by grind) (by grind)).bind fun body' u hu hle' hbody' => ?_
        exact yields_endCollectionSumWith hsub hu (by grind) (by grind) hbody'
      · exact .pure hs he

lemma yields_apply : YieldsBoth apply := by
  intro s target argument hs ht ha
  unfold apply
  refine (Yields.read hs).bind fun depth t hgood hle _ => ?_
  exact (yields_applyAux_rebuildAux depth).1 t _ _ hgood (ht.mono hle) (ha.mono hle)

lemma yields_rebuild : YieldsRebuilt rebuild := by
  intro s e children hs he hchildren
  unfold rebuild
  refine (Yields.read hs).bind fun depth t ht hle _ => ?_
  exact (yields_applyAux_rebuildAux depth).2 t _ _ ht (he.mono hle) (hchildren.mono hle)

lemma yields_substitute : YieldsSubstituted substitute :=
  fun _ _ _ hs hpairs he => yields_substituteWith yields_rebuild hs hpairs he

lemma yields_product : YieldsAll product := yields_foldProduct yields_apply

lemma yields_chain : YieldsAll chain := yields_chainWith yields_product

lemma yields_call (hs : Good s) {f : Function} (hf : s.Knows f) {args : List Expr}
    (hargs : s.Knows args) : Yields s (call f args) := by
  unfold call
  refine (yields_ofFunction hs hf).bind fun target t ht hle htarget => ?_
  refine (yields_tuple ht (hargs.mono hle)).bind fun argument u hu hle' hargument => ?_
  exact yields_apply u _ _ hu (htarget.mono hle') hargument

lemma yields_neg (hs : Good s) {a : Expr} (ha : s.Knows a) : Yields s (neg a) := by
  unfold neg
  exact (yields_int hs (-1)).bind fun e t ht hle he => yields_apply t _ _ ht he (ha.mono hle)

lemma yields_sub (hs : Good s) {a b : Expr} (ha : s.Knows a) (hb : s.Knows b) :
    Yields s (sub a b) := by
  unfold sub
  exact (yields_neg hs hb).bind fun e t ht hle he => yields_sum t _ ht (by grind)

lemma yields_div (hs : Good s) {a b : Expr} (ha : s.Knows a) (hb : s.Knows b) :
    Yields s (div a b) := by
  unfold div
  exact (yields_inverse hs hb).bind fun e t ht hle he => yields_apply t _ _ ht (ha.mono hle) he

lemma yields_member (hs : Good s) {e : Expr} (he : s.Knows e) (name : String) :
    Yields s (member e name) := by
  unfold member
  exact (yields_fieldName hs name).bind fun f t ht hle hf => yields_apply t _ _ ht (he.mono hle) hf

lemma yields_element (hs : Good s) {e : Expr} (he : s.Knows e) {index : List Expr}
    (hindex : s.Knows index) : Yields s (element e index) := by
  unfold element
  exact (yields_tuple hs hindex).bind fun f t ht hle hf => yields_apply t _ _ ht (he.mono hle) hf

end Expr

end TermGraph
