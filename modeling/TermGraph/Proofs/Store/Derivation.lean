import TermGraph.Proofs.Store.Transformation

/-!
# Derivation keeps the store well formed

The derivatives in a table are remembered like the results of a substitution: the store knows all
of them.
-/

namespace TermGraph

open Store (Knows)

section Rules

variable [Upkeep] {s : Store} {table : DerivativeTable}

omit [Upkeep] in
lemma knows_insertDerivative (htable : s.Knows table) {e : Expr} (he : s.Knows e) (k : List ℕ) :
    s.Knows (table.insert k e : DerivativeTable) := by
  intro k' e' h
  rw [Std.TreeMap.getElem?_insert] at h
  split at h
  · cases h
    exact he
  · exact htable k' e' h

omit [Upkeep] in
lemma knows_noDerivatives : s.Knows (∅ : DerivativeTable) := by
  intro k e h
  simp at h

lemma yields_rememberDerivative {e x : Expr} {derive : Memoized DerivativeTable Expr}
    [Growing derive] (hs : Good (s, table)) (hderive : Yields (s, table) derive) :
    Yields (s, table) (Memoized.rememberDerivative e x derive) := by
  unfold Memoized.rememberDerivative
  intro d
  have hmemo : Sound Good d (s, table) (Memoized.memo : Memoized DerivativeTable DerivativeTable)
      fun a t => t = (s, table) ∧ a = table := ⟨hs, rfl, rfl⟩
  refine hmemo.bind fun known p hp hle hknown => ?_
  obtain ⟨rfl, rfl⟩ := hknown
  split
  · rename_i result hresult
    exact .pure hs (hs.knows_memo _ _ hresult)
  · refine (hderive d).bind fun result p hp hle hresult => ?_
    obtain ⟨t, table'⟩ := p
    refine (yields_modifyMemo hp (knows_insertDerivative hp.knows_memo hresult _) d).bind
      fun _ p' hp' hle' _ => ?_
    exact .pure hp' (hresult.mono hle')

namespace PartialRule

variable (k : ℕ) {args : List Expr}

lemma yields_argumentAt (hs : Good s) (h : s.Knows args) : Yields s (argumentAt k args) := by
  unfold argumentAt
  split
  · rename_i a ha
    exact .pure hs (h a (List.mem_of_getElem? ha))
  · exact Expr.yields_zero hs

mutual

/-- A formula stands for a node over the arguments. -/
theorem yields_expr [Upkeep.Products] {s : Store} (hs : Good s) (h : s.Knows args) :
    ∀ rule : PartialRule, Yields s (rule.expr k args)
  | .literal n => by
    unfold expr
    exact Expr.yields_number hs n
  | .own | .argument _ => by
    unfold expr
    exact yields_argumentAt _ hs h
  | .sum rules => by
    unfold expr
    exact (yields_exprs hs h rules).bind fun es t ht _ hes => Expr.yields_sum t es ht hes
  | .product rules => by
    unfold expr
    exact (yields_exprs hs h rules).bind fun es t ht _ hes => Expr.yields_product t es ht hes
  | .call b rules => by
    unfold expr
    exact (yields_exprs hs h rules).bind fun es t ht _ hes => Expr.yields_call ht (by simp) hes
  | .depending rule => by
    unfold expr
    exact yields_expr hs h (rule (args.map Expr.sight))
  | .missing _ _ => by
    unfold expr
    exact .throw hs _

theorem yields_exprs [Upkeep.Products] {s : Store} (hs : Good s) (h : s.Knows args) :
    ∀ rules : List PartialRule, Yields s (exprs k args rules)
  | [] => by
    unfold exprs
    exact .pure hs Store.knows_nil
  | rule :: rules => by
    unfold exprs
    refine (yields_expr hs h rule).bind fun e t ht hle he => ?_
    exact (yields_exprs ht (h.mono hle) rules).bind fun es u hu hle' hes =>
      .pure hu (Store.knows_cons.2 ⟨he.mono hle', hes⟩)

end

end PartialRule

variable [Upkeep.Products]

lemma Builtin.yields_partialDerivative (hs : Good s) (b : Builtin) (k : ℕ) {args : List Expr}
    (h : s.Knows args) : Yields s (b.partialDerivative k args) := by
  unfold partialDerivative
  split
  · exact (Expr.yields_reciprocal hs (by grind)).map fun e _ _ he => by simpa using he
  · exact (Expr.yields_call hs (by simp) (by grind)).map fun e _ _ he => by simpa using he
  · exact (Expr.yields_call hs (by simp) (by grind)).map fun e _ _ he => by simpa using he
  · refine (Expr.yields_call hs (by simp) (by grind)).bind fun e t ht hle he => ?_
    exact (Expr.yields_neg ht he).bind fun e u hu _ he => .pure hu (by simpa using he)
  · refine .ite (fun _ => ?_) fun _ => ?_
    · refine (Expr.yields_int hs _).bind fun minusOne t₁ ht₁ h₁ hminusOne => ?_
      refine (Expr.yields_sum t₁ _ ht₁ (by grind)).bind fun lowered t₂ ht₂ h₂ hlowered => ?_
      refine (Expr.yields_call ht₂ (by simp) (by grind)).bind fun lowerPower t₃ ht₃ h₃ hlower => ?_
      exact (Expr.yields_product t₃ _ ht₃ (by grind)).map fun e _ _ he => by simpa using he
    · refine (Expr.yields_call hs (by simp) (by grind)).bind fun logarithm t₁ ht₁ h₁ hlog => ?_
      refine (Expr.yields_call ht₁ (by simp) (by grind)).bind fun samePower t₂ ht₂ h₂ hsame => ?_
      exact (Expr.yields_product t₂ _ ht₂ (by grind)).map fun e _ _ he => by simpa using he
  · exact .pure hs (by simp)

namespace Function

lemma yields_partialDerivative? (hs : Good s) (f : Function) (k : ℕ) {args : List Expr}
    (h : s.Knows args) : Yields s (f.partialDerivative? k args) := by
  unfold partialDerivative?
  split
  · exact Builtin.yields_partialDerivative hs _ k h
  · split
    · exact (PartialRule.yields_expr k hs h _).map fun e _ _ he => by simpa using he
    · exact .pure hs (by simp)
  · exact .pure hs (by simp)

lemma yields_partialDerivative (hs : Good s) (f : Function) (k : ℕ) {args : List Expr}
    (h : s.Knows args) : Yields s (f.partialDerivative k args) := by
  unfold partialDerivative
  refine (yields_partialDerivative? hs f k h).bind fun found t ht hle hfound => ?_
  split
  · exact .pure ht (Store.knows_some.1 hfound)
  · exact .throw ht _

lemma yields_chainTerm (hs : Good s) (f : Function) {args : List Expr} (h : s.Knows args) (k : ℕ)
    {d : Expr} (hd : s.Knows d) : Yields s (f.chainTerm args k d) := by
  unfold chainTerm
  refine .ite (fun _ => .pure hs (by simp)) fun _ => ?_
  refine (yields_partialDerivative hs f k h).bind fun outer t ht hle houter => ?_
  refine (Expr.yields_product t _ ht (by grind)).bind fun e u hu _ he => .pure hu (by grind)

end Function

end Rules

namespace Expr

variable [Upkeep] [Upkeep.Products] {s : Store} {table : DerivativeTable}

lemma yields_productUnlessZero (hs : Good s) (derivative : Expr) {factors : List Expr}
    (h : s.Knows factors) : Yields s (productUnlessZero derivative factors) := by
  unfold productUnlessZero
  exact .ite (fun _ => yields_zero hs) fun _ => yields_product s _ hs h

/-- From every later state, the derivative of `e` by `x` is found. -/
def YieldsDerived (s : Store) (x e : Expr) : Prop :=
  ∀ (t : Store) (table : DerivativeTable), Good (t, table) → s ≤ t →
    Yields (t, table) (deriveFrom x e)

section Lists

variable {x : Expr} {es : List Expr}

omit [Upkeep.Products] in
lemma yields_deriveAll (hs : Good (s, table)) (h : ∀ e ∈ es, YieldsDerived s x e) :
    Yields (s, table) (deriveAll x es) := by
  induction es generalizing s table with
  | nil =>
    unfold deriveAll deriveAllWith
    exact .pure hs (by simp)
  | cons e es ih =>
    unfold deriveAll deriveAllWith
    refine (h e (by simp) s table hs le_rfl).bind fun d p hp hle hd => ?_
    obtain ⟨t, table'⟩ := p
    refine (ih hp fun a ha u table'' hu hle' =>
      h a (by simp [ha]) u table'' hu (hle.trans hle')).bind fun ds q hq hle' hds => ?_
    exact .pure hq (Store.knows_cons.2 ⟨hd.mono hle', hds⟩)

lemma yields_chainTerms (hs : Good (s, table)) (h : ∀ e ∈ es, YieldsDerived s x e) (f : Function)
    {args : List Expr} (hargs : s.Knows args) (k : ℕ) :
    Yields (s, table) (chainTerms x f args k es) := by
  induction es generalizing s table k with
  | nil =>
    unfold chainTerms chainTermsWith
    exact .pure hs (by simp)
  | cons e es ih =>
    unfold chainTerms chainTermsWith
    refine (h e (by simp) s table hs le_rfl).bind fun d p hp hle hd => ?_
    refine (yields_beside hp fun ht =>
      Function.yields_chainTerm ht f (hargs.mono hle) k hd).bind fun term q hq hle' hterm => ?_
    refine (ih hq (fun a ha u table'' hu hle'' => h a (by simp [ha]) u table'' hu
      (hle.trans (hle'.trans hle''))) ((hargs.mono hle).mono hle') (k + 1)).bind
      fun terms r hr hle'' hterms => ?_
    exact .pure hr (Store.knows_append.2 ⟨hterm.mono hle'', hterms⟩)

lemma yields_chainDerivatives (hs : Good (s, table)) (h : ∀ e ∈ es, YieldsDerived s x e)
    (hes : s.Knows es) {before : List Expr} (hbefore : s.Knows before) :
    Yields (s, table) (chainDerivatives x before es) := by
  induction es generalizing s table before with
  | nil =>
    unfold chainDerivatives chainDerivativesWith
    exact .pure hs (by simp)
  | cons e es ih =>
    rw [Store.knows_cons] at hes
    unfold chainDerivatives chainDerivativesWith
    refine (h e (by simp) s table hs le_rfl).bind fun d p hp hle hd => ?_
    -- The rest of the list, from any later state.
    have hrest {u : Store} {table' : DerivativeTable} (hu : Good (u, table')) (hle : s ≤ u) :
        Yields (u, table') (chainDerivatives x (e :: before) es) :=
      ih hu (fun a ha v table'' hv hle' => h a (by simp [ha]) v table'' hv (hle.trans hle'))
        (hes.2.mono hle) (Store.knows_cons.2 ⟨hes.1.mono hle, hbefore.mono hle⟩)
    refine .ite (fun _ => hrest hp hle) fun _ => ?_
    have hfactors : (store p).Knows (before.reverse ++ d :: es) := by
      simp only [Store.knows_append, Store.knows_reverse, Store.knows_cons]
      exact ⟨hbefore.mono hle, hd, hes.2.mono hle⟩
    refine (yields_beside hp fun ht => yields_chain _ _ ht hfactors).bind
      fun term q hq hle' hterm => ?_
    refine (hrest hq (hle.trans hle')).bind fun terms r hr hle'' hterms => ?_
    exact .pure hr (Store.knows_cons.2 ⟨hterm.mono hle'', hterms⟩)

end Lists

lemma yields_deriveFrom (hs : Good (s, table)) {x e : Expr} (he : s.Knows e) :
    Yields (s, table) (deriveFrom x e) := by
  induction h : sizeOf e using Nat.strongRecOn generalizing e s table with
  | _ n ih =>
    subst h
    have hchildren := hs.wellFormed.children he
    -- What the induction gives for a child, from any later state.
    have hchild : ∀ c ∈ e.children, YieldsDerived s x c := fun c hc t table' ht hle =>
      ih _ (sizeOf_lt_of_mem_children hc) ht ((hchildren c hc).mono hle) rfl
    -- It is enough to follow the rule for the kind of node.
    have hrule {y : Memoized DerivativeTable Expr} [Growing y] (hy : Yields (s, table) y) :
        Yields (s, table) (Memoized.rememberDerivative e x (if e == x then liftM one else y)) :=
      yields_rememberDerivative hs
        (.ite (fun _ => yields_beside hs yields_one) fun _ => hy)
    obtain ⟨ordinal, domain, kind⟩ := e
    simp only [children, Kind.children, Expr.kind] at hchild hchildren
    unfold deriveFrom deriveWith
    cases kind with
    | tuple items =>
      refine hrule ((yields_deriveAll hs hchild).bind fun ds p hp hle hds => ?_)
      exact yields_beside hp fun ht => yields_tuple ht hds
    | sum items =>
      refine hrule ((yields_deriveAll hs hchild).bind fun ds p hp hle hds => ?_)
      exact yields_beside hp fun ht => yields_sum _ _ ht hds
    | apply target argument =>
      have htarget := hchild target (by simp)
      have hargument := hchild argument (by simp)
      simp only [Store.knows_cons] at hchildren
      obtain ⟨hknown, hknown', -⟩ := hchildren
      dsimp only
      generalize applicationRule? target = rule at hrule ⊢
      cases rule with
      | none => exact hrule (.throw hs _)
      | some rule =>
      cases rule with
      | product =>
        refine hrule ((htarget s table hs le_rfl).bind fun dt p hp hle hdt => ?_)
        refine (hargument _ _ hp hle).bind fun da q hq hle' hda => ?_
        refine (yields_beside hq fun ht => yields_productUnlessZero ht dt (by
          simp only [Store.knows_cons]
          exact ⟨hdt.mono hle', hknown'.mono (hle.trans hle'), Store.knows_nil⟩)).bind
          fun left r hr h₁ hleft => ?_
        refine (yields_beside hr fun ht => yields_productUnlessZero ht da (by
          simp only [Store.knows_cons]
          exact ⟨hknown.mono (hle.trans (hle'.trans h₁)), hda.mono h₁, Store.knows_nil⟩)).bind
          fun right u hu h₂ hright => ?_
        exact yields_beside hu fun ht => yields_sum _ _ ht (by
          simp only [Store.knows_cons]
          exact ⟨hleft.mono h₂, hright, Store.knows_nil⟩)
      | chain f =>
        have hsingle : Yields (s, table) (do
            let d ← deriveFrom x argument
            let terms ← (liftM (f.chainTerm [argument] 0 d) : Memoized DerivativeTable (List Expr))
            liftM (sum terms)) := by
          refine (hargument s table hs le_rfl).bind fun d p hp hle hd => ?_
          refine (yields_beside hp fun ht => Function.yields_chainTerm ht f (by
            simpa using hknown'.mono hle) 0 hd).bind fun terms q hq hle' hterms => ?_
          exact yields_beside hq fun ht => yields_sum _ _ ht hterms
        obtain ⟨_, _, kind⟩ := argument
        cases kind with
        | tuple items =>
          have hitems := hs.wellFormed.children hknown'
          refine hrule (.ite (fun _ => hsingle) fun _ => ?_)
          refine (yields_chainTerms hs (fun c hc t table' ht hle => ?_) f hitems 0).bind
            fun terms p hp hle hterms => ?_
          · have hlt := List.sizeOf_lt_of_mem hc
            exact ih _ (by simp; omega) ht ((hitems c hc).mono hle) rfl
          · exact yields_beside hp fun ht => yields_sum _ _ ht hterms
        | _ => exact hrule hsingle
      | access =>
        refine hrule ((htarget s table hs le_rfl).bind fun d p hp hle hd => ?_)
        exact .ite (fun _ => yields_beside hp yields_zero) fun _ => .throw hp _
      | custom hook =>
        cases hook with
        | zero => exact hrule (yields_beside hs yields_zero)
        | argument => exact hrule (hargument s table hs le_rfl)
        | formula rule =>
          refine hrule ((htarget s table hs le_rfl).bind fun dt p hp hle hdt => ?_)
          refine (hargument _ _ hp hle).bind fun da q hq hle' hda => ?_
          exact yields_beside hq fun ht => PartialRule.yields_expr 0 ht (by
            simp only [Store.knows_cons]
            exact ⟨hknown.mono (hle.trans hle'), hknown'.mono (hle.trans hle'), hdt.mono hle', hda,
              Store.knows_nil⟩) rule
        | failure | missing => exact hrule (.throw hs _)
    | chain factors =>
      refine hrule ((yields_chainDerivatives hs hchild hchildren Store.knows_nil).bind
        fun ds p hp hle hds => ?_)
      exact yields_beside hp fun ht => yields_sum _ _ ht hds
    | inverse inner =>
      refine hrule ((hchild inner (by simp) s table hs le_rfl).bind fun d p hp hle hd => ?_)
      refine .ite (fun _ => .pure hp hd) fun _ => ?_
      have he := he.mono hle
      refine (yields_beside hp fun ht => yields_chain _ _ ht (by
        simp only [Store.knows_cons]
        exact ⟨he, hd, he, Store.knows_nil⟩)).bind fun sandwich q hq hle' hsandwich => ?_
      refine (yields_beside hq fun ht => yields_int ht _).bind fun k r hr hle'' hk => ?_
      exact yields_beside hr fun ht => yields_product _ _ ht (by
        simp only [Store.knows_cons]
        exact ⟨hk, hsandwich.mono hle'', Store.knows_nil⟩)
    | transpose inner =>
      refine hrule ((hchild inner (by simp) s table hs le_rfl).bind fun d p hp hle hd => ?_)
      exact yields_beside hp fun ht => yields_transpose ht hd
    | generator rows cols element =>
      refine hrule ((hchild element (by simp) s table hs le_rfl).bind fun d p hp hle hd => ?_)
      refine .ite (fun _ => .pure hp hd) fun _ => ?_
      exact yields_beside hp fun ht => yields_generator ht hd _ _
    | indexedSum index lower upper body =>
      refine hrule ((hchild body (by simp) s table hs le_rfl).bind fun d p hp hle hd => ?_)
      refine .ite (fun _ => .pure hp hd) fun _ => ?_
      simp only [Store.knows_cons] at hchildren
      obtain ⟨hindex, hlower, hupper, -, -⟩ := hchildren
      refine (yields_beside hp fun ht => yields_beginIndexedSum ht lower upper).bind
        fun i q hq hle' hi => ?_
      refine (yields_beside hq fun ht => yields_substitute _ _ d ht (by
        simp only [Store.knows_cons, Store.knows_pair]
        exact ⟨⟨hindex.mono (hle.trans hle'), hi⟩, Store.knows_nil⟩) (hd.mono hle')).bind
        fun body' r hr hle'' hbody' => ?_
      have hle := hle.trans (hle'.trans hle'')
      exact yields_beside hr fun ht => yields_endIndexedSumWith yields_substitute ht
        (hlower.mono hle) (hupper.mono hle) (hi.mono hle'') hbody'
    | collectionSum index collection body =>
      refine hrule ((hchild collection (by simp) s table hs le_rfl).bind fun dc p₀ hp₀ h₀ _ => ?_)
      refine .ite (fun _ => .throw hp₀ _) fun _ => ?_
      refine (hchild body (by simp) _ _ hp₀ h₀).bind fun d p hp hle hd => ?_
      refine .ite (fun _ => .pure hp hd) fun _ => ?_
      simp only [Store.knows_cons] at hchildren
      obtain ⟨hindex, hcollection, -, -⟩ := hchildren
      have hle := h₀.trans hle
      refine (yields_beside hp fun ht => yields_beginCollectionSum ht collection).bind
        fun v q hq hle' hv => ?_
      refine (yields_beside hq fun ht => yields_substitute _ _ d ht (by
        simp only [Store.knows_cons, Store.knows_pair]
        exact ⟨⟨hindex.mono (hle.trans hle'), hv⟩, Store.knows_nil⟩) (hd.mono hle')).bind
        fun body' r hr hle'' hbody' => ?_
      have hle := hle.trans (hle'.trans hle'')
      exact yields_beside hr fun ht => yields_endCollectionSumWith yields_substitute ht
        (hcollection.mono hle) (hv.mono hle'') hbody'
    | symbol _ | number _ | object _ _ | field _ | function _ =>
      exact hrule (yields_beside hs yields_zero)

omit [Upkeep.Products] in
lemma yields_checkVariable (hs : Good s) (x : Expr) : Yields s (checkVariable x) := by
  unfold checkVariable
  exact .ite (fun _ => .pure hs trivial) fun _ => .throw hs _

lemma yields_derive (hs : Good s) {e : Expr} (he : s.Knows e) (x : Expr) :
    Yields s (derive e x) := by
  unfold derive
  refine (yields_checkVariable hs x).bind fun _ t ht hle _ => yields_forgetting ?_
  exact yields_deriveFrom (ht.pair knows_noDerivatives) (he.mono hle)

lemma yields_gradientFrom (hs : Good (s, table)) {e : Expr} (he : s.Knows e) (xs : List Expr) :
    Yields (s, table) (gradientFrom e xs) := by
  induction xs generalizing s table with
  | nil =>
    unfold gradientFrom
    exact .pure hs (by simp)
  | cons x xs ih =>
    unfold gradientFrom
    refine (yields_beside hs fun hs => yields_checkVariable hs x).bind fun _ p hp h₁ _ => ?_
    refine (yields_deriveFrom hp (he.mono h₁)).bind fun d q hq h₂ hd => ?_
    refine (ih hq ((he.mono h₁).mono h₂)).bind fun ds r hr h₃ hds => ?_
    exact .pure hr (Store.knows_cons.2 ⟨hd.mono h₃, hds⟩)

lemma yields_gradient (hs : Good s) {e : Expr} (he : s.Knows e) (xs : List Expr) :
    Yields s (gradient e xs) :=
  yields_forgetting
    (yields_gradientFrom (hs.pair knows_noDerivatives) he xs)

end Expr

end TermGraph
