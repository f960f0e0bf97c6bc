import TermGraph.Proofs.Store.Transformation

/-!
# Evaluation and normalization keep the store well formed

The operations on concrete values, calls of functions, and normalization, which evaluates
constants and remembers the normal forms of nodes.
-/

namespace TermGraph

open Store (Knows)

/-! ## Concrete values -/

namespace Value

variable [Upkeep] {s : Store}

lemma yields_ofMatrix (hs : Good s) (m : Matrix) : Yields s (ofMatrix m) := by
  unfold ofMatrix
  exact (yields_fresh hs).bind fun k t ht _ _ => .pure ht (by simp)

lemma yields_ofMatrixResult (hs : Good s) (result : Except MatrixFault Matrix) :
    Yields s (ofMatrixResult result) := by
  unfold ofMatrixResult
  exact (Yields.ofExcept hs fun m _ => Store.knows_plain m).bind fun m t ht _ _ =>
    yields_ofMatrix ht m

lemma yields_ofOperation (hs : Good s) (op : Number → Number → Number) (a b : Number) :
    Yields s (ofOperation op a b) := by
  unfold ofOperation
  exact (yields_settle hs _).bind fun n t ht _ _ => .pure ht (by simp)

omit [Upkeep] in
lemma holds_of_fieldValue {v w : Value} {name : String} {f : Function}
    (h : v.fieldValue name = .ok w) (hf : w.Holds f) : v.Holds f := by
  unfold fieldValue at h
  split at h
  · split at h
    · rename_i entry hfound
      cases h
      exact .member (List.mem_of_find?_eq_some hfound) hf
    · cases h
  · cases h

omit [Upkeep] in
lemma holds_of_element {v w : Value} {arguments : List Value} {f : Function}
    (h : v.element arguments = .ok w) (hf : w.Holds f) : v.Holds f := by
  unfold element at h
  split at h
  · split at h
    · unfold itemAt at h
      split at h
      · rename_i item hitem
        cases h
        split at hitem
        · exact .item (List.mem_of_getElem? hitem) hf
        · cases hitem
      · cases h
    · cases h
  · split at h
    · rename_i row hfound
      cases h
      exact .row (List.mem_of_find?_eq_some hfound) hf
    · cases h
  · cases h

end Value

namespace Evaluator

variable [Upkeep] {s : Store} (ev : Evaluator)

lemma yields_add (hs : Good s) (left right : Value) : Yields s (ev.add left right) := by
  unfold add
  split
  · exact Value.yields_ofMatrixResult hs _
  · exact Value.yields_ofMatrixResult hs _
  · exact Value.yields_ofMatrixResult hs _
  · exact Value.yields_ofOperation hs _ _ _
  · exact .throw hs _

lemma yields_sum (hs : Good s) (values : List Value) : Yields s (ev.sum values) := by
  unfold sum
  exact .foldlM hs (by simp) _ fun b a _ t ht _ _ => yields_add ev ht b a

lemma yields_inverse (hs : Good s) (v : Value) : Yields s (ev.inverse v) := by
  unfold inverse
  split
  · exact Value.yields_ofMatrixResult hs _
  · exact Value.yields_ofOperation hs _ _ _
  · exact .throw hs _

lemma yields_transpose (hs : Good s) (v : Value) : Yields s (ev.transpose v) := by
  unfold transpose
  split
  · exact Value.yields_ofMatrix hs _
  · exact .pure hs (by simp)
  · exact .throw hs _

end Evaluator

namespace Resolver

variable [Upkeep] {s : Store}

lemma yields_modifyTally (hs : Good s) (f : Tally → Tally) (r : Resolver) :
    Yields s (modify (Store.modifyTally f r) : Build PUnit) := fun d =>
  ⟨hs.of_eq (Growing.le_final (x := (modify (Store.modifyTally f r) : Build PUnit)) d s) rfl rfl rfl,
    trivial⟩

omit [Upkeep] in
lemma holds_of_fieldOf {r : Resolver} {v w : Value} {name : String} {f : Function}
    (h : r.fieldOf v name = .ok w) (hf : w.Holds f) : v.Holds f := by
  unfold fieldOf at h
  split at h
  · rename_i derived _
    cases hsource : v.fieldValue derived.source with
    | error e =>
      rw [hsource] at h
      cases h
    | ok u =>
      rw [hsource] at h
      cases h
      unfold DerivedField.value at hf
      split at hf
      · cases hf
      · exact Value.holds_of_fieldValue hsource hf
  · exact Value.holds_of_fieldValue h hf

lemma yields_field (hs : Good s) {v : Value} (hv : s.Knows v) (r : Resolver) (name : String) :
    Yields s (r.field v name) := by
  unfold field
  refine (yields_modifyTally hs _ r).bind fun _ t ht hle _ => ?_
  exact .ofExcept ht fun w hw f hf => (hv f (holds_of_fieldOf hw hf)).mono hle

lemma yields_element (hs : Good s) {v : Value} (hv : s.Knows v) (r : Resolver)
    (arguments : List Value) : Yields s (r.element v arguments) := by
  unfold element
  refine (yields_modifyTally hs _ r).bind fun _ t ht hle _ => ?_
  exact .ofExcept ht fun w hw f hf => (hv f (Value.holds_of_element hw hf)).mono hle

end Resolver

mutual

theorem Expr.knows_value? {s : Store} (hs : s.WellFormed) :
    ∀ {e : Expr} {v : Value}, s.Knows e → e.value? = some v → s.Knows v
  | .node _ _ (.number n), v, _, h => by
    simp only [value?, Option.some.injEq] at h
    subst h
    simp
  | .node _ _ (.object w _), v, he, h => by
    simp only [value?, Option.some.injEq] at h
    subst h
    exact (hs.admits he).functions
  | .node _ _ (.field _), v, _, h => by
    simp only [value?, Option.some.injEq] at h
    subst h
    simp
  | .node _ _ (.function f), v, he, h => by
    simp only [value?, Option.some.injEq] at h
    subst h
    simpa using (hs.admits he).functions f rfl
  | .node _ _ (.tuple items), v, he, h => by
    simp only [value?, Option.map_eq_some_iff] at h
    obtain ⟨vs, hvs, rfl⟩ := h
    simpa using knows_values? hs (hs.children he) hvs
  | .node _ _ (.symbol _), _, _, h | .node _ _ (.apply _ _), _, _, h | .node _ _ (.sum _), _, _, h
  | .node _ _ (.generator _ _ _), _, _, h | .node _ _ (.chain _), _, _, h
  | .node _ _ (.inverse _), _, _, h | .node _ _ (.transpose _), _, _, h
  | .node _ _ (.indexedSum _ _ _ _), _, _, h | .node _ _ (.collectionSum _ _ _), _, _, h => by
    simp [value?] at h

theorem Expr.knows_values? {s : Store} (hs : s.WellFormed) :
    ∀ {es : List Expr} {vs : List Value}, s.Knows es → values? es = some vs → s.Knows vs
  | [], vs, _, h => by
    simp only [values?, Option.some.injEq] at h
    subst h
    simp
  | e :: es, vs, hes, h => by
    rw [Store.knows_cons] at hes
    rw [values?] at h
    split at h
    · rename_i v ws hv hws
      cases h
      exact Store.knows_cons.2 ⟨knows_value? hs hes.1 hv, knows_values? hs hes.2 hws⟩
    · cases h

end

section Calls

variable [Upkeep] {s : Store}

/-- A function that computes the value of a call keeps the invariant. -/
def YieldsCalled (call : Function → List Value → Build Value) : Prop :=
  ∀ (s : Store) (f : Function) (args : List Value), Good s → s.Knows f → s.Knows args →
    Yields s (call f args)

/-- A function that applies one value to another keeps the invariant. -/
def YieldsApplied (apply : Value → Value → Build Value) : Prop :=
  ∀ (s : Store) (target argument : Value), Good s → s.Knows target → s.Knows argument →
    Yields s (apply target argument)

lemma Evaluator.yields_applyWith (ev : Evaluator) {call : Function → List Value → Build Value}
    (hcall : YieldsCalled call) : YieldsApplied (ev.applyWith call) := by
  intro s target argument hs ht ha
  unfold applyWith
  split
  · rename_i f
    refine hcall s f _ hs (by simpa using ht) ?_
    unfold Value.arguments
    split
    · split
      · simpa using ha
      · simpa using ha
    · simpa using ha
  · exact Value.yields_ofMatrixResult hs _
  · exact Value.yields_ofMatrix hs _
  · exact Value.yields_ofMatrix hs _
  · exact Resolver.yields_field hs ht _ _
  · exact Resolver.yields_element hs ht _ _
  · exact Resolver.yields_element hs ht _ _
  · exact Resolver.yields_element hs ht _ _
  · exact Resolver.yields_element hs ht _ _
  · exact Value.yields_ofOperation hs _ _ _
  · exact .throw hs _

lemma Builtin.yields_evaluate (hs : Good s) (b : Builtin) (args : List Number) :
    Yields s (b.evaluate args) := by
  unfold evaluate
  split
  · exact .pure hs (by simp)
  · exact .pure hs (by simp)
  · exact .pure hs (by simp)
  · exact .pure hs (by simp)
  · exact Value.yields_ofOperation hs _ _ _
  · exact .pure hs (by simp)

omit [Upkeep] in
lemma Value.knows_argument {args : List Value} (h : s.Knows args) (k : ℕ) :
    s.Knows (args.getD k (.number .zero)) := by
  rw [List.getD_eq_getElem?_getD]
  cases hk : args[k]? with
  | none => simp
  | some v => exact h v (List.mem_of_getElem? hk)

namespace Reply

mutual

/-- A reply stands for a value that holds nothing but what the arguments hold. -/
theorem yields_value {s : Store} (hs : Good s) {args : List Value} (h : s.Knows args) :
    ∀ r : Reply, Yields s (r.value args)
  | .number _ => by
    unfold value
    exact .pure hs (by simp)
  | .matrix m => by
    unfold value
    exact Value.yields_ofMatrix hs m
  | .argument k => by
    unfold value
    exact .pure hs (Value.knows_argument h k)
  | .tuple items => by
    unfold value
    exact (yields_values hs h items).bind fun vs t ht _ hvs => .pure ht (by simpa using hvs)

theorem yields_values {s : Store} (hs : Good s) {args : List Value} (h : s.Knows args) :
    ∀ rs : List Reply, Yields s (values args rs)
  | [] => by
    unfold values
    exact .pure hs (by simp)
  | r :: rs => by
    unfold values
    refine (yields_value hs h r).bind fun v t ht hle hv => ?_
    exact (yields_values ht (h.mono hle) rs).bind fun vs u hu hle' hvs =>
      .pure hu (by simpa using ⟨hv.mono hle', hvs⟩)

end

end Reply

lemma NativeRule.yields_evaluate (hs : Good s) (rule : NativeRule) {args : List Value}
    (hargs : s.Knows args) : Yields s (rule.evaluate args) := by
  unfold evaluate
  split
  · exact Reply.yields_value hs hargs _
  · exact .throw hs _
  · exact .throw hs _

lemma Function.yields_numericArguments (hs : Good s) (name : String) (args : List Value) :
    Yields s (numericArguments name args) := by
  induction args generalizing s with
  | nil =>
    unfold numericArguments
    exact .pure hs (by simp)
  | cons v args ih =>
    cases v with
    | number n =>
      unfold numericArguments
      exact (ih hs).bind fun ns t ht _ hns => .pure ht (by simpa using hns)
    | _ =>
      unfold numericArguments
      exact .throw hs _

variable [Upkeep.Products]

/-- A function that transforms an expression keeps the invariant. -/
def YieldsEach (normalize : Expr → Build Expr) : Prop :=
  ∀ (s : Store) (e : Expr), Good s → s.Knows e → Yields s (normalize e)

lemma Function.yields_evaluateWith {normalize : Expr → Build Expr} [∀ e, Growing (normalize e)]
    (hnormalize : YieldsEach normalize) : YieldsCalled (evaluateWith normalize) := by
  intro s f args hs hf hargs
  unfold evaluateWith
  refine .ite (fun _ => .throw hs _) fun _ => ?_
  split
  · exact (yields_numericArguments hs _ args).bind fun ns t ht _ _ => Builtin.yields_evaluate ht _ ns
  · exact NativeRule.yields_evaluate hs _ hargs
  · rename_i params body _
    rw [Store.knows_lambda] at hf
    refine (Expr.yields_constants _ args hs hargs).bind fun constants t ht hle hconstants => ?_
    refine (Expr.yields_substitute t _ body ht (fun pair hpair => ?_) (hf.2.mono hle)).bind
      fun bound u hu hle' hbound => ?_
    · exact ⟨(hf.1 _ (List.of_mem_zip hpair).1).mono hle, hconstants _ (List.of_mem_zip hpair).2⟩
    refine (hnormalize u bound hu hbound).bind fun result v hv hle'' hresult => ?_
    split
    · rename_i w hw
      exact .pure hv (Expr.knows_value? hv.wellFormed hresult hw)
    · exact .throw hv _

end Calls

/-! ## Normalization -/

namespace Expr

variable [Upkeep] [Upkeep.Products] {s : Store} {m : Memo}

lemma yields_reducePower (hs : Good s) {base exponent : Expr} (hb : s.Knows base)
    (he : s.Knows exponent) : Yields s (reducePower base exponent) := by
  have hfactors := knows_factors hs.wellFormed hb
  unfold reducePower
  refine .ite (fun _ => ?_) fun _ => ?_
  · refine (Yields.mapM hs _ fun f hf t ht hle =>
      yields_power ht ((hfactors f hf).mono hle) (he.mono hle)).bind fun raised t ht hle hraised => ?_
    exact (yields_product t raised ht hraised).map fun e u _ h => by simpa using h
  · split
    · rename_i innerBase innerExponent hpower
      obtain ⟨hinner, hinner'⟩ := knows_power? hs.wellFormed hb hpower
      refine (yields_product s _ hs (by grind)).bind fun merged t ht hle hmerged => ?_
      exact (yields_power ht (hinner.mono hle) hmerged).map fun e u _ h => by simpa using h
    · exact .pure hs (by simp)

lemma yields_reduceTranspose (ev : Evaluator) (hs : Good s) {inner : Expr} (h : s.Knows inner) :
    Yields s (reduceTranspose ev inner) := by
  have hfactors := knows_factors hs.wellFormed h
  have hchildren := hs.wellFormed.children h
  have htransposes {l : List Expr} (hl : s.Knows l) : Yields s (l.mapM transpose) :=
    Yields.mapM hs l fun f hf t ht hle => yields_transpose ht ((hl f hf).mono hle)
  unfold reduceTranspose
  split
  · refine (ev.yields_transpose hs _).bind fun v t ht hle hv => ?_
    exact (yields_constant _ v ht hv).map fun e u _ h => by simpa using h
  · split
    · rename_i items hkind
      rw [children, hkind] at hchildren
      refine (htransposes (by simpa [Kind.children] using hchildren)).bind fun l t ht hle hl => ?_
      exact (yields_chain t l ht hl).map fun e u _ h => by simpa using h
    · refine .ite (fun _ => ?_) fun _ => .pure hs (by simp)
      refine (htransposes hfactors).bind fun l t ht hle hl => ?_
      exact (yields_product t l ht hl).map fun e u _ h => by simpa using h

omit [Upkeep.Products] in
lemma yields_foldFactor {apply : Value → Value → Build Value} [∀ v w, Growing (apply v w)]
    (happly : YieldsApplied apply) (hs : Good s) {state : List Expr × Bool} {factor : Expr}
    (hstate : s.Knows state) (hfactor : s.Knows factor) :
    Yields s (foldFactor apply state factor) := by
  obtain ⟨reversed, folded⟩ := state
  unfold foldFactor
  split
  · rename_i last rest next hstate' hnext
    have hstate : s.Knows (last :: rest) := by simpa [← hstate'] using hstate.1
    rw [Store.knows_cons] at hstate
    split
    · rename_i previous hprevious
      refine (happly s previous next hs (knows_value? hs.wellFormed hstate.1 hprevious)
        (knows_value? hs.wellFormed hfactor hnext)).bind fun v t ht hle hv => ?_
      refine (yields_constant _ v ht hv).bind fun e u hu hle' he => ?_
      exact .pure hu (by grind)
    · exact .pure hs (by grind)
  · exact .pure hs (by grind)

lemma yields_unrolled (hs : Good s) {index body : Expr} (hi : s.Knows index) (hb : s.Knows body)
    (first : ℤ) (count : ℕ) : Yields s (unrolled index body first count) := by
  induction count generalizing s first with
  | zero =>
    unfold unrolled
    exact .pure hs (by simp)
  | succ count ih =>
    unfold unrolled
    refine (yields_int hs _).bind fun k t ht hle hk => ?_
    refine (yields_substitute t _ body ht (by grind) (hb.mono hle)).bind fun e u hu hle' he => ?_
    refine (ih hu ((hi.mono hle).mono hle') ((hb.mono hle).mono hle') _).bind
      fun es v hv hle'' hes => ?_
    exact .pure hv (by grind)

lemma yields_unrolledOver (hs : Good s) {index body : Expr} (hi : s.Knows index)
    (hb : s.Knows body) {items : List Value} (hitems : s.Knows items) :
    Yields s (unrolledOver index body items) := by
  induction items generalizing s with
  | nil =>
    unfold unrolledOver
    exact .pure hs (by simp)
  | cons item items ih =>
    unfold unrolledOver
    rw [Store.knows_cons] at hitems
    refine (yields_constant _ item hs hitems.1).bind fun v t ht hle hv => ?_
    refine (yields_substitute t _ body ht (by grind) (hb.mono hle)).bind fun e u hu hle' he => ?_
    refine (ih hu ((hi.mono hle).mono hle') ((hb.mono hle).mono hle')
      ((hitems.2.mono hle).mono hle')).bind fun es v hv hle'' hes => ?_
    exact .pure hv (by grind)

/-- A function that normalizes with a memo keeps the invariant. -/
def YieldsVisited (visit : Expr → Memoized Memo Expr) : Prop :=
  ∀ (s : Store) (m : Memo) (e : Expr), Good (s, m) → s.Knows e → Yields (s, m) (visit e)

omit [Upkeep.Products] in
lemma yields_settleNode {visit : Expr → Memoized Memo Expr} (hvisit : YieldsVisited visit)
    {reduce : Memoized Memo (Option Expr)} [Growing reduce] (hs : Good (s, m)) (hreduce : Yields (s, m) reduce) {e rebuilt : Expr}
    (he : s.Knows e) (hrebuilt : s.Knows rebuilt) :
    Yields (s, m) (settleNode visit reduce e rebuilt) := by
  unfold settleNode
  refine .ite (fun _ => ?_) fun _ => hvisit s m rebuilt hs hrebuilt
  refine hreduce.bind fun next p hp hle hnext => ?_
  split
  · refine .ite (fun _ => .pure hp (he.mono hle)) fun _ => hvisit _ _ _ hp ?_
    exact Store.knows_some.1 hnext
  · exact .pure hp (he.mono hle)

section Visit

variable {visit : Expr → Memoized Memo Expr} [∀ e, Growing (visit e)]

lemma yields_entriesAt (hvisit : YieldsVisited visit) (hs : Good (s, m)) {element : Expr}
    (h : s.Knows element) (positions : List (ℕ × ℕ)) :
    Yields (s, m) (entriesAt visit element positions) := by
  induction positions generalizing s m with
  | nil =>
    unfold entriesAt
    exact .pure hs (by simp)
  | cons position rest ih =>
    unfold entriesAt
    refine (yields_beside hs fun hs => yields_int hs _).bind fun row p₁ hp₁ h₁ hrow => ?_
    refine (yields_beside hp₁ fun hs => yields_int hs _).bind fun col p₂ hp₂ h₂ hcol => ?_
    have hwf := hp₂.wellFormed
    refine (yields_beside hp₂ fun hs => yields_substitute _ _ element hs ?_
      ((h.mono h₁).mono h₂)).bind fun bound p₃ hp₃ h₃ hbound => ?_
    · simp only [Store.knows_cons, Store.knows_pair, Store.knows_nil, and_true]
      exact ⟨⟨hwf.rowIndex, hrow.mono h₂⟩, hwf.colIndex, hcol⟩
    refine (hvisit _ _ bound hp₃ hbound).bind fun entry p₄ hp₄ h₄ hentry => ?_
    split
    · exact .pure hp₄ (by simp)
    · refine (ih hp₄ ((((h.mono h₁).mono h₂).mono h₃).mono h₄)).bind fun es p₅ hp₅ _ _ => ?_
      refine .pure hp₅ ?_
      cases es with
      | none => simp
      | some es => simp [Knows, Knowable.KnownBy]

lemma yields_tabulate (hvisit : YieldsVisited visit) (hs : Good (s, m)) {element : Expr}
    (h : s.Knows element) (maxUnroll rows cols : ℕ) :
    Yields (s, m) (tabulate visit maxUnroll rows cols element) := by
  unfold tabulate
  refine .ite (fun _ => .pure hs (by simp)) fun _ => .ite (fun _ => .pure hs (by simp)) fun _ => ?_
  refine (yields_entriesAt hvisit hs h _).bind fun entries p hp hle _ => ?_
  split
  · exact (yields_beside hp fun hs => yields_ofMatrix hs _).map fun e _ _ h => by simpa using h
  · exact .pure hp (by simp)

lemma yields_reduceNode (settings : NormalSettings) {apply : Value → Value → Build Value}
    [∀ v w, Growing (apply v w)] (happly : YieldsApplied apply) (hvisit : YieldsVisited visit)
    (hs : Good (s, m)) {e : Expr} (he : s.Knows e) :
    Yields (s, m) (reduceNode settings apply visit e) := by
  have hwf := hs.wellFormed
  have hchildren := hwf.children he
  -- The value of a constant goes into the store as an expression.
  have hconstant {x : Build Value} [Growing x] (hx : Good s → Yields s x) :
      Yields (s, m) (do
        let v ← x
        some <$> (liftM (constant .declared v) : Memoized Memo Expr)) := by
    refine (yields_beside hs hx).bind fun v p hp hle hv => ?_
    exact (yields_beside hp fun hs => yields_constant _ v hs hv).map fun e _ _ h => by
      simpa using h
  unfold reduceNode
  split
  · rename_i target argument hkind
    simp only [children, hkind, Kind.children, Store.knows_cons] at hchildren
    split
    · rename_i t a ht ha
      exact hconstant fun hs =>
        happly s t a hs (knows_value? hwf hchildren.1 ht) (knows_value? hwf hchildren.2.1 ha)
    · split
      · rename_i base exponent hpower
        obtain ⟨hb, hexp⟩ := knows_power? hwf he hpower
        exact yields_beside hs fun hs => yields_reducePower hs hb hexp
      · exact .pure hs (by simp)
  · split
    · exact hconstant fun hs => settings.yields_sum hs _
    · exact .pure hs (by simp)
  · rename_i items hkind
    simp only [children, hkind, Kind.children] at hchildren
    refine (yields_beside hs fun hs => Yields.foldlM hs (by simp) items
      fun b a ha t ht hle hb => yields_foldFactor happly ht hb ((hchildren a ha).mono hle)).bind
      fun state p hp hle hstate => ?_
    refine .ite (fun _ => ?_) fun _ => .pure hp (by simp)
    exact (yields_beside hp fun hs => yields_chain _ _ hs (Store.knows_reverse.2 hstate.1)).map
      fun e _ _ h => by simpa using h
  · split
    · exact hconstant fun hs => settings.yields_inverse hs _
    · exact .pure hs (by simp)
  · rename_i inner hkind
    simp only [children, hkind, Kind.children, Store.knows_cons] at hchildren
    exact yields_beside hs fun hs => yields_reduceTranspose _ hs hchildren.1
  · rename_i rows cols element hkind
    simp only [children, hkind, Kind.children, Store.knows_cons] at hchildren
    exact yields_tabulate hvisit hs hchildren.1 _ _ _
  · rename_i index lower upper body hkind
    simp only [children, hkind, Kind.children, Store.knows_cons] at hchildren
    split
    · refine .ite (fun _ => ?_) fun _ => .ite (fun _ => .pure hs (by simp)) fun _ => ?_
      · exact (yields_beside hs yields_zero).map fun e _ _ h => by simpa using h
      · refine (yields_beside hs fun hs =>
          yields_unrolled hs hchildren.1 hchildren.2.2.2.1 _ _).bind fun terms p hp hle hterms => ?_
        exact (yields_beside hp fun hs => yields_sum _ terms hs hterms).map fun e _ _ h => by
          simpa using h
    · exact .pure hs (by simp)
  · rename_i index collection body hkind
    simp only [children, hkind, Kind.children, Store.knows_cons] at hchildren
    split
    · rename_i items harray
      have hitems := knows_value? hwf hchildren.2.1 harray
      rw [Store.knows_array] at hitems
      refine .ite (fun _ => .pure hs (by simp)) fun _ => ?_
      refine (yields_beside hs fun hs =>
        yields_unrolledOver hs hchildren.1 hchildren.2.2.1 hitems).bind fun terms p hp hle hterms => ?_
      exact (yields_beside hp fun hs => yields_sum _ terms hs hterms).map fun e _ _ h => by
        simpa using h
    · exact .pure hs (by simp)
  · exact .pure hs (by simp)

end Visit

lemma yields_normalizeAux (depth : ℕ) (settings : NormalSettings) :
    YieldsVisited (normalizeAux depth settings) := by
  induction depth generalizing settings with
  | zero =>
    intro s m e hs _
    unfold normalizeAux
    exact .throw hs _
  | succ depth ih =>
    intro s m e hs he
    have hcall : YieldsCalled (Function.evaluateWith fun body =>
        Build.forgetting ∅ (normalizeAux depth { toEvaluator := settings.toEvaluator } body)) :=
      Function.yields_evaluateWith fun s e hs he =>
        yields_forgetting (ih _ s ∅ e (hs.pair knows_empty) he)
    unfold normalizeAux
    refine (yields_memo hs).bind fun memo p hp hle hmemo => ?_
    split
    · rename_i known hknown
      exact .pure hp (hmemo _ _ hknown)
    · have hchildren := hp.wellFormed.children (he.mono hle)
      refine (Yields.mapM hp _ fun c hc t ht hle' =>
        ih settings _ _ c ht ((hchildren c hc).mono hle')).bind fun news q hq h₁ hnews => ?_
      have he := (he.mono hle).mono h₁
      refine (yields_beside hq fun hs => yields_rebuild _ e news hs he hnews).bind
        fun rebuilt r hr h₂ hrebuilt => ?_
      refine (yields_settleNode (ih settings) hr (yields_reduceNode settings
        (settings.yields_applyWith hcall) (ih settings) hr (he.mono h₂)) (he.mono h₂) hrebuilt).bind
        fun result u hu h₃ hresult => ?_
      refine (yields_modifyMemo hu (knows_insert (knows_insert hu.knows_memo hresult _)
        hresult _)).bind fun _ v hv h₄ _ => ?_
      exact .pure hv (hresult.mono h₄)

lemma yields_normalizeWith (settings : NormalSettings) : YieldsEach (normalizeWith settings) := by
  intro s e hs he
  unfold normalizeWith
  refine (Yields.read hs).bind fun depth t ht hle _ => yields_forgetting ?_
  exact yields_normalizeAux depth settings t ∅ e (ht.pair knows_empty)
    (he.mono hle)

end Expr

variable [Upkeep] [Upkeep.Products]

/-- The normalizer that comes back holds known expressions only, also after a failure. -/
lemma Normalizer.yields_normalize {s : Store} (hs : Good s) {n : Normalizer} (hn : s.Knows n)
    {e : Expr} (he : s.Knows e) : Yields s (n.normalize e) := by
  unfold normalize
  refine (Yields.read hs).bind fun depth t ht hle _ => ?_
  have hmemo : t.Knows n.memo := Knows.mono hn hle
  have hrun := Expr.yields_normalizeAux depth n.settings t n.memo e
    (ht.pair hmemo) (he.mono hle)
  exact (yields_withMemo hrun).bind fun result u hu _ hresult => .pure hu ⟨hresult.1, hresult.2⟩

lemma Function.yields_evaluate (ev : Evaluator) : YieldsCalled (evaluate ev) :=
  Function.yields_evaluateWith (Expr.yields_normalizeWith _)

lemma Evaluator.yields_apply (ev : Evaluator) : YieldsApplied ev.apply :=
  ev.yields_applyWith (Function.yields_evaluate ev)

end TermGraph
