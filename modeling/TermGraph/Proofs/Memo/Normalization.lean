import TermGraph.Proofs.Memo.Mirror
import TermGraph.Proofs.Store.Normalization

/-!
# Normal forms with a memo and without one

What a normalizer remembers is what would be found without its memo, and normal forms are their own normal
forms, unless it takes an index that is bound anew or a new matrix to find them.

* `Expr.normalizePlain`: normalization without a memo.
* `Memo.Trusted`: a memo with normal forms that would be found again, and that are their own normal forms.
* `Expr.mirrorsVisited_normalizeAux`: normalization with a memo that is trusted mirrors normalization
  without one.
* `Normalizer.Used`: the normalizers that any uses lead to.
* `Normalizer.normalize_used`: memos are transparent.
* `Normalizer.normalize_normalForm`: normalization is idempotent.
-/

namespace TermGraph

open Store (Quiet Still Knows)

variable {sure : Bool} {s t : Store} {α β : Type}

namespace Expr

/-! ## Normalization without a memo -/

/-- The normal form of a node, where others are normalized by `normal`. -/
def normalizeNode (normal : NormalSettings → Expr → Memoized Memo Expr) (settings : NormalSettings)
    (e : Expr) : Memoized Memo Expr := do
  let visit := normal settings
  let call := Function.evaluateWith fun body =>
    Build.forgetting ∅ (normal { toEvaluator := settings.toEvaluator } body)
  let apply := settings.applyWith call
  let children ← e.children.mapM visit
  let rebuilt ← rebuild e children
  settleNode visit (reduceNode settings apply visit e) e rebuilt

/-- Normalization without a memo. -/
def normalizePlain : ℕ → NormalSettings → Expr → Memoized Memo Expr
  | 0, _, _ => throw .depthExceeded
  | depth + 1, settings, e => normalizeNode (normalizePlain depth) settings e

instance growing_normalizeNode (normal : NormalSettings → Expr → Memoized Memo Expr)
    [∀ settings e, Growing (normal settings e)] (settings : NormalSettings) (e : Expr) :
    Growing (normalizeNode normal settings e) := by
  unfold normalizeNode
  infer_instance

instance growing_normalizePlain (depth : ℕ) (settings : NormalSettings) (e : Expr) :
    Growing (normalizePlain depth settings e) := by
  induction depth generalizing settings e with
  | zero =>
    unfold normalizePlain
    infer_instance
  | succ depth ih =>
    unfold normalizePlain
    infer_instance

lemma le_normalizeAux (depth : ℕ) (settings : NormalSettings) (e : Expr) (d : ℕ) (s : Store) (m : Memo) :
    s ≤ (finalState (normalizeAux depth settings e d (s, m))).1 :=
  Growing.le_final (x := normalizeAux depth settings e) d (s, m)

section Memo

variable {depth d : ℕ} {settings : NormalSettings} {e r : Expr} {m : Memo}

/-- A node that has a normal form keeps it. -/
lemma normalizeAux_of_some (h : m[e.ordinal]? = some r) :
    normalizeAux (depth + 1) settings e d (s, m) = .ok r (s, m) := by
  rw [normalizeAux, Run.bind_apply_ok (x := Memoized.memo) rfl, h]
  rfl

/-- The normal form of a node that has none yet is remembered for it and for itself. -/
lemma normalizeAux_of_none (h : m[e.ordinal]? = none) :
    normalizeAux (depth + 1) settings e d (s, m) = (do
      let r ← normalizeNode (normalizeAux depth) settings e
      Memoized.modifyMemo fun m => (m.insert e.ordinal r).insert r.ordinal r
      pure r : Memoized Memo Expr) d (s, m) := by
  rw [normalizeAux, Run.bind_apply_ok (x := Memoized.memo) rfl, h]
  simp only [normalizeNode, bind_assoc]

end Memo

/-- From `s` on, `r` is the normal form of `e`. -/
def NormalForm (sure : Bool) (s : Store) (settings : NormalSettings) (e r : Expr) : Prop :=
  Agrees sure s (.ok r) fun depth => normalizePlain depth settings e

end Expr

open TermGraph.Expr (NormalForm normalizePlain)

/-! ## Trusted memos -/

/-- The normal forms in the memo are those that are found without it, and their own normal forms. -/
def Memo.Trusted (sure : Bool) (settings : NormalSettings) (p : Store × Memo) : Prop :=
  ∀ (k : ℕ) (r : Expr), p.2[k]? = some r → ∃ c : Expr, c.ordinal = k ∧ p.1.Knows c ∧
    NormalForm sure p.1 settings c r ∧ NormalForm sure p.1 settings r r

open Memo (Trusted)

namespace Memo.Trusted

variable {settings : NormalSettings} {m : Memo} {e r : Expr}

lemma lasting (sure : Bool) (settings : NormalSettings) : Lasting (Trusted sure settings) := by
  intro s t m hle h k r hk
  obtain ⟨c, hordinal, hc, hr, hr'⟩ := h k r hk
  exact ⟨c, hordinal, hc.mono hle, hr.mono hle, hr'.mono hle⟩

lemma empty : Trusted sure settings (s, ∅) := fun k r hk => by simp at hk

lemma insert (h : Trusted sure settings (s, m)) (he : s.Knows e) (hr : NormalForm sure s settings e r)
    (hr' : NormalForm sure s settings r r) : Trusted sure settings (s, m.insert e.ordinal r) := by
  intro k r' hk
  rw [Std.TreeMap.getElem?_insert] at hk
  split at hk
  · rename_i heq
    rw [Std.LawfulEqCmp.compare_eq_iff_eq] at heq
    obtain rfl := Option.some.inj hk
    exact ⟨e, heq, he, hr, hr'⟩
  · exact h k r' hk

end Memo.Trusted

/-! ## Calls -/

section Calls

variable {settings : NormalSettings}

/-- The calls of `call` come to what those of `plain` come to. -/
def MirrorsCalled (sure : Bool) (call : Function → List Value → Build Value)
    (plain : ℕ → Function → List Value → Build Value) : Prop :=
  ∀ (s : Store) (f : Function) (args : List Value), Good s → s.Knows f → s.Knows args →
    Mirrors sure Unremembered s (call f args) fun k => plain k f args

/-- The applications of `apply` come to what those of `plain` come to. -/
def MirrorsApplied (sure : Bool) (apply : Value → Value → Build Value)
    (plain : ℕ → Value → Value → Build Value) : Prop :=
  ∀ (s : Store) (target argument : Value), Good s → s.Knows target → s.Knows argument →
    Mirrors sure Unremembered s (apply target argument) fun k => plain k target argument

lemma Function.mirrorsCalled_evaluateWith {normalize : Expr → Build Expr} {plain : ℕ → Expr → Build Expr}
    [∀ e, Growing (normalize e)] [∀ k e, Growing (plain k e)]
    (h : ∀ (s : Store) (e : Expr), Good s → s.Knows e →
      Mirrors sure Unremembered s (normalize e) fun k => plain k e) :
    MirrorsCalled sure (evaluateWith normalize) fun k => evaluateWith (plain k) := by
  intro s f args hs hf hargs
  unfold evaluateWith
  refine .ite (fun _ => .throw _) fun _ => ?_
  cases f with
  | builtin b => exact mirrors_self _
  | native _ _ definition => exact mirrors_self _
  | lambda identity name params body =>
    rw [Store.knows_lambda] at hf
    dsimp only
    -- What is done with the normal form of the body is the same both times.
    have hbody (rest : Expr → Build Value) (hgrowing : ∀ result, Growing (rest result))
        (hrest : ∀ q result, Mirrors sure Unremembered q (rest result) fun _ => rest result) :
        Mirrors sure Unremembered s
          (do
            let constants ← Expr.constants .declared args
            let bound ← Expr.substitute (params.zip constants) body
            let result ← normalize bound
            rest result)
          (fun k => do
            let constants ← Expr.constants .declared args
            let bound ← Expr.substitute (params.zip constants) body
            let result ← plain k bound
            rest result) := by
      refine (mirrors_self _).bind fun constants t d hr => ?_
      obtain ⟨ht, hconstants⟩ := (Expr.yields_constants _ args hs hargs d).of_ok hr
      have hle := Growing.le_of_ok hr
      refine (mirrors_self _).bind fun bound u d hr => ?_
      obtain ⟨hu, hbound⟩ := (Expr.yields_substitute t _ body ht (fun pair hpair =>
        ⟨(hf.1 _ (List.of_mem_zip hpair).1).mono hle, hconstants _ (List.of_mem_zip hpair).2⟩)
        (hf.2.mono hle) d).of_ok hr
      exact (h u bound hu hbound).bind fun result v _ _ => hrest v result
    refine hbody _ (fun result => ?_) fun q result => ?_
    · split <;> infer_instance
    · cases result.value? with
      | some w => exact .pure w
      | none => exact .throw _

lemma Evaluator.mirrorsApplied_applyWith {call : Function → List Value → Build Value}
    {plain : ℕ → Function → List Value → Build Value} (hcall : MirrorsCalled sure call plain)
    (ev : Evaluator) : MirrorsApplied sure (ev.applyWith call) fun k => ev.applyWith (plain k) := by
  intro s target argument hs ht ha
  cases target with
  | function f =>
    refine hcall s f _ hs (by simpa using ht) ?_
    unfold Value.arguments
    split
    · split <;> simpa using ha
    · simpa using ha
  | _ =>
    -- Nothing else depends on how functions are called.
    cases argument <;> dsimp only [applyWith] <;> exact mirrors_self _

end Calls

/-! ## Steps -/

namespace Expr

variable {settings : NormalSettings} {m : Memo}

/-- What goes on beside the memo. -/
lemma mirrors_beside (x : Build α) [Growing x] [Persists x x] :
    Mirrors sure (Trusted sure settings) (s, m) (liftM x) fun _ => (liftM x : Memoized Memo α) :=
  .lift (Trusted.lasting _ _) (mirrors_self x)

lemma mirrors_foldFactor {apply : Value → Value → Build Value} {plain : ℕ → Value → Value → Build Value}
    [∀ v w, Growing (apply v w)] [∀ k v w, Growing (plain k v w)] (happly : MirrorsApplied sure apply plain)
    (hs : Good s) {state : List Expr × Bool} {factor : Expr} (hstate : s.Knows state)
    (hfactor : s.Knows factor) :
    Mirrors sure Unremembered s (foldFactor apply state factor) fun k => foldFactor (plain k) state factor := by
  obtain ⟨reversed, folded⟩ := state
  unfold foldFactor
  cases reversed with
  | nil => exact .pure _
  | cons last rest =>
    cases hnext : factor.value? with
    | none => exact .pure _
    | some next =>
      dsimp only
      cases hprevious : last.value? with
      | none => exact .pure _
      | some previous =>
        have hlast : s.Knows last := (Store.knows_cons.1 hstate.1).1
        refine (happly s previous next hs (knows_value? hs.wellFormed hlast hprevious)
          (knows_value? hs.wellFormed hfactor hnext)).bind fun v t d _ => ?_
        exact (mirrors_self _).bind fun e u d _ => .pure _

/-- What `visit` finds for a node is what is found without a memo, and its own normal form. -/
def MirrorsVisited (sure : Bool) (settings : NormalSettings) (visit : Expr → Memoized Memo Expr) : Prop :=
  ∀ (s : Store) (m : Memo) (e : Expr), Good (s, m) → s.Knows e →
    Mirrors sure (Trusted sure settings) (s, m) (visit e) (fun k => normalizePlain k settings e) ∧
    ∀ d r p, Trusted sure settings (s, m) → (sure = true → Quiet s p.1) → visit e d (s, m) = .ok r p →
      NormalForm sure p.1 settings r r

section Visit

variable {visit : Expr → Memoized Memo Expr} [∀ e, Growing (visit e)]

/-- One entry of a generator, with something to do afterwards. -/
lemma mirrors_entry (hyields : YieldsVisited visit) (hvisit : MirrorsVisited sure settings visit)
    (hs : Good (s, m)) {element : Expr} (h : s.Knows element) (i j : Int64)
    {rest : Expr → Memoized Memo α} {plain : ℕ → Expr → Memoized Memo α}
    (hgrowing : ∀ entry, Growing (rest entry)) (hgrowing' : ∀ k entry, Growing (plain k entry))
    (hrest : ∀ p entry, Good p → s ≤ p.1 →
      Mirrors sure (Trusted sure settings) p (rest entry) fun k => plain k entry) :
    Mirrors sure (Trusted sure settings) (s, m)
      (do
        let row ← int i
        let col ← int j
        let entry ← visit (← substitute [(rowIndex, row), (colIndex, col)] element)
        rest entry : Memoized Memo α)
      (fun k => (do
        let row ← int i
        let col ← int j
        let entry ← normalizePlain k settings (← substitute [(rowIndex, row), (colIndex, col)] element)
        plain k entry : Memoized Memo α)) := by
  refine (mirrors_beside _).bind fun row p₁ d hr₁ => ?_
  obtain ⟨hp₁, hrow⟩ := (yields_beside hs (fun hs => yields_int hs _) d).of_ok hr₁
  have h₁ := Growing.le_of_ok hr₁
  refine (mirrors_beside _).bind fun col p₂ d hr₂ => ?_
  obtain ⟨hp₂, hcol⟩ := (yields_beside hp₁ (fun hs => yields_int hs _) d).of_ok hr₂
  have h₂ := Growing.le_of_ok hr₂
  refine (mirrors_beside _).bind fun bound p₃ d hr₃ => ?_
  have hwf := hp₂.wellFormed
  obtain ⟨hp₃, hbound⟩ := (yields_beside hp₂ (fun hs => yields_substitute _ _ element hs (by
    simp only [Store.knows_cons, Store.knows_pair, Store.knows_nil, and_true]
    exact ⟨⟨hwf.rowIndex, hrow.mono h₂⟩, hwf.colIndex, hcol⟩) ((h.mono h₁).mono h₂)) d).of_ok hr₃
  have h₃ := Growing.le_of_ok hr₃
  refine (hvisit _ _ bound hp₃ hbound).1.bind fun entry p₄ d hr₄ => ?_
  obtain ⟨hp₄, -⟩ := (hyields _ _ bound hp₃ hbound d).of_ok hr₄
  exact hrest p₄ entry hp₄ (((h₁.trans h₂).trans h₃).trans (Growing.le_of_ok hr₄))

lemma mirrors_entriesAt (hyields : YieldsVisited visit) (hvisit : MirrorsVisited sure settings visit)
    (hs : Good (s, m)) {element : Expr} (h : s.Knows element) (positions : List (ℕ × ℕ)) :
    Mirrors sure (Trusted sure settings) (s, m) (entriesAt visit element positions) fun k =>
      entriesAt (normalizePlain k settings) element positions := by
  induction positions generalizing s m with
  | nil =>
    unfold entriesAt
    exact .pure _
  | cons position rest ih =>
    unfold entriesAt
    refine mirrors_entry hyields hvisit hs h _ _ (fun entry => ?_) (fun k entry => ?_) fun p entry hp hle => ?_
    · split <;> infer_instance
    · split <;> infer_instance
    · cases entry.number? with
      | none => exact .pure _
      | some n => exact (ih hp (h.mono hle)).bind fun es _ _ _ => .pure _

lemma mirrors_tabulate (hyields : YieldsVisited visit) (hvisit : MirrorsVisited sure settings visit)
    (hs : Good (s, m)) {element : Expr} (h : s.Knows element) (maxUnroll rows cols : ℕ) :
    Mirrors sure (Trusted sure settings) (s, m) (tabulate visit maxUnroll rows cols element) fun k =>
      tabulate (normalizePlain k settings) maxUnroll rows cols element := by
  unfold tabulate
  refine .ite (fun _ => .pure _) fun _ => .ite (fun _ => .pure _) fun _ => ?_
  refine (mirrors_entriesAt hyields hvisit hs h _).bind_of (fun entries p d _ => ?_) (fun entries => ?_)
    fun k entries => ?_
  · cases entries with
    | none => exact .pure _
    | some entries => exact (mirrors_beside _).map
  all_goals split <;> infer_instance

lemma mirrors_reduceNode {apply : Value → Value → Build Value} {plain : ℕ → Value → Value → Build Value}
    [∀ v w, Growing (apply v w)] [∀ k v w, Growing (plain k v w)] (hyieldsApplied : YieldsApplied apply)
    (happly : MirrorsApplied sure apply plain) (hyields : YieldsVisited visit)
    (hvisit : MirrorsVisited sure settings visit) (hs : Good (s, m)) {e : Expr} (he : s.Knows e) :
    Mirrors sure (Trusted sure settings) (s, m) (reduceNode settings apply visit e) fun k =>
      reduceNode settings (plain k) (normalizePlain k settings) e := by
  have hwf := hs.wellFormed
  have hchildren := hwf.children he
  -- What does neither apply nor normalize anything stays as it is.
  have hbeside {x : Build Expr} [Growing x] [Persists x x] : Mirrors sure (Trusted sure settings) (s, m)
      (some <$> (liftM x : Memoized Memo Expr)) fun _ => some <$> (liftM x : Memoized Memo Expr) :=
    (mirrors_beside x).map
  -- The value of a constant goes into the store as an expression.
  have hconstant {x : Build Value} {y : ℕ → Build Value} [Growing x] [∀ k, Growing (y k)]
      (hx : Mirrors sure Unremembered s x y) : Mirrors sure (Trusted sure settings) (s, m)
        ((liftM x : Memoized Memo Value) >>= fun v =>
          some <$> (liftM (constant .declared v) : Memoized Memo Expr))
        fun k => (liftM (y k) : Memoized Memo Value) >>= fun v =>
          some <$> (liftM (constant .declared v) : Memoized Memo Expr) :=
    (hx.lift (Trusted.lasting _ _)).bind fun v p _ _ => (mirrors_beside _).map
  unfold reduceNode
  cases hkind : e.kind with
  | apply target argument =>
    simp only [children, hkind, Kind.children, Store.knows_cons] at hchildren
    dsimp only
    cases ht : target.value? <;> cases ha : argument.value?
    case some.some t a =>
      exact hconstant (happly s t a hs.of_pair (knows_value? hwf hchildren.1 ht)
        (knows_value? hwf hchildren.2.1 ha))
    all_goals
      dsimp only
      cases e.power? with
      | some power => exact mirrors_beside _
      | none => exact .pure _
  | sum items =>
    dsimp only
    cases values? items with
    | some values => exact hconstant (mirrors_self _)
    | none => exact .pure _
  | chain items =>
    simp only [children, hkind, Kind.children] at hchildren
    have hfold : Mirrors sure Unremembered s (items.foldlM (foldFactor apply) ([], false)) fun k =>
        items.foldlM (foldFactor (plain k)) ([], false) := by
      refine .foldlM (fun state t => Good t ∧ t.Knows state ∧ s ≤ t) items ⟨hs.of_pair, by simp, le_rfl⟩ ?_
      rintro factor hfactor state t ⟨ht, hstate, hle⟩
      have hfactor := (hchildren factor hfactor).mono hle
      refine ⟨mirrors_foldFactor happly ht hstate hfactor, fun state' d u hr => ?_⟩
      obtain ⟨hu, hstate'⟩ := (yields_foldFactor hyieldsApplied ht hstate hfactor d).of_ok hr
      exact ⟨hu, hstate', hle.trans (Growing.le_of_ok hr)⟩
    exact (hfold.lift (Trusted.lasting _ _)).bind fun state p d _ =>
      .ite (fun _ => (mirrors_beside _).map) fun _ => .pure _
  | inverse inner =>
    dsimp only
    cases inner.value? with
    | some v => exact hconstant (mirrors_self _)
    | none => exact .pure _
  | transpose inner => exact mirrors_beside _
  | generator rows cols element =>
    simp only [children, hkind, Kind.children, Store.knows_cons] at hchildren
    exact mirrors_tabulate hyields hvisit hs hchildren.1 _ _ _
  | indexedSum index lower upper body =>
    dsimp only
    split
    · exact .ite (fun _ => hbeside) fun _ => .ite (fun _ => .pure _) fun _ =>
        (mirrors_beside _).bind fun terms p d _ => (mirrors_beside _).map
    · exact .pure _
  | collectionSum index collection body =>
    dsimp only
    split
    · exact .ite (fun _ => .pure _) fun _ =>
        (mirrors_beside _).bind fun terms p d _ => (mirrors_beside _).map
    · exact .pure _
  | _ => exact .pure _

/-- The normal form of a node is that of what one step makes of it, or the node itself. -/
lemma mirrors_settleNode (hvisit : MirrorsVisited sure settings visit)
    {reduce : Memoized Memo (Option Expr)} {plain : ℕ → Memoized Memo (Option Expr)} [Growing reduce]
    [∀ k, Growing (plain k)] (hreduce : Mirrors sure (Trusted sure settings) (s, m) reduce plain)
    (hknows : Yields (s, m) reduce) (hs : Good (s, m)) (e : Expr) {rebuilt : Expr}
    (hrebuilt : s.Knows rebuilt) :
    Mirrors sure (Trusted sure settings) (s, m) (settleNode visit reduce e rebuilt) (fun k =>
      settleNode (normalizePlain k settings) (plain k) e rebuilt) ∧
    ∀ d r p, Trusted sure settings (s, m) → (sure = true → Quiet s p.1) →
      settleNode visit reduce e rebuilt d (s, m) = .ok r p → r = e ∨ NormalForm sure p.1 settings r r := by
  unfold settleNode
  constructor
  · refine .ite (fun _ => hreduce.bind_of (fun next p d hr => ?_) (fun next => ?_) fun k next => ?_) fun _ =>
      (hvisit s m rebuilt hs hrebuilt).1
    · obtain ⟨hp, hknown⟩ := (hknows d).of_ok hr
      cases next with
      | none => exact .pure e
      | some next => exact .ite (fun _ => .pure e) fun _ => (hvisit _ _ next hp (Store.knows_some.1 hknown)).1
    all_goals split <;> infer_instance
  · intro d r p hT hquiet hrun
    split at hrun
    · obtain ⟨next, q, hr, hrun⟩ := Run.bind_eq_ok.1 hrun
      obtain ⟨hq, hknown⟩ := (hknows d).of_ok hr
      have hle := Growing.le_of_ok hr
      cases next with
      | none =>
        cases hrun
        exact .inl rfl
      | some next =>
        dsimp only at hrun
        split at hrun
        · cases hrun
          exact .inl rfl
        · have hle' := Growing.le_of_ok hrun
          have hT := hreduce.of_ok hT (fun h => (hquiet h).left hle hle') hr
          exact .inr ((hvisit _ _ next hq (Store.knows_some.1 hknown)).2 d r p hT
            (fun h => (hquiet h).right hle hle') hrun)
    · exact .inr ((hvisit s m rebuilt hs hrebuilt).2 d r p hT hquiet hrun)

end Visit

section Node

variable {normal : NormalSettings → Expr → Memoized Memo Expr} [∀ settings e, Growing (normal settings e)]

lemma mirrors_normalizeNode (settings : NormalSettings) (hyields : ∀ settings, YieldsVisited (normal settings))
    (hnormal : ∀ settings, MirrorsVisited sure settings (normal settings)) (hs : Good (s, m)) {e : Expr}
    (he : s.Knows e) :
    Mirrors sure (Trusted sure settings) (s, m) (normalizeNode normal settings e) (fun k =>
      normalizeNode (normalizePlain k) settings e) ∧
    ∀ d r p, Trusted sure settings (s, m) → (sure = true → Quiet s p.1) →
      normalizeNode normal settings e d (s, m) = .ok r p → r = e ∨ NormalForm sure p.1 settings r r := by
  have hwf := hs.wellFormed
  have hcalled : YieldsCalled (Function.evaluateWith fun body =>
      Build.forgetting ∅ (normal { toEvaluator := settings.toEvaluator } body)) :=
    Function.yields_evaluateWith fun s e hs he =>
      yields_forgetting (hyields _ s ∅ e (hs.pair knows_empty) he)
  have hcall : MirrorsCalled sure (Function.evaluateWith fun body =>
      Build.forgetting ∅ (normal { toEvaluator := settings.toEvaluator } body)) fun k =>
        Function.evaluateWith fun body =>
          Build.forgetting ∅ (normalizePlain k { toEvaluator := settings.toEvaluator } body) :=
    Function.mirrorsCalled_evaluateWith fun s e hs he =>
      .forgetting Trusted.empty (hnormal _ s ∅ e (hs.pair knows_empty) he).1
  have hchildren : Mirrors sure (Trusted sure settings) (s, m) (e.children.mapM (normal settings)) fun k =>
      e.children.mapM (normalizePlain k settings) := by
    refine .mapM (fun q => Good q ∧ s ≤ q.1) _ ⟨hs, le_rfl⟩ ?_
    rintro c hc ⟨t, m₁⟩ ⟨ht, hle⟩
    have hc : t.Knows c := (hwf.children he c hc).mono hle
    refine ⟨(hnormal settings t m₁ c ht hc).1, fun c' d q hr => ?_⟩
    exact ⟨((hyields settings t m₁ c ht hc d).of_ok hr).1, hle.trans (Growing.le_of_ok hr)⟩
  -- The node over its new children is settled.
  have hsettle {children : List Expr} {rebuilt : Expr} {p q : Store × Memo} {d d' : ℕ}
      (hr : e.children.mapM (normal settings) d (s, m) = .ok children p)
      (hr' : (liftM (rebuild e children) : Memoized Memo Expr) d' p = .ok rebuilt q) := by
    obtain ⟨hp, hchildren⟩ := (Yields.mapM hs e.children (fun c hc t ht hle =>
      hyields settings _ _ c ht ((hwf.children he c hc).mono hle)) d).of_ok hr
    have hep := he.mono (Growing.le_of_ok hr)
    obtain ⟨hq, hrebuilt⟩ := (yields_beside hp (fun hs => yields_rebuild _ e children hs hep hchildren)
      d').of_ok hr'
    have heq := hep.mono (Growing.le_of_ok hr')
    exact mirrors_settleNode (hnormal settings)
      (mirrors_reduceNode (settings.yields_applyWith hcalled)
        (Evaluator.mirrorsApplied_applyWith hcall settings.toEvaluator)
        (hyields settings) (hnormal settings) hq heq)
      (yields_reduceNode settings (settings.yields_applyWith hcalled) (hyields settings) hq heq) hq e hrebuilt
  unfold normalizeNode
  refine ⟨hchildren.bind fun children p d hr => (mirrors_beside _).bind fun rebuilt q d' hr' =>
    (hsettle hr hr').1, fun d r p hT hquiet hrun => ?_⟩
  obtain ⟨children, p₁, hr, hrun⟩ := Run.bind_eq_ok.1 hrun
  obtain ⟨rebuilt, p₂, hr', hrun⟩ := Run.bind_eq_ok.1 hrun
  have h₁ := Growing.le_of_ok hr
  have h₂ := Growing.le_of_ok hr'
  have h₃ := Growing.le_of_ok hrun
  have hT₁ := hchildren.of_ok hT (fun h => (hquiet h).left h₁ (h₂.trans h₃)) hr
  have hT₂ := (mirrors_beside _).of_ok hT₁
    (fun h => ((hquiet h).right h₁ (h₂.trans h₃)).left h₂ h₃) hr'
  exact (hsettle hr hr').2 d r p hT₂ (fun h => (hquiet h).right (h₁.trans h₂) h₃) hrun

end Node

/-- Normalization with a memo that is trusted mirrors normalization without one. -/
theorem mirrorsVisited_normalizeAux (depth : ℕ) (settings : NormalSettings) :
    MirrorsVisited sure settings (normalizeAux depth settings) := by
  induction depth generalizing settings with
  | zero =>
    intro s m e hs he
    unfold normalizeAux
    refine ⟨fun d hT _ => ⟨hT, fun hends => absurd rfl hends⟩, ?_⟩
    rintro _ _ _ - - ⟨⟩
  | succ depth ih =>
    intro s m e hs he
    have hnode := mirrors_normalizeNode settings (fun settings => yields_normalizeAux depth settings) ih hs he
    cases hm : m[e.ordinal]? with
    | some known =>
      have hknown (hT : Trusted sure settings (s, m)) :
          NormalForm sure s settings e known ∧ NormalForm sure s settings known known := by
        obtain ⟨c, hordinal, hc, hr, hr'⟩ := hT _ _ hm
        obtain rfl : c = e := Store.WellFormed.eq_of_ordinal hc he hordinal
        exact ⟨hr, hr'⟩
      refine ⟨fun d hT _ => ?_, fun d r p hT _ hrun => ?_⟩
      · rw [normalizeAux_of_some hm]
        exact ⟨hT, fun _ => (hknown hT).1⟩
      · rw [normalizeAux_of_some hm] at hrun
        cases hrun
        exact (hknown hT).2
    | none =>
      -- What the node comes to is remembered for it and for the result.
      have hdone {d : ℕ} {r : Expr} {p : Store × Memo} (hT : Trusted sure settings (s, m))
          (hquiet : sure = true → Quiet s p.1)
          (hr : normalizeNode (normalizeAux depth) settings e d (s, m) = .ok r p) :
          Trusted sure settings (p.1, (p.2.insert e.ordinal r).insert r.ordinal r) ∧
            NormalForm sure p.1 settings e r ∧ NormalForm sure p.1 settings r r := by
        have hfinal := hnode.1 d hT
        rw [hr] at hfinal
        obtain ⟨hT', hagrees⟩ := hfinal hquiet
        have hform : NormalForm sure p.1 settings e r :=
          (hagrees (.of_ok r p)).succ (fun _ => rfl) rfl
        have hself : NormalForm sure p.1 settings r r := by
          rcases hnode.2 d r p hT hquiet hr with rfl | hself
          · exact hform
          · exact hself
        have hrun : normalizeAux (depth + 1) settings e d (s, m) =
            .ok r (p.1, (p.2.insert e.ordinal r).insert r.ordinal r) := by
          rw [normalizeAux_of_none hm, Run.bind_apply_ok hr]
          rfl
        obtain ⟨-, hknown⟩ := (yields_normalizeAux (depth + 1) settings s m e hs he d).of_ok hrun
        have hle : s ≤ p.1 := Growing.le_of_ok hr
        exact ⟨(hT'.insert (he.mono hle) hform hself).insert hknown hself hself, hform, hself⟩
      refine ⟨fun d hT hquiet => ?_, fun d r p hT hquiet hrun => ?_⟩
      · rw [normalizeAux_of_none hm] at hquiet ⊢
        cases hr : normalizeNode (normalizeAux depth) settings e d (s, m) with
        | error err p =>
          have hfinal := hnode.1 d hT
          rw [hr] at hfinal
          rw [Run.bind_apply_error hr] at hquiet ⊢
          obtain ⟨hT', hagrees⟩ := hfinal hquiet
          exact ⟨hT', fun hends => (hagrees hends).succ (fun _ => rfl) rfl⟩
        | ok r p =>
          rw [Run.bind_apply_ok hr] at hquiet ⊢
          obtain ⟨hT', hform, -⟩ := hdone (p := p) hT hquiet hr
          exact ⟨hT', fun _ => hform⟩
      · rw [normalizeAux_of_none hm] at hrun
        obtain ⟨r', p', hr, hrest⟩ := Run.bind_eq_ok.1 hrun
        cases hrest
        exact (hdone (p := p') hT hquiet hr).2.2

end Expr

/-! ## Normalizers -/

namespace Normalizer

variable {n n' : Normalizer} {s t : Store} {e r : Expr}

lemma normalize_apply (settings : NormalSettings) (m : Memo) (e : Expr) (d : ℕ) (s : Store) :
    (⟨settings, m⟩ : Normalizer).normalize e d s =
      .ok (outcome (Expr.normalizeAux d settings e d (s, m)),
        ⟨settings, (finalState (Expr.normalizeAux d settings e d (s, m))).2⟩)
        (finalState (Expr.normalizeAux d settings e d (s, m))).1 := by
  unfold normalize
  rw [Run.bind_apply_ok (Run.read_apply d s), Run.bind_apply, Build.withMemo]
  cases Expr.normalizeAux d settings e d (s, m) <;> rfl

/-- The normalizers that any uses lead to, and the stores at that time: normalizations of known
expressions, which succeed or fail, and changes of the settings.  In between the store may grow by other
things. -/
inductive Used : Store → Normalizer → Prop
  | new {s : Store} : s.WellFormed → Used s {}
  | grow {s t : Store} {n : Normalizer} : Used s n → s ≤ t → t.WellFormed → Used t n
  | call {s t : Store} {n n' : Normalizer} {e : Expr} {d : ℕ} {answer : Except Error Expr} :
    Used s n → s.Knows e → n.normalize e d s = .ok (answer, n') t → Used t n'
  | withResolver {s : Store} {n : Normalizer} (resolver : Resolver) : Used s n → Used s (n.withResolver resolver)
  | withMatrices {s : Store} {n : Normalizer} (matrices : MatrixArithmetic) : Used s n → Used s (n.withMatrices matrices)
  | withMaxUnroll {s : Store} {n : Normalizer} (maxUnroll : ℕ) : Used s n → Used s (n.withMaxUnroll maxUnroll)
  | reset {s : Store} {n : Normalizer} : Used s n → Used s n.reset

/-- A normalizer in use knows the nodes of its store, and what it remembers would be found again. -/
lemma Used.trusted (h : Used s n) : Good (s, n.memo) ∧ Trusted false n.settings (s, n.memo) := by
  induction h with
  | new hs => exact ⟨(good_store.2 hs).pair knows_empty, .empty⟩
  | grow _ hle ht ih => exact ⟨(good_store.2 ht).pair (ih.1.knows_memo.mono hle), Trusted.lasting _ _ hle ih.2⟩
  | @call s t n n' e d answer hn he hrun ih =>
    rw [normalize_apply] at hrun
    cases hrun
    exact ⟨(Expr.yields_normalizeAux d n.settings s n.memo e ih.1 he d).final,
      ((Expr.mirrorsVisited_normalizeAux d n.settings s n.memo e ih.1 he).1.foretold ih.2 d).1⟩
  | withResolver _ _ ih => exact ⟨ih.1.of_pair.pair knows_empty, .empty⟩
  | withMatrices _ _ ih => exact ⟨ih.1.of_pair.pair knows_empty, .empty⟩
  | withMaxUnroll _ _ ih => exact ⟨ih.1.of_pair.pair knows_empty, .empty⟩
  | reset _ ih => exact ⟨ih.1.of_pair.pair knows_empty, .empty⟩

/-- What a new normalizer answers is settled if it binds no index anew and makes no matrix. -/
lemma settled_of_new {settings : NormalSettings} {answer : Except Error Expr} {d : ℕ} (hs : s.WellFormed)
    (he : s.Knows e) (hrun : ({ settings := settings } : Normalizer).normalize e d s = .ok (answer, n') t)
    (hends : answer ≠ .error .depthExceeded) (hquiet : Quiet s t) :
    Agrees true t answer fun k => normalizePlain k settings e := by
  have hvisited : Expr.MirrorsVisited true settings (Expr.normalizeAux d settings) :=
    Expr.mirrorsVisited_normalizeAux d settings
  have hmirrors := (hvisited s ∅ e ((good_store.2 hs).pair knows_empty) he).1 d .empty
  rw [normalize_apply] at hrun
  cases hrun
  exact (hmirrors fun _ => hquiet).2 hends

/-- **Memos are transparent.**  Whatever a normalizer has been used for, with success or without and under
whatever settings, it answers as a new one with its settings does before or after in the same run, unless
the new one binds an index anew or makes a matrix. -/
theorem normalize_used {u v : Store} {answer answer' : Except Error Expr} {d d' : ℕ} {n'' : Normalizer}
    (hn : Used s n) (he : s.Knows e) (hrun : n.normalize e d s = .ok (answer, n') t) (hu : u.WellFormed)
    (he' : u.Knows e)
    (hnew : ({ settings := n.settings } : Normalizer).normalize e d' u = .ok (answer', n'') v)
    (horder : v ≤ s ∨ t ≤ u) (hends : answer ≠ .error .depthExceeded)
    (hends' : answer' ≠ .error .depthExceeded) (hquiet : Quiet u v) : answer = answer' := by
  have hst := Growing.le_of_ok hrun
  have huv := Growing.le_of_ok hnew
  have hsettled := settled_of_new hu he' hnew hends' hquiet
  have hforetold : Foretold t answer fun k => normalizePlain k n.settings e := by
    obtain ⟨hs, htrusted⟩ := hn.trusted
    have hmirrors := (Expr.mirrorsVisited_normalizeAux d n.settings s n.memo e hs he).1.foretold htrusted d
    rw [normalize_apply] at hrun
    cases hrun
    exact hmirrors.2 hends
  rcases horder with hbefore | hafter
  · exact hforetold.eq_of_settled hsettled hends' (t, ∅) le_rfl (hbefore.trans hst)
  · exact hforetold.eq_of_settled hsettled hends' (v, ∅) (hafter.trans huv) le_rfl

/-- A normalizer that has been used for the sum of two and two, and for nothing after its limit was changed,
is asked for the pair of this sum and three; it answers as a new one with its limit does afterwards. -/
theorem normalize_used_pair :
    let s₁ := (Store.initial.intern .integers (.number (.int 2))).2
    let two := (Store.initial.intern .integers (.number (.int 2))).1
    let s₂ := (s₁.intern .integers (.sum [two, two])).2
    let four := (s₁.intern .integers (.sum [two, two])).1
    let s₃ := (s₂.intern .universal (.tuple [four, two])).2
    let e := (s₂.intern .universal (.tuple [four, two])).1
    ∃ n n₁ n₂ t u v answer r, ({} : Normalizer).normalize four 9 s₃ = .ok (answer, n) t ∧
      n.memo.isEmpty = false ∧ n.normalize e 9 t = .ok (.ok r, n₁) u ∧
      ({ settings := n.settings } : Normalizer).normalize e 9 u = .ok (.ok r, n₂) v := by
  intro s₁ two s₂ four s₃ e
  have hadm₁ : Store.initial.Admits .integers (.number (.int 2)) :=
    ⟨by simp [Kind.children], fun _ h => h.elim, rfl, by simp [Kind.index?]⟩
  obtain ⟨hs₁, htwo, -⟩ := Store.wellFormed_initial.intern hadm₁
  have hadm₂ : s₁.Admits .integers (.sum [two, two]) :=
    ⟨by simpa [Kind.children] using htwo, fun _ h => h.elim, rfl, by simp [Kind.index?]⟩
  obtain ⟨hs₂, hfour, -⟩ := hs₁.intern hadm₂
  have hadm₃ : s₂.Admits .universal (.tuple [four, two]) :=
    ⟨by simpa [Kind.children] using ⟨hfour, htwo.mono (Store.le_intern _ _ s₁)⟩, fun _ h => h.elim, rfl,
      by simp [Kind.index?]⟩
  obtain ⟨hs₃, he, -⟩ := hs₂.intern hadm₃
  have he₃ : s₃.Knows e := he
  have hfour₃ : s₃.Knows four := hfour.mono (Store.le_intern _ _ s₂)
  let p := finalState (Expr.normalizeAux 9 {} four 9 (s₃, ∅))
  let q := finalState (Expr.normalizeAux 9 {} e 9 (p.1, p.2))
  let w := finalState (Expr.normalizeAux 9 {} e 9 (q.1, ∅))
  have hrun : ({} : Normalizer).normalize four 9 s₃ =
      .ok (outcome (Expr.normalizeAux 9 {} four 9 (s₃, ∅)), ⟨{}, p.2⟩) p.1 := normalize_apply _ _ _ _ _
  have hrun' : (⟨{}, p.2⟩ : Normalizer).normalize e 9 p.1 =
      .ok (outcome (Expr.normalizeAux 9 {} e 9 (p.1, p.2)), ⟨{}, q.2⟩) q.1 := normalize_apply _ _ _ _ _
  have hrun'' : ({} : Normalizer).normalize e 9 q.1 =
      .ok (outcome (Expr.normalizeAux 9 {} e 9 (q.1, ∅)), ⟨{}, w.2⟩) w.1 := normalize_apply _ _ _ _ _
  have hp : s₃ ≤ p.1 := Expr.le_normalizeAux 9 {} four 9 s₃ ∅
  have hq : p.1 ≤ q.1 := Expr.le_normalizeAux 9 {} e 9 p.1 p.2
  have hw : q.1 ≤ w.1 := Expr.le_normalizeAux 9 {} e 9 q.1 ∅
  have hused : p.2.isEmpty = false := by decide +kernel
  have hok : (outcome (Expr.normalizeAux 9 {} e 9 (p.1, p.2))).toOption.isSome = true := by decide +kernel
  have hok' : (outcome (Expr.normalizeAux 9 {} e 9 (q.1, ∅))).toOption.isSome = true := by decide +kernel
  have hnew : ((w.1.nodes.toList.drop q.1.nodes.size).all fun e => !e.isSymbol) = true := by decide +kernel
  have hidentity : w.1.nextIdentity = q.1.nextIdentity := by decide +kernel
  -- From here on it does not matter what the nodes are.
  clear_value w q p e four
  have hn : Used p.1 ⟨{}, p.2⟩ := .call (.new hs₃) hfour₃ hrun
  have hq₃ : q.1.WellFormed := good_store.1 (Used.call hn (he₃.mono hp) hrun').trusted.1.of_pair
  have hanswer := normalize_used hn (he₃.mono hp) hrun' hq₃ ((he₃.mono hp).mono hq) hrun'' (.inr le_rfl)
    (Finishes.of_isSome hok) (Finishes.of_isSome hok') (.of_le hw hnew hidentity)
  obtain ⟨r, hr⟩ := exists_of_isSome hok
  rw [← hanswer] at hrun''
  rw [hr] at hrun' hrun''
  exact ⟨_, _, _, _, _, _, _, r, hrun, hused, hrun', hrun''⟩

/-- **Normalization is idempotent.**  If an expression has a normal form, found with a memo or without,
then a new normalizer with the same settings answers later on that the normal form is its own, unless it
binds an index anew or makes a matrix. -/
theorem normalize_normalForm {u v : Store} {answer : Except Error Expr} {d d' : ℕ} {n'' : Normalizer}
    (hn : Used s n) (he : s.Knows e) (hrun : n.normalize e d s = .ok (.ok r, n') t) (hu : u.WellFormed)
    (htu : t ≤ u) (hnew : ({ settings := n.settings } : Normalizer).normalize r d' u = .ok (answer, n'') v)
    (hends : answer ≠ .error .depthExceeded) (hquiet : Quiet u v) : answer = .ok r := by
  obtain ⟨hs, htrusted⟩ := hn.trusted
  have hruns : ∃ p, Expr.normalizeAux d n.settings e d (s, n.memo) = .ok r p ∧ p.1 = t := by
    rw [normalize_apply] at hrun
    cases haux : Expr.normalizeAux d n.settings e d (s, n.memo) with
    | ok r' p =>
      rw [haux] at hrun
      cases hrun
      exact ⟨p, rfl, rfl⟩
    | error err p =>
      rw [haux] at hrun
      cases hrun
  obtain ⟨p, haux, rfl⟩ := hruns
  have hself := (Expr.mirrorsVisited_normalizeAux d n.settings s n.memo e hs he).2 d r p htrusted
    (fun hsure => absurd hsure Bool.false_ne_true) haux
  obtain ⟨-, hr⟩ := (Expr.yields_normalizeAux d n.settings s n.memo e hs he d).of_ok haux
  have hsettled := settled_of_new hu (hr.mono htu) hnew hends hquiet
  exact (hself.eq_of_settled hsettled hends (v, ∅) (htu.trans (Growing.le_of_ok hnew)) le_rfl).symm

/-- The pair of two and two plus two has the normal form of two and four, which is its own one when another
symbol has been made. -/
theorem normalize_normalForm_pair :
    let s₁ := (Store.initial.intern .integers (.number (.int 2))).2
    let two := (Store.initial.intern .integers (.number (.int 2))).1
    let s₂ := (s₁.intern .integers (.sum [two, two])).2
    let four := (s₁.intern .integers (.sum [two, two])).1
    let s₃ := (s₂.intern .universal (.tuple [two, four])).2
    let e := (s₂.intern .universal (.tuple [two, four])).1
    ∃ r n n' t u, ({} : Normalizer).normalize e 9 s₃ = .ok (.ok r, n) t ∧ r ≠ e ∧
      ({} : Normalizer).normalize r 9 (t.intern .reals (.symbol "x")).2 = .ok (.ok r, n') u := by
  intro s₁ two s₂ four s₃ e
  have hadm₁ : Store.initial.Admits .integers (.number (.int 2)) :=
    ⟨by simp [Kind.children], fun _ h => h.elim, rfl, by simp [Kind.index?]⟩
  obtain ⟨hs₁, htwo, -⟩ := Store.wellFormed_initial.intern hadm₁
  have hadm₂ : s₁.Admits .integers (.sum [two, two]) :=
    ⟨by simpa [Kind.children] using htwo, fun _ h => h.elim, rfl, by simp [Kind.index?]⟩
  obtain ⟨hs₂, hfour, -⟩ := hs₁.intern hadm₂
  have hadm₃ : s₂.Admits .universal (.tuple [two, four]) :=
    ⟨by simpa [Kind.children] using ⟨htwo.mono (Store.le_intern _ _ s₁), hfour⟩, fun _ h => h.elim, rfl,
      by simp [Kind.index?]⟩
  obtain ⟨hs₃, he, -⟩ := hs₂.intern hadm₃
  have he₃ : s₃.Knows e := he
  let o := outcome (Expr.normalizeAux 9 {} e 9 (s₃, ∅))
  let r := o.toOption.getD e
  let p := finalState (Expr.normalizeAux 9 {} e 9 (s₃, ∅))
  let u := (p.1.intern .reals (.symbol "x")).2
  let w := finalState (Expr.normalizeAux 9 {} r 9 (u, ∅))
  have hrun : ({} : Normalizer).normalize e 9 s₃ = .ok (o, ⟨{}, p.2⟩) p.1 := normalize_apply _ _ _ _ _
  have hrun' : ({} : Normalizer).normalize r 9 u =
      .ok (outcome (Expr.normalizeAux 9 {} r 9 (u, ∅)), ⟨{}, w.2⟩) w.1 := normalize_apply _ _ _ _ _
  have hpu : p.1 ≤ u := Store.le_intern _ _ _
  have huw : u ≤ w.1 := Expr.le_normalizeAux 9 {} r 9 u ∅
  have hok : o.toOption.isSome = true := by decide +kernel
  have hok' : (outcome (Expr.normalizeAux 9 {} r 9 (u, ∅))).toOption.isSome = true := by decide +kernel
  have hne : r.ordinal ≠ e.ordinal := by decide +kernel
  have hnew : ((w.1.nodes.toList.drop u.nodes.size).all fun e => !e.isSymbol) = true := by decide +kernel
  have hidentity : w.1.nextIdentity = u.nextIdentity := by decide +kernel
  have hr : o = .ok r := by
    obtain ⟨r', hr'⟩ := exists_of_isSome hok
    simp only [r, hr', Except.toOption, Option.getD_some]
  have hsymbol (t : Store) : t.Admits .reals (.symbol "x") :=
    ⟨by simp [Kind.children], fun _ h => h.elim, trivial, by simp [Kind.index?]⟩
  have hu (hp : p.1.WellFormed) : u.WellFormed := (hp.intern (hsymbol _)).1
  have hgoal : u = (p.1.intern .reals (.symbol "x")).2 := rfl
  -- From here on it does not matter what the nodes are.
  clear_value w u p r o e
  subst hr
  have hp := good_store.1 (Used.call (.new hs₃) he₃ hrun).trusted.1.of_pair
  have hanswer := normalize_normalForm (.new hs₃) he₃ hrun (hu hp) hpu hrun' (Finishes.of_isSome hok')
    (.of_le huw hnew hidentity)
  rw [hanswer, hgoal] at hrun'
  exact ⟨r, _, _, _, _, hrun, fun h => hne (by rw [h]), hrun'⟩

end Normalizer

end TermGraph
