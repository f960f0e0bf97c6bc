import TermGraph.Proofs.Program.Lowering

/-!
# Blocks and jobs

A block binds the nodes that its roots share as locals, and then lowers the roots.  A local without
a value is read by a root, which has no value either, so binding it early fails no block that would
have had a value.

* `Lowering.lowered_bindLocals`: the locals of a block have the values of their nodes.
* `Expr.lowersBlocks_lowerBlock`: the block of the body of a loop has the value of the body.
* `Job.realizes_unit`: the functions of a batch have the plain values of the results of its jobs.
-/

namespace TermGraph

open Store (Knows)

/-! ## Blocks -/

namespace Lowering

variable {α : Type} {s : Store} {F : Function → Prop} {params : List Expr}
  {ops : Arithmetic Option} {σ τ : Lowering} {lower : Expr → LowerM Code}

/-- The state inside of a new block. -/
def enter (σ : Lowering) : Lowering :=
  { σ with scopes := ∅ :: σ.scopes }

/-- The state after the innermost block. -/
def leave (σ : Lowering) : Lowering :=
  { σ with scopes := σ.scopes.drop 1 }

/-- The state with one more local in the innermost block. -/
def pushLocal (σ : Lowering) (e : Expr) : Lowering :=
  (bindLocal e σ).2

/-- Lowering goes on from `σ` to `τ` with the same loops around and the same blocks around the
innermost one. -/
structure Extends (σ τ : Lowering) : Prop where
  /-- There is an innermost block. -/
  scopes : ∃ scope scope' rest, σ.scopes = scope :: rest ∧ τ.scopes = scope' :: rest
  /-- The loops are the same. -/
  bound : τ.bound = σ.bound
  /-- Locals are counted up. -/
  nextLocal : σ.nextLocal ≤ τ.nextLocal
  /-- Loop variables are counted up. -/
  nextVariable : σ.nextVariable ≤ τ.nextVariable
  /-- Constants are added at the end. -/
  pool : σ.pool.data <+: τ.pool.data

/-- The outcome of binding locals for some nodes in the innermost block. -/
structure LoweredLocals (s : Store) (F : Function → Prop) (params : List Expr)
    (ops : Arithmetic Option) (σ : Lowering) (l : List Expr) (r : List (ℕ × Code) × Lowering) :
    Prop where
  /-- The innermost block has more locals. -/
  extended : Extends σ r.2
  /-- The state fits together. -/
  tidy : Tidy s F r.2
  /-- Each local refers to what is around it. -/
  refers : ScopedLocals params.length σ.variableIds σ.localIds r.1 r.2.localIds
  /-- One of the nodes has no value, or else the locals have the values of their nodes. -/
  value : ∀ E b, Matches s params ops σ E b → r.2.pool.data <+: E.data →
    (evaluateLocals ops E r.1 = none ∧ ∃ e ∈ l, e.evaluate ops b = none) ∨
      ∃ E', evaluateLocals ops E r.1 = some E' ∧ E'.data = E.data ∧ Matches s params ops r.2 E' b

namespace Extends

variable {υ : Lowering}

lemma refl {scope : Std.TreeMap ℕ ℕ} {rest : List (Std.TreeMap ℕ ℕ)}
    (h : σ.scopes = scope :: rest) : Extends σ σ :=
  ⟨⟨scope, scope, rest, h, h⟩, rfl, le_rfl, le_rfl, List.prefix_refl _⟩

lemma trans (h : Extends σ τ) (h' : Extends τ υ) : Extends σ υ := by
  obtain ⟨scope, scope', rest, hσ, hτ⟩ := h.scopes
  obtain ⟨scope'', scope''', rest', hτ', hυ⟩ := h'.scopes
  obtain ⟨-, rfl⟩ := List.cons.inj (hτ.symm.trans hτ')
  exact ⟨⟨scope, scope''', rest, hσ, hυ⟩, h'.bound.trans h.bound, h.nextLocal.trans h'.nextLocal,
    h.nextVariable.trans h'.nextVariable, h.pool.trans h'.pool⟩

lemma variableIds (h : Extends σ τ) : τ.variableIds = σ.variableIds := by
  rw [Lowering.variableIds, Lowering.variableIds, h.bound]

lemma names (h : Extends σ τ) (params : List Expr) : τ.names params = σ.names params := by
  rw [Lowering.names, Lowering.names, h.bound]

end Extends

lemma Keeps.extended (h : Keeps σ τ) {scope : Std.TreeMap ℕ ℕ} {rest : List (Std.TreeMap ℕ ℕ)}
    (hσ : σ.scopes = scope :: rest) : Extends σ τ :=
  ⟨⟨scope, scope, rest, hσ, h.scopes.trans hσ⟩, h.bound, h.nextLocal, h.nextVariable, h.pool⟩

section PushLocal

variable {scope : Std.TreeMap ℕ ℕ} {rest : List (Std.TreeMap ℕ ℕ)} {e : Expr}

lemma pushLocal_eq (h : σ.scopes = scope :: rest) (e : Expr) :
    σ.pushLocal e = { σ with
      scopes := scope.insert e.ordinal σ.nextLocal :: rest, nextLocal := σ.nextLocal + 1 } := by
  show ({ σ with scopes := _, nextLocal := _ } : Lowering) = _
  simp only [h]

lemma extended_pushLocal (h : σ.scopes = scope :: rest) (e : Expr) :
    Extends σ (σ.pushLocal e) := by
  rw [pushLocal_eq h]
  exact ⟨⟨_, _, rest, h, rfl⟩, rfl, Nat.le_succ _, le_rfl, List.prefix_refl _⟩

lemma local?_pushLocal (h : σ.scopes = scope :: rest) (e' : Expr) :
    (σ.pushLocal e).local? e' = if e.ordinal = e'.ordinal then some σ.nextLocal else σ.local? e' := by
  rw [pushLocal_eq h]
  simp only [local?, h, List.findSome?_cons, Std.TreeMap.getElem?_insert, Std.compare_eq_iff_eq]
  by_cases heq : e.ordinal = e'.ordinal
  · simp only [heq, if_true]
  · simp only [heq, if_false]

/-- A new local does not stand for two nodes. -/
lemma localIds_pushLocal (h : σ.scopes = scope :: rest) (hnew : σ.local? e = none) :
    (σ.pushLocal e).localIds = insert σ.nextLocal σ.localIds := by
  have hscope : scope[e.ordinal]? = none := by
    rw [local?, h] at hnew
    exact List.findSome?_eq_none_iff.1 hnew scope (by simp)
  ext id
  rw [pushLocal_eq h]
  simp only [localIds, h, List.mem_cons, exists_eq_or_imp, Set.mem_ofPred_eq, Set.mem_insert_iff,
    ← or_assoc, Std.TreeMap.getElem?_insert, Std.compare_eq_iff_eq]
  refine or_congr_left ⟨?_, ?_⟩
  · rintro ⟨k, hk⟩
    split at hk
    · exact .inl (Option.some.inj hk).symm
    · exact .inr ⟨k, hk⟩
  · rintro (rfl | ⟨k, hk⟩)
    · exact ⟨e.ordinal, by simp⟩
    · refine ⟨k, ?_⟩
      rw [if_neg (by rintro rfl; rw [hscope] at hk; cases hk)]
      exact hk

lemma Tidy.pushLocal (hσ : Tidy s F σ) (h : σ.scopes = scope :: rest) (hnew : σ.local? e = none) :
    Tidy s F (σ.pushLocal e) := by
  have hids := localIds_pushLocal h hnew
  rw [pushLocal_eq h] at hids ⊢
  refine ⟨?_, hσ.counters, hσ.slots, hσ.functions⟩
  rw [hids]
  rintro id (rfl | hid)
  · exact Nat.lt_succ_self _
  · exact (hσ.locals id hid).trans (Nat.lt_succ_self _)

/-- A new local with the value of its node. -/
lemma Matches.pushLocal (hσ : Tidy s F σ) (h : σ.scopes = scope :: rest) {E : Surroundings}
    {b : Bindings} (hm : Matches s params ops σ E b) (he : s.Knows e) {v : Value}
    (hv : e.evaluate ops b = some v) :
    Matches s params ops (σ.pushLocal e) (E.bindLocal σ.nextLocal v) b where
  names := by
    rw [hm.names, (extended_pushLocal h e).names]
  symbols e' := by
    rw [← hm.symbols e', loopVariable?, loopVariable?, (extended_pushLocal h e).bound]
    rfl
  locals e' id he' hid := by
    rw [local?_pushLocal h] at hid
    split at hid
    · rename_i heq
      obtain rfl := Store.WellFormed.eq_of_ordinal he he' heq
      cases hid
      exact ⟨v, E.bindLocal_locals_self _ v, hv⟩
    · obtain ⟨w, hw, hevaluate⟩ := hm.locals e' id he' hid
      refine ⟨w, ?_, hevaluate⟩
      rw [E.bindLocal_locals_of_ne _ v (hσ.locals id (mem_localIds hid)).ne, hw]

end PushLocal

lemma bindLocals_cons (lower : Expr → LowerM Code) (e : Expr) (l : List Expr) (σ : Lowering) :
    bindLocals lower (e :: l) σ = match σ.local? e with
      | some _ => bindLocals lower l σ
      | none =>
        let r := lower e σ
        let q := bindLocals lower l (r.2.pushLocal e)
        ((r.2.nextLocal, r.1) :: q.1, q.2) := by
  rw [bindLocals]
  show (match σ.local? e with
    | some _ => bindLocals lower l
    | none => do
      let code ← lower e
      let id ← bindLocal e
      return (id, code) :: (← bindLocals lower l)) σ = _
  cases σ.local? e <;> rfl

/-- The locals of a block refer to what is around them and have the values of their nodes. -/
lemma lowered_bindLocals {l : List Expr} (hl : ∀ e ∈ l, s.Knows e)
    (hlower : ∀ e ∈ l, Expr.LowersNode s F params ops lower e) (hσ : Tidy s F σ)
    (hb : ∀ e ∈ l, Expr.BindsOnce (σ.names params) e) {scope : Std.TreeMap ℕ ℕ}
    {rest : List (Std.TreeMap ℕ ℕ)} (hscopes : σ.scopes = scope :: rest) :
    LoweredLocals s F params ops σ l (bindLocals lower l σ) := by
  induction l generalizing σ scope rest with
  | nil => exact ⟨.refl hscopes, hσ, rfl, fun E b hm _ => .inr ⟨E, rfl, rfl, hm⟩⟩
  | cons e l ih =>
    have hl' : ∀ d ∈ l, s.Knows d := fun d hd => hl d (by simp [hd])
    have hlower' : ∀ d ∈ l, Expr.LowersNode s F params ops lower d :=
      fun d hd => hlower d (by simp [hd])
    rw [bindLocals_cons]
    cases hlocal : σ.local? e with
    | some id =>
      have hrest := ih hl' hlower' hσ (fun d hd => hb d (by simp [hd])) hscopes
      refine ⟨hrest.extended, hrest.tidy, hrest.refers, fun E b hm hd => ?_⟩
      refine (hrest.value E b hm hd).imp_left ?_
      rintro ⟨hnone, d, hd, hevaluate⟩
      exact ⟨hnone, d, by simp [hd], hevaluate⟩
    | none =>
      have hcode := hlower e (by simp) σ hσ (hb e (by simp))
      generalize lower e σ = r at hcode
      have hscopes' := hcode.keeps.scopes.trans hscopes
      have hnew : r.2.local? e = none := (hcode.keeps.local? e).trans hlocal
      have hpush := extended_pushLocal hscopes' e
      have hids := localIds_pushLocal hscopes' hnew
      obtain ⟨scope', scope'', rest', -, hscopes''⟩ := hpush.scopes
      have hrest := ih (σ := r.2.pushLocal e) hl' hlower' (hcode.tidy.pushLocal hscopes' hnew)
        (fun d hd => by rw [hpush.names, hcode.keeps.names]; exact hb d (by simp [hd])) hscopes''
      refine ⟨((hcode.keeps.extended hscopes).trans hpush).trans hrest.extended, hrest.tidy,
        ⟨hcode.refers, fun hid => ?_, ?_⟩, fun E b hm hd => ?_⟩
      · rw [← hcode.keeps.localIds] at hid
        exact (hcode.tidy.locals _ hid).ne rfl
      · have hrefers := hrest.refers
        rwa [hpush.variableIds, hcode.keeps.variableIds, hids, hcode.keeps.localIds] at hrefers
      · have hvalue := hcode.value E b hm ((hpush.trans hrest.extended).pool.trans hd)
        rw [evaluateLocals, hvalue]
        cases hv : e.evaluate ops b with
        | none => exact .inl ⟨rfl, e, by simp, hv⟩
        | some v =>
          have hm' := (hm.mono hcode.keeps).pushLocal hcode.tidy hscopes' (hl e (by simp)) hv
          refine (hrest.value _ b hm' hd).imp_left ?_
          rintro ⟨hnone, d, hd, hevaluate⟩
          exact ⟨hnone, d, by simp [hd], hevaluate⟩

lemma localIds_enter (σ : Lowering) : σ.enter.localIds = σ.localIds := by
  ext id
  simp [localIds, enter]

lemma Matches.enter {E : Surroundings} {b : Bindings} (hm : Matches s params ops σ E b) :
    Matches s params ops σ.enter E b where
  names := hm.names
  symbols := hm.symbols
  locals e id he hid := hm.locals e id he (by
    rwa [local?, Lowering.enter, List.findSome?_cons, Std.TreeMap.getElem?_emptyc] at hid)

lemma Tidy.enter (hσ : Tidy s F σ) : Tidy s F σ.enter :=
  ⟨by rw [localIds_enter]; exact hσ.locals, hσ.counters, hσ.slots, hσ.functions⟩

/-- A block over some roots, with its locals before what `x` makes. -/
def inBlock (lower : Expr → LowerM Code) (roots : List Expr) (x : LowerM α) :
    LowerM (List (ℕ × Code) × α) := do
  let locals ← openBlock lower roots
  let a ← x
  closeBlock
  return (locals, a)

/-- What is lowered in a block over some roots, after the locals of the block. -/
lemma lowered_block (roots : List Expr) (x : LowerM α) (hs : s.WellFormed)
    (hroots : ∀ r ∈ roots, s.Knows r) (hσ : Tidy s F σ)
    (hb : ∀ r ∈ roots, Expr.BindsOnce (σ.names params) r)
    (hlower : ∀ r ∈ roots, ∀ e, Expr.Reads e r → Expr.LowersNode s F params ops lower e)
    {R : Set ℕ → Set ℕ → α → Prop} {W : Surroundings → Bindings → α → Prop}
    (hx : ∀ τ, Tidy s F τ → τ.names params = σ.names params →
      Lowered s F params ops τ R W (x τ)) :
    Lowered s F params ops σ
      (fun L V p => ∃ L', ScopedLocals params.length V L p.1 L' ∧ R L' V p.2)
      (fun E b p => (evaluateLocals ops E p.1 = none ∧ ∃ r ∈ roots, r.evaluate ops b = none) ∨
        ∃ E', evaluateLocals ops E p.1 = some E' ∧ W E' b p.2)
      (inBlock lower roots x σ) := by
  have hrun : inBlock lower roots x σ = (((openBlock lower roots σ).1,
      (x (openBlock lower roots σ).2).1), (x (openBlock lower roots σ).2).2.leave) := rfl
  rw [hrun]
  have hshared {e : Expr} (he : e ∈ Expr.sharedNodes roots) :
      ∃ r ∈ roots, Expr.Reads e r := Expr.mem_sharedNodes he
  have hlocals : LoweredLocals s F params ops σ.enter (Expr.sharedNodes roots)
      (openBlock lower roots σ) := by
    refine lowered_bindLocals (fun e he => ?_) (fun e he => ?_) hσ.enter (fun e he => ?_) rfl
    · obtain ⟨r, hr, hreads⟩ := hshared he
      exact hreads.knows hs (hroots r hr)
    · obtain ⟨r, hr, hreads⟩ := hshared he
      exact hlower r hr e hreads
    · obtain ⟨r, hr, hreads⟩ := hshared he
      exact (hb r hr).reads hreads
  generalize openBlock lower roots σ = q at hlocals
  have hresult := hx q.2 hlocals.tidy (hlocals.extended.names params)
  generalize x q.2 = r at hresult
  -- Leaving the block drops its scope, the locals included, but not the numbers that are used up.
  have hleave : r.2.leave.scopes = σ.scopes := by
    obtain ⟨scope, scope', rest, hscopes, hscopes'⟩ := hlocals.extended.scopes
    obtain ⟨-, rfl⟩ := List.cons.inj hscopes
    show r.2.scopes.drop 1 = _
    rw [hresult.keeps.scopes, hscopes']
    rfl
  have hids : r.2.leave.localIds = σ.localIds := by
    rw [localIds, localIds, hleave]
  have hcount : σ.nextLocal ≤ r.2.nextLocal :=
    hlocals.extended.nextLocal.trans hresult.keeps.nextLocal
  refine ⟨⟨hleave, hresult.keeps.bound.trans hlocals.extended.bound, hcount,
      hlocals.extended.nextVariable.trans hresult.keeps.nextVariable,
      hlocals.extended.pool.trans hresult.keeps.pool⟩,
    ⟨fun id hid => ?_, hresult.tidy.counters, hresult.tidy.slots, hresult.tidy.functions⟩,
    ⟨q.2.localIds, ?_, ?_⟩, fun E b hm hd => ?_⟩
  · rw [hids] at hid
    exact (hσ.locals id hid).trans_le hcount
  · have hrefers := hlocals.refers
    rwa [localIds_enter] at hrefers
  · have hrefers := hresult.refers
    rwa [hlocals.extended.variableIds] at hrefers
  · -- Either some local has no value, and then some root that reads it has none, or all have one.
    rcases hlocals.value E b hm.enter (hresult.keeps.pool.trans hd) with
      ⟨hnone, e, he, hevaluate⟩ | ⟨E', hE', hdata, hm'⟩
    · obtain ⟨root, hroot, hreads⟩ := hshared he
      exact .inl ⟨hnone, root, hroot, hreads.evaluate_eq_none hevaluate⟩
    · exact .inr ⟨E', hE', hresult.value E' b hm' (by rwa [hdata])⟩

end Lowering

namespace Expr

open Lowering

variable {s : Store} {F : Function → Prop} {params : List Expr} {ops : Arithmetic Option}

/-- All nodes that a root reads are lowered to code with their values. -/
lemma lowers_reads [ops.Strict] (hs : s.WellFormed) {block : Expr → LowerM Block} {n : ℕ}
    (hblock : LowersBlocks s F params ops n block) {r e : Expr} (h : Reads e r) (hr : s.Knows r)
    (hn : r.ordinal ≤ n) (hF : r.Mentions F) :
    LowersNode s F params ops (lowerWith params block) e := by
  induction h with
  | refl => exact lowers_lowerWith hs hblock e hr hn hF
  | step hc _ ih =>
    have hchild := mem_children_of_mem_operands hc
    exact ih (hs.children hr _ hchild) ((hs.below hr hchild).le.trans hn) (hF.child hchild)

/-- Bodies of loops are lowered to blocks with their values. -/
lemma lowersBlocks_lowerBlock [ops.Strict] (hs : s.WellFormed) (n : ℕ) :
    LowersBlocks s F params ops n (lowerBlock params n) := by
  induction n with
  | zero => exact fun body σ _ hn => absurd hn (Nat.not_lt_zero _)
  | succ n ih =>
    intro body σ hbody hn hF hσ hb
    have hreads {e : Expr} (h : Reads e body) :=
      lowers_reads hs ih h hbody (Nat.lt_succ_iff.1 hn) hF
    have hblock := lowered_block [body] (lowerWith params (lowerBlock params n) body)
      hs (by simpa using hbody) hσ (by simpa using hb) (fun r hr e he => hreads (by simp_all))
      fun τ hτ hnames => hreads .refl τ hτ (by rwa [hnames])
    refine hblock.map (fun p => Block.ofLocals p.1 p.2) ?_ ?_
    · rintro L V p ⟨L', hlocals, hvalue⟩
      exact hlocals.block hvalue
    · rintro E b p (⟨hnone, r, hr, hevaluate⟩ | ⟨E', hE', hvalue⟩)
      · rw [Block.evaluate_ofLocals, hnone, ← List.mem_singleton.1 hr, hevaluate]
        rfl
      · rw [Block.evaluate_ofLocals, hE', ← hvalue]
        rfl

lemma ordinal_le_lastOrdinal {roots : List Expr} {r : Expr} (h : r ∈ roots) :
    r.ordinal ≤ lastOrdinal roots := by
  have hfold (l : List Expr) (n : ℕ) : n ≤ l.foldl (fun n e => max n e.ordinal) n ∧
      ∀ e ∈ l, e.ordinal ≤ l.foldl (fun n e => max n e.ordinal) n := by
    induction l generalizing n with
    | nil => simp
    | cons e l ih =>
      obtain ⟨hn, hl⟩ := ih (max n e.ordinal)
      rw [List.foldl_cons]
      refine ⟨(le_max_left _ _).trans hn, List.forall_mem_cons.2 ⟨(le_max_right _ _).trans hn, hl⟩⟩
  exact (hfold roots 0).2 r h

end Expr

/-! ## Jobs -/

/-- The locals of a function refer to locals before them, and its results to all locals. -/
def SourceFunction.Scoped (f : SourceFunction) : Prop :=
  let n := f.params.length
  ∃ L, ScopedLocals n ∅ ∅ f.locals L ∧ f.value.Scoped n L ∅ ∧
    (∀ c ∈ f.outputs, c.Scoped n L ∅) ∧ ∀ items ∈ f.arrays, ∀ c ∈ items, c.Scoped n L ∅

/-- The surroundings of a function that is called. -/
def Surroundings.initial (args data : List Value) : Surroundings :=
  ⟨args, data, fun _ => none, fun _ => none⟩

namespace Job

open Lowering

/-- The results of a job are nodes of the store, bind no symbol again in its own scope, and contain
functions that satisfy `F` only. -/
structure Lowerable (s : Store) (F : Function → Prop) (job : Job) : Prop where
  /-- The results are nodes of the store. -/
  knows : ∀ r ∈ job.roots, s.Knows r
  /-- No symbol is bound again in its own scope. -/
  bindsOnce : ∀ r ∈ job.roots, r.BindsOnce (job.params.map Expr.ordinal)
  /-- The functions satisfy `F`. -/
  functions : ∀ r ∈ job.roots, r.Mentions F

/-- The outcome of lowering a job with a pool of constants. -/
structure Linearized (s : Store) (F : Function → Prop) (ops : Arithmetic Option) (job : Job)
    (pool : Pool) (r : SourceFunction × Pool) : Prop where
  /-- Constants are added at the end. -/
  pool : pool.data <+: r.2.data
  /-- The pool fits together. -/
  tidy : Tidy s F { pool := r.2 }
  /-- The parameters are those of the job. -/
  params : r.1.params = job.parameters
  /-- All references are to what is bound before. -/
  closed : r.1.Scoped
  /-- The function has the plain values of the results. -/
  value : ∀ args data, args.length = job.params.length → r.2.data <+: data →
    r.1.evaluate ops (.initial args data) = job.evaluate ops args

/-- The lowering of the nodes of a job. -/
def lower (job : Job) : Expr → LowerM Code :=
  Expr.lowerWith job.params (Expr.lowerBlock job.params (Expr.lastOrdinal job.roots))

/-- The results of a job, lowered one after the other. -/
def lowerResults (job : Job) : LowerM (Code × List Code × List (List Code)) := do
  let value ← job.lower job.value
  let outputs ← job.outputs.mapM job.lower
  let arrays ← job.arrays.mapM fun items => items.mapM job.lower
  return (value, outputs, arrays)

/-- The statement list of a job from its parts. -/
def assemble (job : Job) (name : String)
    (r : (List (ℕ × Code) × Code × List Code × List (List Code)) × Lowering) :
    SourceFunction × Pool :=
  (⟨name, job.parameters, r.1.1, r.1.2.1, r.1.2.2.1, r.1.2.2.2⟩, r.2.pool)

lemma linearize_eq (job : Job) (name : String) (pool : Pool) :
    job.linearize name pool =
      job.assemble name (inBlock job.lower job.roots job.lowerResults { pool := pool }) := rfl

lemma lookup_bindings (ordinals : List ℕ) (args : List Value) (i : ℕ) :
    (ordinals.zip args).lookup i = (ordinals.findIdx? (· == i)).bind (args[·]?) := by
  induction ordinals generalizing args with
  | nil => rfl
  | cons k ordinals ih =>
    cases args with
    | nil => simp
    | cons v args =>
      rw [List.zip_cons_cons, List.lookup_cons, List.findIdx?_cons, ih args, BEq.comm]
      cases k == i with
      | true => rfl
      | false => cases h : ordinals.findIdx? (· == i) <;> simp

variable {s : Store} {F : Function → Prop} {ops : Arithmetic Option} {job : Job}

lemma matches_initial {args data : List Value} {pool : Pool}
    (hargs : args.length = job.params.length) :
    Matches s job.params ops { pool := pool } (.initial args data) (job.bindings args) where
  names := by
    rw [bindings, List.map_fst_zip (by simp [hargs])]
    rfl
  symbols e := by
    rw [bindings, lookup_bindings, List.findIdx?_map]
    have hsame : ((fun k => k == e.ordinal) ∘ Expr.ordinal) = (· == e) := by
      funext p
      exact rfl
    rw [hsame]
    cases job.params.findIdx? (· == e) <;> rfl
  locals e id _ hid := by cases hid

lemma mapM_eq_none {α β : Type} {f : α → Option β} {l : List α} {a : α} (ha : a ∈ l)
    (h : f a = none) : l.mapM f = none := by
  induction l with
  | nil => cases ha
  | cons c l ih =>
    rw [List.mapM_cons]
    rcases List.mem_cons.1 ha with rfl | ha
    · rw [h]
      rfl
    · rw [ih ha]
      cases f c <;> rfl

/-- The results of a job have no values if one of them has none. -/
lemma evaluate_eq_none {args : List Value} {r : Expr} (hr : r ∈ job.roots)
    (h : r.evaluate ops (job.bindings args) = none) : job.evaluate ops args = none := by
  unfold evaluate
  rcases List.mem_append.1 hr with hr | hr
  · rcases List.mem_cons.1 hr with rfl | hr
    · rw [h]
      rfl
    · rw [Expr.evaluateAll_eq_none hr h]
      cases job.value.evaluate ops (job.bindings args) <;> rfl
  · obtain ⟨items, hitems, hmem⟩ := List.mem_flatten.1 hr
    have hnone : job.arrays.mapM (Expr.evaluateAll ops (job.bindings args)) = none :=
      mapM_eq_none hitems (Expr.evaluateAll_eq_none hmem h)
    rw [hnone]
    cases job.value.evaluate ops (job.bindings args) <;>
      cases Expr.evaluateAll ops (job.bindings args) job.outputs <;> rfl

lemma mapM_evaluateAll_eq {E : Surroundings} {b : Bindings} {arrays : List (List Expr)}
    {codes : List (List Code)}
    (h : List.Forall₂ (List.Forall₂ fun e c => c.evaluate ops E = e.evaluate ops b) arrays codes) :
    codes.mapM (Code.evaluateAll ops E) = arrays.mapM (Expr.evaluateAll ops b) := by
  induction h with
  | nil => rfl
  | cons hitems _ ih => rw [List.mapM_cons, List.mapM_cons, evaluateAll_eq hitems, ih]

/-- The lowered results of a job have their plain values. -/
lemma lowered_lowerResults {τ : Lowering} (hτ : Tidy s F τ)
    (hlower : ∀ r ∈ job.roots, ∀ υ : Lowering, Tidy s F υ →
      υ.names job.params = τ.names job.params →
        LoweredCode s F job.params ops υ r (job.lower r υ)) :
    Lowered s F job.params ops τ
      (fun L V p => p.1.Scoped job.params.length L V ∧ (∀ c ∈ p.2.1, c.Scoped job.params.length L V) ∧
        ∀ items ∈ p.2.2, ∀ c ∈ items, c.Scoped job.params.length L V)
      (fun E b p => p.1.evaluate ops E = job.value.evaluate ops b ∧
        List.Forall₂ (fun e c => c.evaluate ops E = e.evaluate ops b) job.outputs p.2.1 ∧
        List.Forall₂ (List.Forall₂ fun e c => c.evaluate ops E = e.evaluate ops b)
          job.arrays p.2.2)
      (job.lowerResults τ) := by
  have houtputs : ∀ r ∈ job.outputs, r ∈ job.roots := fun r hr => by simp [roots, hr]
  have harrays : ∀ items ∈ job.arrays, ∀ r ∈ items, r ∈ job.roots := fun items hitems r hr => by
    simp only [roots, List.cons_append, List.mem_cons, List.mem_append, List.mem_flatten]
    exact .inr (.inr ⟨items, hitems, hr⟩)
  have hfirst := hlower job.value (by simp [roots]) τ hτ rfl
  have hsecond := lowered_mapM (l := job.outputs) hfirst.tidy fun r hr υ hυ hnames =>
    hlower r (houtputs r hr) υ hυ (hnames.trans (hfirst.keeps.names _))
  have hkept := (hfirst.keeps.trans hsecond.keeps).names job.params
  have hthird := lowered_mapM (l := job.arrays) hsecond.tidy fun items hitems υ hυ hnames =>
    lowered_mapM (l := items) hυ fun r hr φ hφ hnames' =>
      hlower r (harrays items hitems r hr) φ hφ (hnames'.trans (hnames.trans hkept))
  have hrest : Lowered s F job.params ops _
      (fun L V (p : List Code × List (List Code)) => (∀ c ∈ p.1, c.Scoped job.params.length L V) ∧
        ∀ items ∈ p.2, ∀ c ∈ items, c.Scoped job.params.length L V)
      (fun E b p => List.Forall₂ (fun e c => c.evaluate ops E = e.evaluate ops b) job.outputs p.1 ∧
        List.Forall₂ (List.Forall₂ fun e c => c.evaluate ops E = e.evaluate ops b) job.arrays p.2)
      _ :=
    hsecond.andThen hthird Prod.mk (fun _ _ _ _ h h' => ⟨h, h'⟩) fun _ _ _ _ h h' => ⟨h, h'⟩
  exact hfirst.andThen hrest Prod.mk (fun _ _ _ _ h h' => ⟨h, h'⟩) fun _ _ _ _ h h' => ⟨h, h'⟩

/-- The statement list of a job has the plain values of its results. -/
theorem linearized_linearize (ops : Arithmetic Option) [ops.Strict] (hs : s.WellFormed) (hjob : job.Lowerable s F)
    (name : String) {pool : Pool} (hpool : Tidy s F { pool := pool }) :
    Linearized s F ops job pool (job.linearize name pool) := by
  have hreads : ∀ r ∈ job.roots, ∀ e, Expr.Reads e r →
      Expr.LowersNode s F job.params ops job.lower e := fun r hr e he =>
    Expr.lowers_reads hs (Expr.lowersBlocks_lowerBlock hs _) he (hjob.knows r hr)
      (Expr.ordinal_le_lastOrdinal hr) (hjob.functions r hr)
  have hblock := lowered_block job.roots job.lowerResults hs hjob.knows hpool
    hjob.bindsOnce hreads fun τ hτ hnames => lowered_lowerResults hτ fun r hr υ hυ hnames' =>
      hreads r hr r .refl υ hυ (by rw [hnames', hnames]; exact hjob.bindsOnce r hr)
  rw [linearize_eq]
  generalize inBlock job.lower job.roots job.lowerResults { pool := pool } = r at hblock ⊢
  obtain ⟨L, hlocals, hscoped⟩ := hblock.refers
  have hV : variableIds { pool := pool } = ∅ := by simp [variableIds]
  have hL : localIds { pool := pool } = ∅ := by simp [localIds]
  rw [hV, hL] at hlocals
  rw [hV] at hscoped
  have hparams : (job.assemble name r).1.params.length = job.params.length := by
    simp [assemble, parameters]
  refine ⟨hblock.keeps.pool, ⟨?_, ?_, hblock.tidy.slots, hblock.tidy.functions⟩, rfl,
    ⟨L, by rw [hparams]; exact ⟨hlocals, hscoped⟩⟩, fun args data hargs hdata => ?_⟩
  · simp [localIds]
  · simp [variableIds]
  · unfold SourceFunction.evaluate assemble
    rcases hblock.value (.initial args data) _ (matches_initial hargs) hdata with
      ⟨hnone, root, hroot, hevaluate⟩ | ⟨E', hE', hvalue, houtputs, harrays⟩
    · rw [hnone, evaluate_eq_none hroot hevaluate]
      rfl
    · rw [hE', evaluate, ← hvalue, ← evaluateAll_eq houtputs, ← mapM_evaluateAll_eq harrays]
      rfl

/-- A function over captured constants `data` has the plain values of the results of a job. -/
structure Realizes (ops : Arithmetic Option) (data : List Value) (job : Job) (f : SourceFunction) :
    Prop where
  /-- The parameters are those of the job. -/
  params : f.params = job.parameters
  /-- All references are to what is bound before. -/
  closed : f.Scoped
  /-- The function has the plain values of the results. -/
  value : ∀ args, args.length = job.params.length →
    f.evaluate ops (.initial args data) = job.evaluate ops args

/-- The functions of a batch have the plain values of the results of its jobs, also after more
constants are captured. -/
lemma realizes_linearizeAll (ops : Arithmetic Option) [ops.Strict] (hs : s.WellFormed) {jobs : List Job}
    (hjobs : ∀ job ∈ jobs, job.Lowerable s F) (k : ℕ) {pool : Pool}
    (hpool : Tidy s F { pool := pool }) :
    pool.data <+: (linearizeAll k pool jobs).2.data ∧
      Tidy s F { pool := (linearizeAll k pool jobs).2 } ∧
      ∀ data, (linearizeAll k pool jobs).2.data <+: data →
        List.Forall₂ (Realizes ops data) jobs (linearizeAll k pool jobs).1 := by
  induction jobs generalizing k pool with
  | nil => exact ⟨List.prefix_refl _, hpool, fun _ _ => .nil⟩
  | cons job jobs ih =>
    have hfirst := linearized_linearize ops hs (hjobs job (by simp))
      ("f" ++ Nat.repr k) hpool
    obtain ⟨hpre, htidy, hrest⟩ := ih (fun j hj => hjobs j (by simp [hj])) (k + 1) hfirst.tidy
    refine ⟨hfirst.pool.trans hpre, htidy, fun data hdata => .cons ?_ (hrest data hdata)⟩
    exact ⟨hfirst.params, hfirst.closed,
      fun args hargs => hfirst.value args data hargs (hpre.trans hdata)⟩

/-- The functions of a batch have the plain values of the results of its jobs. -/
theorem realizes_unit (ops : Arithmetic Option) [ops.Strict] (hs : s.WellFormed) {jobs : List Job}
    (hjobs : ∀ job ∈ jobs, job.Lowerable s F) :
    List.Forall₂ (Realizes ops (unit jobs).data) jobs (unit jobs).functions ∧
      ∀ v ∈ (unit jobs).data, v.Within F := by
  have hempty : Tidy s F { pool := {} } :=
    ⟨by simp [localIds], by simp [variableIds], by simp, by simp [Pool.data]⟩
  obtain ⟨-, htidy, hrealizes⟩ := realizes_linearizeAll ops hs hjobs 0 hempty
  exact ⟨hrealizes _ (List.prefix_refl _), htidy.functions⟩

end Job

end TermGraph