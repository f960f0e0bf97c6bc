import TermGraph.Proofs.Program.Scopes

/-!
# Lowering keeps the value

The code of an expression has the plain value of the expression, whatever nodes are locals around
it.  A local holds the value of its node under the bindings of the block that binds it.  It is read
under further bindings, of the loops in between, and these leave its value as it is, since no
symbol is bound again where it is bound already.

* `Lowering.Matches`: what a statement list refers to has the values that the bindings give.
* `Lowering.Lowered`: what every step of lowering keeps, and what its outcome refers to and
  evaluates to.
* `Expr.lowers_lowerWith`: the code of a node has the plain value of the node, if the blocks of
  loop bodies have the values of the bodies.
-/

namespace TermGraph

open Store (Knows)

/-! ## The state of lowering -/

namespace Lowering

/-- The locals of all open blocks. -/
def localIds (σ : Lowering) : Set ℕ :=
  {id | ∃ scope ∈ σ.scopes, ∃ k : ℕ, scope[k]? = some id}

/-- The variables of all loops around. -/
def variableIds (σ : Lowering) : Set ℕ :=
  {k | ∃ p ∈ σ.bound, p.2 = k}

/-- The ordinals of the symbols that are bound: the loop indices around and the parameters. -/
def names (params : List Expr) (σ : Lowering) : List ℕ :=
  σ.bound.map Prod.fst ++ params.map Expr.ordinal

lemma mem_localIds {σ : Lowering} {e : Expr} {id : ℕ} (h : σ.local? e = some id) :
    id ∈ σ.localIds := by
  obtain ⟨scope, hscope, hid⟩ := List.exists_of_findSome?_eq_some h
  exact ⟨scope, hscope, e.ordinal, hid⟩

lemma mem_variableIds {σ : Lowering} {e : Expr} {k : ℕ} (h : σ.loopVariable? e = some k) :
    k ∈ σ.variableIds := by
  obtain ⟨p, hp, rfl⟩ := Option.map_eq_some_iff.1 h
  exact ⟨p, List.mem_of_find?_eq_some hp, rfl⟩

/-- Lowering goes on from `σ` to `τ` with the same blocks and loops around. -/
structure Keeps (σ τ : Lowering) : Prop where
  /-- The blocks are the same. -/
  scopes : τ.scopes = σ.scopes
  /-- The loops are the same. -/
  bound : τ.bound = σ.bound
  /-- Locals are counted up. -/
  nextLocal : σ.nextLocal ≤ τ.nextLocal
  /-- Loop variables are counted up. -/
  nextVariable : σ.nextVariable ≤ τ.nextVariable
  /-- Constants are added at the end. -/
  pool : σ.pool.data <+: τ.pool.data

namespace Keeps

variable {σ τ υ : Lowering}

lemma refl (σ : Lowering) : Keeps σ σ :=
  ⟨rfl, rfl, le_rfl, le_rfl, List.prefix_refl _⟩

lemma trans (h : Keeps σ τ) (h' : Keeps τ υ) : Keeps σ υ :=
  ⟨h'.scopes.trans h.scopes, h'.bound.trans h.bound, h.nextLocal.trans h'.nextLocal,
    h.nextVariable.trans h'.nextVariable, h.pool.trans h'.pool⟩

lemma localIds (h : Keeps σ τ) : τ.localIds = σ.localIds := by
  rw [Lowering.localIds, Lowering.localIds, h.scopes]

lemma variableIds (h : Keeps σ τ) : τ.variableIds = σ.variableIds := by
  rw [Lowering.variableIds, Lowering.variableIds, h.bound]

lemma names (h : Keeps σ τ) (params : List Expr) : τ.names params = σ.names params := by
  rw [Lowering.names, Lowering.names, h.bound]

lemma local? (h : Keeps σ τ) (e : Expr) : τ.local? e = σ.local? e := by
  rw [Lowering.local?, Lowering.local?, h.scopes]

lemma loopVariable? (h : Keeps σ τ) (e : Expr) : τ.loopVariable? e = σ.loopVariable? e := by
  rw [Lowering.loopVariable?, Lowering.loopVariable?, h.bound]

end Keeps

/-- The state of lowering fits together. -/
structure Tidy (s : Store) (F : Function → Prop) (σ : Lowering) : Prop where
  /-- The next local is new. -/
  locals : ∀ id ∈ σ.localIds, id < σ.nextLocal
  /-- The next loop variable is new. -/
  counters : ∀ k ∈ σ.variableIds, k < σ.nextVariable
  /-- The slot of a constant holds its value. -/
  slots : ∀ e : Expr, s.Knows e → ∀ k, σ.pool.slots[e.ordinal]? = some k →
    ∃ v, e.value? = some v ∧ σ.pool.data[k]? = some v
  /-- The functions in the constants satisfy `F`. -/
  functions : ∀ v ∈ σ.pool.data, v.Within F

/-- What a statement list refers to has the values that the bindings give. -/
structure Matches (s : Store) (params : List Expr) (ops : Arithmetic Option) (σ : Lowering)
    (E : Surroundings) (b : Bindings) : Prop where
  /-- The same symbols are bound. -/
  names : b.map Prod.fst = σ.names params
  /-- Symbols have the same values. -/
  symbols : ∀ e : Expr, (match params.findIdx? (· == e) with
    | some k => E.params[k]?
    | none => (σ.loopVariable? e).bind E.counters) = b.lookup e.ordinal
  /-- A local has the value of its node. -/
  locals : ∀ (e : Expr) (id : ℕ), s.Knows e → σ.local? e = some id →
    ∃ v, E.locals id = some v ∧ e.evaluate ops b = some v

lemma Matches.mono {s : Store} {params : List Expr} {ops : Arithmetic Option} {σ τ : Lowering}
    {E : Surroundings} {b : Bindings} (h : Matches s params ops σ E b) (hkeeps : Keeps σ τ) :
    Matches s params ops τ E b where
  names := by rw [h.names, hkeeps.names]
  symbols e := by
    rw [← h.symbols e, hkeeps.loopVariable?]
  locals e id he hid := h.locals e id he (by rwa [← hkeeps.local?])

section Lowered

variable {α β γ : Type} {s : Store} {F : Function → Prop} {params : List Expr}
  {ops : Arithmetic Option} {σ : Lowering}

/-- The outcome of lowering something from `σ` on.  `R` says what it refers to, and `W` what it
evaluates to. -/
structure Lowered (s : Store) (F : Function → Prop) (params : List Expr) (ops : Arithmetic Option)
    (σ : Lowering) (R : Set ℕ → Set ℕ → α → Prop) (W : Surroundings → Bindings → α → Prop)
    (r : α × Lowering) : Prop where
  /-- The blocks and loops around are the same. -/
  keeps : Keeps σ r.2
  /-- The state fits together. -/
  tidy : Tidy s F r.2
  /-- It refers to what is around. -/
  refers : R σ.localIds σ.variableIds r.1
  /-- It has its value. -/
  value : ∀ E b, Matches s params ops σ E b → r.2.pool.data <+: E.data → W E b r.1

/-- The code of a node. -/
abbrev LoweredCode (s : Store) (F : Function → Prop) (params : List Expr) (ops : Arithmetic Option)
    (σ : Lowering) (e : Expr) : Code × Lowering → Prop :=
  Lowered s F params ops σ (fun L V c => c.Scoped params.length L V) fun E b c =>
    c.evaluate ops E = e.evaluate ops b

/-- The codes of some nodes. -/
abbrev LoweredAll (s : Store) (F : Function → Prop) (params : List Expr) (ops : Arithmetic Option)
    (σ : Lowering) (l : List Expr) : List Code × Lowering → Prop :=
  Lowered s F params ops σ (fun L V cs => ∀ c ∈ cs, c.Scoped params.length L V) fun E b cs =>
    List.Forall₂ (fun e c => c.evaluate ops E = e.evaluate ops b) l cs

/-- The block of a body. -/
abbrev LoweredBlock (s : Store) (F : Function → Prop) (params : List Expr)
    (ops : Arithmetic Option) (σ : Lowering) (body : Expr) : Block × Lowering → Prop :=
  Lowered s F params ops σ (fun L V c => c.Scoped params.length L V) fun E b c =>
    c.evaluate ops E = body.evaluate ops b

namespace Lowered

variable {R : Set ℕ → Set ℕ → α → Prop} {W : Surroundings → Bindings → α → Prop}
  {R' : Set ℕ → Set ℕ → β → Prop} {W' : Surroundings → Bindings → β → Prop}
  {R'' : Set ℕ → Set ℕ → γ → Prop} {W'' : Surroundings → Bindings → γ → Prop}

/-- Something without a state change. -/
lemma pure (hσ : Tidy s F σ) {a : α} (hR : R σ.localIds σ.variableIds a)
    (hW : ∀ E b, Matches s params ops σ E b → W E b a) : Lowered s F params ops σ R W (a, σ) :=
  ⟨.refl σ, hσ, hR, fun E b h _ => hW E b h⟩

lemma map {r : α × Lowering} (h : Lowered s F params ops σ R W r) (f : α → β)
    (hR : ∀ L V a, R L V a → R' L V (f a)) (hW : ∀ E b a, W E b a → W' E b (f a)) :
    Lowered s F params ops σ R' W' (f r.1, r.2) :=
  ⟨h.keeps, h.tidy, hR _ _ _ h.refers, fun E b hm hd => hW E b _ (h.value E b hm hd)⟩

/-- One thing after another. -/
lemma andThen {r : α × Lowering} {q : β × Lowering} (h : Lowered s F params ops σ R W r)
    (h' : Lowered s F params ops r.2 R' W' q) (f : α → β → γ)
    (hR : ∀ L V a b, R L V a → R' L V b → R'' L V (f a b))
    (hW : ∀ E b x y, W E b x → W' E b y → W'' E b (f x y)) :
    Lowered s F params ops σ R'' W'' (f r.1 q.1, q.2) where
  keeps := h.keeps.trans h'.keeps
  tidy := h'.tidy
  refers := by
    have hrefers := h'.refers
    rw [h.keeps.localIds, h.keeps.variableIds] at hrefers
    exact hR _ _ _ _ h.refers hrefers
  value E b hm hd := hW E b _ _ (h.value E b hm (h'.keeps.pool.trans hd))
    (h'.value E b (hm.mono h.keeps) hd)

end Lowered

/-- One thing after another for the items of a list. -/
lemma lowered_mapM {R : Set ℕ → Set ℕ → β → Prop} {W : α → Surroundings → Bindings → β → Prop}
    {f : α → LowerM β} {l : List α} (hσ : Tidy s F σ)
    (h : ∀ a ∈ l, ∀ τ, Tidy s F τ → τ.names params = σ.names params →
      Lowered s F params ops τ R (W a) (f a τ)) :
    Lowered s F params ops σ (fun L V cs => ∀ c ∈ cs, R L V c)
      (fun E b cs => List.Forall₂ (fun a c => W a E b c) l cs) (l.mapM f σ) := by
  induction l generalizing σ with
  | nil => exact .pure hσ (by simp) fun _ _ _ => .nil
  | cons a l ih =>
    have ha := h a (by simp) σ hσ rfl
    have hl := ih ha.tidy fun c hc τ hτ hnames => h c (by simp [hc]) τ hτ
      (hnames.trans (ha.keeps.names params))
    rw [List.mapM_cons]
    exact ha.andThen hl List.cons (fun _ _ _ _ h h' => List.forall_mem_cons.2 ⟨h, h'⟩)
      fun _ _ _ _ h h' => .cons h h'

/-! ## Loop variables -/

/-- The state with one more symbol bound. -/
def pushBound (σ : Lowering) (i : ℕ) : Lowering :=
  { σ with bound := (i, σ.nextVariable) :: σ.bound, nextVariable := σ.nextVariable + 1 }

/-- The state with the innermost symbol no longer bound. -/
def popBound (σ : Lowering) : Lowering :=
  { σ with bound := σ.bound.drop 1 }

lemma popBound_popBound (σ : Lowering) :
    σ.popBound.popBound = { σ with bound := σ.bound.drop 2 } := by
  simp [popBound]

lemma variableIds_pushBound (σ : Lowering) (i : ℕ) :
    (σ.pushBound i).variableIds = insert σ.nextVariable σ.variableIds := by
  ext k
  simp [variableIds, pushBound, eq_comm]

lemma names_pushBound (σ : Lowering) (i : ℕ) :
    (σ.pushBound i).names params = i :: σ.names params := rfl

lemma Tidy.pushBound (h : Tidy s F σ) (i : ℕ) : Tidy s F (σ.pushBound i) where
  locals := h.locals
  counters := by
    rw [variableIds_pushBound]
    rintro k (rfl | hk)
    · exact Nat.lt_succ_self _
    · exact (h.counters k hk).trans (Nat.lt_succ_self _)
  slots := h.slots
  functions := h.functions

/-- A new binding, where the symbol was not bound. -/
lemma Matches.bind [ops.Strict] (hσ : Tidy s F σ) {E : Surroundings} {b : Bindings}
    (h : Matches s params ops σ E b) {i : ℕ} (hi : i ∉ σ.names params) (v : Value) :
    Matches s params ops (σ.pushBound i) (E.bindVariable σ.nextVariable v) ((i, v) :: b) where
  names := by rw [List.map_cons, h.names, names_pushBound]
  symbols e := by
    have hsymbols := h.symbols e
    rw [List.lookup_cons]
    cases hindex : params.findIdx? (· == e) with
    | some k =>
      rw [hindex] at hsymbols
      -- The symbol that is bound is no parameter.
      have hne : (e.ordinal == i) = false := by
        obtain ⟨hk, hbeq, -⟩ := List.findIdx?_eq_some_iff_getElem.1 hindex
        have hmem : e.ordinal ∈ σ.names params := by
          rw [← Expr.beq_iff_ordinal.1 hbeq]
          exact List.mem_append_right _ (List.mem_map_of_mem (List.getElem_mem hk))
        rw [beq_eq_false_iff_ne]
        exact fun heq => hi (heq ▸ hmem)
      simpa [hne] using hsymbols
    | none =>
      rw [hindex] at hsymbols
      by_cases heq : i = e.ordinal
      · subst heq
        simp [loopVariable?, Lowering.pushBound]
      · have hne : (e.ordinal == i) = false := by simpa using fun h => heq h.symm
        have hpush : (σ.pushBound i).loopVariable? e = σ.loopVariable? e := by
          simp [loopVariable?, Lowering.pushBound, heq]
        simp only [hne, hpush, ← hsymbols]
        cases hk : σ.loopVariable? e with
        | none => rfl
        | some k =>
          have hlt := hσ.counters k (mem_variableIds hk)
          exact E.bindVariable_counters_of_ne _ v hlt.ne
  locals e id he hid := by
    -- A local that has a value keeps it under the further binding.
    obtain ⟨w, hw, hevaluate⟩ := h.locals e id he hid
    refine ⟨w, hw, Expr.evaluate_refines (fun j => ?_) e w hevaluate⟩
    intro u hu
    rw [List.lookup_cons]
    split
    · -- The symbol had no value before.
      rename_i hj
      refine absurd ?_ hi
      rw [← h.names, ← beq_iff_eq.1 hj]
      obtain ⟨l, -, rfl, -⟩ := List.lookup_eq_some_iff.1 hu
      simp
    · exact hu

/-- What is lowered with one more symbol bound. -/
lemma Lowered.under [ops.Strict] {R : Set ℕ → Set ℕ → α → Prop}
    {W : Surroundings → Bindings → α → Prop} (hσ : Tidy s F σ) {i : ℕ}
    (hi : i ∉ σ.names params) {r : α × Lowering}
    (h : Lowered s F params ops (σ.pushBound i) R W r) :
    Lowered s F params ops σ
      (fun L V a => σ.nextVariable ∉ V ∧ R L (insert σ.nextVariable V) a)
      (fun E b a => ∀ v, W (E.bindVariable σ.nextVariable v) ((i, v) :: b) a)
      (r.1, r.2.popBound) where
  keeps := by
    have hbound := h.keeps.bound
    refine ⟨h.keeps.scopes, ?_, h.keeps.nextLocal, (Nat.le_succ _).trans h.keeps.nextVariable,
      h.keeps.pool⟩
    simp [popBound, hbound, pushBound]
  tidy := by
    have hbound : r.2.popBound.variableIds = σ.variableIds := by
      simp [variableIds, popBound, h.keeps.bound, pushBound]
    refine ⟨h.tidy.locals, fun k hk => ?_, h.tidy.slots, h.tidy.functions⟩
    rw [hbound] at hk
    exact (hσ.counters k hk).trans_le ((Nat.le_succ _).trans h.keeps.nextVariable)
  refers := by
    have hrefers := h.refers
    rw [variableIds_pushBound] at hrefers
    exact ⟨fun hmem => (hσ.counters _ hmem).ne rfl, hrefers⟩
  value E b hm hd v := h.value _ _ (hm.bind hσ hi v) hd

/-! ## Leaves -/

lemma reuse_apply (e : Expr) (x : LowerM Code) (σ : Lowering) :
    reuse e x σ = match σ.local? e with
      | some id => (.hoisted id, σ)
      | none => x σ := by
  unfold reuse
  show (match σ.local? e with
    | some id => (Pure.pure (.hoisted id) : LowerM Code)
    | none => x) σ = _
  cases σ.local? e <;> rfl

lemma symbol_apply (params : List Expr) (e : Expr) (name : String) (σ : Lowering) :
    symbol params e name σ = (match params.findIdx? (· == e) with
      | some k => .param k
      | none => match σ.loopVariable? e with
        | some k => .loopVariable k
        | none => .unbound name, σ) := by
  unfold symbol
  cases params.findIdx? (· == e) with
  | some k => rfl
  | none =>
    show (match σ.loopVariable? e with
      | some k => (Pure.pure (.loopVariable k) : LowerM Code)
      | none => Pure.pure (.unbound name)) σ = _
    cases σ.loopVariable? e <;> rfl

/-- A node that is a local already, or else what is made of it. -/
lemma lowered_reuse (hσ : Tidy s F σ) {e : Expr} (he : s.Knows e) {x : LowerM Code}
    (hx : LoweredCode s F params ops σ e (x σ)) :
    LoweredCode s F params ops σ e (reuse e x σ) := by
  rw [reuse_apply]
  cases hlocal : σ.local? e with
  | none => exact hx
  | some id =>
    refine .pure hσ (by rw [Code.Scoped]; exact mem_localIds hlocal) fun E b h => ?_
    obtain ⟨v, hv, hevaluate⟩ := h.locals e id he hlocal
    rw [Code.evaluate, hv, hevaluate]

lemma lowered_symbol [ops.Strict] (hσ : Tidy s F σ) (ordinal : ℕ) (domain : Domain)
    (name : String) : LoweredCode s F params ops σ (.node ordinal domain (.symbol name))
      (symbol params (.node ordinal domain (.symbol name)) name σ) := by
  generalize he : Expr.node ordinal domain (.symbol name) = e
  have hevaluate (b : Bindings) : e.evaluate ops b = b.lookup e.ordinal := by
    rw [← he, Expr.evaluate]
    show _ = b.lookup ordinal
    cases b.lookup ordinal with
    | none => exact Arithmetic.Strict.fail_eq_none _
    | some v => rfl
  rw [symbol_apply]
  refine .pure hσ ?_ fun E b h => ?_
  · cases hparam : params.findIdx? (· == e) with
    | some k =>
      rw [Code.Scoped]
      exact (List.findIdx?_eq_some_iff_getElem.1 hparam).1
    | none =>
      cases hk : σ.loopVariable? e with
      | some k =>
        rw [Code.Scoped]
        exact mem_variableIds hk
      | none =>
        rw [Code.Scoped]
        trivial
  · rw [hevaluate, ← h.symbols e]
    cases params.findIdx? (· == e) with
    | some k => rw [Code.evaluate]
    | none => cases σ.loopVariable? e <;> rw [Code.evaluate] <;> rfl

lemma getElem?_of_prefix {l m : List α} (h : l <+: m) {k : ℕ} {a : α} (hk : l[k]? = some a) :
    m[k]? = some a := by
  obtain ⟨rest, rfl⟩ := h
  rw [List.getElem?_append_left (List.getElem?_eq_some_iff.1 hk).1, hk]

lemma data_slot (p : Pool) (e : Expr) (v : Value) (h : p.slots[e.ordinal]? = none) :
    (p.slot e v).1 = p.data.length ∧ (p.slot e v).2.data = p.data ++ [v] ∧
      (p.slot e v).2.slots = p.slots.insert e.ordinal p.data.length := by
  simp [Pool.slot, h, Pool.data]

/-- A constant is captured in its slot. -/
lemma lowered_captured (hσ : Tidy s F σ) {e : Expr} (he : s.Knows e) {v : Value}
    (hvalue : e.value? = some v) (hevaluate : ∀ b, e.evaluate ops b = some v) (hv : v.Within F) :
    LoweredCode s F params ops σ e (captured e v σ) := by
  have hrun : captured e v σ = (.captured (σ.pool.slot e v).1,
      { σ with pool := (σ.pool.slot e v).2 }) := rfl
  rw [hrun]
  cases hslot : σ.pool.slots[e.ordinal]? with
  | some k =>
    have hpool : σ.pool.slot e v = (k, σ.pool) := by simp [Pool.slot, hslot]
    rw [hpool]
    obtain ⟨w, hw, hdata⟩ := hσ.slots e he k hslot
    obtain rfl : v = w := Option.some.inj (hvalue.symm.trans hw)
    refine ⟨.refl σ, hσ, by rw [Code.Scoped]; trivial, fun E b _ hpre => ?_⟩
    rw [Code.evaluate, hevaluate]
    exact getElem?_of_prefix hpre hdata
  | none =>
    obtain ⟨hindex, hdata, hslots⟩ := data_slot σ.pool e v hslot
    refine ⟨⟨rfl, rfl, le_rfl, le_rfl, ?_⟩, ⟨hσ.locals, hσ.counters, ?_, ?_⟩,
      by rw [Code.Scoped]; trivial, fun E b _ hpre => ?_⟩
    · rw [hdata]
      exact List.prefix_append _ _
    · intro e' he' k hk
      simp only [hslots, Std.TreeMap.getElem?_insert] at hk
      rw [hdata]
      split at hk
      · rename_i heq
        obtain rfl := Store.WellFormed.eq_of_ordinal he he' (by simpa using heq)
        cases hk
        exact ⟨v, hvalue, by simp⟩
      · obtain ⟨w, hw, hget⟩ := hσ.slots e' he' k hk
        exact ⟨w, hw, getElem?_of_prefix (List.prefix_append _ _) hget⟩
    · intro w hw
      rw [hdata] at hw
      rcases List.mem_append.1 hw with hw | hw
      · exact hσ.functions w hw
      · rw [List.mem_singleton.1 hw]
        exact hv
    · rw [hdata] at hpre
      rw [Code.evaluate, hevaluate, hindex]
      exact getElem?_of_prefix hpre (by simp)

end Lowered

end Lowering

/-! ## Nodes -/

section Lists

variable {ops : Arithmetic Option} {E : Surroundings} {b : Bindings} {l : List Expr}
  {cs : List Code}

lemma evaluateAll_eq (h : List.Forall₂ (fun e c => c.evaluate ops E = e.evaluate ops b) l cs) :
    Code.evaluateAll ops E cs = Expr.evaluateAll ops b l := by
  induction h with
  | nil =>
    rw [Code.evaluateAll, Expr.evaluateAll]
    rfl
  | cons he _ ih =>
    rw [Code.evaluateAll, Expr.evaluateAll, he, ih]

lemma evaluateOnto_eq (h : List.Forall₂ (fun e c => c.evaluate ops E = e.evaluate ops b) l cs)
    (op : Value → Value → Option Value) (acc : Value) :
    Code.evaluateOnto ops op E acc cs = Expr.evaluateOnto ops op b acc l := by
  induction h generalizing acc with
  | nil =>
    rw [Code.evaluateOnto, Expr.evaluateOnto]
    rfl
  | cons he _ ih =>
    rw [Code.evaluateOnto, Expr.evaluateOnto, he]
    simp only [ih]

lemma evaluateFold_eq (h : List.Forall₂ (fun e c => c.evaluate ops E = e.evaluate ops b) l cs)
    (op : Value → Value → Option Value) :
    Code.evaluateFold ops op E cs = Expr.evaluateFold ops op b l := by
  cases h with
  | nil =>
    rw [Code.evaluateFold, Expr.evaluateFold]
    rfl
  | cons he h =>
    rw [Code.evaluateFold, Expr.evaluateFold, he]
    simp only [evaluateOnto_eq h]

end Lists

namespace Expr

open Lowering

variable {s : Store} {F : Function → Prop} {params : List Expr} {ops : Arithmetic Option}
  {block : Expr → LowerM Block} {n : ℕ}

/-- Bodies with ordinals below `n` are lowered to blocks with their values. -/
def LowersBlocks (s : Store) (F : Function → Prop) (params : List Expr) (ops : Arithmetic Option)
    (n : ℕ) (block : Expr → LowerM Block) : Prop :=
  ∀ (body : Expr) (σ : Lowering), s.Knows body → body.ordinal < n → body.Mentions F →
    Tidy s F σ → BindsOnce (σ.names params) body → LoweredBlock s F params ops σ body (block body σ)

/-- A node is lowered to code with its value. -/
def LowersNode (s : Store) (F : Function → Prop) (params : List Expr) (ops : Arithmetic Option)
    (lower : Expr → LowerM Code) (e : Expr) : Prop :=
  ∀ σ : Lowering, Tidy s F σ → BindsOnce (σ.names params) e →
    LoweredCode s F params ops σ e (lower e σ)

lemma lowerAll_eq_mapM (params : List Expr) (block : Expr → LowerM Block) (l : List Expr) :
    lowerAll params block l = l.mapM (lowerWith params block) := by
  induction l with
  | nil =>
    rw [lowerAll]
    rfl
  | cons e l ih => rw [lowerAll, List.mapM_cons, ih]

lemma lowered_lowerAll {l : List Expr}
    (h : ∀ e ∈ l, LowersNode s F params ops (lowerWith params block) e) {σ : Lowering}
    (hσ : Tidy s F σ) (hb : ∀ e ∈ l, BindsOnce (σ.names params) e) :
    LoweredAll s F params ops σ l (lowerAll params block l σ) := by
  rw [lowerAll_eq_mapM]
  exact lowered_mapM hσ fun e he τ hτ hnames => h e he τ hτ (by rw [hnames]; exact hb e he)

/-- The code of a node has the plain value of the node. -/
lemma lowers_lowerWith [ops.Strict] (hs : s.WellFormed) (hblock : LowersBlocks s F params ops n block)
    (e : Expr) (he : s.Knows e) (hn : e.ordinal ≤ n) (hF : e.Mentions F) :
    LowersNode s F params ops (lowerWith params block) e := by
  induction hsize : sizeOf e using Nat.strongRecOn generalizing e with
  | _ m ih =>
    subst hsize
    intro σ hσ hb
    -- The operands are smaller; the body of a loop goes to `block`, which knows the nodes below `n`.
    have hoperand {c : Expr} (hc : c ∈ e.operands) :
        LowersNode s F params ops (lowerWith params block) c := by
      have hchild := mem_children_of_mem_operands hc
      exact ih _ (sizeOf_lt_of_mem_children hchild) c (hs.children he c hchild)
        ((hs.below he hchild).le.trans hn) (hF.child hchild) rfl
    have hbody {body : Expr} (hbody : e.body? = some body) {τ : Lowering} (hτ : Tidy s F τ)
        (hbinds : BindsOnce (τ.names params) body) :
        LoweredBlock s F params ops τ body (block body τ) := by
      have hchild := mem_children_of_body hbody
      exact hblock body τ (hs.children he body hchild) ((hs.below he hchild).trans_le hn)
        (hF.child hchild) hτ hbinds
    have hfunctions := hF e .refl
    obtain ⟨ordinal, domain, kind⟩ := e
    cases kind with
    | symbol name =>
      rw [lowerWith]
      exact lowered_reuse hσ he (lowered_symbol hσ ordinal domain name)
    | number k =>
      rw [lowerWith]
      refine lowered_reuse hσ he (.pure hσ (by rw [Code.Scoped]; trivial) fun _ _ _ => ?_)
      rw [Code.evaluate, evaluate]
      rfl
    | object v resolver =>
      rw [lowerWith]
      exact lowered_reuse hσ he (lowered_captured hσ he (by rw [value?]) (fun b => by rw [evaluate]; rfl)
        hfunctions)
    | field name =>
      rw [lowerWith]
      refine lowered_reuse hσ he (lowered_captured hσ he (by rw [value?])
        (fun b => by rw [evaluate]; rfl) fun f hf => ?_)
      cases hf
    | function g =>
      rw [lowerWith]
      refine lowered_reuse hσ he (lowered_captured hσ he (by rw [value?])
        (fun b => by rw [evaluate]; rfl) fun f hf => ?_)
      cases hf
      exact hfunctions _ rfl
    | tuple items =>
      have hitems := lowered_lowerAll (l := items) (fun c hc => hoperand hc) hσ
        fun c hc => hb.operand hc
      rw [lowerWith]
      refine lowered_reuse hσ he (hitems.map Code.tuple (fun _ _ _ h => by rwa [Code.Scoped, Code.scopedAll_iff])
        fun E b cs h => ?_)
      rw [Code.evaluate, evaluate, evaluateAll_eq h]
    | sum items =>
      have hitems := lowered_lowerAll (l := items) (fun c hc => hoperand hc) hσ
        fun c hc => hb.operand hc
      rw [lowerWith]
      refine lowered_reuse hσ he (hitems.map Code.sum (fun _ _ _ h => by rwa [Code.Scoped, Code.scopedAll_iff])
        fun E b cs h => ?_)
      rw [Code.evaluate, evaluate, evaluateFold_eq h]
    | chain items =>
      have hitems := lowered_lowerAll (l := items) (fun c hc => hoperand hc) hσ
        fun c hc => hb.operand hc
      rw [lowerWith]
      refine lowered_reuse hσ he (hitems.map Code.multiply (fun _ _ _ h => by rwa [Code.Scoped, Code.scopedAll_iff])
        fun E b cs h => ?_)
      rw [Code.evaluate, evaluate, evaluateFold_eq h]
    | apply target argument =>
      have hmem : target ∈ (node ordinal domain (.apply target argument)).operands := by
        simp [operands, Expr.kind]
      have hmem' : argument ∈ (node ordinal domain (.apply target argument)).operands := by
        simp [operands, Expr.kind]
      have ht := hoperand hmem σ hσ (hb.operand hmem)
      have ha := hoperand hmem' _ ht.tidy (by rw [ht.keeps.names]; exact hb.operand hmem')
      rw [lowerWith]
      refine lowered_reuse hσ he (ht.andThen ha Code.apply
        (fun _ _ _ _ h h' => by rw [Code.Scoped]; exact ⟨h, h'⟩) fun E b c c' h h' => ?_)
      rw [Code.evaluate, evaluate, h, h']
    | inverse inner =>
      have hmem : inner ∈ (node ordinal domain (.inverse inner)).operands := by
        simp [operands, Expr.kind]
      rw [lowerWith]
      refine lowered_reuse hσ he ((hoperand hmem σ hσ (hb.operand hmem)).map Code.inverse
        (fun _ _ _ h => by rwa [Code.Scoped]) fun E b c h => ?_)
      rw [Code.evaluate, evaluate, h]
    | transpose inner =>
      have hmem : inner ∈ (node ordinal domain (.transpose inner)).operands := by
        simp [operands, Expr.kind]
      rw [lowerWith]
      refine lowered_reuse hσ he ((hoperand hmem σ hσ (hb.operand hmem)).map Code.transpose
        (fun _ _ _ h => by rwa [Code.Scoped]) fun E b c h => ?_)
      rw [Code.evaluate, evaluate, h]
    | generator rows cols element =>
      -- Neither index is bound around the generator, so that both can be bound in its body.
      have hrow : rowIndex.ordinal ∉ σ.names params := hb.fresh _ (by simp [binders, Expr.kind])
      have hcol : colIndex.ordinal ∉ (σ.pushBound rowIndex.ordinal).names params := by
        rw [names_pushBound, List.mem_cons, not_or]
        exact ⟨by decide, hb.fresh _ (by simp [binders, Expr.kind])⟩
      have hinner := hbody rfl ((hσ.pushBound rowIndex.ordinal).pushBound colIndex.ordinal)
        ((hb.inBody rfl).anti fun i hi => by
          simpa [names_pushBound, binders, Expr.kind, or_left_comm] using hi)
      have hloop := (hinner.under (hσ.pushBound _) hcol).under hσ hrow
      rw [popBound_popBound] at hloop
      rw [lowerWith]
      refine lowered_reuse hσ he (hloop.map
        (Code.generate rows cols σ.nextVariable (σ.nextVariable + 1))
        (fun L V c h => by rw [Code.Scoped]; exact ⟨h.1, h.2⟩) fun E b c h => ?_)
      rw [Code.evaluate, evaluate]
      exact congrArg (ops.grid rows cols) (funext fun v => funext fun w => h v w)
    | indexedSum index lower upper body =>
      have hmem : lower ∈ (node ordinal domain (.indexedSum index lower upper body)).operands := by
        simp [operands, Expr.kind]
      have hmem' : upper ∈ (node ordinal domain (.indexedSum index lower upper body)).operands := by
        simp [operands, Expr.kind]
      have hlower := hoperand hmem σ hσ (hb.operand hmem)
      have hupper := hoperand hmem' _ hlower.tidy
        (by rw [hlower.keeps.names]; exact hb.operand hmem')
      -- The bounds leave the bound names as they are, so that the index is still new after them.
      have hnames := (hlower.keeps.trans hupper.keeps).names params
      have hindex := hb.fresh index (by simp [binders, Expr.kind])
      rw [← hnames] at hindex
      have hloop := (hbody rfl (hupper.tidy.pushBound index.ordinal)
        (by rw [names_pushBound, hnames]; exact hb.inBody rfl)).under hupper.tidy hindex
      have hbounds : Lowered s F params ops σ
          (fun L V (p : Code × Code) => p.1.Scoped params.length L V ∧ p.2.Scoped params.length L V)
          (fun E b p => p.1.evaluate ops E = lower.evaluate ops b ∧
            p.2.evaluate ops E = upper.evaluate ops b) _ :=
        hlower.andThen hupper Prod.mk (fun _ _ _ _ h h' => ⟨h, h'⟩) fun _ _ _ _ h h' => ⟨h, h'⟩
      rw [lowerWith]
      refine lowered_reuse hσ he (hbounds.andThen hloop (fun p c => Code.range _ p.1 p.2 c)
        (fun L V p c h h' => by rw [Code.Scoped]; exact ⟨h, h'⟩) fun E b p c h h' => ?_)
      rw [Code.evaluate, evaluate, h.1, h.2]
      simp only [h']
    | collectionSum index collection body =>
      have hmem : collection ∈
          (node ordinal domain (.collectionSum index collection body)).operands := by
        simp [operands, Expr.kind]
      have hcollection := hoperand hmem σ hσ (hb.operand hmem)
      have hnames := hcollection.keeps.names params
      have hindex := hb.fresh index (by simp [binders, Expr.kind])
      rw [← hnames] at hindex
      have hloop := (hbody rfl (hcollection.tidy.pushBound index.ordinal)
        (by rw [names_pushBound, hnames]; exact hb.inBody rfl)).under hcollection.tidy hindex
      rw [lowerWith]
      refine lowered_reuse hσ he (hcollection.andThen hloop (fun p c => Code.each _ p c)
        (fun L V p c h h' => by rw [Code.Scoped]; exact ⟨h, h'⟩) fun E b p c h h' => ?_)
      rw [Code.evaluate, evaluate, h]
      simp only [h']

end Expr

end TermGraph
