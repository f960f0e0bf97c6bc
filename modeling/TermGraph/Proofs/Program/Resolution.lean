import TermGraph.Proofs.Program.Batches
import TermGraph.Proofs.Program.Diagnostics

/-!
# Every reference is resolved

A statement list binds each local and each loop variable once, and refers to nothing else: to locals
bound before in the same block or a block around, to the variables of the loops around, to declared
parameters, and to captured constants that are there.  This holds of any job, whatever symbols its
results bind and however often.

* `Code.binders`: what a computation binds, in the blocks of its loops too.
* `Code.Resolves params data Γ loops c e`: the computation `c` was lowered from `e`, where `Γ` and
  `loops` hold what is in scope.
* `Job.resolved_unit`: the functions of a batch resolve, no local or loop variable is ever reported,
  and every load of a constant succeeds.
-/

namespace TermGraph

/-! ## What is bound -/

/-- What a statement list binds. -/
inductive Binder where
  /-- A local. -/
  | hoisted (id : ℕ)
  /-- The variable of a loop. -/
  | loopVariable (id : ℕ)
deriving DecidableEq

mutual

/-- What a computation binds, in the blocks of its loops too. -/
def Code.binders : Code → List Binder
  | .param _ | .hoisted _ | .loopVariable _ | .captured _ | .number _ | .unbound _ => []
  | .tuple items => Code.bindersAll items
  | .apply target argument => target.binders ++ argument.binders
  | .sum terms => Code.bindersAll terms
  | .multiply factors => Code.bindersAll factors
  | .inverse inner => inner.binders
  | .transpose inner => inner.binders
  | .generate _ _ row col element => .loopVariable row :: .loopVariable col :: element.binders
  | .range counter lower upper body =>
    lower.binders ++ upper.binders ++ .loopVariable counter :: body.binders
  | .each counter collection body => collection.binders ++ .loopVariable counter :: body.binders

/-- What the computations of a list bind. -/
def Code.bindersAll : List Code → List Binder
  | [] => []
  | c :: cs => c.binders ++ Code.bindersAll cs

/-- What a block binds. -/
def Block.binders : Block → List Binder
  | .result value => value.binders
  | .bind id code rest => code.binders ++ .hoisted id :: rest.binders

end

/-- What the locals of a list bind. -/
def bindersLocals (locals : List (ℕ × Code)) : List Binder :=
  locals.flatMap fun p => p.2.binders ++ [.hoisted p.1]

/-- What a function binds. -/
def SourceFunction.binders (f : SourceFunction) : List Binder :=
  bindersLocals f.locals ++
    (f.value.binders ++ (Code.bindersAll f.outputs ++ f.arrays.flatMap Code.bindersAll))

lemma Code.bindersAll_eq_flatMap : Code.bindersAll = List.flatMap Code.binders := by
  funext cs
  induction cs with
  | nil => rw [bindersAll, List.flatMap_nil]
  | cons c cs ih => rw [bindersAll, List.flatMap_cons, ih]

lemma Block.binders_ofLocals (locals : List (ℕ × Code)) (value : Code) :
    (ofLocals locals value).binders = bindersLocals locals ++ value.binders := by
  induction locals with
  | nil => exact Block.binders.eq_1 value
  | cons p locals ih =>
    show (Block.bind p.1 p.2 (ofLocals locals value)).binders = _
    rw [Block.binders, ih]
    simp [bindersLocals]

/-! ## The judgement -/

section Resolves

variable (params : List Expr) (data : List Value)

mutual

/-- The computation was lowered from the node, and all its references are in scope: the locals in
scope have the origins `Γ`, the loops around are `loops`, and the captured constants are `data`. -/
def Code.Resolves (Γ : Origins) (loops : Loops) : Code → Expr → Prop
  | .param k, e => k < params.length ∧ e.isSymbol = true ∧
    e.referent? params loops = some (.param k)
  | .hoisted id, e => ∃ o, Γ id = some o ∧ o.node = e ∧ o.Around loops
  | .loopVariable id, e => (∃ p ∈ loops, p.2 = id) ∧ e.isSymbol = true ∧
    e.referent? params loops = some (.loopVariable id)
  | .captured k, e => ∃ v, e.value? = some v ∧ data[k]? = some v
  | .number n, e => e.kind = .number n
  | .unbound name, e => e.kind = .symbol name ∧ e.referent? params loops = none
  | .tuple items, e => ∃ es, e.kind = .tuple es ∧ Code.ResolvesAll Γ loops items es
  | .apply target argument, e => ∃ t a, e.kind = .apply t a ∧ target.Resolves Γ loops t ∧
    argument.Resolves Γ loops a
  | .sum terms, e => ∃ es, e.kind = .sum es ∧ Code.ResolvesAll Γ loops terms es
  | .multiply factors, e => ∃ es, e.kind = .chain es ∧ Code.ResolvesAll Γ loops factors es
  | .inverse inner, e => ∃ i, e.kind = .inverse i ∧ inner.Resolves Γ loops i
  | .transpose inner, e => ∃ i, e.kind = .transpose i ∧ inner.Resolves Γ loops i
  | .generate rows cols row col element, e => ∃ b, e.kind = .generator rows cols b ∧
    element.Resolves Γ ((Expr.colIndex.ordinal, col) :: (Expr.rowIndex.ordinal, row) :: loops) b
  | .range counter lower upper body, e => ∃ i l u b, e.kind = .indexedSum i l u b ∧
    lower.Resolves Γ loops l ∧ upper.Resolves Γ loops u ∧
    body.Resolves Γ ((i.ordinal, counter) :: loops) b
  | .each counter collection body, e => ∃ i c b, e.kind = .collectionSum i c b ∧
    collection.Resolves Γ loops c ∧ body.Resolves Γ ((i.ordinal, counter) :: loops) b

/-- The computations of a list were lowered from the nodes of a list, one by one. -/
def Code.ResolvesAll (Γ : Origins) (loops : Loops) : List Code → List Expr → Prop
  | [], [] => True
  | c :: cs, e :: es => c.Resolves Γ loops e ∧ Code.ResolvesAll Γ loops cs es
  | _, _ => False

/-- The block was lowered from the node; a local is in scope in the rest of its block. -/
def Block.Resolves (Γ : Origins) (loops : Loops) : Block → Expr → Prop
  | .result value, e => value.Resolves Γ loops e
  | .bind id code rest, e => ∃ a, a.Reads e ∧ code.Resolves Γ loops a ∧
    rest.Resolves (Γ.bind id ⟨a, loops⟩) loops e

end

/-- The locals of a list were lowered from nodes that some roots read, each with the locals before it
in scope, and `Γ'` is what is in scope after them. -/
def ResolvesLocals (roots : List Expr) (loops : Loops) :
    Origins → List (ℕ × Code) → Origins → Prop
  | Γ, [], Γ' => Γ = Γ'
  | Γ, (id, code) :: rest, Γ' => ∃ a, (∃ r ∈ roots, a.Reads r) ∧
    code.Resolves params data Γ loops a ∧
    ResolvesLocals roots loops (Γ.bind id ⟨a, loops⟩) rest Γ'

end Resolves

/-- The function was lowered from the results of a job, nothing is bound twice in it, and all its
references are in scope. -/
structure SourceFunction.Resolves (f : SourceFunction) (data : List Value) (job : Job) : Prop where
  /-- The parameters are those of the job. -/
  params : f.params = job.parameters
  /-- Each local and each loop variable is bound once. -/
  once : f.binders.Nodup
  /-- The references are in scope. -/
  refers : ∃ Γ, ResolvesLocals job.params data job.roots [] .empty f.locals Γ ∧
    f.value.Resolves job.params data Γ [] job.value ∧
    Code.ResolvesAll job.params data Γ [] f.outputs job.outputs ∧
    List.Forall₂ (Code.ResolvesAll job.params data Γ []) f.arrays job.arrays

section

variable {params : List Expr} {data : List Value} {Γ Γ' : Origins} {loops : Loops}

lemma Code.resolvesAll_iff {cs : List Code} {es : List Expr} :
    Code.ResolvesAll params data Γ loops cs es ↔
      List.Forall₂ (Code.Resolves params data Γ loops) cs es := by
  induction cs generalizing es with
  | nil => cases es <;> simp [ResolvesAll]
  | cons c cs ih => cases es <;> simp [ResolvesAll, ih]

lemma ResolvesLocals.block {e : Expr} {locals : List (ℕ × Code)} {value : Code}
    (h : ResolvesLocals params data [e] loops Γ locals Γ')
    (hvalue : value.Resolves params data Γ' loops e) :
    (Block.ofLocals locals value).Resolves params data Γ loops e := by
  induction locals generalizing Γ with
  | nil =>
    show (Block.result value).Resolves params data Γ loops e
    rw [Block.Resolves]
    exact (show Γ = Γ' from h) ▸ hvalue
  | cons entry locals ih =>
    obtain ⟨id, code⟩ := entry
    obtain ⟨a, ⟨r, hr, hreads⟩, hcode, hrest⟩ := h
    obtain rfl := List.mem_singleton.1 hr
    show (Block.bind id code (Block.ofLocals locals value)).Resolves params data Γ loops r
    rw [Block.Resolves]
    exact ⟨a, hreads, hcode, ih hrest⟩

end

/-! ## Lowering -/

namespace Lowering

variable {α β γ : Type} {s : Store} {params : List Expr} {σ τ υ : Lowering}

/-- The next local and the next loop variable. -/
def counts (σ : Lowering) : ℕ × ℕ :=
  (σ.nextLocal, σ.nextVariable)

/-- What is bound while the next local and the next loop variable are counted from `m` to `n`.  So
nothing of it is bound before or after. -/
structure Owns (m n : ℕ × ℕ) (l : List Binder) : Prop where
  /-- Both are counted up. -/
  le : m ≤ n
  /-- Nothing is bound twice. -/
  nodup : l.Nodup
  /-- The locals were counted. -/
  locals : ∀ id, .hoisted id ∈ l → m.1 ≤ id ∧ id < n.1
  /-- The loop variables were counted. -/
  counters : ∀ k, .loopVariable k ∈ l → m.2 ≤ k ∧ k < n.2

namespace Owns

variable {l l' : List Binder} {m n k : ℕ × ℕ}

lemma refl (m : ℕ × ℕ) : Owns m m [] := ⟨le_rfl, .nil, by simp, by simp⟩

lemma append (h : Owns m n l) (h' : Owns n k l') : Owns m k (l ++ l') where
  le := h.le.trans h'.le
  nodup := by
    refine List.nodup_append'.2 ⟨h.nodup, h'.nodup, fun b hb hb' => ?_⟩
    cases b with
    | hoisted id => exact absurd ((h.locals id hb).2.trans_le (h'.locals id hb').1) (lt_irrefl _)
    | loopVariable id =>
      exact absurd ((h.counters id hb).2.trans_le (h'.counters id hb').1) (lt_irrefl _)
  locals id hid := by
    rcases List.mem_append.1 hid with hid | hid
    · exact ⟨(h.locals id hid).1, (h.locals id hid).2.trans_le h'.le.1⟩
    · exact ⟨h.le.1.trans (h'.locals id hid).1, (h'.locals id hid).2⟩
  counters id hid := by
    rcases List.mem_append.1 hid with hid | hid
    · exact ⟨(h.counters id hid).1, (h.counters id hid).2.trans_le h'.le.2⟩
    · exact ⟨h.le.2.trans (h'.counters id hid).1, (h'.counters id hid).2⟩

/-- A new loop variable. -/
lemma pushBound (σ : Lowering) (i : ℕ) :
    Owns σ.counts (σ.pushBound i).counts [.loopVariable σ.nextVariable] :=
  ⟨⟨le_rfl, Nat.le_succ _⟩, List.nodup_singleton _, by simp,
    by simp [counts, Lowering.pushBound]⟩

/-- A new local. -/
lemma pushLocal (σ : Lowering) (e : Expr) :
    Owns σ.counts (σ.pushLocal e).counts [.hoisted σ.nextLocal] :=
  ⟨⟨Nat.le_succ _, le_rfl⟩, List.nodup_singleton _, fun id hid => by
    obtain rfl : id = σ.nextLocal := by simpa using hid
    exact ⟨le_rfl, Nat.lt_succ_self _⟩, by simp⟩

end Owns

/-- The outcome of lowering something from `σ` on.  `B` says what it binds, and `R` what it resolves
to with the captured constants of the end. -/
structure Resolved (s : Store) (σ : Lowering) (B : α → List Binder)
    (R : List Value → Origins → Loops → α → Prop) (r : α × Lowering) : Prop where
  /-- The blocks and loops around are the same. -/
  keeps : Keeps σ r.2
  /-- What it binds is new. -/
  owns : Owns σ.counts r.2.counts (B r.1)
  /-- The slots of constants hold their values. -/
  holds : σ.pool.Holds s → r.2.pool.Holds s
  /-- Its references are in scope. -/
  resolves : σ.pool.Holds s → ∀ data, r.2.pool.data <+: data → ∀ Γ, Tracks s σ Γ →
    R data Γ σ.bound r.1

/-- The code of a node. -/
abbrev ResolvedCode (s : Store) (params : List Expr) (σ : Lowering) (e : Expr) :
    Code × Lowering → Prop :=
  Resolved s σ Code.binders fun data Γ loops c => c.Resolves params data Γ loops e

/-- The codes of some nodes. -/
abbrev ResolvedAll (s : Store) (params : List Expr) (σ : Lowering) (l : List Expr) :
    List Code × Lowering → Prop :=
  Resolved s σ Code.bindersAll fun data Γ loops cs => Code.ResolvesAll params data Γ loops cs l

/-- The block of a body. -/
abbrev ResolvedBlock (s : Store) (params : List Expr) (σ : Lowering) (body : Expr) :
    Block × Lowering → Prop :=
  Resolved s σ Block.binders fun data Γ loops c => c.Resolves params data Γ loops body

namespace Resolved

variable {B : α → List Binder} {B' : β → List Binder} {B'' : γ → List Binder}
  {R : List Value → Origins → Loops → α → Prop} {R' : List Value → Origins → Loops → β → Prop}
  {R'' : List Value → Origins → Loops → γ → Prop}

/-- Something that binds nothing and does not change the state. -/
lemma pure {a : α} (hB : B a = []) (h : ∀ data Γ, Tracks s σ Γ → R data Γ σ.bound a) :
    Resolved s σ B R (a, σ) where
  keeps := .refl σ
  owns := hB ▸ .refl _
  holds := id
  resolves _ data _ := h data

lemma map {r : α × Lowering} (h : Resolved s σ B R r) (f : α → β) (hB : ∀ a, B' (f a) = B a)
    (hR : ∀ data Γ loops a, R data Γ loops a → R' data Γ loops (f a)) :
    Resolved s σ B' R' (f r.1, r.2) where
  keeps := h.keeps
  owns := (hB r.1).symm ▸ h.owns
  holds := h.holds
  resolves hσ data hdata Γ hΓ := hR _ _ _ _ (h.resolves hσ data hdata Γ hΓ)

/-- One thing after another. -/
lemma andThen {r : α × Lowering} {q : β × Lowering} (h : Resolved s σ B R r)
    (h' : Resolved s r.2 B' R' q) (f : α → β → γ) (hB : ∀ a b, B'' (f a b) = B a ++ B' b)
    (hR : ∀ data Γ loops a b, R data Γ loops a → R' data Γ loops b → R'' data Γ loops (f a b)) :
    Resolved s σ B'' R'' (f r.1 q.1, q.2) where
  keeps := h.keeps.trans h'.keeps
  owns := (hB r.1 q.1).symm ▸ h.owns.append h'.owns
  holds hσ := h'.holds (h.holds hσ)
  resolves hσ data hdata Γ hΓ := by
    have hfirst := h.resolves hσ data (h'.keeps.pool.trans hdata) Γ hΓ
    have hrest := h'.resolves (h.holds hσ) data hdata Γ (hΓ.mono h.keeps)
    rw [h.keeps.bound] at hrest
    exact hR _ _ _ _ _ hfirst hrest

/-- What is lowered with one more symbol bound. -/
lemma under {i : ℕ} {r : α × Lowering} (h : Resolved s (σ.pushBound i) B R r) :
    Resolved s σ (fun a => .loopVariable σ.nextVariable :: B a)
      (fun data Γ loops a => R data Γ ((i, σ.nextVariable) :: loops) a) (r.1, r.2.popBound) where
  keeps := by
    refine ⟨h.keeps.scopes, ?_, h.keeps.nextLocal, (Nat.le_succ _).trans h.keeps.nextVariable,
      h.keeps.pool⟩
    simp [popBound, h.keeps.bound, Lowering.pushBound]
  owns := (Owns.pushBound σ i).append h.owns
  holds := h.holds
  resolves hσ data hdata Γ hΓ := h.resolves hσ data hdata Γ (hΓ.pushBound i)

/-- A node that is a local already, or else what is made of it. -/
lemma reuse {e : Expr} (he : s.Knows e) {x : LowerM Code} (hx : ResolvedCode s params σ e (x σ)) :
    ResolvedCode s params σ e (Lowering.reuse e x σ) := by
  rw [reuse_apply]
  cases hlocal : σ.local? e with
  | none => exact hx
  | some id =>
    refine .pure (by rw [Code.binders]) fun data Γ hΓ => ?_
    rw [Code.Resolves]
    exact hΓ.origin e id he hlocal

lemma symbol (ordinal : ℕ) (domain : Domain) (name : String) :
    ResolvedCode s params σ (.node ordinal domain (.symbol name))
      (Lowering.symbol params (.node ordinal domain (.symbol name)) name σ) := by
  rw [symbol_apply, loopVariable?_eq_lookup]
  generalize he : Expr.node ordinal domain (.symbol name) = e
  have hsymbol : e.isSymbol = true := he ▸ rfl
  cases hindex : params.findIdx? (· == e) with
  | some k =>
    refine .pure (by rw [Code.binders]) fun data Γ _ => ?_
    rw [Code.Resolves, Expr.referent?, hindex]
    exact ⟨(List.findIdx?_eq_some_iff_getElem.1 hindex).1, hsymbol, rfl⟩
  | none =>
    cases hlookup : σ.bound.lookup e.ordinal with
    | some k =>
      have hreferent : e.referent? params σ.bound = some (.loopVariable k) := by
        rw [Expr.referent?, hindex, hlookup]
        rfl
      refine .pure (by rw [Code.binders]) fun data Γ _ => ?_
      rw [Code.Resolves]
      exact ⟨Expr.exists_of_referent?_eq_loopVariable hreferent, hsymbol, hreferent⟩
    | none =>
      refine .pure (by rw [Code.binders]) fun data Γ _ => ?_
      rw [Code.Resolves, Expr.referent?, hindex, hlookup, ← he]
      exact ⟨rfl, rfl⟩

/-- A captured constant stands in the slot of its node. -/
lemma captured {e : Expr} (he : s.Knows e) {v : Value} (hvalue : e.value? = some v) :
    ResolvedCode s params σ e (Lowering.captured e v σ) where
  keeps := ⟨rfl, rfl, le_rfl, le_rfl, Pool.data_prefix_slot σ.pool e v⟩
  owns := by
    show Owns σ.counts _ (Code.binders (.captured _))
    rw [Code.binders]
    exact .refl σ.counts
  holds hσ := hσ.slot he hvalue
  resolves hσ data hdata Γ _ := by
    show Code.Resolves params data Γ σ.bound (.captured _) e
    rw [Code.Resolves]
    obtain ⟨w, hw, hget⟩ := hσ.slot he hvalue e he _ (Pool.slots_slot σ.pool e v)
    exact ⟨w, hw, getElem?_of_prefix hdata hget⟩

/-- One thing after another for the items of a list. -/
lemma mapM {R : α → List Value → Origins → Loops → β → Prop} {f : α → LowerM β} {l : List α}
    (h : ∀ a ∈ l, ∀ τ, Resolved s τ B' (R a) (f a τ)) :
    Resolved s σ (List.flatMap B')
      (fun data Γ loops bs => List.Forall₂ (fun a b => R a data Γ loops b) l bs) (l.mapM f σ) := by
  induction l generalizing σ with
  | nil => exact .pure rfl fun _ _ _ => .nil
  | cons a l ih =>
    rw [List.mapM_cons]
    exact (h a (by simp) σ).andThen (ih fun c hc => h c (by simp [hc])) List.cons
      (fun _ _ => List.flatMap_cons) fun _ _ _ _ _ h h' => .cons h h'

/-- The codes of some nodes, one after the other. -/
lemma codes {lower : Expr → LowerM Code} {l : List Expr}
    (h : ∀ e ∈ l, ∀ τ, ResolvedCode s params τ e (lower e τ)) :
    ResolvedAll s params σ l (l.mapM lower σ) :=
  (Resolved.mapM h).map id (fun _ => by rw [Code.bindersAll_eq_flatMap]; rfl)
    fun _ _ _ _ hcodes => Code.resolvesAll_iff.2 hcodes.flip

end Resolved

/-! ## Blocks -/

/-- The outcome of binding locals for some nodes in the innermost block. -/
structure ResolvedLocals (s : Store) (params : List Expr) (roots : List Expr) (σ : Lowering)
    (r : List (ℕ × Code) × Lowering) : Prop where
  /-- The innermost block has more locals. -/
  extended : Extends σ r.2
  /-- What they bind is new. -/
  owns : Owns σ.counts r.2.counts (bindersLocals r.1)
  /-- The slots of constants hold their values. -/
  holds : σ.pool.Holds s → r.2.pool.Holds s
  /-- Each local has the locals before it in scope. -/
  resolves : σ.pool.Holds s → ∀ data, r.2.pool.data <+: data → ∀ Γ, Tracks s σ Γ →
    ∃ Γ', Tracks s r.2 Γ' ∧ ResolvesLocals params data roots σ.bound Γ r.1 Γ'

lemma resolved_bindLocals {lower : Expr → LowerM Code} {roots l : List Expr}
    (hl : ∀ e ∈ l, s.Knows e ∧ ∃ r ∈ roots, e.Reads r)
    (hlower : ∀ e ∈ l, ∀ τ, ResolvedCode s params τ e (lower e τ)) {scope : Std.TreeMap ℕ ℕ}
    {rest : List (Std.TreeMap ℕ ℕ)} (hscopes : σ.scopes = scope :: rest) :
    ResolvedLocals s params roots σ (bindLocals lower l σ) := by
  induction l generalizing σ scope rest with
  | nil => exact ⟨.refl hscopes, .refl _, id, fun _ _ _ Γ hΓ => ⟨Γ, hΓ, rfl⟩⟩
  | cons e l ih =>
    have hl' : ∀ d ∈ l, s.Knows d ∧ ∃ r ∈ roots, d.Reads r := fun d hd => hl d (by simp [hd])
    have hlower' : ∀ d ∈ l, ∀ τ, ResolvedCode s params τ d (lower d τ) :=
      fun d hd => hlower d (by simp [hd])
    rw [bindLocals_cons]
    cases hlocal : σ.local? e with
    | some id => exact ih hl' hlower' hscopes
    | none =>
      obtain ⟨hknown, hread⟩ := hl e (by simp)
      have hcode := hlower e (by simp) σ
      generalize lower e σ = r at hcode
      have hscopes' := hcode.keeps.scopes.trans hscopes
      have hnew : r.2.local? e = none := (hcode.keeps.local? e).trans hlocal
      have hpush := extended_pushLocal hscopes' e
      obtain ⟨scope', scope'', rest', -, hscopes''⟩ := hpush.scopes
      have hrest := ih (σ := r.2.pushLocal e) hl' hlower' hscopes''
      -- A new local changes neither the constants nor what the code before it owns.
      refine ⟨((hcode.keeps.extended hscopes).trans hpush).trans hrest.extended, ?_,
        fun hσ => hrest.holds (hcode.holds hσ), fun hσ data hdata Γ hΓ => ?_⟩
      · have howns := (hcode.owns.append (Owns.pushLocal r.2 e)).append hrest.owns
        exact howns
      · have hcodeRefers := hcode.resolves hσ data
          ((hpush.trans hrest.extended).pool.trans hdata) Γ hΓ
        obtain ⟨Γ', hΓ', hlocals⟩ := hrest.resolves (hcode.holds hσ) data hdata _
          ((hΓ.mono hcode.keeps).pushLocal hscopes' hknown hnew)
        rw [hpush.bound, hcode.keeps.bound] at hlocals
        exact ⟨Γ', hΓ', e, hread, hcodeRefers, hlocals⟩

/-- What is lowered in a block over some roots, after the locals of the block. -/
lemma resolved_block {lower : Expr → LowerM Code} (roots : List Expr) (x : LowerM α)
    (hs : s.WellFormed) (hroots : ∀ r ∈ roots, s.Knows r)
    (hlower : ∀ r ∈ roots, ∀ e, e.Reads r → ∀ τ, ResolvedCode s params τ e (lower e τ))
    {B : α → List Binder} {R : List Value → Origins → Loops → α → Prop}
    (hx : ∀ τ, Resolved s τ B R (x τ)) :
    Resolved s σ (fun p => bindersLocals p.1 ++ B p.2)
      (fun data Γ loops p => ∃ Γ', ResolvesLocals params data roots loops Γ p.1 Γ' ∧
        R data Γ' loops p.2)
      (inBlock lower roots x σ) := by
  have hrun : inBlock lower roots x σ = (((openBlock lower roots σ).1,
      (x (openBlock lower roots σ).2).1), (x (openBlock lower roots σ).2).2.leave) := rfl
  rw [hrun]
  have hlocals : ResolvedLocals s params roots σ.enter (openBlock lower roots σ) := by
    refine resolved_bindLocals (fun e he => ?_) (fun e he => ?_) rfl
    · obtain ⟨r, hr, hreads⟩ := Expr.mem_sharedNodes he
      exact ⟨hreads.knows hs (hroots r hr), r, hr, hreads⟩
    · obtain ⟨r, hr, hreads⟩ := Expr.mem_sharedNodes he
      exact hlower r hr e hreads
  generalize openBlock lower roots σ = q at hlocals
  have hresult := hx q.2
  generalize x q.2 = r at hresult
  have hleave : r.2.leave.scopes = σ.scopes := by
    obtain ⟨scope, scope', rest, hscopes, hscopes'⟩ := hlocals.extended.scopes
    obtain ⟨-, rfl⟩ := List.cons.inj hscopes
    show r.2.scopes.drop 1 = _
    rw [hresult.keeps.scopes, hscopes']
    rfl
  refine ⟨⟨hleave, hresult.keeps.bound.trans hlocals.extended.bound,
    hlocals.extended.nextLocal.trans hresult.keeps.nextLocal,
    hlocals.extended.nextVariable.trans hresult.keeps.nextVariable,
    hlocals.extended.pool.trans hresult.keeps.pool⟩, hlocals.owns.append hresult.owns,
    fun hσ => hresult.holds (hlocals.holds hσ), fun hσ data hdata Γ hΓ => ?_⟩
  obtain ⟨Γ', hΓ', hresolves⟩ := hlocals.resolves hσ data (hresult.keeps.pool.trans hdata) Γ hΓ.enter
  have hvalue := hresult.resolves (hlocals.holds hσ) data hdata Γ' hΓ'
  rw [hlocals.extended.bound] at hvalue
  exact ⟨Γ', hresolves, hvalue⟩

end Lowering

/-! ## Nodes and bodies -/

namespace Expr

open Lowering

variable {s : Store} {params : List Expr} {block : Expr → LowerM Block} {n : ℕ}

lemma resolved_lowerAll {l : List Expr} {σ : Lowering}
    (h : ∀ e ∈ l, ∀ τ, ResolvedCode s params τ e (lowerWith params block e τ)) :
    ResolvedAll s params σ l (lowerAll params block l σ) := by
  rw [lowerAll_eq_mapM]
  exact .codes h

/-- The code of a node resolves, if the blocks of loop bodies do. -/
lemma resolved_lowerWith (hs : s.WellFormed)
    (hblock : ∀ body, s.Knows body → body.ordinal < n → ∀ τ,
      ResolvedBlock s params τ body (block body τ))
    (e : Expr) (he : s.Knows e) (hn : e.ordinal ≤ n) (σ : Lowering) :
    ResolvedCode s params σ e (lowerWith params block e σ) := by
  induction hsize : sizeOf e using Nat.strongRecOn generalizing e σ with
  | _ m ih =>
    subst hsize
    have hoperand {c : Expr} (hc : c ∈ e.operands) (τ : Lowering) :
        ResolvedCode s params τ c (lowerWith params block c τ) := by
      have hchild := mem_children_of_mem_operands hc
      exact ih _ (sizeOf_lt_of_mem_children hchild) c (hs.children he c hchild)
        ((hs.below he hchild).le.trans hn) τ rfl
    have hbody {b : Expr} (hb : e.body? = some b) (τ : Lowering) :
        ResolvedBlock s params τ b (block b τ) := by
      have hchild := mem_children_of_body hb
      exact hblock b (hs.children he b hchild) ((hs.below he hchild).trans_le hn) τ
    obtain ⟨ordinal, domain, kind⟩ := e
    cases kind with
    | symbol name =>
      rw [lowerWith]
      exact .reuse he (.symbol ordinal domain name)
    | number k =>
      rw [lowerWith]
      exact .reuse he (.pure (by rw [Code.binders]) fun _ _ _ => by rw [Code.Resolves]; rfl)
    | object v resolver | field name | function g =>
      rw [lowerWith]
      exact .reuse he (.captured he (by rw [value?]))
    | tuple items | sum items | chain items =>
      rw [lowerWith]
      refine .reuse he ((resolved_lowerAll (l := items) fun c hc => hoperand hc).map _
        (fun cs => by rw [Code.binders]) fun data Γ loops cs h => ?_)
      rw [Code.Resolves]
      exact ⟨items, rfl, h⟩
    | apply target argument =>
      rw [lowerWith]
      refine .reuse he ((hoperand (c := target) (by simp [operands, Expr.kind]) σ).andThen
        (hoperand (c := argument) (by simp [operands, Expr.kind]) _) Code.apply
        (fun c c' => by rw [Code.binders]) fun data Γ loops c c' h h' => ?_)
      rw [Code.Resolves]
      exact ⟨target, argument, rfl, h, h'⟩
    | inverse inner | transpose inner =>
      rw [lowerWith]
      refine .reuse he ((hoperand (c := inner) (by simp [operands, Expr.kind]) σ).map _
        (fun c => by rw [Code.binders]) fun data Γ loops c h => ?_)
      rw [Code.Resolves]
      exact ⟨inner, rfl, h⟩
    | generator rows cols element =>
      -- Both indices are bound at once, the column under the row.
      have hloop := (hbody rfl ((σ.pushBound rowIndex.ordinal).pushBound colIndex.ordinal)).under.under
      rw [popBound_popBound] at hloop
      rw [lowerWith]
      refine .reuse he (hloop.map (Code.generate rows cols σ.nextVariable (σ.nextVariable + 1))
        (fun c => by rw [Code.binders]; rfl) fun data Γ loops c h => ?_)
      rw [Code.Resolves]
      exact ⟨element, rfl, h⟩
    | indexedSum index lower upper body =>
      have hbounds : Resolved s σ (fun p : Code × Code => p.1.binders ++ p.2.binders)
          (fun data Γ loops p => p.1.Resolves params data Γ loops lower ∧
            p.2.Resolves params data Γ loops upper) _ :=
        (hoperand (c := lower) (by simp [operands, Expr.kind]) σ).andThen
          (hoperand (c := upper) (by simp [operands, Expr.kind]) _) Prod.mk (fun _ _ => rfl)
          fun _ _ _ _ _ h h' => ⟨h, h'⟩
      have hloop (τ : Lowering) := (hbody rfl (τ.pushBound index.ordinal)).under
      rw [lowerWith]
      refine .reuse he (hbounds.andThen (hloop _) (fun p c => Code.range _ p.1 p.2 c)
        (fun p c => by rw [Code.binders]) fun data Γ loops p c h h' => ?_)
      rw [Code.Resolves]
      exact ⟨index, lower, upper, body, rfl, h.1, h.2, h'⟩
    | collectionSum index collection body =>
      have hcollection := hoperand (c := collection) (by simp [operands, Expr.kind]) σ
      have hloop (τ : Lowering) := (hbody rfl (τ.pushBound index.ordinal)).under
      rw [lowerWith]
      refine .reuse he (hcollection.andThen (hloop _) (fun p c => Code.each _ p c)
        (fun p c => by rw [Code.binders]) fun data Γ loops p c h h' => ?_)
      rw [Code.Resolves]
      exact ⟨index, collection, body, rfl, h, h'⟩

/-- All nodes that a root reads are lowered to code that resolves. -/
lemma resolved_reads (hs : s.WellFormed)
    (hblock : ∀ body, s.Knows body → body.ordinal < n → ∀ τ,
      ResolvedBlock s params τ body (block body τ))
    {r e : Expr} (h : Reads e r) (hr : s.Knows r) (hn : r.ordinal ≤ n) (σ : Lowering) :
    ResolvedCode s params σ e (lowerWith params block e σ) := by
  induction h with
  | refl => exact resolved_lowerWith hs hblock e hr hn σ
  | step hc _ ih =>
    have hchild := mem_children_of_mem_operands hc
    exact ih (hs.children hr _ hchild) ((hs.below hr hchild).le.trans hn)

/-- Bodies of loops are lowered to blocks that resolve. -/
lemma resolved_lowerBlock (hs : s.WellFormed) (n : ℕ) (body : Expr) (hbody : s.Knows body)
    (hn : body.ordinal < n) (σ : Lowering) :
    ResolvedBlock s params σ body (lowerBlock params n body σ) := by
  induction n generalizing body σ with
  | zero => exact absurd hn (Nat.not_lt_zero _)
  | succ n ih =>
    have hreads {e : Expr} (h : Reads e body) (τ : Lowering) :
        ResolvedCode s params τ e (lowerWith params (lowerBlock params n) e τ) :=
      resolved_reads hs ih h hbody (Nat.lt_succ_iff.1 hn) τ
    have hblock := resolved_block (σ := σ) [body] _ hs (by simpa using hbody)
      (fun r hr e he => hreads (by simp_all)) (hreads .refl)
    refine hblock.map (fun p => Block.ofLocals p.1 p.2)
      (fun p => Block.binders_ofLocals p.1 p.2) ?_
    rintro data Γ loops p ⟨Γ', hlocals, hvalue⟩
    exact hlocals.block hvalue

end Expr

/-! ## Loads -/

mutual

/-- The slots that an instruction loads from, in the bodies of loops too. -/
def Instruction.slots : Instruction → List ℕ
  | .loadData _ slot => [slot]
  | .loadNumber .. | .tuple .. | .apply .. | .add .. | .inverse .. | .transpose .. => []
  | .rangeLoop _ _ _ _ body _ | .eachLoop _ _ _ body _ | .gridLoop _ _ _ _ _ body _ =>
    Instruction.slotsAll body

/-- The slots that some instructions load from. -/
def Instruction.slotsAll : List Instruction → List ℕ
  | [] => []
  | i :: is => i.slots ++ Instruction.slotsAll is

end

/-- The slots that a program loads from. -/
def Program.slots (p : Program) : List ℕ :=
  Instruction.slotsAll p.instructions

mutual

lemma Instruction.slots_renumber (ρ : ℕ → ℕ) : ∀ i : Instruction, (i.renumber ρ).slots = i.slots.map ρ
  | .loadData dst slot => by rw [renumber, slots, slots, List.map_singleton]
  | .loadNumber .. | .tuple .. | .apply .. | .add .. | .inverse .. | .transpose .. => by
    rw [renumber, slots, List.map_nil]
  | .rangeLoop _ _ _ _ body _ | .eachLoop _ _ _ body _ | .gridLoop _ _ _ _ _ body _ => by
    rw [renumber, slots, slots, Instruction.slotsAll_renumberAll ρ body]

lemma Instruction.slotsAll_renumberAll (ρ : ℕ → ℕ) : ∀ is : List Instruction,
    Instruction.slotsAll (Instruction.renumberAll ρ is) = (Instruction.slotsAll is).map ρ
  | [] => by rw [renumberAll, slotsAll, List.map_nil]
  | i :: is => by
    rw [renumberAll, slotsAll, slotsAll, List.map_append, i.slots_renumber ρ,
      Instruction.slotsAll_renumberAll ρ is]

end

/-! ## Jobs -/

namespace Job

open Lowering

variable {s : Store} {job : Job} {pool : Pool}

lemma resolved_lowerResults
    (h : ∀ r ∈ job.roots, ∀ τ, ResolvedCode s job.params τ r (job.lower r τ)) (σ : Lowering) :
    Resolved s σ
      (fun p => p.1.binders ++ (Code.bindersAll p.2.1 ++ p.2.2.flatMap Code.bindersAll))
      (fun data Γ loops p => p.1.Resolves job.params data Γ loops job.value ∧
        Code.ResolvesAll job.params data Γ loops p.2.1 job.outputs ∧
        List.Forall₂ (Code.ResolvesAll job.params data Γ loops) p.2.2 job.arrays)
      (job.lowerResults σ) := by
  have hvalue := h job.value (by simp [roots]) σ
  have houtputs (τ : Lowering) :
      ResolvedAll s job.params τ job.outputs (job.outputs.mapM job.lower τ) :=
    .codes fun r hr => h r (by simp [roots, hr])
  have harrays (τ : Lowering) : Resolved s τ (List.flatMap Code.bindersAll)
      (fun data Γ loops css => List.Forall₂
        (fun items cs => Code.ResolvesAll job.params data Γ loops cs items) job.arrays css)
      (job.arrays.mapM (fun items => items.mapM job.lower) τ) :=
    .mapM fun items hitems υ => .codes fun r hr => h r (by
      simp only [roots, List.cons_append, List.mem_cons, List.mem_append, List.mem_flatten]
      exact .inr (.inr ⟨items, hitems, hr⟩))
  have hrest : Resolved s (job.lower job.value σ).2
      (fun p : List Code × List (List Code) =>
        Code.bindersAll p.1 ++ p.2.flatMap Code.bindersAll)
      (fun data Γ loops p => Code.ResolvesAll job.params data Γ loops p.1 job.outputs ∧
        List.Forall₂ (Code.ResolvesAll job.params data Γ loops) p.2 job.arrays) _ :=
    (houtputs _).andThen (harrays _) Prod.mk (fun _ _ => rfl) fun _ _ _ _ _ h h' => ⟨h, h'.flip⟩
  exact hvalue.andThen hrest Prod.mk (fun _ _ => rfl) fun _ _ _ _ _ h h' => ⟨h, h'⟩

/-- The statement list of a job resolves over the constants captured in the end. -/
lemma resolves_linearize (hs : s.WellFormed) (hjob : ∀ r ∈ job.roots, s.Knows r) (name : String)
    (hpool : pool.Holds s) {data : List Value} (hdata : (job.linearize name pool).2.data <+: data) :
    (job.linearize name pool).1.Resolves data job := by
  have hreads : ∀ r ∈ job.roots, ∀ e, Expr.Reads e r → ∀ τ,
      ResolvedCode s job.params τ e (job.lower e τ) := fun r hr e he =>
    Expr.resolved_reads hs (Expr.resolved_lowerBlock hs _) he (hjob r hr)
      (Expr.ordinal_le_lastOrdinal hr)
  have hroot : ∀ r ∈ job.roots, ∀ τ, ResolvedCode s job.params τ r (job.lower r τ) :=
    fun r hr => hreads r hr r .refl
  have hblock := resolved_block job.roots job.lowerResults hs hjob hreads
    (resolved_lowerResults hroot) (σ := { pool := pool })
  rw [linearize_eq] at hdata ⊢
  generalize inBlock job.lower job.roots job.lowerResults { pool := pool } = r at hblock hdata ⊢
  have htracks : Tracks s { pool := pool } Origins.empty :=
    ⟨by simp [localIds], fun e id _ hid => by cases hid⟩
  exact ⟨rfl, hblock.owns.nodup, hblock.resolves hpool data hdata .empty htracks⟩

/-- The program of a job loads captured constants only.  The code of the job is the same whatever
slots are given to other nodes, so no other slot occurs in it. -/
lemma slots_linearize (hs : s.WellFormed) (hjob : ∀ r ∈ job.roots, s.Knows r) (name : String)
    (hpool : pool.Holds s) {data : List Value} (hdata : (job.linearize name pool).2.data <+: data)
    {p : Program} (hp : (job.linearize name pool).1.compile = .ok p) :
    ∀ slot ∈ p.slots, ∃ v, data[slot]? = some v := by
  intro slot hslot
  obtain ⟨captures, f, hknows, -, hrun⟩ := uniform_linearize hs hjob
  let ρ := (pool.captureAll captures).numbering captures (slot + 1)
  rw [hrun name pool ρ fun c hc => Pool.slots_numbering hc pool _] at hdata hp
  rw [SourceFunction.compile_renumber] at hp
  cases hf : f.compile with
  | error ds =>
    rw [hf] at hp
    cases hp
  | ok p₀ =>
    rw [hf] at hp
    obtain rfl : p₀.renumber ρ = p := Except.ok.inj hp
    obtain ⟨i, -, hi⟩ : ∃ i ∈ p₀.slots, ρ i = slot := by
      rwa [Program.slots, Program.renumber, Instruction.slotsAll_renumberAll, List.mem_map] at hslot
    by_cases hcaptured : i ∈ captures.map fun c => c.1.ordinal
    · obtain ⟨c, hc, rfl⟩ := List.mem_map.1 hcaptured
      exact ⟨c.2, hi ▸ hpool.load hknows hdata hc _⟩
    · have hother : ρ i = slot + 1 := if_neg hcaptured
      omega

/-- The functions of a batch resolve and render their jobs, and their programs load captured constants
only. -/
lemma resolves_linearizeAll (hs : s.WellFormed) {jobs : List Job}
    (hjobs : ∀ job ∈ jobs, ∀ r ∈ job.roots, s.Knows r) (k : ℕ) (hpool : pool.Holds s)
    {data : List Value} (hdata : (linearizeAll k pool jobs).2.data <+: data) :
    List.Forall₂ (fun job f => f.Resolves data job ∧ f.Renders job.params Origin.Around job ∧
      ∀ p, f.compile = .ok p → ∀ slot ∈ p.slots, ∃ v, data[slot]? = some v)
      jobs (linearizeAll k pool jobs).1 := by
  induction jobs generalizing k pool with
  | nil => exact .nil
  | cons job jobs ih =>
    rw [List.forall_mem_cons] at hjobs
    let r := job.linearize ("f" ++ Nat.repr k) pool
    have hrun : linearizeAll k pool (job :: jobs) =
        (r.1 :: (linearizeAll (k + 1) r.2 jobs).1, (linearizeAll (k + 1) r.2 jobs).2) := rfl
    rw [hrun] at hdata ⊢
    have hholds := (linearize_twins hs hjobs.1 ("f" ++ Nat.repr k) hpool).2.1
    have hfirst : r.2.data <+: data :=
      (twins_linearizeAll hs hjobs.2 (k + 1) hholds).1.trans hdata
    exact .cons ⟨resolves_linearize hs hjobs.1 _ hpool hfirst,
      renders_linearize hs hjobs.1 _ _,
      fun p hp => slots_linearize hs hjobs.1 _ hpool hfirst hp⟩ (ih hjobs.2 (k + 1) hholds hdata)

end Job

/-! ## Compiling -/

/-- Compiling a function that was lowered from a job reports no local and no loop variable. -/
lemma SourceFunction.Renders.problem_ne {f : SourceFunction} {params : List Expr}
    {ok : Origin → Loops → Prop} {job : Job} (h : f.Renders params ok job) {ds : List Diagnostic}
    (hds : f.compile = .error ds) {d : Diagnostic} (hd : d ∈ ds) (id : ℕ) :
    d.problem ≠ .unboundLocal id ∧ d.problem ≠ .unboundLoopVariable id := by
  have hreported : d.problem ∈ f.allocation.problems ∨
      ∃ needed limit, d.problem = .tooManyRegisters needed limit := by
    have hrun : f.emit.run { registers := f.params.length } = _ := emit_eq f _
    unfold SourceFunction.compile at hds
    rw [hrun] at hds
    dsimp only at hds
    split at hds
    · cases hds
    · obtain rfl := Except.error.inj hds
      obtain ⟨p, hp, rfl⟩ := List.mem_map.1 hd
      rw [List.mem_reverse] at hp
      split at hp
      · rcases List.mem_cons.1 hp with rfl | hp
        · exact .inr ⟨_, _, rfl⟩
        · exact .inl hp
      · exact .inl hp
  rcases hreported with hmem | ⟨needed, limit, heq⟩
  · obtain ⟨name, -, heq⟩ := h.mem_problems.1 hmem
    simp [heq]
  · simp [heq]

namespace Job

variable {s : Store}

/-- **Statement lists are well scoped.**  In every function of a batch, each local and each loop
variable is bound once, and every reference is in scope and stands for its node; a captured constant
is the one in its slot.  Compiling a function never reports a local or a loop variable, and every
load in a compiled function succeeds. -/
theorem resolved_unit (hs : s.WellFormed) {jobs : List Job}
    (hjobs : ∀ job ∈ jobs, ∀ r ∈ job.roots, s.Knows r) :
    List.Forall₂ (fun job f => f.Resolves (unit jobs).data job) jobs (unit jobs).functions ∧
    (∀ f ∈ (unit jobs).functions, ∀ ds, f.compile = .error ds → ∀ d ∈ ds, ∀ id,
      d.problem ≠ .unboundLocal id ∧ d.problem ≠ .unboundLoopVariable id) ∧
    ∀ t : Toolchain, t.fault = none → ∀ functions, t.compile (unit jobs) = .ok functions →
      ∀ g ∈ functions, ∀ slot ∈ g.program.slots, ∃ v, ∀ dst frame,
        Instruction.run g.evaluator g.data (.loadData dst slot) frame =
          pure (frame.write dst v) := by
  have hall : List.Forall₂ _ jobs (unit jobs).functions :=
    resolves_linearizeAll hs hjobs 0 Pool.holds_empty (List.prefix_refl _)
  have hmem {f : SourceFunction} (hf : f ∈ (unit jobs).functions) := exists_of_mem_forall₂ hall.flip hf
  refine ⟨hall.imp fun _ _ h => h.1, fun f hf ds hds d hd => ?_, fun t ht functions hcompile g hg => ?_⟩
  · obtain ⟨job, -, -, hrenders, -⟩ := hmem hf
    exact hrenders.problem_ne hds hd
  · obtain ⟨f, hf, p, hp, rfl⟩ := exists_of_mem_forall₂ (Toolchain.forall₂_compile ht hcompile).flip hg
    obtain ⟨job, -, -, -, hslots⟩ := hmem hf
    intro slot hslot
    obtain ⟨v, hv⟩ := hslots p hp slot hslot
    refine ⟨v, fun dst frame => ?_⟩
    have hget : (unit jobs).data.toArray[slot]? = some v :=
      List.getElem?_toArray.trans hv
    show Instruction.run t.toEvaluator (unit jobs).data.toArray (.loadData dst slot) frame = _
    rw [Instruction.run, hget]

/-- A batch of a sine that is used twice, and of a matrix of it. -/
theorem resolved_unit_sine :
    let x := (Store.initial.intern .reals (.symbol "x")).1
    let s := (Store.initial.intern .reals (.symbol "x")).2
    let sine := (s.intern .functions (.function (.builtin .sin))).1
    let t := (s.intern .functions (.function (.builtin .sin))).2
    let e := (t.intern .reals (.apply sine x)).1
    let u := (t.intern .reals (.apply sine x)).2
    let g := (u.intern .matrices (.generator 2 3 e)).1
    let jobs : List Job := [{ value := e, params := [x], outputs := [e] },
      { value := g, params := [x], outputs := [e, e] }]
    (unit jobs).functions.map SourceFunction.binders =
      [[.hoisted 0], [.hoisted 0, .loopVariable 0, .loopVariable 1]] ∧
    (unit jobs).data.length = 1 ∧
    List.Forall₂ (fun job f => f.Resolves (unit jobs).data job) jobs (unit jobs).functions := by
  intro x s sine t e u g jobs
  have hadm : Store.initial.Admits .reals (.symbol "x") :=
    ⟨by simp [Kind.children], fun _ h => h.elim, trivial, by simp [Kind.index?]⟩
  obtain ⟨hs, hx, -⟩ := Store.wellFormed_initial.intern hadm
  have hadm' : s.Admits .functions (.function (.builtin .sin)) :=
    ⟨by simp [Kind.children], by rintro f rfl; trivial, rfl, by simp [Kind.index?]⟩
  obtain ⟨ht, hsine, -⟩ := hs.intern hadm'
  have hx' : t.Knows x := hx.mono (Store.le_intern _ _ s)
  have hadm'' : t.Admits .reals (.apply sine x) :=
    ⟨by simpa [Kind.children] using ⟨hsine, hx'⟩, fun _ h => h.elim, rfl, by simp [Kind.index?]⟩
  obtain ⟨hu, he, -⟩ := ht.intern hadm''
  have hadm₃ : u.Admits .matrices (.generator 2 3 e) :=
    ⟨by simpa [Kind.children] using he, fun _ h => h.elim, rfl, by simp [Kind.index?]⟩
  obtain ⟨hv, hg, -⟩ := hu.intern hadm₃
  have he' : (u.intern .matrices (.generator 2 3 e)).2.Knows e := he.mono (Store.le_intern _ _ u)
  have hroots : ∀ job ∈ jobs, ∀ r ∈ job.roots, (u.intern .matrices (.generator 2 3 e)).2.Knows r := by
    simpa [jobs, Job.roots] using ⟨he', hg, he'⟩
  exact ⟨by decide +kernel, by decide +kernel, (resolved_unit hv hroots).1⟩

end Job

end TermGraph
