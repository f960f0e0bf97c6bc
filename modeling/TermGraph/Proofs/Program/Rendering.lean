import TermGraph.Proofs.Program.Blocks
import TermGraph.Proofs.Program.Capturing
import TermGraph.Proofs.Program.Occurrences

/-!
# Statement lists and what they were lowered from

A statement list names locals and loop variables, but neither the nodes that were hoisted nor the
symbols that were bound.  The judgement `Code.Renders` puts both back: it relates a computation to
the node it was lowered from, with the origins of the locals and the loops around.  It holds of what
any job is lowered to, also where symbols are bound again in their own scope.

* `Expr.referent?`: what a symbol refers to, a parameter or the innermost loop that binds it.
* `Code.Renders params ok Γ loops c e`: the computation `c` was lowered from `e`, and `ok` holds of
  every reference to a local.
* `Job.renders_linearize`: the statement list of a job renders its results, and a local is referred
  to within the loops around its origin.
-/

namespace TermGraph

/-! ## Symbols and locals -/

/-- The symbols that the loops around bind, by ordinal, with the loop variables, the innermost loop
first. -/
abbrev Loops := List (ℕ × ℕ)

/-- What a symbol refers to. -/
inductive Referent where
  /-- The parameter at a position. -/
  | param (position : ℕ)
  /-- The variable of a loop around. -/
  | loopVariable (id : ℕ)

/-- What a symbol refers to: a parameter, or else the variable of the innermost loop that binds
it. -/
def Expr.referent? (params : List Expr) (loops : Loops) (x : Expr) : Option Referent :=
  match params.findIdx? (· == x) with
  | some k => some (.param k)
  | none => (loops.lookup x.ordinal).map .loopVariable

namespace Expr

variable {params : List Expr} {more loops : Loops} {x : Expr}

lemma referent?_append (h : x.ordinal ∉ more.map Prod.fst) :
    x.referent? params (more ++ loops) = x.referent? params loops := by
  rw [referent?, referent?, List.lookup_append, lookup_eq_none_iff_fst.2 h, Option.none_or]

/-- A symbol without a referent is neither a parameter nor bound by a loop around. -/
lemma referent?_eq_none_iff : x.referent? params loops = none ↔
    x.ordinal ∉ params.map ordinal ∧ x.ordinal ∉ loops.map Prod.fst := by
  have hparams : params.findIdx? (· == x) = none ↔ x.ordinal ∉ params.map ordinal := by
    simp only [List.findIdx?_eq_none_iff, List.mem_map, not_exists, not_and,
      ← Bool.not_eq_true, beq_iff_ordinal]
  rw [← hparams, ← lookup_eq_none_iff_fst, referent?]
  cases params.findIdx? (· == x) <;> simp

/-- A loop variable is one of a loop around. -/
lemma exists_of_referent?_eq_loopVariable {id : ℕ}
    (h : x.referent? params loops = some (.loopVariable id)) : ∃ p ∈ loops, p.2 = id := by
  unfold referent? at h
  cases hparam : params.findIdx? (· == x) with
  | some k => simp [hparam] at h
  | none =>
    rw [hparam] at h
    obtain ⟨k, hk, hid⟩ := Option.map_eq_some_iff.1 h
    obtain rfl : k = id := Referent.loopVariable.inj hid
    obtain ⟨l₁, l₂, rfl, -⟩ := List.lookup_eq_some_iff.1 hk
    exact ⟨(x.ordinal, k), by simp, rfl⟩

end Expr

/-- Where a local comes from. -/
structure Origin where
  /-- The node that the local stands for. -/
  node : Expr
  /-- The loops around the place where the local is bound. -/
  loops : Loops

/-- The origins of the locals that are bound. -/
abbrev Origins := ℕ → Option Origin

/-- No locals. -/
def Origins.empty : Origins := fun _ => none

/-- One more local. -/
def Origins.bind (Γ : Origins) (id : ℕ) (o : Origin) : Origins :=
  Function.update Γ id (some o)

namespace Origins

variable (Γ : Origins) (id : ℕ) (o : Origin)

@[simp] lemma bind_self : Γ.bind id o id = some o := Function.update_self ..

lemma bind_of_ne {j : ℕ} (h : j ≠ id) : Γ.bind id o j = Γ j := Function.update_of_ne h ..

end Origins

/-! ## The judgement -/

section Renders

variable (params : List Expr) (ok : Origin → Loops → Prop)

mutual

/-- The computation was lowered from the node, where the locals have the origins `Γ`; every
reference to a local is `ok`. -/
def Code.Renders (Γ : Origins) (loops : Loops) : Code → Expr → Prop
  | .param k, e => e.isSymbol = true ∧ e.referent? params loops = some (.param k)
  | .hoisted id, e => ∃ o, Γ id = some o ∧ o.node = e ∧ ok o loops
  | .loopVariable id, e => e.isSymbol = true ∧ e.referent? params loops = some (.loopVariable id)
  | .captured _, e => (∃ v, e.value? = some v) ∧ e.children = []
  | .number n, e => e.kind = .number n
  | .unbound name, e => e.kind = .symbol name ∧ e.referent? params loops = none
  | .tuple items, e => ∃ es, e.kind = .tuple es ∧ Code.RendersAll Γ loops items es
  | .apply target argument, e => ∃ t a, e.kind = .apply t a ∧ target.Renders Γ loops t ∧
    argument.Renders Γ loops a
  | .sum terms, e => ∃ es, e.kind = .sum es ∧ Code.RendersAll Γ loops terms es
  | .multiply factors, e => ∃ es, e.kind = .chain es ∧ Code.RendersAll Γ loops factors es
  | .inverse inner, e => ∃ i, e.kind = .inverse i ∧ inner.Renders Γ loops i
  | .transpose inner, e => ∃ i, e.kind = .transpose i ∧ inner.Renders Γ loops i
  | .generate rows cols row col element, e => ∃ b, e.kind = .generator rows cols b ∧
    element.Renders Γ ((Expr.colIndex.ordinal, col) :: (Expr.rowIndex.ordinal, row) :: loops) b
  | .range counter lower upper body, e => ∃ i l u b, e.kind = .indexedSum i l u b ∧
    lower.Renders Γ loops l ∧ upper.Renders Γ loops u ∧
    body.Renders Γ ((i.ordinal, counter) :: loops) b
  | .each counter collection body, e => ∃ i c b, e.kind = .collectionSum i c b ∧
    collection.Renders Γ loops c ∧ body.Renders Γ ((i.ordinal, counter) :: loops) b

/-- The computations of a list were lowered from the nodes of a list, one by one. -/
def Code.RendersAll (Γ : Origins) (loops : Loops) : List Code → List Expr → Prop
  | [], [] => True
  | c :: cs, e :: es => c.Renders Γ loops e ∧ Code.RendersAll Γ loops cs es
  | _, _ => False

/-- The block was lowered from the node, and its locals are nodes that this node reads. -/
def Block.Renders (Γ : Origins) (loops : Loops) : Block → Expr → Prop
  | .result value, e => value.Renders Γ loops e
  | .bind id code rest, e => ∃ a, a.Reads e ∧ code.Renders Γ loops a ∧
    rest.Renders (Γ.bind id ⟨a, loops⟩) loops e

end

/-- The locals of a list stand for nodes that some roots read, and with them the locals have the
origins `Γ'`. -/
def RendersLocals (roots : List Expr) (loops : Loops) :
    Origins → List (ℕ × Code) → Origins → Prop
  | Γ, [], Γ' => Γ = Γ'
  | Γ, (id, code) :: rest, Γ' => ∃ a, (∃ r ∈ roots, a.Reads r) ∧ code.Renders params ok Γ loops a ∧
    RendersLocals roots loops (Γ.bind id ⟨a, loops⟩) rest Γ'

/-- The function was lowered from the results of the job. -/
def SourceFunction.Renders (f : SourceFunction) (job : Job) : Prop :=
  ∃ Γ, RendersLocals params ok job.roots [] .empty f.locals Γ ∧
    f.value.Renders params ok Γ [] job.value ∧
    Code.RendersAll params ok Γ [] f.outputs job.outputs ∧
    List.Forall₂ (Code.RendersAll params ok Γ []) f.arrays job.arrays

end Renders

section

variable {params : List Expr} {ok : Origin → Loops → Prop} {Γ Γ' : Origins} {loops : Loops}

lemma Code.rendersAll_iff {cs : List Code} {es : List Expr} :
    Code.RendersAll params ok Γ loops cs es ↔
      List.Forall₂ (Code.Renders params ok Γ loops) cs es := by
  induction cs generalizing es with
  | nil => cases es <;> simp [RendersAll]
  | cons c cs ih => cases es <;> simp [RendersAll, ih]

lemma RendersLocals.block {e : Expr} {locals : List (ℕ × Code)} {value : Code}
    (h : RendersLocals params ok [e] loops Γ locals Γ') (hvalue : value.Renders params ok Γ' loops e) :
    (Block.ofLocals locals value).Renders params ok Γ loops e := by
  induction locals generalizing Γ with
  | nil =>
    show (Block.result value).Renders params ok Γ loops e
    rw [Block.Renders]
    exact (show Γ = Γ' from h) ▸ hvalue
  | cons entry locals ih =>
    obtain ⟨id, code⟩ := entry
    obtain ⟨a, ⟨r, hr, hreads⟩, hcode, hrest⟩ := h
    obtain rfl := List.mem_singleton.1 hr
    show (Block.bind id code (Block.ofLocals locals value)).Renders params ok Γ loops r
    rw [Block.Renders]
    exact ⟨a, hreads, hcode, ih hrest⟩

end

/-! ## Lowering -/

/-- The local is referred to within the loops around its origin. -/
def Origin.Around (o : Origin) (loops : Loops) : Prop :=
  o.loops <:+ loops

namespace Lowering

variable {α β γ : Type} {s : Store} {params : List Expr} {σ τ : Lowering} {Γ : Origins}

lemma loopVariable?_eq_lookup (σ : Lowering) (e : Expr) :
    σ.loopVariable? e = σ.bound.lookup e.ordinal := by
  unfold loopVariable?
  generalize σ.bound = bound
  induction bound with
  | nil => rfl
  | cons p bound ih =>
    rw [List.find?_cons, List.lookup_cons, BEq.comm]
    cases e.ordinal == p.1 with
    | true => rfl
    | false => exact ih

/-- The origins of the locals are those of the state. -/
structure Tracks (s : Store) (σ : Lowering) (Γ : Origins) : Prop where
  /-- The next local is new. -/
  fresh : ∀ id ∈ σ.localIds, id < σ.nextLocal
  /-- A local stands for its node and was bound within loops that are still around. -/
  origin : ∀ (e : Expr) (id : ℕ), s.Knows e → σ.local? e = some id →
    ∃ o, Γ id = some o ∧ o.node = e ∧ o.Around σ.bound

lemma Tracks.mono (h : Tracks s σ Γ) (hkeeps : Keeps σ τ) : Tracks s τ Γ where
  fresh id hid := by
    rw [hkeeps.localIds] at hid
    exact (h.fresh id hid).trans_le hkeeps.nextLocal
  origin e id he hid := by
    rw [hkeeps.local?] at hid
    rw [hkeeps.bound]
    exact h.origin e id he hid

lemma Tracks.pushBound (h : Tracks s σ Γ) (i : ℕ) : Tracks s (σ.pushBound i) Γ where
  fresh := h.fresh
  origin e id he hid := by
    obtain ⟨o, ho, hnode, haround⟩ := h.origin e id he hid
    exact ⟨o, ho, hnode, haround.trans (List.suffix_cons _ _)⟩

lemma Tracks.enter (h : Tracks s σ Γ) : Tracks s σ.enter Γ where
  fresh id hid := by
    rw [localIds_enter] at hid
    exact h.fresh id hid
  origin e id he hid := h.origin e id he (by
    rwa [local?, Lowering.enter, List.findSome?_cons, Std.TreeMap.getElem?_emptyc] at hid)

/-- A new local stands for its node and was bound within the loops around. -/
lemma Tracks.pushLocal (h : Tracks s σ Γ) {scope : Std.TreeMap ℕ ℕ}
    {rest : List (Std.TreeMap ℕ ℕ)} (hscopes : σ.scopes = scope :: rest) {e : Expr}
    (he : s.Knows e) (hnew : σ.local? e = none) :
    Tracks s (σ.pushLocal e) (Γ.bind σ.nextLocal ⟨e, σ.bound⟩) where
  fresh id hid := by
    rw [localIds_pushLocal hscopes hnew] at hid
    rw [pushLocal_eq hscopes]
    rcases hid with rfl | hid
    · exact Nat.lt_succ_self _
    · exact (h.fresh id hid).trans (Nat.lt_succ_self _)
  origin e' id he' hid := by
    rw [(extended_pushLocal hscopes e).bound]
    rw [local?_pushLocal hscopes] at hid
    split at hid
    · rename_i heq
      obtain rfl := Store.WellFormed.eq_of_ordinal he he' heq
      cases hid
      exact ⟨_, Γ.bind_self _ _, rfl, List.suffix_refl _⟩
    · obtain ⟨o, ho, hnode, haround⟩ := h.origin e' id he' hid
      have hne : id ≠ σ.nextLocal := (h.fresh id (mem_localIds hid)).ne
      exact ⟨o, (Γ.bind_of_ne _ _ hne).trans ho, hnode, haround⟩

/-- The outcome of lowering something from `σ` on; `R` says what it renders. -/
structure Rendered (s : Store) (σ : Lowering) (R : Origins → Loops → α → Prop)
    (r : α × Lowering) : Prop where
  /-- The blocks and loops around are the same. -/
  keeps : Keeps σ r.2
  /-- It renders what it was lowered from. -/
  renders : ∀ Γ, Tracks s σ Γ → R Γ σ.bound r.1

/-- The code of a node. -/
abbrev RenderedCode (s : Store) (params : List Expr) (σ : Lowering) (e : Expr) :
    Code × Lowering → Prop :=
  Rendered s σ fun Γ loops c => c.Renders params Origin.Around Γ loops e

/-- The codes of some nodes. -/
abbrev RenderedAll (s : Store) (params : List Expr) (σ : Lowering) (l : List Expr) :
    List Code × Lowering → Prop :=
  Rendered s σ fun Γ loops cs => Code.RendersAll params Origin.Around Γ loops cs l

/-- The block of a body. -/
abbrev RenderedBlock (s : Store) (params : List Expr) (σ : Lowering) (body : Expr) :
    Block × Lowering → Prop :=
  Rendered s σ fun Γ loops c => c.Renders params Origin.Around Γ loops body

namespace Rendered

variable {R : Origins → Loops → α → Prop} {R' : Origins → Loops → β → Prop}
  {R'' : Origins → Loops → γ → Prop}

/-- Something without a state change. -/
lemma pure {a : α} (h : ∀ Γ, Tracks s σ Γ → R Γ σ.bound a) : Rendered s σ R (a, σ) :=
  ⟨.refl σ, h⟩

lemma map {r : α × Lowering} (h : Rendered s σ R r) (f : α → β)
    (hR : ∀ Γ loops a, R Γ loops a → R' Γ loops (f a)) : Rendered s σ R' (f r.1, r.2) :=
  ⟨h.keeps, fun Γ hΓ => hR _ _ _ (h.renders Γ hΓ)⟩

/-- One thing after another. -/
lemma andThen {r : α × Lowering} {q : β × Lowering} (h : Rendered s σ R r)
    (h' : Rendered s r.2 R' q) (f : α → β → γ)
    (hR : ∀ Γ loops a b, R Γ loops a → R' Γ loops b → R'' Γ loops (f a b)) :
    Rendered s σ R'' (f r.1 q.1, q.2) where
  keeps := h.keeps.trans h'.keeps
  renders Γ hΓ := by
    have hrest := h'.renders Γ (hΓ.mono h.keeps)
    rw [h.keeps.bound] at hrest
    exact hR _ _ _ _ (h.renders Γ hΓ) hrest

/-- What is lowered with one more symbol bound. -/
lemma under {i : ℕ} {r : α × Lowering} (h : Rendered s (σ.pushBound i) R r) :
    Rendered s σ (fun Γ loops a => R Γ ((i, σ.nextVariable) :: loops) a) (r.1, r.2.popBound) where
  keeps := by
    refine ⟨h.keeps.scopes, ?_, h.keeps.nextLocal, (Nat.le_succ _).trans h.keeps.nextVariable,
      h.keeps.pool⟩
    simp [popBound, h.keeps.bound, Lowering.pushBound]
  renders Γ hΓ := h.renders Γ (hΓ.pushBound i)

/-- A node that is a local already, or else what is made of it. -/
lemma reuse {e : Expr} (he : s.Knows e) {x : LowerM Code} (hx : RenderedCode s params σ e (x σ)) :
    RenderedCode s params σ e (Lowering.reuse e x σ) := by
  rw [reuse_apply]
  cases hlocal : σ.local? e with
  | none => exact hx
  | some id =>
    refine .pure fun Γ hΓ => ?_
    rw [Code.Renders]
    exact hΓ.origin e id he hlocal

lemma symbol (ordinal : ℕ) (domain : Domain) (name : String) :
    RenderedCode s params σ (.node ordinal domain (.symbol name))
      (Lowering.symbol params (.node ordinal domain (.symbol name)) name σ) := by
  rw [symbol_apply, loopVariable?_eq_lookup]
  refine .pure fun Γ _ => ?_
  cases hindex : params.findIdx? (· == Expr.node ordinal domain (.symbol name)) with
  | some k =>
    rw [Code.Renders, Expr.referent?, hindex]
    exact ⟨rfl, rfl⟩
  | none =>
    cases hlookup : σ.bound.lookup (Expr.node ordinal domain (.symbol name)).ordinal with
    | some k =>
      rw [Code.Renders, Expr.referent?, hindex]
      exact ⟨rfl, by simp only [hlookup, Option.map_some]⟩
    | none =>
      rw [Code.Renders, Expr.referent?, hindex]
      exact ⟨rfl, by simp only [hlookup, Option.map_none]⟩

lemma captured {e : Expr} {v : Value} (hvalue : e.value? = some v) (hchildren : e.children = []) :
    RenderedCode s params σ e (Lowering.captured e v σ) where
  keeps := ⟨rfl, rfl, le_rfl, le_rfl, Pool.data_prefix_slot σ.pool e v⟩
  renders Γ _ := by
    show Code.Renders params Origin.Around Γ σ.bound (.captured _) e
    rw [Code.Renders]
    exact ⟨⟨v, hvalue⟩, hchildren⟩

/-- One thing after another for the items of a list. -/
lemma mapM {R : α → Origins → Loops → β → Prop} {f : α → LowerM β} {l : List α}
    (h : ∀ a ∈ l, ∀ τ, Rendered s τ (R a) (f a τ)) :
    Rendered s σ (fun Γ loops bs => List.Forall₂ (fun a b => R a Γ loops b) l bs) (l.mapM f σ) := by
  induction l generalizing σ with
  | nil => exact .pure fun _ _ => .nil
  | cons a l ih =>
    rw [List.mapM_cons]
    exact (h a (by simp) σ).andThen (ih fun c hc => h c (by simp [hc])) List.cons
      fun _ _ _ _ h h' => .cons h h'

/-- The codes of some nodes, one after the other. -/
lemma codes {lower : Expr → LowerM Code} {l : List Expr}
    (h : ∀ e ∈ l, ∀ τ, RenderedCode s params τ e (lower e τ)) :
    RenderedAll s params σ l (l.mapM lower σ) :=
  (Rendered.mapM h).map id fun _ _ _ hcodes => Code.rendersAll_iff.2 hcodes.flip

end Rendered

/-! ## Blocks -/

/-- The outcome of binding locals for some nodes in the innermost block. -/
structure RenderedLocals (s : Store) (params : List Expr) (roots : List Expr) (σ : Lowering)
    (r : List (ℕ × Code) × Lowering) : Prop where
  /-- The innermost block has more locals. -/
  extended : Extends σ r.2
  /-- Each local stands for its node. -/
  renders : ∀ Γ, Tracks s σ Γ → ∃ Γ', Tracks s r.2 Γ' ∧
    RendersLocals params Origin.Around roots σ.bound Γ r.1 Γ'

lemma rendered_bindLocals {lower : Expr → LowerM Code} {roots l : List Expr}
    (hl : ∀ e ∈ l, s.Knows e ∧ ∃ r ∈ roots, e.Reads r)
    (hlower : ∀ e ∈ l, ∀ τ, RenderedCode s params τ e (lower e τ)) {scope : Std.TreeMap ℕ ℕ}
    {rest : List (Std.TreeMap ℕ ℕ)} (hscopes : σ.scopes = scope :: rest) :
    RenderedLocals s params roots σ (bindLocals lower l σ) := by
  induction l generalizing σ scope rest with
  | nil => exact ⟨.refl hscopes, fun Γ hΓ => ⟨Γ, hΓ, rfl⟩⟩
  | cons e l ih =>
    have hl' : ∀ d ∈ l, s.Knows d ∧ ∃ r ∈ roots, d.Reads r := fun d hd => hl d (by simp [hd])
    have hlower' : ∀ d ∈ l, ∀ τ, RenderedCode s params τ d (lower d τ) :=
      fun d hd => hlower d (by simp [hd])
    rw [bindLocals_cons]
    cases hlocal : σ.local? e with
    | some id => exact ih hl' hlower' hscopes
    | none =>
      obtain ⟨hknown, hread⟩ := hl e (by simp)
      have hcode := hlower e (by simp) σ
      generalize lower e σ = r at hcode
      have hscopes' := hcode.keeps.scopes.trans hscopes
      have hnew : r.2.local? e = none := (hcode.keeps.local? e).trans hlocal
      have hpush := extended_pushLocal hscopes' e
      obtain ⟨scope', scope'', rest', -, hscopes''⟩ := hpush.scopes
      have hrest := ih (σ := r.2.pushLocal e) hl' hlower' hscopes''
      refine ⟨((hcode.keeps.extended hscopes).trans hpush).trans hrest.extended, fun Γ hΓ => ?_⟩
      obtain ⟨Γ', hΓ', hlocals⟩ := hrest.renders _
        ((hΓ.mono hcode.keeps).pushLocal hscopes' hknown hnew)
      rw [hpush.bound, hcode.keeps.bound] at hlocals
      exact ⟨Γ', hΓ', e, hread, hcode.renders Γ hΓ, hlocals⟩

/-- What is lowered in a block over some roots, after the locals of the block. -/
lemma rendered_block {lower : Expr → LowerM Code} (roots : List Expr) (x : LowerM α)
    (hs : s.WellFormed) (hroots : ∀ r ∈ roots, s.Knows r)
    (hlower : ∀ r ∈ roots, ∀ e, e.Reads r → ∀ τ, RenderedCode s params τ e (lower e τ))
    {R : Origins → Loops → α → Prop} (hx : ∀ τ, Rendered s τ R (x τ)) :
    Rendered s σ
      (fun Γ loops p => ∃ Γ', RendersLocals params Origin.Around roots loops Γ p.1 Γ' ∧
        R Γ' loops p.2)
      (inBlock lower roots x σ) := by
  have hrun : inBlock lower roots x σ = (((openBlock lower roots σ).1,
      (x (openBlock lower roots σ).2).1), (x (openBlock lower roots σ).2).2.leave) := rfl
  rw [hrun]
  have hlocals : RenderedLocals s params roots σ.enter (openBlock lower roots σ) := by
    refine rendered_bindLocals (fun e he => ?_) (fun e he => ?_) rfl
    · obtain ⟨r, hr, hreads⟩ := Expr.mem_sharedNodes he
      exact ⟨hreads.knows hs (hroots r hr), r, hr, hreads⟩
    · obtain ⟨r, hr, hreads⟩ := Expr.mem_sharedNodes he
      exact hlower r hr e hreads
  generalize openBlock lower roots σ = q at hlocals
  have hresult := hx q.2
  generalize x q.2 = r at hresult
  have hleave : r.2.leave.scopes = σ.scopes := by
    obtain ⟨scope, scope', rest, hscopes, hscopes'⟩ := hlocals.extended.scopes
    obtain ⟨-, rfl⟩ := List.cons.inj hscopes
    show r.2.scopes.drop 1 = _
    rw [hresult.keeps.scopes, hscopes']
    rfl
  refine ⟨⟨hleave, hresult.keeps.bound.trans hlocals.extended.bound,
    hlocals.extended.nextLocal.trans hresult.keeps.nextLocal,
    hlocals.extended.nextVariable.trans hresult.keeps.nextVariable,
    hlocals.extended.pool.trans hresult.keeps.pool⟩, fun Γ hΓ => ?_⟩
  obtain ⟨Γ', hΓ', hrenders⟩ := hlocals.renders Γ hΓ.enter
  have hvalue := hresult.renders Γ' hΓ'
  rw [hlocals.extended.bound] at hvalue
  exact ⟨Γ', hrenders, hvalue⟩

end Lowering

/-! ## Nodes and bodies -/

namespace Expr

open Lowering

variable {s : Store} {params : List Expr} {block : Expr → LowerM Block} {n : ℕ}

lemma rendered_lowerAll {l : List Expr} {σ : Lowering}
    (h : ∀ e ∈ l, ∀ τ, RenderedCode s params τ e (lowerWith params block e τ)) :
    RenderedAll s params σ l (lowerAll params block l σ) := by
  rw [lowerAll_eq_mapM]
  exact .codes h

/-- The code of a node renders it, if the blocks of loop bodies render the bodies. -/
lemma rendered_lowerWith (hs : s.WellFormed)
    (hblock : ∀ body, s.Knows body → body.ordinal < n → ∀ τ,
      RenderedBlock s params τ body (block body τ))
    (e : Expr) (he : s.Knows e) (hn : e.ordinal ≤ n) (σ : Lowering) :
    RenderedCode s params σ e (lowerWith params block e σ) := by
  induction hsize : sizeOf e using Nat.strongRecOn generalizing e σ with
  | _ m ih =>
    subst hsize
    have hoperand {c : Expr} (hc : c ∈ e.operands) (τ : Lowering) :
        RenderedCode s params τ c (lowerWith params block c τ) := by
      have hchild := mem_children_of_mem_operands hc
      exact ih _ (sizeOf_lt_of_mem_children hchild) c (hs.children he c hchild)
        ((hs.below he hchild).le.trans hn) τ rfl
    have hbody {b : Expr} (hb : e.body? = some b) (τ : Lowering) :
        RenderedBlock s params τ b (block b τ) := by
      have hchild := mem_children_of_body hb
      exact hblock b (hs.children he b hchild) ((hs.below he hchild).trans_le hn) τ
    obtain ⟨ordinal, domain, kind⟩ := e
    cases kind with
    | symbol name =>
      rw [lowerWith]
      exact .reuse he (.symbol ordinal domain name)
    | number k =>
      rw [lowerWith]
      exact .reuse he (.pure fun _ _ => by rw [Code.Renders]; rfl)
    | object v resolver | field name | function g =>
      rw [lowerWith]
      exact .reuse he (.captured (by rw [value?]) rfl)
    | tuple items | sum items | chain items =>
      rw [lowerWith]
      refine .reuse he ((rendered_lowerAll (l := items) fun c hc => hoperand hc).map _
        fun Γ loops cs h => ?_)
      rw [Code.Renders]
      exact ⟨items, rfl, h⟩
    | apply target argument =>
      rw [lowerWith]
      refine .reuse he ((hoperand (c := target) (by simp [operands, Expr.kind]) σ).andThen
        (hoperand (c := argument) (by simp [operands, Expr.kind]) _) Code.apply
        fun Γ loops c c' h h' => ?_)
      rw [Code.Renders]
      exact ⟨target, argument, rfl, h, h'⟩
    | inverse inner | transpose inner =>
      rw [lowerWith]
      refine .reuse he ((hoperand (c := inner) (by simp [operands, Expr.kind]) σ).map _
        fun Γ loops c h => ?_)
      rw [Code.Renders]
      exact ⟨inner, rfl, h⟩
    | generator rows cols element =>
      have hloop := (hbody rfl ((σ.pushBound rowIndex.ordinal).pushBound colIndex.ordinal)).under.under
      rw [popBound_popBound] at hloop
      rw [lowerWith]
      refine .reuse he (hloop.map (Code.generate rows cols σ.nextVariable (σ.nextVariable + 1))
        fun Γ loops c h => ?_)
      rw [Code.Renders]
      exact ⟨element, rfl, h⟩
    | indexedSum index lower upper body =>
      -- The bounds stand outside of the loop, and the index is bound after them.
      have hbounds : Rendered s σ
          (fun Γ loops (p : Code × Code) => p.1.Renders params Origin.Around Γ loops lower ∧
            p.2.Renders params Origin.Around Γ loops upper) _ :=
        (hoperand (c := lower) (by simp [operands, Expr.kind]) σ).andThen
          (hoperand (c := upper) (by simp [operands, Expr.kind]) _) Prod.mk
          fun _ _ _ _ h h' => ⟨h, h'⟩
      have hloop (τ : Lowering) := (hbody rfl (τ.pushBound index.ordinal)).under
      rw [lowerWith]
      refine .reuse he (hbounds.andThen (hloop _) (fun p c => Code.range _ p.1 p.2 c)
        fun Γ loops p c h h' => ?_)
      rw [Code.Renders]
      exact ⟨index, lower, upper, body, rfl, h.1, h.2, h'⟩
    | collectionSum index collection body =>
      have hcollection := hoperand (c := collection) (by simp [operands, Expr.kind]) σ
      have hloop (τ : Lowering) := (hbody rfl (τ.pushBound index.ordinal)).under
      rw [lowerWith]
      refine .reuse he (hcollection.andThen (hloop _) (fun p c => Code.each _ p c)
        fun Γ loops p c h h' => ?_)
      rw [Code.Renders]
      exact ⟨index, collection, body, rfl, h, h'⟩

/-- All nodes that a root reads are lowered to code that renders them. -/
lemma rendered_reads (hs : s.WellFormed)
    (hblock : ∀ body, s.Knows body → body.ordinal < n → ∀ τ,
      RenderedBlock s params τ body (block body τ))
    {r e : Expr} (h : Reads e r) (hr : s.Knows r) (hn : r.ordinal ≤ n) (σ : Lowering) :
    RenderedCode s params σ e (lowerWith params block e σ) := by
  induction h with
  | refl => exact rendered_lowerWith hs hblock e hr hn σ
  | step hc _ ih =>
    have hchild := mem_children_of_mem_operands hc
    exact ih (hs.children hr _ hchild) ((hs.below hr hchild).le.trans hn)

/-- Bodies of loops are lowered to blocks that render them. -/
lemma rendered_lowerBlock (hs : s.WellFormed) (n : ℕ) (body : Expr) (hbody : s.Knows body)
    (hn : body.ordinal < n) (σ : Lowering) :
    RenderedBlock s params σ body (lowerBlock params n body σ) := by
  induction n generalizing body σ with
  | zero => exact absurd hn (Nat.not_lt_zero _)
  | succ n ih =>
    have hreads {e : Expr} (h : Reads e body) (τ : Lowering) :
        RenderedCode s params τ e (lowerWith params (lowerBlock params n) e τ) :=
      rendered_reads hs ih h hbody (Nat.lt_succ_iff.1 hn) τ
    have hblock := rendered_block (σ := σ) [body] _ hs (by simpa using hbody)
      (fun r hr e he => hreads (by simp_all)) (hreads .refl)
    refine hblock.map (fun p => Block.ofLocals p.1 p.2) ?_
    rintro Γ loops p ⟨Γ', hlocals, hvalue⟩
    exact hlocals.block hvalue

end Expr

/-! ## Jobs -/

namespace Job

open Lowering

variable {s : Store} {job : Job}

lemma rendered_lowerResults
    (h : ∀ r ∈ job.roots, ∀ τ, RenderedCode s job.params τ r (job.lower r τ)) (σ : Lowering) :
    Rendered s σ
      (fun Γ loops p => p.1.Renders job.params Origin.Around Γ loops job.value ∧
        Code.RendersAll job.params Origin.Around Γ loops p.2.1 job.outputs ∧
        List.Forall₂ (Code.RendersAll job.params Origin.Around Γ loops) p.2.2 job.arrays)
      (job.lowerResults σ) := by
  have hvalue := h job.value (by simp [roots]) σ
  have houtputs (τ : Lowering) :
      RenderedAll s job.params τ job.outputs (job.outputs.mapM job.lower τ) :=
    .codes fun r hr => h r (by simp [roots, hr])
  have harrays (τ : Lowering) : Rendered s τ
      (fun Γ loops css => List.Forall₂
        (fun items cs => Code.RendersAll job.params Origin.Around Γ loops cs items) job.arrays css)
      (job.arrays.mapM (fun items => items.mapM job.lower) τ) :=
    .mapM fun items hitems υ => .codes fun r hr => h r (by
      simp only [roots, List.cons_append, List.mem_cons, List.mem_append, List.mem_flatten]
      exact .inr (.inr ⟨items, hitems, hr⟩))
  have hrest : Rendered s (job.lower job.value σ).2
      (fun Γ loops (p : List Code × List (List Code)) =>
        Code.RendersAll job.params Origin.Around Γ loops p.1 job.outputs ∧
          List.Forall₂ (Code.RendersAll job.params Origin.Around Γ loops) p.2 job.arrays) _ :=
    (houtputs _).andThen (harrays _) Prod.mk fun _ _ _ _ h h' => ⟨h, h'.flip⟩
  exact hvalue.andThen hrest Prod.mk fun _ _ _ _ h h' => ⟨h, h'⟩

/-- **Statement lists render their jobs.**  The statement list of any job renders its results, and a
local is referred to within the loops around its origin. -/
lemma renders_linearize (hs : s.WellFormed) (hjob : ∀ r ∈ job.roots, s.Knows r) (name : String)
    (pool : Pool) : (job.linearize name pool).1.Renders job.params Origin.Around job := by
  have hreads : ∀ r ∈ job.roots, ∀ e, Expr.Reads e r → ∀ τ,
      RenderedCode s job.params τ e (job.lower e τ) := fun r hr e he =>
    Expr.rendered_reads hs (Expr.rendered_lowerBlock hs _) he (hjob r hr)
      (Expr.ordinal_le_lastOrdinal hr)
  have hroot : ∀ r ∈ job.roots, ∀ τ, RenderedCode s job.params τ r (job.lower r τ) :=
    fun r hr => hreads r hr r .refl
  have hblock := rendered_block job.roots job.lowerResults hs hjob hreads
    (rendered_lowerResults hroot) (σ := { pool := pool })
  rw [linearize_eq]
  generalize inBlock job.lower job.roots job.lowerResults { pool := pool } = r at hblock ⊢
  have htracks : Tracks s { pool := pool } Origins.empty :=
    ⟨by simp [localIds], fun e id _ hid => by cases hid⟩
  exact hblock.renders .empty htracks

end Job

end TermGraph
