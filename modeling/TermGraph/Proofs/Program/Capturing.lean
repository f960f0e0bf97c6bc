import TermGraph.Proofs.Program.Blocks
import TermGraph.Proofs.Program.Slots

/-!
# Capturing constants

Lowering looks at the constants that were captured before for one thing only, which is whether a
constant has a slot already.  So the functions that a job is lowered to over two pools differ by
the slots of its constants alone, and each slot holds the constant that it is asked for.

* `Lowering.Uniform m x`: whatever the pool, `x` captures the same constants, and its result is the
  same up to their slots.
* `Expr.uniform_lowerWith`, `Expr.uniform_lowerBlock`: nodes and bodies of loops are lowered
  uniformly.
* `Job.uniform_linearize`: so are jobs.
* `Pool.Holds.exists_loadsAlike`: the constants load alike from any two pools.
-/

namespace TermGraph

open Store (Knows)

/-! ## Pools -/

namespace Pool

/-- The pool after some constants are captured one after the other. -/
def captureAll (p : Pool) (captures : List (Expr × Value)) : Pool :=
  captures.foldl (fun p c => (p.slot c.1 c.2).2) p

variable {p : Pool} {captures more : List (Expr × Value)} {e : Expr} {v : Value} {i k : ℕ}

lemma captureAll_append (p : Pool) (captures more : List (Expr × Value)) :
    p.captureAll (captures ++ more) = (p.captureAll captures).captureAll more := List.foldl_append

/-- A constant that was asked for has the slot that was given for it. -/
lemma slots_slot (p : Pool) (e : Expr) (v : Value) :
    (p.slot e v).2.slots[e.ordinal]? = some (p.slot e v).1 := by
  unfold slot
  cases h : p.slots[e.ordinal]? with
  | some k => exact h
  | none => simp

/-- Slots are kept. -/
lemma slots_of_slot (h : p.slots[i]? = some k) (e : Expr) (v : Value) :
    (p.slot e v).2.slots[i]? = some k := by
  unfold slot
  cases hslot : p.slots[e.ordinal]? with
  | some _ => exact h
  | none =>
    have hne : e.ordinal ≠ i := fun heq => by
      rw [heq, h] at hslot
      cases hslot
    simpa [Std.TreeMap.getElem?_insert, hne] using h

lemma slots_of_captureAll (h : p.slots[i]? = some k) (captures : List (Expr × Value)) :
    (p.captureAll captures).slots[i]? = some k := by
  induction captures generalizing p with
  | nil => exact h
  | cons c captures ih => exact ih (slots_of_slot h c.1 c.2)

/-- Every constant that is captured has a slot. -/
lemma exists_slot_of_mem {c : Expr × Value} (h : c ∈ captures) (p : Pool) :
    ∃ k, (p.captureAll captures).slots[c.1.ordinal]? = some k := by
  induction captures generalizing p with
  | nil => cases h
  | cons c' captures ih =>
    rcases List.mem_cons.1 h with rfl | h
    · exact ⟨_, slots_of_captureAll (slots_slot p c.1 c.2) captures⟩
    · exact ih h (p.slot c'.1 c'.2).2

/-- The slot of each known constant holds its value. -/
def Holds (s : Store) (p : Pool) : Prop :=
  ∀ e : Expr, s.Knows e → ∀ k, p.slots[e.ordinal]? = some k →
    ∃ v, e.value? = some v ∧ p.data[k]? = some v

variable {s : Store}

lemma holds_empty : Holds s {} := fun e _ k h => by simp at h

lemma Holds.slot (h : Holds s p) (he : s.Knows e) (hv : e.value? = some v) :
    Holds s (p.slot e v).2 := by
  cases hslot : p.slots[e.ordinal]? with
  | some k =>
    rw [show (p.slot e v).2 = p by simp [Pool.slot, hslot]]
    exact h
  | none =>
    obtain ⟨-, hdata, hslots⟩ := Lowering.data_slot p e v hslot
    intro e' he' k hk
    rw [hslots, Std.TreeMap.getElem?_insert] at hk
    rw [hdata]
    split at hk
    · rename_i heq
      obtain rfl := Store.WellFormed.eq_of_ordinal he he' (by simpa using heq)
      cases hk
      exact ⟨v, hv, by simp⟩
    · obtain ⟨w, hw, hget⟩ := h e' he' k hk
      exact ⟨w, hw, Lowering.getElem?_of_prefix (List.prefix_append _ _) hget⟩

lemma Holds.captureAll (h : Holds s p)
    (hc : ∀ c ∈ captures, s.Knows c.1 ∧ c.1.value? = some c.2) : Holds s (p.captureAll captures) := by
  induction captures generalizing p with
  | nil => exact h
  | cons c captures ih =>
    rw [List.forall_mem_cons] at hc
    exact ih (h.slot hc.1.1 hc.1.2) hc.2

/-- Constants are added at the end. -/
lemma data_prefix_slot (p : Pool) (e : Expr) (v : Value) : p.data <+: (p.slot e v).2.data := by
  cases h : p.slots[e.ordinal]? with
  | some k => simp [Pool.slot, h]
  | none =>
    rw [(Lowering.data_slot p e v h).2.1]
    exact List.prefix_append _ _

lemma data_prefix_captureAll (p : Pool) (captures : List (Expr × Value)) :
    p.data <+: (p.captureAll captures).data := by
  induction captures generalizing p with
  | nil => exact List.prefix_refl _
  | cons c captures ih => exact (data_prefix_slot p c.1 c.2).trans (ih _)

/-- The slots of some constants in a pool.  What is not one of them has slot `n`. -/
def numbering (p : Pool) (captures : List (Expr × Value)) (n i : ℕ) : ℕ :=
  if i ∈ captures.map (fun c => c.1.ordinal) then p.slots[i]?.getD n else n

lemma slots_numbering {c : Expr × Value} (h : c ∈ captures) (p : Pool) (n : ℕ) :
    (p.captureAll captures).slots[c.1.ordinal]? =
      some ((p.captureAll captures).numbering captures n c.1.ordinal) := by
  obtain ⟨k, hk⟩ := exists_slot_of_mem h p
  rw [numbering, if_pos (List.mem_map_of_mem h), hk]
  rfl

/-- A constant is loaded from its slot, also after more constants are captured. -/
lemma Holds.load (h : Holds s p) (hc : ∀ c ∈ captures, s.Knows c.1 ∧ c.1.value? = some c.2)
    {data : List Value} (hdata : (p.captureAll captures).data <+: data) {c : Expr × Value}
    (hmem : c ∈ captures) (n : ℕ) :
    data[(p.captureAll captures).numbering captures n c.1.ordinal]? = some c.2 := by
  obtain ⟨v, hv, hget⟩ := h.captureAll hc c.1 (hc c hmem).1 _ (slots_numbering hmem p n)
  obtain rfl : c.2 = v := Option.some.inj ((hc c hmem).2.symm.trans hv)
  exact Lowering.getElem?_of_prefix hdata hget

/-- The constants load alike from any two pools, each from its slots there. -/
lemma Holds.exists_loadsAlike {p' : Pool} (h : Holds s p) (h' : Holds s p')
    (hc : ∀ c ∈ captures, s.Knows c.1 ∧ c.1.value? = some c.2) {data data' : List Value}
    (hdata : (p.captureAll captures).data <+: data)
    (hdata' : (p'.captureAll captures).data <+: data') :
    ∃ ρ ρ' : ℕ → ℕ,
      (∀ c ∈ captures, (p.captureAll captures).slots[c.1.ordinal]? = some (ρ c.1.ordinal)) ∧
      (∀ c ∈ captures, (p'.captureAll captures).slots[c.1.ordinal]? = some (ρ' c.1.ordinal)) ∧
      LoadsAlike data.toArray data'.toArray ρ ρ' := by
  -- Beyond both lists nothing is loaded, so what is no constant goes to one slot there.
  let n := max data.length data'.length
  refine ⟨(p.captureAll captures).numbering captures n, (p'.captureAll captures).numbering captures n,
    fun c hmem => slots_numbering hmem p n, fun c hmem => slots_numbering hmem p' n, fun i => ?_⟩
  simp only [List.getElem?_toArray]
  by_cases hi : i ∈ captures.map (fun c => c.1.ordinal)
  · obtain ⟨c, hmem, rfl⟩ := List.mem_map.1 hi
    rw [h.load hc hdata hmem n, h'.load hc hdata' hmem n]
    exact ⟨rfl, fun hnone => by cases hnone⟩
  · simp only [numbering, if_neg hi]
    refine ⟨?_, fun _ => trivial⟩
    rw [List.getElem?_eq_none (le_max_left _ _), List.getElem?_eq_none (le_max_right _ _)]

end Pool

/-! ## Uniform lowering -/

namespace Lowering

variable {α β γ : Type} {s : Store}

/-- The same state over another pool. -/
def atop (σ : Lowering) (pool : Pool) : Lowering :=
  { σ with pool := pool }

/-- Over every pool `x` captures the same constants of the store and ends in the same state, and its
result is the same up to the slots of these constants, which `m` exchanges. -/
def Uniform (s : Store) (m : (ℕ → ℕ) → α → α) (x : LowerM α) : Prop :=
  ∀ σ : Lowering, ∃ (captures : List (Expr × Value)) (a : α) (τ : Lowering),
    (∀ c ∈ captures, s.Knows c.1 ∧ c.1.value? = some c.2) ∧
    ∀ (pool : Pool) (ρ : ℕ → ℕ),
      (∀ c ∈ captures, (pool.captureAll captures).slots[c.1.ordinal]? = some (ρ c.1.ordinal)) →
        x (σ.atop pool) = (m ρ a, τ.atop (pool.captureAll captures))

namespace Uniform

variable {m : (ℕ → ℕ) → α → α} {n : (ℕ → ℕ) → β → β} {l : (ℕ → ℕ) → γ → γ}
  {x x' : LowerM α} {y : LowerM β}

lemma pure {a : α} (h : ∀ ρ, m ρ a = a) : Uniform s m (Pure.pure a : LowerM α) := fun σ =>
  ⟨[], a, σ, by simp, fun pool ρ _ => by rw [h]; rfl⟩

/-- A step that does not look at the pool. -/
lemma free (f : Lowering → α × Lowering)
    (hf : ∀ (σ : Lowering) (pool : Pool), f (σ.atop pool) = ((f σ).1, (f σ).2.atop pool)) :
    Uniform s (fun _ a => a) (modifyGet f : LowerM α) := fun σ =>
  ⟨[], (f σ).1, (f σ).2, by simp, fun pool _ _ => hf σ pool⟩

/-- It is enough to be the same as something uniform in each state, whatever the pool. -/
lemma of_eq (h : ∀ σ : Lowering, ∃ y, Uniform s m y ∧ ∀ pool : Pool, x (σ.atop pool) = y (σ.atop pool)) :
    Uniform s m x := by
  intro σ
  obtain ⟨y, hy, heq⟩ := h σ
  obtain ⟨captures, a, τ, hc, hrun⟩ := hy σ
  exact ⟨captures, a, τ, hc, fun pool ρ hρ => (heq pool).trans (hrun pool ρ hρ)⟩

/-- Two steps whose results are put together. -/
lemma andThen (hx : Uniform s m x) (hy : Uniform s n y) (g : α → β → γ)
    (hg : ∀ ρ a b, l ρ (g a b) = g (m ρ a) (n ρ b)) :
    Uniform s l (do let a ← x; let b ← y; return g a b) := by
  intro σ
  obtain ⟨captures, a, τ, hc, hrun⟩ := hx σ
  obtain ⟨captures', b, υ, hc', hrun'⟩ := hy τ
  refine ⟨captures ++ captures', g a b, υ, List.forall_mem_append.2 ⟨hc, hc'⟩, fun pool ρ hρ => ?_⟩
  rw [List.forall_mem_append] at hρ
  rw [Pool.captureAll_append] at hρ ⊢
  -- The slots of the first constants are still theirs after the others are captured.
  have hfirst := hrun pool ρ fun c hmem => by
    obtain ⟨k, hk⟩ := Pool.exists_slot_of_mem hmem pool
    rw [hk, ← hρ.1 c hmem, Pool.slots_of_captureAll hk captures']
  have hsecond := hrun' (pool.captureAll captures) ρ hρ.2
  show (g (x (σ.atop pool)).1 (y (x (σ.atop pool)).2).1, (y (x (σ.atop pool)).2).2) = _
  rw [hfirst]
  dsimp only
  rw [hsecond, hg]

lemma map (hx : Uniform s m x) (g : α → γ) (hg : ∀ ρ a, l ρ (g a) = g (m ρ a)) :
    Uniform s l (do return g (← x)) :=
  (hx.andThen (pure (m := fun _ _ => ()) (a := ()) fun _ => rfl) (fun a _ => g a)
    fun ρ a _ => hg ρ a)

lemma lowerCaptured {e : Expr} {v : Value} (he : s.Knows e) (hv : e.value? = some v) :
    Uniform s Code.renumber (captured e v) := by
  refine fun σ => ⟨[(e, v)], .captured e.ordinal, σ, by simpa using ⟨he, hv⟩, fun pool ρ hρ => ?_⟩
  have hslot : (pool.slot e v).1 = ρ e.ordinal := by
    have hget := hρ (e, v) (by simp)
    rw [show pool.captureAll [(e, v)] = (pool.slot e v).2 from rfl, Pool.slots_slot] at hget
    exact Option.some.inj hget
  rw [Code.renumber, ← hslot]
  rfl

lemma lowerReused {e : Expr} {x : LowerM Code} (hx : Uniform s Code.renumber x) :
    Uniform s Code.renumber (reuse e x) := by
  refine of_eq fun σ => ?_
  cases hlocal : σ.local? e with
  | some id =>
    refine ⟨Pure.pure (.hoisted id), pure fun ρ => by rw [Code.renumber], fun pool => ?_⟩
    have hlocal' : (σ.atop pool).local? e = some id := hlocal
    rw [reuse_apply, hlocal']
    rfl
  | none =>
    refine ⟨x, hx, fun pool => ?_⟩
    have hlocal' : (σ.atop pool).local? e = none := hlocal
    rw [reuse_apply, hlocal']

lemma lowerSymbol (params : List Expr) (e : Expr) (name : String) :
    Uniform s Code.renumber (symbol params e name) := by
  refine of_eq fun σ => ⟨Pure.pure (symbol params e name σ).1, pure fun ρ => ?_, fun pool => ?_⟩
  · rw [symbol_apply]
    cases params.findIdx? (· == e) with
    | some k => rw [Code.renumber]
    | none => cases σ.loopVariable? e <;> rw [Code.renumber]
  · rw [symbol_apply, symbol_apply]
    rfl

/-- The locals of a block. -/
lemma lowerLocals {lower : Expr → LowerM Code} {l : List Expr}
    (h : ∀ e ∈ l, Uniform s Code.renumber (lower e)) :
    Uniform s renumberLocals (bindLocals lower l) := by
  induction l with
  | nil => exact pure fun _ => rfl
  | cons e l ih =>
    have hrest := ih fun d hd => h d (by simp [hd])
    refine of_eq fun σ => ?_
    cases hlocal : σ.local? e with
    | some id =>
      refine ⟨bindLocals lower l, hrest, fun pool => ?_⟩
      have hlocal' : (σ.atop pool).local? e = some id := hlocal
      rw [bindLocals_cons, hlocal']
    | none =>
      have hbind : Uniform s (fun _ id => id) (bindLocal e) := free _ fun _ _ => rfl
      have hentry : Uniform s (fun ρ (p : Code × ℕ) => (p.1.renumber ρ, p.2))
          (do let code ← lower e; let id ← bindLocal e; return (code, id)) :=
        (h e (by simp)).andThen hbind Prod.mk fun _ _ _ => rfl
      refine ⟨_, hentry.andThen hrest (fun p entries => (p.2, p.1) :: entries) fun _ _ _ => rfl,
        fun pool => ?_⟩
      have hlocal' : (σ.atop pool).local? e = none := hlocal
      rw [bindLocals_cons, hlocal']
      rfl

/-- A block over some roots. -/
lemma lowerInBlock {lower : Expr → LowerM Code} {roots : List Expr} (hs : s.WellFormed)
    (hroots : ∀ r ∈ roots, s.Knows r)
    (h : ∀ e, s.Knows e → Uniform s Code.renumber (lower e)) (hx : Uniform s m x) :
    Uniform s (fun ρ p => (renumberLocals ρ p.1, m ρ p.2)) (inBlock lower roots x) := by
  have hopen : Uniform s (fun _ u => u)
      (modifyGet fun σ : Lowering => ((), { σ with scopes := ∅ :: σ.scopes })) :=
    free _ fun _ _ => rfl
  have hclose : Uniform s (fun _ u => u)
      (modifyGet fun σ : Lowering => ((), { σ with scopes := σ.scopes.drop 1 })) :=
    free _ fun _ _ => rfl
  have hlocals : Uniform s renumberLocals (bindLocals lower (Expr.sharedNodes roots)) :=
    lowerLocals fun e he => by
      obtain ⟨r, hr, hreads⟩ := Expr.mem_sharedNodes he
      exact h e (hreads.knows hs (hroots r hr))
  have hinner := (hopen.andThen hlocals (l := renumberLocals) (fun _ locals => locals)
    fun _ _ _ => rfl).andThen (hx.andThen hclose (l := m) (fun a _ => a) fun _ _ _ => rfl)
    (l := fun ρ p => (renumberLocals ρ p.1, m ρ p.2)) Prod.mk fun _ _ _ => rfl
  exact hinner

end Uniform

end Lowering

/-! ## Nodes and bodies -/

lemma Code.renumberAll_eq_map (ρ : ℕ → ℕ) : renumberAll ρ = List.map (renumber ρ) := by
  funext cs
  induction cs with
  | nil => rw [renumberAll, List.map_nil]
  | cons c cs ih => rw [renumberAll, ih, List.map_cons]

lemma Block.renumber_ofLocals (ρ : ℕ → ℕ) (locals : List (ℕ × Code)) (value : Code) :
    (ofLocals locals value).renumber ρ = ofLocals (renumberLocals ρ locals) (value.renumber ρ) := by
  induction locals with
  | nil =>
    show (Block.result value).renumber ρ = Block.result (value.renumber ρ)
    rw [Block.renumber]
  | cons entry locals ih =>
    show (Block.bind entry.1 entry.2 (ofLocals locals value)).renumber ρ =
      Block.bind entry.1 (entry.2.renumber ρ) (ofLocals (renumberLocals ρ locals) (value.renumber ρ))
    rw [Block.renumber, ih]

namespace Expr

open Lowering

variable {s : Store} {params : List Expr} {block : Expr → LowerM Block}

lemma uniform_lowerAll {l : List Expr}
    (h : ∀ e ∈ l, Uniform s Code.renumber (lowerWith params block e)) :
    Uniform s Code.renumberAll (lowerAll params block l) := by
  induction l with
  | nil =>
    rw [lowerAll]
    exact .pure fun ρ => by rw [Code.renumberAll]
  | cons e l ih =>
    rw [lowerAll]
    exact (h e (by simp)).andThen (ih fun d hd => h d (by simp [hd])) List.cons
      fun ρ c cs => by rw [Code.renumberAll]

lemma uniform_bind (e : Expr) : Uniform s (fun _ k => k) (Lowering.bind e) :=
  .free _ fun _ _ => rfl

/-- Something lowered with some more symbols bound. -/
lemma uniform_loop {α β : Type} {m : (ℕ → ℕ) → α → α} {binding : LowerM β} {body : LowerM α}
    (n : ℕ) (hbinding : Uniform s (fun _ k => k) binding) (h : Uniform s m body) :
    Uniform s (fun ρ p => (p.1, m ρ p.2))
      (do let k ← binding; let a ← body; let _ ← unbind n; return (k, a)) := by
  have hunbind : Uniform s (fun _ u => u) (unbind n) := .free _ fun _ _ => rfl
  exact hbinding.andThen (h.andThen hunbind (l := m) (fun a _ => a) fun _ _ _ => rfl) Prod.mk
    fun _ _ _ => rfl

/-- Nodes are lowered uniformly, if the blocks of loop bodies are. -/
lemma uniform_lowerWith (hs : s.WellFormed)
    (hblock : ∀ body, s.Knows body → Uniform s Block.renumber (block body)) (e : Expr)
    (he : s.Knows e) : Uniform s Code.renumber (lowerWith params block e) := by
  induction hsize : sizeOf e using Nat.strongRecOn generalizing e with
  | _ n ih =>
    subst hsize
    have hchild {c : Expr} (hc : c ∈ e.children) :
        Uniform s Code.renumber (lowerWith params block c) :=
      ih _ (sizeOf_lt_of_mem_children hc) c (hs.children he c hc) rfl
    have hbody {b : Expr} (hb : b ∈ e.children) : Uniform s Block.renumber (block b) :=
      hblock b (hs.children he b hb)
    obtain ⟨ordinal, domain, kind⟩ := e
    cases kind with
    | symbol name =>
      rw [lowerWith]
      exact .lowerReused (.lowerSymbol params _ name)
    | number k =>
      rw [lowerWith]
      exact .lowerReused (.pure fun ρ => by rw [Code.renumber])
    | object v resolver | field name | function g =>
      rw [lowerWith]
      exact .lowerReused (.lowerCaptured he (by rw [value?]))
    | tuple items | sum items | chain items =>
      rw [lowerWith]
      exact .lowerReused ((uniform_lowerAll (l := items) fun c hc => hchild hc).map _
        fun ρ cs => by rw [Code.renumber])
    | apply target argument =>
      rw [lowerWith]
      exact .lowerReused ((hchild (c := target) (by simp [children, Kind.children, Expr.kind])).andThen
        (hchild (c := argument) (by simp [children, Kind.children, Expr.kind])) Code.apply
        fun ρ c c' => by rw [Code.renumber])
    | inverse inner | transpose inner =>
      rw [lowerWith]
      exact .lowerReused ((hchild (c := inner) (by simp [children, Kind.children, Expr.kind])).map _
        fun ρ c => by rw [Code.renumber])
    | generator rows cols element =>
      -- Nothing is captured in binding the indices.
      have hindices := (uniform_bind (s := s) rowIndex).andThen (uniform_bind colIndex) Prod.mk
        (l := fun _ k => k) fun _ _ _ => rfl
      have hloop := uniform_loop 2 hindices
        (hbody (b := element) (by simp [children, Kind.children, Expr.kind]))
      rw [lowerWith]
      exact .lowerReused (hloop.map (fun p => Code.generate rows cols p.1.1 p.1.2 p.2)
        fun ρ p => by rw [Code.renumber])
    | indexedSum index lower upper body =>
      have hbounds := (hchild (c := lower) (by simp [children, Kind.children, Expr.kind])).andThen
        (hchild (c := upper) (by simp [children, Kind.children, Expr.kind])) Prod.mk
        (l := fun ρ (p : Code × Code) => (p.1.renumber ρ, p.2.renumber ρ)) fun _ _ _ => rfl
      have hloop := uniform_loop 1 (uniform_bind index)
        (hbody (b := body) (by simp [children, Kind.children, Expr.kind]))
      rw [lowerWith]
      exact .lowerReused (hbounds.andThen hloop (fun p q => Code.range q.1 p.1 p.2 q.2)
        fun ρ p q => by rw [Code.renumber])
    | collectionSum index collection body =>
      have hloop := uniform_loop 1 (uniform_bind index)
        (hbody (b := body) (by simp [children, Kind.children, Expr.kind]))
      rw [lowerWith]
      exact .lowerReused ((hchild (c := collection) (by simp [children, Kind.children, Expr.kind])).andThen hloop
        (fun c q => Code.each q.1 c q.2) fun ρ c q => by rw [Code.renumber])

/-- Bodies of loops are lowered uniformly. -/
lemma uniform_lowerBlock (hs : s.WellFormed) (n : ℕ) (body : Expr) (h : s.Knows body) :
    Uniform s Block.renumber (lowerBlock params n body) := by
  induction n generalizing body with
  | zero => exact .pure fun ρ => by rw [Block.renumber, Code.renumber]
  | succ n ih =>
    have hlower : ∀ e, s.Knows e → Uniform s Code.renumber (lowerWith params (lowerBlock params n) e) :=
      uniform_lowerWith hs ih
    have hroots : ∀ r ∈ [body], s.Knows r := by simpa using h
    exact (Uniform.lowerInBlock hs hroots hlower (hlower body h)).map
      (fun p => Block.ofLocals p.1 p.2) fun ρ p => Block.renumber_ofLocals ρ p.1 p.2

end Expr

/-! ## Jobs -/

namespace Job

open Lowering

variable {s : Store} {job : Job}

lemma uniform_mapM {α β : Type} {m : (ℕ → ℕ) → β → β} {f : α → LowerM β} {l : List α}
    (h : ∀ a ∈ l, Uniform s m (f a)) : Uniform s (fun ρ l => l.map (m ρ)) (l.mapM f) := by
  induction l with
  | nil => exact .pure fun _ => rfl
  | cons a l ih =>
    rw [List.mapM_cons]
    exact (h a (by simp)).andThen (ih fun b hb => h b (by simp [hb])) List.cons fun _ _ _ => rfl

/-- Jobs are lowered to the same function over every pool, up to the slots of their constants. -/
lemma uniform_linearize (hs : s.WellFormed) (h : ∀ r ∈ job.roots, s.Knows r) :
    ∃ (captures : List (Expr × Value)) (f : SourceFunction),
      (∀ c ∈ captures, s.Knows c.1 ∧ c.1.value? = some c.2) ∧ f.params = job.parameters ∧
      ∀ (name : String) (pool : Pool) (ρ : ℕ → ℕ),
        (∀ c ∈ captures, (pool.captureAll captures).slots[c.1.ordinal]? = some (ρ c.1.ordinal)) →
          job.linearize name pool =
            ({ f.renumber ρ with name := name }, pool.captureAll captures) := by
  have hlower : ∀ e, s.Knows e → Uniform s Code.renumber (job.lower e) :=
    Expr.uniform_lowerWith hs (Expr.uniform_lowerBlock hs _)
  have hvalue := hlower job.value (h _ (by simp [roots]))
  have houtputs := uniform_mapM (l := job.outputs) fun e he => hlower e (h _ (by simp [roots, he]))
  have harrays := uniform_mapM (l := job.arrays) fun items hitems =>
    uniform_mapM (l := items) fun e he => hlower e (h _ (by
      simp only [roots, List.cons_append, List.mem_cons, List.mem_append, List.mem_flatten]
      exact .inr (.inr ⟨items, hitems, he⟩)))
  have hresults := hvalue.andThen (houtputs.andThen harrays Prod.mk
    (l := fun ρ p => (p.1.map (Code.renumber ρ), p.2.map (List.map (Code.renumber ρ))))
    fun _ _ _ => rfl) (fun c p => (c, p.1, p.2)) (l := fun ρ p =>
      (p.1.renumber ρ, p.2.1.map (Code.renumber ρ), p.2.2.map (List.map (Code.renumber ρ))))
    fun _ _ _ => rfl
  have hblock : Uniform s _ (inBlock job.lower job.roots job.lowerResults) :=
    Uniform.lowerInBlock hs h hlower hresults
  obtain ⟨captures, p, τ, hknows, hrun⟩ := hblock { pool := {} }
  refine ⟨captures, ⟨"", job.parameters, p.1, p.2.1, p.2.2.1, p.2.2.2⟩, hknows, rfl,
    fun name pool ρ hρ => ?_⟩
  rw [linearize_eq]
  have hrun' := hrun pool ρ hρ
  rw [show ({ pool := {} } : Lowering).atop pool = { pool := pool } from rfl] at hrun'
  rw [hrun']
  simp only [assemble, SourceFunction.renumber, Code.renumberAll_eq_map]
  rfl

end Job

end TermGraph
