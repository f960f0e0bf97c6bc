import TermGraph.Proofs.Program.Batches
import TermGraph.Proofs.Program.Rendering

/-!
# Problems of compiling

The only problems of a lowered function are unbound symbols and a lack of registers.  A symbol is
reported if it occurs free in a result and is not a parameter; the loop variables and locals of a
statement list are always found.  Free symbols are not the same as the listed ones: `freeSymbols`
leaves out a symbol that occurs free in one place and is bound in another.

* `Code.unbounds c`: the names of the unbound symbols in a computation, and `Expr.Misses` those of an
  expression.
* `Code.Renders.unbounds_iff`: the two are the same, whatever locals there are.
* `Reports names α β`: compiling reports the unbound symbols of these names and nothing else.
* `Expr.compile_unbound_iff`: compiling an expression reports an unbound symbol if a symbol occurs
  free that is not a parameter, and else succeeds.
-/

namespace TermGraph

open TermGraph.Expr (OccursFree)

/-! ## Names of unbound symbols -/

mutual

/-- The names of the unbound symbols in a computation. -/
def Code.unbounds : Code → List String
  | .param _ | .hoisted _ | .loopVariable _ | .captured _ | .number _ => []
  | .unbound name => [name]
  | .tuple items => Code.unboundsAll items
  | .apply target argument => target.unbounds ++ argument.unbounds
  | .sum terms => Code.unboundsAll terms
  | .multiply factors => Code.unboundsAll factors
  | .inverse inner => inner.unbounds
  | .transpose inner => inner.unbounds
  | .generate _ _ _ _ element => element.unbounds
  | .range _ lower upper body => lower.unbounds ++ upper.unbounds ++ body.unbounds
  | .each _ collection body => collection.unbounds ++ body.unbounds

/-- The names of the unbound symbols in the computations of a list. -/
def Code.unboundsAll : List Code → List String
  | [] => []
  | c :: cs => c.unbounds ++ Code.unboundsAll cs

/-- The names of the unbound symbols in a block. -/
def Block.unbounds : Block → List String
  | .result value => value.unbounds
  | .bind _ code rest => code.unbounds ++ rest.unbounds

end

/-- The names of the unbound symbols in the locals of a block. -/
def unboundsLocals (locals : List (ℕ × Code)) : List String :=
  locals.flatMap fun p => p.2.unbounds

/-- The names of the unbound symbols in a function. -/
def SourceFunction.unbounds (f : SourceFunction) : List String :=
  unboundsLocals f.locals ++
    (f.value.unbounds ++ (Code.unboundsAll f.outputs ++ f.arrays.flatMap Code.unboundsAll))

namespace Expr

/-- A symbol of this name occurs free in the expression and refers to nothing. -/
def Misses (params : List Expr) (loops : Loops) (e : Expr) (name : String) : Prop :=
  ∃ x, OccursFree x e ∧ x.kind = .symbol name ∧ x.referent? params loops = none

variable {params : List Expr} {loops more : Loops} {e a : Expr} {name : String}

lemma Misses.reads (h : a.Misses params loops name) (hreads : a.Reads e) :
    e.Misses params loops name := by
  obtain ⟨x, hx, hkind, hnone⟩ := h
  exact ⟨x, hx.reads hreads, hkind, hnone⟩

/-- What is not found within more loops is not found within less. -/
lemma Misses.anti (h : e.Misses params (more ++ loops) name) : e.Misses params loops name := by
  obtain ⟨x, hx, hkind, hnone⟩ := h
  obtain ⟨hparam, hloops⟩ := referent?_eq_none_iff.1 hnone
  rw [List.map_append, List.mem_append, not_or] at hloops
  exact ⟨x, hx, hkind, referent?_eq_none_iff.2 ⟨hparam, hloops.2⟩⟩

/-- Every name that the expression misses satisfies `N`. -/
def MissesOnly (params : List Expr) (N : String → Prop) (loops : Loops) (e : Expr) : Prop :=
  ∀ name, e.Misses params loops name → N name

variable {N : String → Prop}

lemma MissesOnly.reads (h : e.MissesOnly params N loops) (hreads : a.Reads e) :
    a.MissesOnly params N loops := fun name hname => h name (hname.reads hreads)

lemma missesOnly_symbol (hkind : e.kind = .symbol name) :
    e.MissesOnly params N loops ↔ (e.referent? params loops = none → N name) := by
  have hsymbol : e.isSymbol = true := by rw [isSymbol, hkind]
  constructor
  · exact fun h hnone => h name ⟨e, .symbol hsymbol, hkind, hnone⟩
  · rintro h name' ⟨x, hx, hkind', hnone⟩
    obtain rfl := hx.toBelow.eq_of_isSymbol hsymbol
    obtain rfl : name = name' := by simpa [hkind] using hkind'
    exact h hnone

/-- What a node misses is what its operands miss and what its body misses within its loops. -/
lemma missesOnly_body {b : Expr} (hb : e.body? = some b) (more : Loops)
    (hmore : more.map Prod.fst = (e.binders.map ordinal).reverse) :
    e.MissesOnly params N loops ↔
      (∀ c ∈ e.operands, c.MissesOnly params N loops) ∧ b.MissesOnly params N (more ++ loops) := by
  constructor
  · refine fun h => ⟨fun c hc => h.reads (.step hc .refl), ?_⟩
    rintro name ⟨x, hx, hkind, hnone⟩
    obtain ⟨hparam, hloops⟩ := referent?_eq_none_iff.1 hnone
    rw [List.map_append, hmore, List.mem_append, not_or, List.mem_reverse] at hloops
    exact h name ⟨x, .body hb hloops.1 hx, hkind, referent?_eq_none_iff.2 ⟨hparam, hloops.2⟩⟩
  · rintro ⟨hoperands, hbody⟩ name ⟨x, hx, hkind, hnone⟩
    cases hx with
    | symbol hsymbol =>
      rw [body?, hkind] at hb
      cases hb
    | operand hc hx => exact hoperands _ hc name ⟨x, hx, hkind, hnone⟩
    | body hb' hbinders hx =>
      obtain rfl := Option.some.inj (hb.symm.trans hb')
      refine hbody name ⟨x, hx, hkind, ?_⟩
      rwa [referent?_append]
      rw [hmore, List.mem_reverse]
      exact hbinders

/-- What a node without a body misses is what its operands miss. -/
lemma missesOnly_operands (hsymbol : e.isSymbol = false) (hbody : e.body? = none) :
    e.MissesOnly params N loops ↔ ∀ c ∈ e.operands, c.MissesOnly params N loops := by
  refine ⟨fun h c hc => h.reads (.step hc .refl), ?_⟩
  rintro h name ⟨x, hx, hkind, hnone⟩
  cases hx with
  | symbol hsymbol' =>
    rw [hsymbol] at hsymbol'
    cases hsymbol'
  | operand hc hx => exact h _ hc name ⟨x, hx, hkind, hnone⟩
  | body hb _ _ =>
    rw [hbody] at hb
    cases hb

/-- A constant misses nothing. -/
lemma missesOnly_leaf (hsymbol : e.isSymbol = false) (hchildren : e.children = []) :
    e.MissesOnly params N loops := by
  rintro name ⟨x, hx, -, -⟩
  cases hx with
  | symbol hsymbol' =>
    rw [hsymbol] at hsymbol'
    cases hsymbol'
  | operand hc _ => simpa [hchildren] using mem_children_of_mem_operands hc
  | body hb _ _ => simpa [hchildren] using mem_children_of_body hb

end Expr

section Unbounds

variable {params : List Expr} {N : String → Prop}

/-- What the nodes of the locals miss at their origins satisfies `N`. -/
def Origins.Noted (params : List Expr) (N : String → Prop) (Γ : Origins) : Prop :=
  ∀ id o, Γ id = some o → o.node.MissesOnly params N o.loops

lemma Origins.Noted.bind {Γ : Origins} (h : Γ.Noted params N) {a : Expr} {loops : Loops}
    (ha : a.MissesOnly params N loops) (id : ℕ) : (Γ.bind id ⟨a, loops⟩).Noted params N := by
  intro j o ho
  by_cases hj : j = id
  · subst hj
    rw [Origins.bind_self] at ho
    obtain rfl := Option.some.inj ho
    exact ha
  · rw [Origins.bind_of_ne _ _ _ hj] at ho
    exact h j o ho

mutual

/-- A computation and its node have the same unbound symbols, up to those of the locals: they all
satisfy `N` in the one if they do in the other. -/
theorem Code.Renders.unbounds_iff : ∀ {c : Code} {Γ : Origins} {loops : Loops} {e : Expr},
    Γ.Noted params N → c.Renders params Origin.Around Γ loops e →
      ((∀ name ∈ c.unbounds, N name) ↔ e.MissesOnly params N loops)
  | .param _, _, _, e, _, h | .loopVariable _, _, _, e, _, h => by
    rw [Code.Renders] at h
    obtain ⟨name, hkind⟩ : ∃ name, e.kind = .symbol name := by
      have hsymbol := h.1
      unfold Expr.isSymbol at hsymbol
      cases hkind : e.kind <;> simp_all
    simp [Code.unbounds, Expr.missesOnly_symbol hkind, h.2]
  | .unbound name, _, _, e, _, h => by
    rw [Code.Renders] at h
    simp [Code.unbounds, Expr.missesOnly_symbol h.1, h.2]
  | .captured _, _, _, e, _, h => by
    rw [Code.Renders] at h
    obtain ⟨⟨v, hvalue⟩, hchildren⟩ := h
    have hsymbol : e.isSymbol = false := by
      obtain ⟨ordinal, domain, kind⟩ := e
      cases kind with
      | symbol _ => simp [Expr.value?] at hvalue
      | _ => rfl
    simp [Code.unbounds, Expr.missesOnly_leaf hsymbol hchildren]
  | .number n, _, _, e, _, h => by
    rw [Code.Renders] at h
    simp [Code.unbounds, Expr.missesOnly_leaf (e := e) (by simp [Expr.isSymbol, h])
      (by simp [Expr.children, Kind.children, h])]
  | .hoisted id, _, _, e, hΓ, h => by
    rw [Code.Renders] at h
    obtain ⟨o, ho, rfl, more, rfl⟩ := h
    -- What is unbound here is so in the fewer loops around the definition of the local.
    have hnode : o.node.MissesOnly params N (more ++ o.loops) := fun name hname =>
      hΓ id o ho name hname.anti
    simpa [Code.unbounds] using hnode
  | .tuple items, _, loops, e, hΓ, h | .sum items, _, loops, e, hΓ, h
  | .multiply items, _, loops, e, hΓ, h => by
    rw [Code.Renders] at h
    obtain ⟨es, hkind, hall⟩ := h
    rw [Code.unbounds, Code.RendersAll.unbounds_iff hΓ hall, Expr.missesOnly_operands (e := e)
      (by simp [Expr.isSymbol, hkind]) (by simp [Expr.body?, hkind])]
    simp [Expr.operands, hkind]
  | .apply target argument, _, loops, e, hΓ, h => by
    rw [Code.Renders] at h
    obtain ⟨t, a, hkind, ht, ha⟩ := h
    rw [Code.unbounds, List.forall_mem_append, ht.unbounds_iff hΓ, ha.unbounds_iff hΓ,
      Expr.missesOnly_operands (e := e) (by simp [Expr.isSymbol, hkind]) (by simp [Expr.body?, hkind])]
    simp [Expr.operands, hkind]
  | .inverse inner, _, loops, e, hΓ, h | .transpose inner, _, loops, e, hΓ, h => by
    rw [Code.Renders] at h
    obtain ⟨i, hkind, hi⟩ := h
    rw [Code.unbounds, hi.unbounds_iff hΓ,
      Expr.missesOnly_operands (e := e) (by simp [Expr.isSymbol, hkind]) (by simp [Expr.body?, hkind])]
    simp [Expr.operands, hkind]
  | .generate rows cols row col element, _, loops, e, hΓ, h => by
    rw [Code.Renders] at h
    obtain ⟨b, hkind, hb⟩ := h
    rw [Code.unbounds, Block.Renders.unbounds_iff hΓ hb, Expr.missesOnly_body (e := e) (b := b)
      (by simp [Expr.body?, hkind]) [(Expr.colIndex.ordinal, col), (Expr.rowIndex.ordinal, row)]
      (by simp [Expr.binders, hkind])]
    simp [Expr.operands, hkind]
  | .range counter lower upper body, _, loops, e, hΓ, h => by
    rw [Code.Renders] at h
    obtain ⟨i, l, u, b, hkind, hl, hu, hb⟩ := h
    rw [Code.unbounds, List.forall_mem_append, List.forall_mem_append, hl.unbounds_iff hΓ,
      hu.unbounds_iff hΓ, Block.Renders.unbounds_iff hΓ hb, Expr.missesOnly_body (e := e)
      (b := b) (by simp [Expr.body?, hkind]) [(i.ordinal, counter)] (by simp [Expr.binders, hkind])]
    simp [Expr.operands, hkind]
  | .each counter collection body, _, loops, e, hΓ, h => by
    rw [Code.Renders] at h
    obtain ⟨i, c, b, hkind, hc, hb⟩ := h
    rw [Code.unbounds, List.forall_mem_append, hc.unbounds_iff hΓ, Block.Renders.unbounds_iff hΓ hb,
      Expr.missesOnly_body (e := e) (b := b) (by simp [Expr.body?, hkind]) [(i.ordinal, counter)]
        (by simp [Expr.binders, hkind])]
    simp [Expr.operands, hkind]

/-- So have a list of computations and their nodes. -/
theorem Code.RendersAll.unbounds_iff : ∀ {cs : List Code} {Γ : Origins} {loops : Loops}
    {es : List Expr}, Γ.Noted params N → Code.RendersAll params Origin.Around Γ loops cs es →
      ((∀ name ∈ Code.unboundsAll cs, N name) ↔ ∀ e ∈ es, e.MissesOnly params N loops)
  | [], _, _, [], _, _ => by simp [Code.unboundsAll]
  | [], _, _, _ :: _, _, h | _ :: _, _, _, [], _, h => by simp [Code.RendersAll] at h
  | c :: cs, _, _, e :: es, hΓ, h => by
    rw [Code.RendersAll] at h
    rw [Code.unboundsAll, List.forall_mem_append, List.forall_mem_cons, h.1.unbounds_iff hΓ,
      Code.RendersAll.unbounds_iff hΓ h.2]

/-- So have a block and its node. -/
theorem Block.Renders.unbounds_iff : ∀ {block : Block} {Γ : Origins} {loops : Loops} {e : Expr},
    Γ.Noted params N → block.Renders params Origin.Around Γ loops e →
      ((∀ name ∈ block.unbounds, N name) ↔ e.MissesOnly params N loops)
  | .result value, _, _, e, hΓ, h => by
    rw [Block.Renders] at h
    rw [Block.unbounds, h.unbounds_iff hΓ]
  | .bind id code rest, _, _, e, hΓ, h => by
    rw [Block.Renders] at h
    obtain ⟨a, hreads, hcode, hrest⟩ := h
    rw [Block.unbounds, List.forall_mem_append, hcode.unbounds_iff hΓ]
    constructor
    · exact fun h => (Block.Renders.unbounds_iff (hΓ.bind h.1 id) hrest).1 h.2
    · intro h
      have ha := h.reads hreads
      exact ⟨ha, (Block.Renders.unbounds_iff (hΓ.bind ha id) hrest).2 h⟩

end

/-- The unbound symbols of the locals of a block are those of nodes that the roots read. -/
lemma RendersLocals.unbounds {roots : List Expr} {loops : Loops} {locals : List (ℕ × Code)}
    {Γ Γ' : Origins} (hΓ : Γ.Noted params N)
    (h : RendersLocals params Origin.Around roots loops Γ locals Γ') :
    ((∀ name ∈ unboundsLocals locals, N name) → Γ'.Noted params N) ∧
      ((∀ r ∈ roots, r.MissesOnly params N loops) → ∀ name ∈ unboundsLocals locals, N name) := by
  induction locals generalizing Γ with
  | nil =>
    obtain rfl : Γ = Γ' := h
    exact ⟨fun _ => hΓ, fun _ => by simp [unboundsLocals]⟩
  | cons entry locals ih =>
    obtain ⟨id, code⟩ := entry
    obtain ⟨a, ⟨r, hr, hreads⟩, hcode, hrest⟩ := h
    have hiff := hcode.unbounds_iff hΓ
    have hsplit : (∀ name ∈ unboundsLocals ((id, code) :: locals), N name) ↔
        (∀ name ∈ code.unbounds, N name) ∧ ∀ name ∈ unboundsLocals locals, N name := by
      rw [unboundsLocals, List.flatMap_cons, List.forall_mem_append]
      rfl
    rw [hsplit, hiff]
    constructor
    · exact fun h => (ih (hΓ.bind h.1 id) hrest).1 h.2
    · intro h
      have ha := (h r hr).reads hreads
      exact ⟨ha, (ih (hΓ.bind ha id) hrest).2 h⟩

/-- A function and the results of its job have the same unbound symbols. -/
lemma SourceFunction.Renders.unbounds_iff {f : SourceFunction} {job : Job}
    (h : f.Renders params Origin.Around job) :
    (∀ name ∈ f.unbounds, N name) ↔ ∀ r ∈ job.roots, r.MissesOnly params N [] := by
  obtain ⟨Γ, hlocals, hvalue, houtputs, harrays⟩ := h
  obtain ⟨hnoted, hunbounds⟩ := hlocals.unbounds (N := N) fun _ _ ho => by cases ho
  have hresults (hΓ : Γ.Noted params N) :
      (∀ name ∈ f.value.unbounds ++ (Code.unboundsAll f.outputs ++
        f.arrays.flatMap Code.unboundsAll), N name) ↔ ∀ r ∈ job.roots, r.MissesOnly params N [] := by
    have hflat : (∀ name ∈ f.arrays.flatMap Code.unboundsAll, N name) ↔
        ∀ r ∈ job.arrays.flatten, r.MissesOnly params N [] := by
      generalize f.arrays = codes at harrays ⊢
      generalize job.arrays = arrays at harrays ⊢
      induction harrays with
      | nil => simp
      | cons hitems _ ih =>
        rw [List.flatMap_cons, List.forall_mem_append, hitems.unbounds_iff hΓ, ih,
          List.flatten_cons, List.forall_mem_append]
    rw [List.forall_mem_append, List.forall_mem_append, hvalue.unbounds_iff hΓ,
      houtputs.unbounds_iff hΓ, hflat, Job.roots, List.cons_append, List.forall_mem_cons,
      List.forall_mem_append]
  rw [SourceFunction.unbounds, List.forall_mem_append]
  constructor
  · exact fun h => (hresults (hnoted h.1)).1 h.2
  · intro h
    have hlocalNames := hunbounds h
    exact ⟨hlocalNames, (hresults (hnoted hlocalNames)).2 h⟩

end Unbounds

/-! ## Compiling -/

namespace Allocation

/-- Compiling from `α` on led to `β`, and the problems that were reported are unbound symbols of the
given names. -/
structure Reports (names : List String) (α β : Allocation) : Prop where
  /-- Locals are not forgotten. -/
  locals : ∀ id r : ℕ, α.locals[id]? = some r → ∃ r' : ℕ, β.locals[id]? = some r'
  /-- Loop variables are not forgotten. -/
  counters : ∀ id r : ℕ, α.counters[id]? = some r → ∃ r' : ℕ, β.counters[id]? = some r'
  /-- The problems are the ones before and the unbound symbols. -/
  problems : ∀ p, p ∈ β.problems ↔ p ∈ α.problems ∨ ∃ name ∈ names, p = .unboundSymbol name

/-- All locals and all loop variables have registers. -/
structure Covers (Γ : Origins) (loops : Loops) (α : Allocation) : Prop where
  /-- Locals have registers. -/
  locals : ∀ id o, Γ id = some o → ∃ r : ℕ, α.locals[id]? = some r
  /-- Loop variables have registers. -/
  counters : ∀ p ∈ loops, ∃ r : ℕ, α.counters[p.2]? = some r

variable {names names' : List String} {α β γ : Allocation} {Γ : Origins} {loops : Loops}

namespace Reports

lemma refl (α : Allocation) : Reports [] α α :=
  ⟨fun _ r hr => ⟨r, hr⟩, fun _ r hr => ⟨r, hr⟩, by simp⟩

lemma trans (h : Reports names α β) (h' : Reports names' β γ) : Reports (names ++ names') α γ where
  locals id r hr := by
    obtain ⟨r', hr'⟩ := h.locals id r hr
    exact h'.locals id r' hr'
  counters id r hr := by
    obtain ⟨r', hr'⟩ := h.counters id r hr
    exact h'.counters id r' hr'
  problems p := by
    rw [h'.problems, h.problems, or_assoc]
    simp only [List.mem_append, or_and_right, exists_or]

/-- A new register reports nothing. -/
lemma push (h : Reports names α β) : Reports names α β.push := ⟨h.locals, h.counters, h.problems⟩

lemma withLocal (α : Allocation) (id r : ℕ) : Reports [] α (α.withLocal id r) where
  locals j r' hr' := by
    by_cases hj : id = j
    · exact ⟨r, by simp [Allocation.withLocal, hj]⟩
    · exact ⟨r', by simpa [Allocation.withLocal, Std.TreeMap.getElem?_insert, hj] using hr'⟩
  counters _ r' hr' := ⟨r', hr'⟩
  problems := by simp [Allocation.withLocal]

lemma withVariable (α : Allocation) (k : ℕ) : Reports [] α (α.withVariable k) where
  locals _ r hr := ⟨r, hr⟩
  counters j r hr := by
    by_cases hj : k = j
    · exact ⟨α.registers, by simp [Allocation.withVariable, hj]⟩
    · exact ⟨r, by simpa [Allocation.withVariable, Std.TreeMap.getElem?_insert, hj] using hr⟩
  problems := by simp [Allocation.withVariable]

/-- An unbound symbol is reported unless it has been reported before. -/
lemma unbound (name : String) (α : Allocation) :
    Reports [name] α (Allocation.unbound name α).2 := by
  have hrun : Allocation.unbound name α = (if !α.problems.contains (.unboundSymbol name) then do
      Allocation.report (.unboundSymbol name)
      Allocation.literal .zero
    else Allocation.literal .zero : CompileM (Emission × ℕ)) α := rfl
  rw [hrun]
  cases hcontains : α.problems.contains (.unboundSymbol name) with
  | true =>
    have hmem : Problem.unboundSymbol name ∈ α.problems := by simpa using hcontains
    refine push ⟨fun _ r hr => ⟨r, hr⟩, fun _ r hr => ⟨r, hr⟩, fun p => ?_⟩
    simp only [List.mem_singleton, exists_eq_left, iff_self_or]
    rintro rfl
    exact hmem
  | false =>
    refine push ⟨fun _ r hr => ⟨r, hr⟩, fun _ r hr => ⟨r, hr⟩, fun p => ?_⟩
    show p ∈ Problem.unboundSymbol name :: α.problems ↔ _
    simp [or_comm]

end Reports

namespace Covers

/-- In the beginning there are neither locals nor loop variables. -/
lemma initial (α : Allocation) : Covers Origins.empty [] α :=
  ⟨fun _ _ ho => (Option.some_ne_none _ ho.symm).elim, fun _ hp => (List.not_mem_nil hp).elim⟩

lemma mono (h : Covers Γ loops α) (hreports : Reports names α β) : Covers Γ loops β where
  locals id o ho := by
    obtain ⟨r, hr⟩ := h.locals id o ho
    exact hreports.locals id r hr
  counters p hp := by
    obtain ⟨r, hr⟩ := h.counters p hp
    exact hreports.counters p.2 r hr

lemma withLocal (h : Covers Γ loops α) (id r : ℕ) (o : Origin) :
    Covers (Γ.bind id o) loops (α.withLocal id r) where
  locals j o' ho' := by
    by_cases hj : j = id
    · exact ⟨r, by simp [Allocation.withLocal, hj]⟩
    · rw [Origins.bind_of_ne _ _ _ hj] at ho'
      exact (h.mono (.withLocal α id r)).locals j o' ho'
  counters := h.counters

lemma withVariable (h : Covers Γ loops α) (i k : ℕ) :
    Covers Γ ((i, k) :: loops) (α.withVariable k) where
  locals := h.locals
  counters := List.forall_mem_cons.2
    ⟨⟨α.registers, by simp [Allocation.withVariable]⟩, (h.mono (.withVariable α k)).counters⟩

end Covers

end Allocation

open Allocation

section Compile

variable {params : List Expr} {ok : Origin → Loops → Prop} {Γ : Origins} {loops : Loops}
  {cs : List Code}

/-- Compiling a piece of code reports its unbound symbols and nothing else, if all that it refers to
has registers. -/
def Reporting {α : Type} (Γ : Origins) (loops : Loops) (names : List String) (x : CompileM α) : Prop :=
  ∀ σ, Covers Γ loops σ → Reports names σ (x σ).2

lemma reporting_compileAll (h : ∀ c ∈ cs, Reporting Γ loops c.unbounds c.compile) :
    Reporting Γ loops (Code.unboundsAll cs) (compileAll cs) := by
  induction cs with
  | nil =>
    rw [compileAll, Code.unboundsAll]
    exact fun σ _ => .refl σ
  | cons c cs ih =>
    rw [compileAll, Code.unboundsAll]
    intro σ hσ
    have hfirst := h c (by simp) σ hσ
    exact hfirst.trans (ih (fun d hd => h d (by simp [hd])) _ (hσ.mono hfirst))

lemma reporting_compileFold (op : ℕ → ℕ → ℕ → Instruction)
    (h : ∀ c ∈ cs, Reporting Γ loops c.unbounds c.compile) (acc : ℕ) :
    Reporting Γ loops (Code.unboundsAll cs) (compileFold op acc cs) := by
  induction cs generalizing acc with
  | nil =>
    rw [compileFold, Code.unboundsAll]
    exact fun σ _ => .refl σ
  | cons c cs ih =>
    rw [compileFold, Code.unboundsAll]
    intro σ hσ
    have hfirst := (h c (by simp) σ hσ).push
    exact hfirst.trans (ih (fun d hd => h d (by simp [hd])) _ _ (hσ.mono hfirst))

mutual

/-- Compiling a computation reports its unbound symbols. -/
theorem Code.Renders.reporting : ∀ {c : Code} {Γ : Origins} {loops : Loops} {e : Expr},
    c.Renders params ok Γ loops e → Reporting Γ loops c.unbounds c.compile
  | .param _, _, _, _, _ => by
    rw [Code.compile, Code.unbounds]
    exact fun σ _ => .refl σ
  | .captured _, _, _, _, _ | .number _, _, _, _, _ => by
    rw [Code.compile, Code.unbounds]
    exact fun σ _ => (Reports.refl σ).push
  | .unbound name, _, _, _, _ => by
    rw [Code.compile, Code.unbounds]
    exact fun σ _ => .unbound name σ
  | .hoisted id, _, _, _, h => by
    rw [Code.Renders] at h
    obtain ⟨o, ho, -⟩ := h
    rw [Code.compile, Code.unbounds]
    intro σ hσ
    -- A local in scope has a register, so that nothing is reported.
    obtain ⟨r, hr⟩ := hσ.locals id o ho
    rw [hoisted_of_some hr]
    exact .refl σ
  | .loopVariable id, _, loops, e, h => by
    rw [Code.Renders] at h
    rw [Code.compile, Code.unbounds]
    intro σ hσ
    obtain ⟨p, hp, rfl⟩ := Expr.exists_of_referent?_eq_loopVariable h.2
    obtain ⟨r, hr⟩ := hσ.counters p hp
    rw [loopVariable_of_some hr]
    exact .refl σ
  | .tuple items, _, _, _, h => by
    rw [Code.Renders] at h
    obtain ⟨es, -, hall⟩ := h
    rw [Code.compile, Code.unbounds]
    exact fun σ hσ => (reporting_compileAll (Code.RendersAll.reporting hall) σ hσ).push
  | .apply target argument, _, _, _, h => by
    rw [Code.Renders] at h
    obtain ⟨t, a, -, ht, ha⟩ := h
    rw [Code.compile, Code.unbounds]
    intro σ hσ
    have hfirst := ht.reporting σ hσ
    exact (hfirst.trans (ha.reporting _ (hσ.mono hfirst))).push
  | .sum [], _, _, _, _ | .multiply [], _, _, _, _ => by
    rw [Code.compile, Code.unbounds, Code.unboundsAll]
    exact fun σ _ => (Reports.refl σ).push
  | .sum (c :: cs), _, _, _, h => by
    rw [Code.Renders] at h
    obtain ⟨es, -, hall⟩ := h
    have hcs := Code.RendersAll.reporting hall
    rw [Code.compile, Code.unbounds, Code.unboundsAll]
    intro σ hσ
    have hfirst := hcs c (by simp) σ hσ
    exact hfirst.trans (reporting_compileFold .add (fun d hd => hcs d (by simp [hd])) _ _
      (hσ.mono hfirst))
  | .multiply (c :: cs), _, _, _, h => by
    rw [Code.Renders] at h
    obtain ⟨es, -, hall⟩ := h
    have hcs := Code.RendersAll.reporting hall
    rw [Code.compile, Code.unbounds, Code.unboundsAll]
    intro σ hσ
    have hfirst := hcs c (by simp) σ hσ
    exact hfirst.trans (reporting_compileFold .apply (fun d hd => hcs d (by simp [hd])) _ _
      (hσ.mono hfirst))
  | .inverse inner, _, _, _, h | .transpose inner, _, _, _, h => by
    rw [Code.Renders] at h
    obtain ⟨i, -, hi⟩ := h
    rw [Code.compile, Code.unbounds]
    exact fun σ hσ => (hi.reporting σ hσ).push
  | .generate rows cols row col element, _, _, _, h => by
    rw [Code.Renders] at h
    obtain ⟨b, -, hb⟩ := h
    rw [Code.compile, Code.unbounds]
    intro σ hσ
    have hloops := (Reports.withVariable σ row).trans (.withVariable _ col)
    have hbody := Block.Renders.reporting hb _ ((hσ.withVariable _ row).withVariable _ col)
    exact (hloops.trans hbody).push
  | .range counter lower upper body, _, _, _, h => by
    rw [Code.Renders] at h
    obtain ⟨i, l, u, b, -, hl, hu, hb⟩ := h
    rw [Code.compile, Code.unbounds]
    intro σ hσ
    have hlower := hl.reporting σ hσ
    have hupper := hlower.trans (hu.reporting _ (hσ.mono hlower))
    have hbody := Block.Renders.reporting hb _ ((hσ.mono hupper).withVariable _ counter)
    exact (hupper.trans ((Reports.withVariable _ counter).trans hbody)).push
  | .each counter collection body, _, _, _, h => by
    rw [Code.Renders] at h
    obtain ⟨i, c, b, -, hc, hb⟩ := h
    rw [Code.compile, Code.unbounds]
    intro σ hσ
    have hcollection := hc.reporting σ hσ
    have hbody := Block.Renders.reporting hb _ ((hσ.mono hcollection).withVariable _ counter)
    exact (hcollection.trans ((Reports.withVariable _ counter).trans hbody)).push

/-- So does compiling each computation of a list. -/
theorem Code.RendersAll.reporting : ∀ {cs : List Code} {Γ : Origins} {loops : Loops}
    {es : List Expr}, Code.RendersAll params ok Γ loops cs es →
      ∀ c ∈ cs, Reporting Γ loops c.unbounds c.compile
  | [], _, _, _, _ => by simp
  | _ :: _, _, _, [], h => by simp [Code.RendersAll] at h
  | c :: cs, _, _, e :: es, h => by
    rw [Code.RendersAll] at h
    exact List.forall_mem_cons.2 ⟨h.1.reporting, Code.RendersAll.reporting h.2⟩

/-- So does compiling a block. -/
theorem Block.Renders.reporting : ∀ {block : Block} {Γ : Origins} {loops : Loops} {e : Expr},
    block.Renders params ok Γ loops e → Reporting Γ loops block.unbounds block.compile
  | .result value, _, _, _, h => by
    rw [Block.Renders] at h
    rw [Block.compile, Block.unbounds]
    exact h.reporting
  | .bind id code rest, _, _, _, h => by
    rw [Block.Renders] at h
    obtain ⟨a, -, hcode, hrest⟩ := h
    rw [Block.compile, Block.unbounds]
    intro σ hσ
    have hfirst := hcode.reporting σ hσ
    have hbody := Block.Renders.reporting hrest _
      ((hσ.mono hfirst).withLocal id (code.compile σ).1.2 _)
    exact hfirst.trans ((Reports.withLocal _ id _).trans hbody)

end

/-- Compiling the locals of a block reports their unbound symbols, and then all locals have
registers. -/
lemma RendersLocals.reports {roots : List Expr} {locals : List (ℕ × Code)} {Γ' : Origins}
    (h : RendersLocals params ok roots loops Γ locals Γ') {σ : Allocation} (hσ : Covers Γ loops σ) :
    Reports (unboundsLocals locals) σ (compileLocals locals σ).2 ∧
      Covers Γ' loops (compileLocals locals σ).2 := by
  induction locals generalizing Γ σ with
  | nil =>
    obtain rfl : Γ = Γ' := h
    exact ⟨.refl σ, hσ⟩
  | cons entry locals ih =>
    obtain ⟨id, code⟩ := entry
    obtain ⟨a, -, hcode, hrest⟩ := h
    have hfirst := hcode.reporting σ hσ
    have hbound := (hσ.mono hfirst).withLocal id (code.compile σ).1.2 ⟨a, loops⟩
    obtain ⟨hlocals, hcovers⟩ := ih hrest hbound
    exact ⟨hfirst.trans ((Reports.withLocal _ id _).trans hlocals), hcovers⟩

lemma reporting_compileArrays {arrays : List (List Code)} {ess : List (List Expr)}
    (h : List.Forall₂ (Code.RendersAll params ok Γ loops) arrays ess) :
    Reporting Γ loops (arrays.flatMap Code.unboundsAll) (compileArrays arrays) := by
  induction h with
  | nil => exact fun σ _ => .refl σ
  | cons hitems _ ih =>
    intro σ hσ
    have hfirst := reporting_compileAll (Code.RendersAll.reporting hitems) σ hσ
    exact hfirst.trans (ih _ (hσ.mono hfirst))

end Compile

namespace SourceFunction

variable {params : List Expr} {ok : Origin → Loops → Prop} {f : SourceFunction} {job : Job}

/-- What is allocated after a function was compiled. -/
def allocation (f : SourceFunction) : Allocation :=
  (f.compileBody { registers := f.params.length }).2

/-- The program of a function does not exceed the register limit. -/
def FitsRegisters (f : SourceFunction) : Prop :=
  (f.emit.run { registers := f.params.length }).1.registers ≤ maxRegisters

instance : Decidable f.FitsRegisters := inferInstanceAs (Decidable (_ ≤ _))

/-- The problems of a function that was lowered from a job are its unbound symbols. -/
lemma Renders.mem_problems (h : f.Renders params ok job) {p : Problem} :
    p ∈ f.allocation.problems ↔ ∃ name ∈ f.unbounds, p = .unboundSymbol name := by
  obtain ⟨Γ, hlocals, hvalue, houtputs, harrays⟩ := h
  obtain ⟨hbefore, hσ⟩ := hlocals.reports (.initial { registers := f.params.length })
  have hfirst := hvalue.reporting _ hσ
  have hsecond := reporting_compileAll (Code.RendersAll.reporting houtputs) _ (hσ.mono hfirst)
  have hthird := reporting_compileArrays harrays _ ((hσ.mono hfirst).mono hsecond)
  have hall : p ∈ f.allocation.problems ↔ _ :=
    (hbefore.trans (hfirst.trans (hsecond.trans hthird))).problems p
  simpa [unbounds] using hall

/-- A function within the register limit compiles if it has no problems, and else is refused with
all of them. -/
lemma compile_eq (hfits : f.FitsRegisters) : f.compile = match f.allocation.problems with
    | [] => .ok (f.assemble (f.compileBody { registers := f.params.length }))
    | problems => .error (problems.reverse.map fun p => ⟨false, some f.name, p⟩) := by
  have hrun : f.emit.run { registers := f.params.length } = _ := emit_eq f _
  rw [FitsRegisters, hrun] at hfits
  have hnot : ¬maxRegisters < (f.compileBody { registers := f.params.length }).2.registers :=
    Nat.not_lt.2 hfits
  rw [if_neg hnot] at hrun
  rw [compile, hrun]
  rfl

/-- Compiling a function that was lowered from a job reports its unbound symbols by name, and nothing
else. -/
lemma Renders.compile (h : f.Renders params ok job) (hfits : f.FitsRegisters) :
    (∃ p, f.compile = .ok p) ∧ f.unbounds = [] ∨
      ∃ ds, f.compile = .error ds ∧ ds ≠ [] ∧
        ∀ p, (∃ d ∈ ds, d.problem = p) ↔ ∃ name ∈ f.unbounds, p = .unboundSymbol name := by
  have hproblems (p : Problem) := h.mem_problems (p := p)
  rw [compile_eq hfits]
  generalize f.allocation.problems = problems at hproblems ⊢
  cases problems with
  | nil =>
    refine .inl ⟨⟨_, rfl⟩, List.eq_nil_iff_forall_not_mem.2 fun name hname => ?_⟩
    simpa using (hproblems (.unboundSymbol name)).2 ⟨name, hname, rfl⟩
  | cons q problems =>
    refine .inr ⟨_, rfl, by simp, fun p => ?_⟩
    rw [← hproblems p]
    simp [or_comm, eq_comm]

end SourceFunction

/-! ## Expressions -/

namespace Expr

/-- The expression as a job. -/
def toJob (e : Expr) (params : List Expr) : Job := { value := e, params := params }

/-- The program of the expression does not exceed the register limit. -/
def FitsRegisters (e : Expr) (params : List Expr) : Prop :=
  (e.toJob params).aloneUnit.1.FitsRegisters

instance {e : Expr} {params : List Expr} : Decidable (e.FitsRegisters params) :=
  inferInstanceAs (Decidable (SourceFunction.FitsRegisters _))

/-- Compiling the expression fails, and one of the reasons is an unbound symbol of this name. -/
def ReportsUnbound (e : Expr) (params : List Expr) (name : String) : Prop :=
  ∃ ds, e.compile params = .error (.compilation ds) ∧ ∃ d ∈ ds, d.problem = .unboundSymbol name

variable {s : Store} {e : Expr} {params : List Expr}

/-- Distinct symbols pass as parameters. -/
lemma compile_of_distinct (hparams : (e.toJob params).HasDistinctSymbols) :
    e.compile params = (Toolchain.compile {} (Job.unit [e.toJob params]) >>= fun functions =>
      match functions with
      | f :: _ => .ok f
      | [] => .error (.compilation [])) := by
  show ((e.toJob params).validate >>= fun _ => _) = _
  rw [Job.validate_eq_ok.2 hparams]
  exact pure_bind () _

/-- Compiling an expression is compiling its function, if the parameters are distinct symbols. -/
lemma compile_eq (hparams : (e.toJob params).HasDistinctSymbols) :
    (∀ p, (e.toJob params).aloneUnit.1.compile = .ok p → ∃ f, e.compile params = .ok f) ∧
      ∀ ds, (e.toJob params).aloneUnit.1.compile = .error ds →
        e.compile params = .error (.compilation ds) := by
  have hunit : (Job.unit [e.toJob params]).functions = [(e.toJob params).aloneUnit.1] := rfl
  rw [compile_of_distinct hparams]
  constructor
  · intro p hp
    obtain ⟨functions, hfunctions⟩ := Toolchain.compile_ok (t := {}) (u := Job.unit [e.toJob params])
      rfl fun f hf => by
        rw [hunit] at hf
        exact ⟨p, List.mem_singleton.1 hf ▸ hp⟩
    have hlinked := Toolchain.forall₂_compile rfl hfunctions
    rw [hunit] at hlinked
    obtain ⟨f, rest, -, -, rfl⟩ := List.forall₂_cons_left_iff.1 hlinked
    exact ⟨f, by rw [hfunctions]; rfl⟩
  · intro ds hds
    rw [Toolchain.compile_error (t := {}) rfl ⟨_, by rw [hunit]; exact List.mem_singleton_self _, ds,
      hds⟩, hunit, List.flatMap_singleton, SourceFunction.problems, hds]
    rfl

/-- The statement list of an expression renders it. -/
lemma renders_toJob (hs : s.WellFormed) (he : s.Knows e) (params : List Expr) :
    (e.toJob params).aloneUnit.1.Renders params Origin.Around (e.toJob params) := by
  have hroots : ∀ r ∈ (e.toJob params).roots, s.Knows r := by simpa [toJob, Job.roots]
  exact Job.renders_linearize hs hroots _ _

/-- What an expression misses outside of all loops are symbols that occur free and are not
parameters. -/
lemma misses_nil_iff (hs : s.WellFormed) (he : s.Knows e) (hknown : ∀ p ∈ params, s.Knows p)
    {name : String} : e.Misses params [] name ↔
      ∃ x, OccursFree x e ∧ x ∉ params ∧ x.kind = .symbol name := by
  refine exists_congr fun x => and_congr_right fun hx => ?_
  have hmem : x.ordinal ∈ params.map ordinal ↔ x ∈ params := by
    rw [List.mem_map]
    refine ⟨?_, fun h => ⟨x, h, rfl⟩⟩
    rintro ⟨p, hp, heq⟩
    exact Store.WellFormed.eq_of_ordinal (hknown p hp) (hx.toBelow.knows hs he) heq ▸ hp
  rw [referent?_eq_none_iff, hmem]
  simp [and_comm]

/-- The unbound names of the statement list are those of the expression. -/
lemma mem_unbounds_toJob (hs : s.WellFormed) (he : s.Knows e) {name : String} :
    name ∈ (e.toJob params).aloneUnit.1.unbounds ↔ e.Misses params [] name := by
  have hroots : (e.toJob params).roots = [e] := by simp [toJob, Job.roots]
  have hne (P : String → Prop) : (∀ n, P n → n ≠ name) ↔ ¬P name :=
    ⟨fun h hname => h name hname rfl, fun h n hn heq => h (heq ▸ hn)⟩
  have hiff := (renders_toJob hs he params).unbounds_iff (N := (· ≠ name))
  rw [hroots, List.forall_mem_singleton, MissesOnly, hne, hne] at hiff
  exact not_iff_not.1 hiff

/-- **The reported symbols are those that occur free.**  Compiling an expression over distinct symbols
within the register limit reports the symbols that occur free and are not parameters by name; it
succeeds if there are none.  The listed symbols are those that occur free and that no node of the
graph binds, so a symbol that is free in one place and bound in another is reported but not listed. -/
theorem compile_unbound_iff (hs : s.WellFormed) (he : s.Knows e) (hknown : ∀ p ∈ params, s.Knows p)
    (hsymbols : ∀ p ∈ params, p.isSymbol = true) (hnodup : params.Nodup)
    (hfits : e.FitsRegisters params) :
    (∀ name, e.ReportsUnbound params name ↔
        ∃ x, OccursFree x e ∧ x ∉ params ∧ x.kind = .symbol name) ∧
      ((¬∃ name, e.ReportsUnbound params name) → ∃ f, e.compile params = .ok f) ∧
      ∀ x, x ∈ e.freeSymbols ↔ OccursFree x e ∧ ∀ a, Below a e → x ∉ a.binders := by
  have hparams : (e.toJob params).HasDistinctSymbols := ⟨hsymbols, hnodup.map_on fun a ha b hb heq =>
    Store.WellFormed.eq_of_ordinal (hknown a ha) (hknown b hb) heq⟩
  have hunbounds (name : String) : name ∈ (e.toJob params).aloneUnit.1.unbounds ↔
      ∃ x, OccursFree x e ∧ x ∉ params ∧ x.kind = .symbol name :=
    (mem_unbounds_toJob hs he).trans (misses_nil_iff hs he hknown)
  obtain ⟨hok, herror⟩ := compile_eq hparams
  rcases (renders_toJob hs he params).compile hfits with ⟨⟨p, hp⟩, hnil⟩ | ⟨ds, hds, hne, hproblems⟩
  · obtain ⟨f, hf⟩ := hok p hp
    refine ⟨fun name => ?_, fun _ => ⟨f, hf⟩, fun x => mem_freeSymbols hs he⟩
    rw [← hunbounds, hnil]
    refine iff_of_false ?_ List.not_mem_nil
    rintro ⟨ds, hds, -⟩
    rw [hf] at hds
    cases hds
  · have hreports (name : String) : e.ReportsUnbound params name ↔
        name ∈ (e.toJob params).aloneUnit.1.unbounds := by
      rw [ReportsUnbound, herror ds hds]
      simpa using hproblems (.unboundSymbol name)
    refine ⟨fun name => (hreports name).trans (hunbounds name), fun hnone => ?_,
      fun x => mem_freeSymbols hs he⟩
    obtain ⟨d, hd⟩ := List.exists_mem_of_ne_nil ds hne
    obtain ⟨name, hname, -⟩ := (hproblems d.problem).1 ⟨d, hd, rfl⟩
    exact absurd ⟨name, (hreports name).2 hname⟩ hnone

/-- The row index is bound in the generator and free beside it, so it is reported and not listed. -/
theorem compile_unbound_rowIndex :
    let x := (Store.initial.intern .reals (.symbol "x")).1
    let s := (Store.initial.intern .reals (.symbol "x")).2
    let g := (s.intern .matrices (.generator 1 1 rowIndex)).1
    let t := (s.intern .matrices (.generator 1 1 rowIndex)).2
    let e := (t.intern .universal (.tuple [x, rowIndex, g])).1
    e.ReportsUnbound [x] "i" ∧ rowIndex ∉ e.freeSymbols := by
  intro x s g t e
  have hadm : Store.initial.Admits .reals (.symbol "x") :=
    ⟨by simp [Kind.children], fun _ h => h.elim, trivial, by simp [Kind.index?]⟩
  obtain ⟨hs, hx, -⟩ := Store.wellFormed_initial.intern hadm
  have hadm' : s.Admits .matrices (.generator 1 1 rowIndex) :=
    ⟨by simpa [Kind.children] using hs.rowIndex, fun _ h => h.elim, rfl, by simp [Kind.index?]⟩
  obtain ⟨ht, hg, -⟩ := hs.intern hadm'
  have hx' : t.Knows x := hx.mono (Store.le_intern _ _ s)
  have hadm'' : t.Admits .universal (.tuple [x, rowIndex, g]) :=
    ⟨by simpa [Kind.children] using ⟨hx', ht.rowIndex, hg⟩, fun _ h => h.elim, rfl,
      by simp [Kind.index?]⟩
  obtain ⟨hu, he, -⟩ := ht.intern hadm''
  have hfits : e.FitsRegisters [x] := by decide +kernel
  obtain ⟨hreported, -, hlisted⟩ := compile_unbound_iff hu he
    (by simpa using hx'.mono (Store.le_intern _ _ t)) (List.forall_mem_singleton.2 rfl) (by simp) hfits
  have htuple : e = .node 52 .universal (.tuple [x, rowIndex, g]) := rfl
  have hoperands : e.operands = [x, rowIndex, g] := by rw [htuple]; rfl
  have hother : rowIndex ≠ x := fun h => absurd (congrArg ordinal h) (by decide)
  have hfree : OccursFree rowIndex e := .operand (by simp [hoperands]) (.symbol rfl)
  have hbelow : Below g e := .step (mem_children_of_mem_operands (by simp [hoperands])) .refl
  have hbound : rowIndex ∈ g.binders := List.mem_cons_self
  exact ⟨(hreported "i").2 ⟨rowIndex, hfree, by simpa using hother, rfl⟩,
    fun h => ((hlisted rowIndex).1 h).2 g hbelow hbound⟩

end Expr

end TermGraph
