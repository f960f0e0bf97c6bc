import TermGraph.Proofs.Program.Rendering

/-!
# References to locals

A local stands for its node under the bindings of the place where it is bound, and it may be referred
to within further loops.  These leave the symbols of the node alone as long as no symbol is bound
again in its own scope.  Without this the reference is to another value than the node has there:
all generators bind the same two symbols, and a node of the element of one generator may occur in
the element of a generator within it, where the symbols stand for other rows and columns.

* `Origin.Agrees params o loops`: every symbol of the node refers to the same thing at the origin of
  the local and within `loops`.
* `Origin.Agrees.evaluate_eq`: so the node has the same value in both places.
* `Job.agrees_linearize`: all references agree with their origins in the statement list of a job that
  binds no symbol again in its own scope.
-/

namespace TermGraph

open TermGraph.Expr (BindsOnce OccursFree)

/-- Every symbol that occurs free in the node of a local refers to the same thing at the origin of
the local and within the given loops. -/
def Origin.Agrees (params : List Expr) (o : Origin) (loops : Loops) : Prop :=
  ∀ x, OccursFree x o.node → x.referent? params o.loops = x.referent? params loops

/-! ## The same values -/

/-- The values of symbols within some loops: the arguments come first, as parameters do. -/
def Loops.bindings (params : List Expr) (args : List Value) (counters : ℕ → Value) (loops : Loops) :
    Bindings :=
  (params.map Expr.ordinal).zip args ++ loops.map fun p => (p.1, counters p.2)

/-- The value of what a symbol refers to. -/
def Referent.value (args : List Value) (counters : ℕ → Value) : Referent → Option Value
  | .param k => args[k]?
  | .loopVariable id => some (counters id)

section Values

variable {params : List Expr} {args : List Value} {loops : Loops}

/-- A symbol has the value of what it refers to. -/
lemma Loops.lookup_bindings (hargs : args.length = params.length) (counters : ℕ → Value)
    (loops : Loops) (x : Expr) : (loops.bindings params args counters).lookup x.ordinal =
      (x.referent? params loops).bind (Referent.value args counters) := by
  have hsame : ((fun k => k == x.ordinal) ∘ Expr.ordinal) = (· == x) := by
    funext p
    exact rfl
  have hloops : (loops.map fun p => (p.1, counters p.2)).lookup x.ordinal =
      (loops.lookup x.ordinal).map counters := by
    induction loops with
    | nil => rfl
    | cons p loops ih =>
      rw [List.map_cons, List.lookup_cons, List.lookup_cons, ih]
      cases x.ordinal == p.1 <;> rfl
  rw [bindings, List.lookup_append, Job.lookup_bindings, List.findIdx?_map, hsame, hloops,
    Expr.referent?]
  cases hindex : params.findIdx? (· == x) with
  | some k =>
    have hk : k < args.length := hargs ▸ (List.findIdx?_eq_some_iff_getElem.1 hindex).1
    simp [Referent.value, hk]
  | none =>
    cases loops.lookup x.ordinal <;> simp [Referent.value]

/-- The node of a local has the same value at the origin of the local and where it is referred to, if
the reference agrees with the origin. -/
theorem Origin.Agrees.evaluate_eq {o : Origin} (h : o.Agrees params loops)
    (hargs : args.length = params.length) (counters : ℕ → Value) {m : Type → Type} [Monad m]
    (ops : Arithmetic m) :
    o.node.evaluate ops (o.loops.bindings params args counters) =
      o.node.evaluate ops (loops.bindings params args counters) := by
  refine Expr.evaluate_congr fun x hx => ?_
  rw [Loops.lookup_bindings hargs, Loops.lookup_bindings hargs, h x hx]

end Values

/-! ## Scopes that do not overlap -/

/-- No loop binds a symbol that a loop around it binds or that is among `names`. -/
def Loops.Apart (names : List ℕ) : Loops → Prop
  | [] => True
  | p :: loops => p.1 ∉ loops.map Prod.fst ++ names ∧ Loops.Apart names loops

section Apart

variable {names : List ℕ} {more loops : Loops} {params : List Expr}

lemma Loops.Apart.append (h : loops.Apart names)
    (hmore : ∀ p ∈ more, p.1 ∉ loops.map Prod.fst ++ names) (hnodup : (more.map Prod.fst).Nodup) :
    Loops.Apart names (more ++ loops) := by
  induction more with
  | nil => exact h
  | cons p more ih =>
    rw [List.map_cons, List.nodup_cons] at hnodup
    refine ⟨?_, ih (fun q hq => hmore q (by simp [hq])) hnodup.2⟩
    show p.1 ∉ (more ++ loops).map Prod.fst ++ names
    rw [List.map_append, List.append_assoc, List.mem_append, not_or]
    exact ⟨hnodup.1, hmore p (by simp)⟩

lemma Loops.Apart.not_mem (h : Loops.Apart names (more ++ loops)) :
    ∀ p ∈ more, p.1 ∉ loops.map Prod.fst ++ names := by
  induction more with
  | nil => simp
  | cons q more ih =>
    obtain ⟨hq, hrest⟩ : q.1 ∉ (more ++ loops).map Prod.fst ++ names ∧
      Loops.Apart names (more ++ loops) := h
    refine List.forall_mem_cons.2 ⟨fun hmem => hq ?_, ih hrest⟩
    rw [List.map_append, List.append_assoc]
    exact List.mem_append_right _ hmem

/-- The free symbols that refer to nothing are among `names`. -/
def Expr.Closed (params : List Expr) (names : List ℕ) (loops : Loops) (e : Expr) : Prop :=
  ∀ x, OccursFree x e → x.referent? params loops = none → x.ordinal ∈ names

/-- Loops that are apart leave the symbols of a node alone if the ones that refer to nothing are
among `names`. -/
lemma Origin.Around.agrees {o : Origin} (h : o.Around loops) (hapart : loops.Apart names)
    (hclosed : o.node.Closed params names o.loops) : o.Agrees params loops := by
  obtain ⟨more, rfl⟩ := h
  intro x hx
  by_cases hmem : x.ordinal ∈ more.map Prod.fst
  · obtain ⟨p, hp, hordinal⟩ := List.mem_map.1 hmem
    have hnot := hapart.not_mem p hp
    rw [hordinal, List.mem_append, not_or] at hnot
    cases hindex : params.findIdx? (· == x) with
    | some k => simp only [Expr.referent?, hindex]
    | none =>
      refine absurd (hclosed x hx ?_) hnot.2
      rw [Expr.referent?, hindex, Expr.lookup_eq_none_iff_fst.2 hnot.1]
      rfl
  · exact (Expr.referent?_append hmem).symm

end Apart

lemma Expr.nodup_binders (e : Expr) : (e.binders.map ordinal).Nodup := by
  obtain ⟨ordinal, domain, kind⟩ := e
  cases kind with
  | generator rows cols element => exact (by decide : [0, 1].Nodup)
  | _ => simp [binders, Expr.kind]

/-- What is known where a node is lowered: the scopes around do not overlap with one another or with
those of the node, and all free symbols are accounted for. -/
structure Surrounded (params : List Expr) (names : List ℕ) (Γ : Origins) (loops : Loops)
    (e : Expr) : Prop where
  /-- The loops around bind no symbol twice. -/
  apart : loops.Apart names
  /-- The node binds none of their symbols again. -/
  binds : e.BindsOnce (loops.map Prod.fst ++ names)
  /-- The free symbols of the node are accounted for. -/
  closed : e.Closed params names loops
  /-- So are those of the locals at their origins. -/
  origins : ∀ id o, Γ id = some o → o.node.Closed params names o.loops

namespace Surrounded

variable {params : List Expr} {names : List ℕ} {Γ : Origins} {loops : Loops} {a b c e : Expr}

lemma operand (h : Surrounded params names Γ loops e) (hc : c ∈ e.operands) :
    Surrounded params names Γ loops c :=
  ⟨h.apart, h.binds.operand hc, fun x hx => h.closed x (.operand hc hx), h.origins⟩

lemma reads (h : Surrounded params names Γ loops e) (hreads : a.Reads e) :
    Surrounded params names Γ loops a :=
  ⟨h.apart, h.binds.reads hreads, fun x hx => h.closed x (hx.reads hreads), h.origins⟩

lemma bind (h : Surrounded params names Γ loops e) (ha : a.Closed params names loops) (id : ℕ) :
    Surrounded params names (Γ.bind id ⟨a, loops⟩) loops e := by
  refine ⟨h.apart, h.binds, h.closed, fun j o ho => ?_⟩
  by_cases hj : j = id
  · subst hj
    rw [Origins.bind_self] at ho
    obtain rfl := Option.some.inj ho
    exact ha
  · rw [Origins.bind_of_ne _ _ _ hj] at ho
    exact h.origins j o ho

/-- The body of a node is surrounded by one loop more for each symbol that the node binds. -/
lemma body (h : Surrounded params names Γ loops e) (hb : e.body? = some b) (more : Loops)
    (hmore : more.map Prod.fst = (e.binders.map Expr.ordinal).reverse) :
    Surrounded params names Γ (more ++ loops) b where
  apart := by
    refine h.apart.append (fun p hp => ?_) (hmore ▸ List.nodup_reverse.2 e.nodup_binders)
    have hmem : p.1 ∈ (e.binders.map Expr.ordinal).reverse := hmore ▸ List.mem_map_of_mem hp
    obtain ⟨x, hx, hordinal⟩ := List.mem_map.1 (List.mem_reverse.1 hmem)
    exact hordinal ▸ h.binds.fresh x hx
  binds := by
    refine (h.binds.inBody hb).anti fun i hi => ?_
    rw [List.map_append, hmore, List.append_assoc] at hi
    simpa using hi
  closed x hx hnone := by
    obtain ⟨hparam, hloops⟩ := Expr.referent?_eq_none_iff.1 hnone
    rw [List.map_append, hmore, List.mem_append, not_or, List.mem_reverse] at hloops
    exact h.closed x (.body hb hloops.1 hx) (Expr.referent?_eq_none_iff.2 ⟨hparam, hloops.2⟩)
  origins := h.origins

end Surrounded

/-! ## References agree -/

section Agreement

variable {params : List Expr} {names : List ℕ}

mutual

/-- Every reference in a computation agrees with its origin if the scopes do not overlap. -/
theorem Code.Renders.agrees : ∀ {c : Code} {Γ : Origins} {loops : Loops} {e : Expr},
    Surrounded params names Γ loops e → c.Renders params Origin.Around Γ loops e →
      c.Renders params (Origin.Agrees params) Γ loops e
  | .param _, _, _, _, _, h | .loopVariable _, _, _, _, _, h | .captured _, _, _, _, _, h
  | .number _, _, _, _, _, h | .unbound _, _, _, _, _, h => by
    rw [Code.Renders] at h ⊢
    exact h
  | .hoisted id, Γ, loops, e, hs, h => by
    rw [Code.Renders] at h ⊢
    obtain ⟨o, ho, hnode, haround⟩ := h
    exact ⟨o, ho, hnode, haround.agrees hs.apart (hs.origins id o ho)⟩
  | .tuple _, _, _, e, hs, h | .sum _, _, _, e, hs, h | .multiply _, _, _, e, hs, h => by
    rw [Code.Renders] at h ⊢
    obtain ⟨es, hkind, hall⟩ := h
    have hes : e.operands = es := by simp [Expr.operands, hkind]
    exact ⟨es, hkind, Code.RendersAll.agrees (fun c hc => hs.operand (hes ▸ hc)) hall⟩
  | .apply target argument, Γ, loops, e, hs, h => by
    rw [Code.Renders] at h ⊢
    obtain ⟨t, a, hkind, ht, ha⟩ := h
    have hoperands : e.operands = [t, a] := by simp [Expr.operands, hkind]
    exact ⟨t, a, hkind, ht.agrees (hs.operand (by simp [hoperands])),
      ha.agrees (hs.operand (by simp [hoperands]))⟩
  | .inverse _, _, _, e, hs, h | .transpose _, _, _, e, hs, h => by
    rw [Code.Renders] at h ⊢
    obtain ⟨i, hkind, hi⟩ := h
    exact ⟨i, hkind, hi.agrees (hs.operand (by simp [Expr.operands, hkind]))⟩
  | .generate rows cols row col element, Γ, loops, e, hs, h => by
    rw [Code.Renders] at h ⊢
    obtain ⟨b, hkind, hb⟩ := h
    have hbody := hs.body (b := b) (by simp [Expr.body?, hkind])
      [(Expr.colIndex.ordinal, col), (Expr.rowIndex.ordinal, row)] (by simp [Expr.binders, hkind])
    exact ⟨b, hkind, Block.Renders.agrees hbody hb⟩
  | .range counter lower upper body, Γ, loops, e, hs, h => by
    rw [Code.Renders] at h ⊢
    obtain ⟨i, l, u, b, hkind, hl, hu, hb⟩ := h
    have hoperands : e.operands = [l, u] := by simp [Expr.operands, hkind]
    have hbody := hs.body (b := b) (by simp [Expr.body?, hkind]) [(i.ordinal, counter)]
      (by simp [Expr.binders, hkind])
    exact ⟨i, l, u, b, hkind, hl.agrees (hs.operand (by simp [hoperands])),
      hu.agrees (hs.operand (by simp [hoperands])), Block.Renders.agrees hbody hb⟩
  | .each counter collection body, Γ, loops, e, hs, h => by
    rw [Code.Renders] at h ⊢
    obtain ⟨i, c, b, hkind, hc, hb⟩ := h
    have hbody := hs.body (b := b) (by simp [Expr.body?, hkind]) [(i.ordinal, counter)]
      (by simp [Expr.binders, hkind])
    exact ⟨i, c, b, hkind, hc.agrees (hs.operand (by simp [Expr.operands, hkind])),
      Block.Renders.agrees hbody hb⟩

/-- So does every reference in a list of computations. -/
theorem Code.RendersAll.agrees : ∀ {cs : List Code} {Γ : Origins} {loops : Loops} {es : List Expr},
    (∀ e ∈ es, Surrounded params names Γ loops e) →
      Code.RendersAll params Origin.Around Γ loops cs es →
        Code.RendersAll params (Origin.Agrees params) Γ loops cs es
  | [], _, _, [], _, _ => by rw [Code.RendersAll]; trivial
  | [], _, _, _ :: _, _, h | _ :: _, _, _, [], _, h => by simp [Code.RendersAll] at h
  | c :: cs, Γ, loops, e :: es, hs, h => by
    rw [Code.RendersAll] at h ⊢
    exact ⟨h.1.agrees (hs e (by simp)), Code.RendersAll.agrees (fun d hd => hs d (by simp [hd])) h.2⟩

/-- So does every reference in a block. -/
theorem Block.Renders.agrees : ∀ {block : Block} {Γ : Origins} {loops : Loops} {e : Expr},
    Surrounded params names Γ loops e → block.Renders params Origin.Around Γ loops e →
      block.Renders params (Origin.Agrees params) Γ loops e
  | .result value, Γ, loops, e, hs, h => by
    rw [Block.Renders] at h ⊢
    exact h.agrees hs
  | .bind id code rest, Γ, loops, e, hs, h => by
    rw [Block.Renders] at h ⊢
    obtain ⟨a, hreads, hcode, hrest⟩ := h
    have ha := hs.reads hreads
    exact ⟨a, hreads, hcode.agrees ha, Block.Renders.agrees (hs.bind ha.closed id) hrest⟩

end

/-- So does every reference in the locals of a block. -/
lemma RendersLocals.agrees {roots : List Expr} {loops : Loops} {locals : List (ℕ × Code)}
    {Γ Γ' : Origins} (hs : ∀ r ∈ roots, Surrounded params names Γ loops r)
    (h : RendersLocals params Origin.Around roots loops Γ locals Γ') :
    RendersLocals params (Origin.Agrees params) roots loops Γ locals Γ' ∧
      ∀ r ∈ roots, Surrounded params names Γ' loops r := by
  induction locals generalizing Γ with
  | nil =>
    obtain rfl : Γ = Γ' := h
    exact ⟨rfl, hs⟩
  | cons entry locals ih =>
    obtain ⟨id, code⟩ := entry
    obtain ⟨a, ⟨r, hr, hreads⟩, hcode, hrest⟩ := h
    have ha := (hs r hr).reads hreads
    obtain ⟨hlocals, hs'⟩ := ih (fun r' hr' => (hs r' hr').bind ha.closed id) hrest
    exact ⟨⟨a, ⟨r, hr, hreads⟩, hcode.agrees ha, hlocals⟩, hs'⟩

end Agreement

/-- **Locals respect binders.**  If the results of a job bind no symbol again in its own scope, with
all symbols among `names` bound around them that occur free and are not parameters, then every
reference to a local agrees with the origin of the local: each symbol of the node refers to the same
parameter or loop in both places. -/
theorem Job.agrees_linearize {s : Store} {job : Job} {names : List ℕ} (hs : s.WellFormed)
    (hjob : ∀ r ∈ job.roots, s.Knows r) (hbinds : ∀ r ∈ job.roots, r.BindsOnce names)
    (hclosed : ∀ r ∈ job.roots, r.Closed job.params names []) (name : String) (pool : Pool) :
    (job.linearize name pool).1.Renders job.params (Origin.Agrees job.params) job := by
  obtain ⟨Γ, hlocals, hvalue, houtputs, harrays⟩ := job.renders_linearize hs hjob name pool
  have hsurrounded : ∀ r ∈ job.roots, Surrounded job.params names .empty [] r := fun r hr =>
    ⟨trivial, hbinds r hr, hclosed r hr, fun _ _ ho => by cases ho⟩
  obtain ⟨hlocals', hroots⟩ := hlocals.agrees hsurrounded
  refine ⟨Γ, hlocals', hvalue.agrees (hroots _ (by simp [roots])),
    houtputs.agrees fun r hr => hroots r (by simp [roots, hr]), ?_⟩
  rw [List.forall₂_iff_get] at harrays ⊢
  refine ⟨harrays.1, fun k hk hk' => (harrays.2 k hk hk').agrees fun r hr => hroots r ?_⟩
  simp only [roots, List.cons_append, List.mem_cons, List.mem_append, List.mem_flatten]
  exact .inr (.inr ⟨_, List.get_mem _ _, hr⟩)

/-- The element of a generator binds a local in which the row index occurs, and refers to it in the
argument of a call. -/
theorem Job.agrees_linearize_generator :
    let x : Expr := .node 50 .reals (.symbol "x")
    let c : Expr := .node 51 .reals (.apply .rowIndex x)
    let f : Expr := .node 52 .functions (.function (.builtin .sin))
    let v : Expr := .node 53 .reals (.apply f c)
    let e : Expr := .node 54 .reals (.sum [c, v])
    let g : Expr := .node 55 .matrices (.generator 2 3 e)
    let job : Job := { value := g, params := [x] }
    (job.linearize "f0" {}).1.value.text =
        "generate(2, 3, |v0, v1| \x7b let t0 = apply(v0, p0); (t0 + apply(data[0], t0)) \x7d)" ∧
      (job.linearize "f0" {}).1.Renders job.params (Origin.Agrees job.params) job := by
  intro x c f v e g job
  let s₁ := (Store.initial.intern .reals (.symbol "x")).2
  let s₂ := (s₁.intern .reals (.apply .rowIndex x)).2
  let s₃ := (s₂.intern .functions (.function (.builtin .sin))).2
  let s₄ := (s₃.intern .reals (.apply f c)).2
  let s₅ := (s₄.intern .reals (.sum [c, v])).2
  have hx : Store.initial.Admits .reals (.symbol "x") :=
    ⟨by simp [Kind.children], fun _ h => h.elim, trivial, by simp [Kind.index?]⟩
  have hc : s₁.Admits .reals (.apply .rowIndex x) :=
    ⟨by simpa [Kind.children] using ⟨rfl, rfl⟩, fun _ h => h.elim, rfl, by simp [Kind.index?]⟩
  have hf : s₂.Admits .functions (.function (.builtin .sin)) :=
    ⟨by simp [Kind.children], fun _ h => h ▸ trivial, rfl, by simp [Kind.index?]⟩
  have hv : s₃.Admits .reals (.apply f c) :=
    ⟨by simpa [Kind.children] using ⟨rfl, rfl⟩, fun _ h => h.elim, rfl, by simp [Kind.index?]⟩
  have he : s₄.Admits .reals (.sum [c, v]) :=
    ⟨by simpa [Kind.children] using ⟨rfl, rfl⟩, fun _ h => h.elim, rfl, by simp [Kind.index?]⟩
  have hg : s₅.Admits .matrices (.generator 2 3 e) :=
    ⟨List.forall_mem_singleton.2 rfl, fun _ h => h.elim, rfl, by simp [Kind.index?]⟩
  obtain ⟨hs, hknown, -⟩ := (((((Store.wellFormed_initial.intern hx).1.intern hc).1.intern hf).1.intern
    hv).1.intern he).1.intern hg
  -- The parameter is the only symbol that occurs free.
  have hclosed : g.Closed job.params [] [] := fun y hy hnone => by
    have hmem : y.ordinal ∈ job.params.map Expr.ordinal :=
      hy.mem_of_scan (d := 5) (by decide) List.not_mem_nil
    exact absurd hmem (Expr.referent?_eq_none_iff.1 hnone).1
  have hroots : ∀ {P : Expr → Prop}, (∀ r ∈ job.roots, P r) ↔ P g := by simp [job, Job.roots]
  exact ⟨by decide +kernel, Job.agrees_linearize hs (hroots.2 hknown)
    (hroots.2 (.of_scan (d := 5) (by decide))) (hroots.2 hclosed) "f0" {}⟩

end TermGraph
