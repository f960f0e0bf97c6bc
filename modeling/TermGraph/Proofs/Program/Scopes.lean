import TermGraph.Proofs.Program.Evaluation

/-!
# Scopes

What is bound where, in expressions and in statement lists.

* `Expr.BindsOnce names e`: no symbol is bound again in its own scope, where `names` are bound
  around `e`.
* `Expr.OccursFree x e`: the symbol `x` occurs free in `e`.
* `Expr.scan` checks both, by evaluation.
* `Expr.mem_sharedNodes`: the nodes that become locals are read by the roots of the block.
* `Code.Scoped n L V c`: the computation refers to `n` parameters, the locals in `L` and the loop
  variables in `V`, and to those that it binds itself.
-/

namespace TermGraph

namespace Expr

/-! ## Scopes of symbols -/

/-- No symbol is bound again in its own scope; the symbols with ordinals in `names` are bound
around the expression. -/
inductive BindsOnce : List ℕ → Expr → Prop
  | intro {names : List ℕ} {e : Expr} (binders : ∀ x ∈ e.binders, x.ordinal ∉ names)
    (operands : ∀ c ∈ e.operands, BindsOnce names c)
    (body : ∀ b, e.body? = some b → BindsOnce (e.binders.map ordinal ++ names) b) :
    BindsOnce names e

namespace BindsOnce

variable {names names' : List ℕ} {a e b : Expr}

lemma fresh (h : BindsOnce names e) : ∀ x ∈ e.binders, x.ordinal ∉ names := by
  obtain ⟨hbinders, -, -⟩ := h
  exact hbinders

lemma operand (h : BindsOnce names e) {c : Expr} (hc : c ∈ e.operands) : BindsOnce names c := by
  obtain ⟨-, hoperands, -⟩ := h
  exact hoperands c hc

lemma inBody (h : BindsOnce names e) (hb : e.body? = some b) :
    BindsOnce (e.binders.map ordinal ++ names) b := by
  obtain ⟨-, -, hbody⟩ := h
  exact hbody b hb

lemma anti (h : BindsOnce names e) (hsub : names' ⊆ names) : BindsOnce names' e := by
  induction h generalizing names' with
  | intro hbinders _ _ ihoperands ihbody =>
    refine ⟨fun x hx hmem => hbinders x hx (hsub hmem), fun c hc => ihoperands c hc hsub,
      fun b hb => ihbody b hb fun i hi => ?_⟩
    rcases List.mem_append.1 hi with hi | hi
    · exact List.mem_append_left _ hi
    · exact List.mem_append_right _ (hsub hi)

lemma reads (h : BindsOnce names e) (hreads : Reads a e) : BindsOnce names a := by
  induction hreads with
  | refl => exact h
  | step hc _ ih => exact ih (h.operand hc)

end BindsOnce

lemma Reads.knows {s : Store} (hs : s.WellFormed) {a e : Expr} (h : Reads a e) (he : s.Knows e) :
    s.Knows a := by
  induction h with
  | refl => exact he
  | step hc _ ih => exact ih (hs.children he _ (mem_children_of_mem_operands hc))

/-- The first expression is a node of the graph below the second. -/
inductive Below (a : Expr) : Expr → Prop
  | refl : Below a a
  | step {b c : Expr} : c ∈ b.children → Below a c → Below a b

section Below

variable {x a b e : Expr}

lemma Below.trans (h : Below a b) (h' : Below b e) : Below a e := by
  induction h' with
  | refl => exact h
  | step hc _ ih => exact .step hc ih

lemma Below.knows {s : Store} (hs : s.WellFormed) (h : Below a e) (he : s.Knows e) : s.Knows a := by
  induction h with
  | refl => exact he
  | step hc _ ih => exact ih (hs.children he _ hc)

/-- What holds of all nodes below an expression. -/
lemma forall_below_iff {P : Expr → Prop} :
    (∀ a, Below a e → P a) ↔ P e ∧ ∀ c ∈ e.children, ∀ a, Below a c → P a := by
  refine ⟨fun h => ⟨h e .refl, fun c hc a ha => h a (.step hc ha)⟩, fun h a ha => ?_⟩
  cases ha with
  | refl => exact h.1
  | step hc ha => exact h.2 _ hc a ha

/-- The symbol occurs free in the expression: some way down to it passes no node that binds it. -/
inductive OccursFree (x : Expr) : Expr → Prop
  | symbol : x.isSymbol = true → OccursFree x x
  | operand {e c : Expr} : c ∈ e.operands → OccursFree x c → OccursFree x e
  | body {e b : Expr} : e.body? = some b → x.ordinal ∉ e.binders.map ordinal →
    OccursFree x b → OccursFree x e

namespace OccursFree

lemma isSymbol (h : OccursFree x e) : x.isSymbol = true := by
  induction h with
  | symbol hx => exact hx
  | operand _ _ ih => exact ih
  | body _ _ _ ih => exact ih

lemma toBelow (h : OccursFree x e) : Below x e := by
  induction h with
  | symbol _ => exact .refl
  | operand hc _ ih => exact .step (mem_children_of_mem_operands hc) ih
  | body hb _ _ ih => exact .step (mem_children_of_body hb) ih

lemma reads (h : OccursFree x a) (hreads : Reads a e) : OccursFree x e := by
  induction hreads with
  | refl => exact h
  | step hc _ ih => exact .operand hc ih

end OccursFree

end Below

/-- All functions in the graph below an expression satisfy `F`. -/
def Mentions (F : Function → Prop) (e : Expr) : Prop :=
  ∀ a, Below a e → ∀ f, a.kind.Holds f → F f

lemma Mentions.child {F : Function → Prop} {e c : Expr} (h : e.Mentions F) (hc : c ∈ e.children) :
    c.Mentions F :=
  fun a ha => h a (.step hc ha)

lemma mentions_iff {F : Function → Prop} {e : Expr} :
    e.Mentions F ↔ (∀ f, e.kind.Holds f → F f) ∧ ∀ c ∈ e.children, c.Mentions F :=
  forall_below_iff

/-- A symbol mentions no functions. -/
lemma mentions_of_isSymbol {F : Function → Prop} {x : Expr} (h : x.isSymbol = true) : x.Mentions F := by
  obtain ⟨ordinal, domain, kind⟩ := x
  cases kind with
  | symbol _ => exact mentions_iff.2 ⟨fun _ h => h.elim, fun _ h => by cases h⟩
  | _ => cases h

/-! ## Checks of scopes -/

/-- A check of all nodes of an expression down to some depth, each with the symbols bound around it. -/
def scan (check : List ℕ → Expr → Bool) : (depth : ℕ) → List ℕ → Expr → Bool
  | 0, _, _ => false
  | depth + 1, names, e =>
    check names e && e.operands.all (scan check depth names) &&
      e.body?.all (scan check depth (e.binders.map ordinal ++ names))

/-- The node binds none of the symbols that are bound around it. -/
def bindsFresh (names : List ℕ) (e : Expr) : Bool :=
  e.binders.all fun x => !names.contains x.ordinal

/-- The node is no symbol, or one that is bound around it, or one of those allowed. -/
def isBoundOr (allowed names : List ℕ) (e : Expr) : Bool :=
  !e.isSymbol || names.contains e.ordinal || allowed.contains e.ordinal

section Scan

variable {check : List ℕ → Expr → Bool} {d : ℕ} {allowed names : List ℕ} {e x : Expr}

lemma scan_succ : e.scan check (d + 1) names = true ↔ check names e = true ∧
    (∀ c ∈ e.operands, c.scan check d names = true) ∧
      ∀ b, e.body? = some b → b.scan check d (e.binders.map ordinal ++ names) = true := by
  simp only [scan, Bool.and_eq_true, List.all_eq_true, Option.all_eq_true, and_assoc]

lemma BindsOnce.of_scan (h : e.scan bindsFresh d names = true) : e.BindsOnce names := by
  induction d generalizing names e with
  | zero => cases h
  | succ d ih =>
    obtain ⟨hcheck, hoperands, hbody⟩ := scan_succ.1 h
    refine .intro (fun x hx => ?_) (fun c hc => ih (hoperands c hc)) fun b hb => ih (hbody b hb)
    simpa using List.all_eq_true.1 hcheck x hx

/-- The symbols that occur free are allowed. -/
lemma OccursFree.mem_of_scan (h : e.scan (isBoundOr allowed) d names = true)
    (hx : OccursFree x e) (hnames : x.ordinal ∉ names) : x.ordinal ∈ allowed := by
  induction hx generalizing d names with
  | symbol hsymbol =>
    cases d with
    | zero => cases h
    | succ d =>
      have hcheck := (scan_succ.1 h).1
      simpa [isBoundOr, hsymbol, hnames] using hcheck
  | operand hc _ ih =>
    cases d with
    | zero => cases h
    | succ d => exact ih ((scan_succ.1 h).2.1 _ hc) hnames
  | body hb hbinders _ ih =>
    cases d with
    | zero => cases h
    | succ d =>
      refine ih ((scan_succ.1 h).2.2 _ hb) ?_
      rw [List.mem_append, not_or]
      exact ⟨hbinders, hnames⟩

end Scan

end Expr

/-! ## The census -/

namespace Census

/-- Every node in a census satisfies `P`. -/
def All (P : Expr → Prop) (c : Census) : Prop :=
  ∀ (k : ℕ) (o : Occurrence), c.seen[k]? = some o → P o.node

variable {P : Expr → Prop} {c : Census}

lemma all_insert (h : c.All P) {k : ℕ} {o : Occurrence} (ho : P o.node) (l : List ℕ) :
    All P ⟨c.seen.insert k o, l⟩ := by
  intro j o' ho'
  rw [Std.TreeMap.getElem?_insert] at ho'
  split at ho'
  · cases ho'
    exact ho
  · exact h j o' ho'

/-- A visit to a known node counts it once more. -/
lemma visit_seen {e : Expr} {below : StateM Census ℕ} {o : Occurrence}
    (h : c.seen[e.ordinal]? = some o) : visit e below c =
      (o.height, { c with seen := c.seen.insert e.ordinal { o with count := o.count + 1 } }) := by
  simp [visit, h, get, getThe, MonadStateOf.get, StateT.get, modify, modifyGet,
    MonadStateOf.modifyGet, StateT.modifyGet, bind, StateT.bind, pure]
  rfl

/-- A visit to a new node enters it, after what is below. -/
lemma visit_unseen {e : Expr} {below : StateM Census ℕ} (h : c.seen[e.ordinal]? = none) :
    visit e below c = ((below c).1, ⟨(below c).2.seen.insert e.ordinal ⟨e, 1, (below c).1⟩,
      e.ordinal :: (below c).2.reversed⟩) := by
  simp [visit, h, get, getThe, MonadStateOf.get, StateT.get, modify, modifyGet,
    MonadStateOf.modifyGet, StateT.modifyGet, bind, StateT.bind, pure]
  rfl

/-- One visit keeps the property. -/
lemma all_visit (h : c.All P) {e : Expr} (he : P e) {below : StateM Census ℕ}
    (hbelow : ∀ c : Census, c.All P → (below c).2.All P) : (visit e below c).2.All P := by
  cases hseen : c.seen[e.ordinal]? with
  | some o =>
    rw [visit_seen hseen]
    exact all_insert (o := { o with count := o.count + 1 }) h (h _ o hseen) _
  | none =>
    rw [visit_unseen hseen]
    exact all_insert (hbelow c h) he _

end Census

namespace Expr

section Counting

variable {P : Expr → Prop}

/-- What a computation on a census does to it keeps the property. -/
def Counts (P : Expr → Prop) (x : StateM Census ℕ) : Prop :=
  ∀ c : Census, c.All P → (x c).2.All P

lemma counts_countAll {l : List Expr} (h : ∀ e ∈ l, Counts P (count e)) : Counts P (countAll l) := by
  induction l with
  | nil =>
    rw [countAll]
    exact fun _ hc => hc
  | cons e l ih =>
    rw [countAll]
    exact fun c hc => ih (fun d hd => h d (by simp [hd])) _ (h e (by simp) c hc)

/-- Counting a node visits it and counts its operands in between. -/
lemma count_eq_visit (e : Expr) : count e = Census.visit e (countAll e.operands) := by
  obtain ⟨i, d, kind⟩ := e
  cases kind with
  | tuple items | sum items | chain items =>
    rw [count]
    rfl
  | apply _ _ | inverse _ | transpose _ | indexedSum _ _ _ _ | collectionSum _ _ _ =>
    rw [count]
    simp [operands, Expr.kind, countAll]
  | symbol _ | number _ | object _ _ | field _ | function _ | generator _ _ _ =>
    rw [count]
    · rfl
    all_goals simp

/-- Counting meets the nodes that are read, and no others. -/
lemma counts_count (e : Expr) (h : ∀ a, Reads a e → P a) : Counts P (count e) := by
  induction hsize : sizeOf e using Nat.strongRecOn generalizing e with
  | _ n ih =>
    subst hsize
    have hoperand {c : Expr} (hc : c ∈ e.operands) : Counts P (count c) :=
      ih _ (sizeOf_lt_of_mem_children (mem_children_of_mem_operands hc)) c
        (fun a ha => h a (.step hc ha)) rfl
    intro c hc
    rw [count_eq_visit]
    exact Census.all_visit hc (h e .refl) (counts_countAll fun d hd => hoperand hd)

lemma all_foldlM_count {roots : List Expr} (h : ∀ r ∈ roots, ∀ a, Reads a r → P a) (c : Census)
    (hc : c.All P) :
    ((roots.foldlM (fun _ e => do let _ ← count e) () : StateM Census Unit) c).2.All P := by
  induction roots generalizing c with
  | nil => exact hc
  | cons r roots ih =>
    rw [List.foldlM_cons]
    exact ih (fun r' hr' => h r' (by simp [hr'])) _ (counts_count r (h r (by simp)) c hc)

/-- The nodes that become locals of a block are read by its roots. -/
lemma mem_sharedNodes {roots : List Expr} {a : Expr} (h : a ∈ sharedNodes roots) :
    ∃ r ∈ roots, Reads a r := by
  have hall := all_foldlM_count (P := fun a => ∃ r ∈ roots, Reads a r)
    (fun r hr a ha => ⟨r, hr, ha⟩) {} (by simp [Census.All])
  unfold sharedNodes at h
  obtain ⟨o, ho, rfl⟩ := List.mem_map.1 h
  have hmem := (List.mem_filter.1 ((Sorting.sort_perm _ _).subset ho)).1
  obtain ⟨k, -, hk⟩ := List.mem_filterMap.1 hmem
  exact hall k o hk

end Counting

end Expr

/-! ## Scopes of locals and loop variables -/

mutual

/-- All locals in `L` and loop variables in `V` are bound around a computation in a function of `n`
parameters; it refers to all these and its own, and binds none of them again. -/
def Code.Scoped (n : ℕ) (L V : Set ℕ) : Code → Prop
  | .captured _ | .number _ | .unbound _ => True
  | .param k => k < n
  | .hoisted id => id ∈ L
  | .loopVariable k => k ∈ V
  | .tuple items => Code.ScopedAll n L V items
  | .apply target argument => target.Scoped n L V ∧ argument.Scoped n L V
  | .sum terms => Code.ScopedAll n L V terms
  | .multiply factors => Code.ScopedAll n L V factors
  | .inverse inner => inner.Scoped n L V
  | .transpose inner => inner.Scoped n L V
  | .generate _ _ row col element =>
    row ∉ V ∧ col ∉ insert row V ∧ element.Scoped n L (insert col (insert row V))
  | .range counter lower upper body =>
    (lower.Scoped n L V ∧ upper.Scoped n L V) ∧ counter ∉ V ∧ body.Scoped n L (insert counter V)
  | .each counter collection body =>
    collection.Scoped n L V ∧ counter ∉ V ∧ body.Scoped n L (insert counter V)

/-- All computations of a list are scoped. -/
def Code.ScopedAll (n : ℕ) (L V : Set ℕ) : List Code → Prop
  | [] => True
  | c :: cs => c.Scoped n L V ∧ Code.ScopedAll n L V cs

/-- A block is scoped. -/
def Block.Scoped (n : ℕ) (L V : Set ℕ) : Block → Prop
  | .result value => value.Scoped n L V
  | .bind id code rest => code.Scoped n L V ∧ id ∉ L ∧ rest.Scoped n (insert id L) V

end

lemma Code.scopedAll_iff {n : ℕ} {L V : Set ℕ} {cs : List Code} :
    Code.ScopedAll n L V cs ↔ ∀ c ∈ cs, c.Scoped n L V := by
  induction cs with
  | nil => simp [Code.ScopedAll]
  | cons c cs ih => simp [Code.ScopedAll, ih]

/-- The locals in `L'` are those in `L` and those bound by a list. -/
def ScopedLocals (n : ℕ) (V : Set ℕ) : Set ℕ → List (ℕ × Code) → Set ℕ → Prop
  | L, [], L' => L = L'
  | L, (id, code) :: rest, L' => code.Scoped n L V ∧ id ∉ L ∧ ScopedLocals n V (insert id L) rest L'

lemma ScopedLocals.block {n : ℕ} {L L' V : Set ℕ} {locals : List (ℕ × Code)} {value : Code}
    (h : ScopedLocals n V L locals L') (hvalue : value.Scoped n L' V) :
    (Block.ofLocals locals value).Scoped n L V := by
  induction locals generalizing L with
  | nil =>
    show (Block.result value).Scoped n L V
    rw [Block.Scoped]
    exact (show L = L' from h) ▸ hvalue
  | cons entry locals ih =>
    obtain ⟨id, code⟩ := entry
    obtain ⟨hcode, hid, hrest⟩ := h
    show (Block.bind id code (Block.ofLocals locals value)).Scoped n L V
    rw [Block.Scoped]
    exact ⟨hcode, hid, ih hrest⟩

/-- All functions in a value satisfy `F`. -/
def Value.Within (F : Function → Prop) (v : Value) : Prop :=
  ∀ f, v.Holds f → F f

/-! ## A sum over a range -/

/-- The store after the sum of `x * k` for `k` from one to `n`. -/
lemma Store.wellFormed_range :
    let x : Expr := .node 50 .reals (.symbol "x")
    let n : Expr := .node 51 .integers (.symbol "n")
    let k : Expr := .node 2 .integers (.symbol "_1")
    let one : Expr := .node 52 .integers (.number (.int 1))
    let b : Expr := .node 53 .reals (.apply x k)
    let e : Expr := .node 54 .reals (.indexedSum k one n b)
    let s₁ := (Store.initial.intern .reals (.symbol "x")).2
    let s₂ := (s₁.intern .integers (.symbol "n")).2
    let s₃ := (s₂.intern .integers (.number (.int 1))).2
    let s₄ := (s₃.intern .reals (.apply x k)).2
    let s := (s₄.intern .reals (.indexedSum k one n b)).2
    s.WellFormed ∧ s.Knows x ∧ s.Knows n ∧ s.Knows e := by
  intro x n k one b e s₁ s₂ s₃ s₄ s
  have hx : Store.initial.Admits .reals (.symbol "x") :=
    ⟨by simp [Kind.children], fun _ h => h.elim, trivial, by simp [Kind.index?]⟩
  have hn : s₁.Admits .integers (.symbol "n") :=
    ⟨by simp [Kind.children], fun _ h => h.elim, trivial, by simp [Kind.index?]⟩
  have hone : s₂.Admits .integers (.number (.int 1)) :=
    ⟨by simp [Kind.children], fun _ h => h.elim, rfl, by simp [Kind.index?]⟩
  have hb : s₃.Admits .reals (.apply x k) :=
    ⟨by simpa [Kind.children] using ⟨rfl, rfl⟩, fun _ h => h.elim, rfl, by simp [Kind.index?]⟩
  have hk : (⟨1, .integers, k⟩ : Placeholder) ∈ s₄.placeholders := List.mem_of_getElem? (i := 0) rfl
  have he : s₄.Admits .reals (.indexedSum k one n b) :=
    ⟨by simpa [Kind.children] using ⟨rfl, rfl, rfl, rfl⟩, fun _ h => h.elim, trivial,
      by simpa [Kind.index?] using ⟨_, hk, rfl⟩⟩
  have hs : s.WellFormed := (((((Store.wellFormed_initial.intern hx).1.intern hn).1.intern
    hone).1.intern hb).1.intern he).1
  exact ⟨hs, rfl, rfl, rfl⟩

end TermGraph
