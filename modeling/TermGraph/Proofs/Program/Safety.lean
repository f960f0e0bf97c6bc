import TermGraph.Proofs.Program.Resolution
import TermGraph.Proofs.Program.Shapes

/-!
# Compiled numerical expressions do not go wrong

Instructions look at the values that they find in registers, and a loop looks at its bounds.  The
instructions of a numerical expression find values that suit its nodes, whatever the parameters and
whatever arguments they accept.  So only a bound of a summation may turn out to be a float.

* `Allocation.Serves`: the registers hold what a computation refers to.
* `Works`: the instructions of a piece of code are safe, run from such registers.
* `Code.works_compile`: those of a computation are, and they leave a value that suits its node.
* `Expr.IsNumerical.safe_call`: calls of a compiled numerical expression give numbers.
-/

namespace TermGraph

/-! ## What is in the registers -/

/-- A register below `n` holds a value that suits the node. -/
def Held (n : ℕ) (f : Frame) (r : ℕ) (e : Expr) : Prop :=
  r < n ∧ e.HasShape (f.read r)

/-- The locals that have an origin. -/
def Origins.ids (Γ : Origins) : Set ℕ := {id | Γ id ≠ none}

/-- The variables of the loops. -/
def Loops.ids (loops : Loops) : Set ℕ := {k | k ∈ loops.map Prod.snd}

section Registers

variable {params : List Expr} {Γ : Origins} {loops : Loops} {α β : Allocation} {f f' : Frame}
  {n n' r id k : ℕ} {e : Expr} {rs : List ℕ} {es : List Expr}

lemma Held.mono (h : Held n f r e) (hle : n ≤ n') (hkeeps : f.Keeps n f') : Held n' f' r e :=
  ⟨h.1.trans_le hle, by rw [hkeeps.read r h.1]; exact h.2⟩

/-- The registers hold what a computation refers to: numbers for real parameters, values that suit
the origins of the locals in scope, and numbers for the variables of the loops around. -/
structure Allocation.Serves (params : List Expr) (Γ : Origins) (loops : Loops) (α : Allocation)
    (f : Frame) : Prop where
  /-- Real parameters are numbers. -/
  params : ∀ k p, params[k]? = some p → p.IsReal → k < α.registers ∧ ∃ m, f.read k = .number m
  /-- Locals suit their origins. -/
  locals : ∀ id o, Γ id = some o → ∃ r, α.locals[id]? = some r ∧ Held α.registers f r o.node
  /-- Loop variables are numbers. -/
  counters : ∀ k ∈ loops.ids, ∃ r m, α.counters[k]? = some r ∧ r < α.registers ∧
    f.read r = .number m

namespace Allocation.Serves

lemma mono (h : α.Serves params Γ loops f) (hgrows : α.Grows Γ.ids loops.ids β)
    (hkeeps : f.Keeps α.registers f') : β.Serves params Γ loops f' where
  params k p hp hreal := by
    obtain ⟨hk, m, hm⟩ := h.params k p hp hreal
    exact ⟨hk.trans_le hgrows.registers, m, (hkeeps.read k hk).trans hm⟩
  locals id o ho := by
    obtain ⟨r, hr, hheld⟩ := h.locals id o ho
    exact ⟨r, (hgrows.locals id (by simp [Origins.ids, ho])).trans hr,
      hheld.mono hgrows.registers hkeeps⟩
  counters k hk := by
    obtain ⟨r, m, hr, hlt, hm⟩ := h.counters k hk
    exact ⟨r, m, (hgrows.counters k hk).trans hr, hlt.trans_le hgrows.registers,
      (hkeeps.read r hlt).trans hm⟩

/-- A new local in a register. -/
lemma withLocal (id : ℕ) (h : α.Serves params Γ loops f) (hr : Held α.registers f r e) (around : Loops) :
    (α.withLocal id r).Serves params (Γ.bind id ⟨e, around⟩) loops f where
  params := h.params
  locals j o ho := by
    by_cases hj : j = id
    · subst hj
      rw [Origins.bind_self] at ho
      cases ho
      exact ⟨r, by simp [Allocation.withLocal], hr⟩
    · rw [Origins.bind_of_ne _ _ _ hj] at ho
      obtain ⟨r', hr', hheld⟩ := h.locals j o ho
      exact ⟨r', by simpa [Allocation.withLocal, Std.TreeMap.getElem?_insert, Ne.symm hj] using hr',
        hheld⟩
  counters := h.counters

/-- A number in the register of a new loop variable. -/
lemma withVariable (h : α.Serves params Γ loops f) (hk : k ∉ loops.ids)
    (hsize : α.registers < f.size) (i : ℕ) (m : Number) :
    (α.withVariable k).Serves params Γ ((i, k) :: loops) (f.write α.registers (.number m)) := by
  have hkept := h.mono (grows_withVariable hk Γ.ids α) (Frame.keeps_write le_rfl (.number m))
  refine ⟨hkept.params, hkept.locals, fun j hj => ?_⟩
  rcases List.mem_cons.1 hj with rfl | hj
  · exact ⟨α.registers, m, by simp [Allocation.withVariable], Nat.lt_succ_self _,
      Frame.read_write_self hsize _⟩
  · exact hkept.counters j hj

end Allocation.Serves

end Registers

/-- What is bound is new: neither bound twice, nor in scope already. -/
structure Fresh (Γ : Origins) (loops : Loops) (l : List Binder) : Prop where
  /-- Nothing is bound twice. -/
  nodup : l.Nodup
  /-- The locals are new. -/
  locals : ∀ id, .hoisted id ∈ l → id ∉ Γ.ids
  /-- The loop variables are new. -/
  counters : ∀ k, .loopVariable k ∈ l → k ∉ loops.ids

namespace Fresh

variable {Γ : Origins} {loops : Loops} {l l' : List Binder} {id k : ℕ}

lemma left (h : Fresh Γ loops (l ++ l')) : Fresh Γ loops l :=
  ⟨(List.nodup_append'.1 h.nodup).1, fun id hid => h.locals id (List.mem_append_left _ hid),
    fun k hk => h.counters k (List.mem_append_left _ hk)⟩

lemma right (h : Fresh Γ loops (l ++ l')) : Fresh Γ loops l' :=
  ⟨(List.nodup_append'.1 h.nodup).2.1, fun id hid => h.locals id (List.mem_append_right _ hid),
    fun k hk => h.counters k (List.mem_append_right _ hk)⟩

/-- What is bound in a loop is new there. -/
lemma underLoop (h : Fresh Γ loops (.loopVariable k :: l)) (i : ℕ) :
    k ∉ loops.ids ∧ Fresh Γ ((i, k) :: loops) l := by
  obtain ⟨hk, hnodup⟩ := List.nodup_cons.1 h.nodup
  refine ⟨h.counters k List.mem_cons_self, hnodup, fun id hid => h.locals id (.tail _ hid),
    fun j hj hmem => ?_⟩
  rcases List.mem_cons.1 hmem with rfl | hmem
  · exact hk hj
  · exact h.counters j (.tail _ hj) hmem

/-- What is bound after a local is new there. -/
lemma underLocal (h : Fresh Γ loops (.hoisted id :: l)) (o : Origin) :
    id ∉ Γ.ids ∧ Fresh (Γ.bind id o) loops l := by
  obtain ⟨hid, hnodup⟩ := List.nodup_cons.1 h.nodup
  refine ⟨h.locals id List.mem_cons_self, hnodup, fun j hj hmem => ?_,
    fun k hk => h.counters k (.tail _ hk)⟩
  have hne : j ≠ id := fun heq => hid (heq ▸ hj)
  rw [Origins.ids, Set.mem_ofPred_eq, Origins.bind_of_ne _ _ _ hne] at hmem
  exact h.locals j (.tail _ hj) hmem

end Fresh

/-! ## Instructions of a piece of code -/

section Works

variable {ev : Evaluator} {data : Array Value} {params : List Expr} {L : Prop} {Γ : Origins}
  {loops : Loops} {α β γ : Allocation} {es es' : List Expr} {rs rs' : List ℕ} {c c' : Emission}
  {e a l u b : Expr} {r dst : ℕ}

/-- The instructions `c` of a piece of code, where `α` was allocated before and `β` is allocated after.
Run from registers that hold what the piece refers to, they are safe, leave values that suit the nodes
`es` in the registers `rs`, and write new registers only. -/
structure Works (ev : Evaluator) (data : Array Value) (params : List Expr) (L : Prop)
    (Γ : Origins) (loops : Loops) (α : Allocation) (es : List Expr) (c : Emission) (rs : List ℕ)
    (β : Allocation) : Prop where
  /-- Registers are added. -/
  grows : α.Grows Γ.ids loops.ids β
  /-- The instructions are put in front of those that follow. -/
  lawful : c.Lawful
  /-- The instructions are safe. -/
  safe : β.problems = [] → ∀ f, α.Serves params Γ loops f → β.registers ≤ f.size →
    Safe L (Instruction.runAll ev data c.toList f) fun f' =>
      f.Keeps α.registers f' ∧ List.Forall₂ (Held β.registers f') rs es

/-- The instructions of one computation. -/
abbrev WorksFor (ev : Evaluator) (data : Array Value) (params : List Expr) (L : Prop)
    (Γ : Origins) (loops : Loops) (e : Expr) (x : CompileM (Emission × ℕ)) : Prop :=
  ∀ α, Works ev data params L Γ loops α [e] (x α).1.1 [(x α).1.2] (x α).2

namespace Works

/-- No instructions. -/
lemma none (h : ∀ f, α.Serves params Γ loops f → List.Forall₂ (Held α.registers f) rs es) :
    Works ev data params L Γ loops α es .none rs α where
  grows := .refl _ _ α
  lawful := Emission.lawful_none
  safe _ f hf _ := by
    show Safe L (Instruction.runAll ev data [] f) _
    rw [Instruction.runAll_nil]
    exact .pure ⟨.refl _ f, h f hf⟩

/-- One piece after another. -/
lemma append (h : Works ev data params L Γ loops α es c rs β)
    (h' : Works ev data params L Γ loops β es' c' rs' γ) :
    Works ev data params L Γ loops α (es ++ es') (c ++ c') (rs ++ rs') γ where
  grows := h.grows.trans h'.grows
  lawful := h.lawful.append h'.lawful
  safe hproblems f hf hsize := by
    rw [h.lawful.toList_append, Instruction.runAll_append]
    refine (h.safe (h'.grows.problems hproblems) f hf
      (h'.grows.registers.trans hsize)).bind fun f₁ h₁ => ?_
    refine (h'.safe hproblems f₁ (hf.mono h.grows h₁.1) (by rwa [h₁.1.size])).imp fun f₂ h₂ => ?_
    refine ⟨h₁.1.trans (h₂.1.anti h.grows.registers), List.rel_append ?_ h₂.2⟩
    exact h₁.2.imp fun _ _ hheld => hheld.mono h'.grows.registers h₂.1

/-- An instruction that puts the results of a piece of code to use.  Registers may be allocated in
between. -/
lemma emit (h : Works ev data params L Γ loops α es c rs β)
    (hgrows : β.Grows Γ.ids loops.ids γ) {i : Instruction}
    (hdst : β.registers ≤ dst ∧ dst < γ.registers)
    (hi : γ.problems = [] → ∀ f, β.Serves params Γ loops f → γ.registers ≤ f.size →
      List.Forall₂ (Held β.registers f) rs es → Safe L (i.run ev data f) fun f' =>
        f.Keeps β.registers f' ∧ e.HasShape (f'.read dst)) :
    Works ev data params L Γ loops α [e] (c ++ .one i) [dst] γ where
  grows := h.grows.trans hgrows
  lawful := h.lawful.append (Emission.lawful_one i)
  safe hproblems f hf hsize := by
    rw [h.lawful.toList_append, Instruction.runAll_append]
    refine (h.safe (hgrows.problems hproblems) f hf
      (hgrows.registers.trans hsize)).bind fun f₁ h₁ => ?_
    show Safe L (Instruction.runAll ev data [i] f₁) _
    rw [Instruction.runAll_singleton]
    refine (hi hproblems f₁ (hf.mono h.grows h₁.1) (by rwa [h₁.1.size]) h₁.2).imp fun f₂ h₂ => ?_
    exact ⟨h₁.1.trans (h₂.1.anti h.grows.registers), .cons ⟨hdst.2, h₂.2⟩ .nil⟩

/-- An instruction that writes one new register. -/
lemma write (h : Works ev data params L Γ loops α es c rs β) {i : Instruction}
    {x : Frame → Build Value}
    (hrun : ∀ f, i.run ev data f = x f >>= fun v => pure (f.write β.registers v))
    (hx : ∀ f, List.Forall₂ (Held β.registers f) rs es → Safe L (x f) e.HasShape) :
    Works ev data params L Γ loops α [e] (c ++ .one i) [β.registers] β.push := by
  refine h.emit (β.grows_push _ _) ⟨le_rfl, Nat.lt_succ_self _⟩ fun _ f _ hsize hheld => ?_
  rw [hrun]
  refine (hx f hheld).bind fun v hv => .pure ⟨Frame.keeps_write le_rfl v, ?_⟩
  rwa [Frame.read_write_self hsize]

/-- A literal in a new register. -/
lemma literal (n : Number) (h : e.HasShape (.number n)) :
    WorksFor ev data params L Γ loops e (Allocation.literal n) := by
  intro α
  have hempty : Works ev data params L Γ loops α [] .none [] α := .none fun _ _ => .nil
  refine hempty.write (i := .loadNumber α.registers n) (x := fun _ => pure (.number n)) (fun f => ?_)
    fun f _ => .pure h
  rw [Instruction.run, pure_bind]

/-- A function with a problem is not run. -/
lemma of_problems (hgrows : α.Grows Γ.ids loops.ids β) (hβ : β.problems ≠ []) :
    Works ev data params L Γ loops α [e] (Allocation.literal .zero β).1.1
      [(Allocation.literal .zero β).1.2] (Allocation.literal .zero β).2 where
  grows := hgrows.trans (Allocation.grows_push _ _ β)
  lawful := Emission.lawful_one _
  safe hproblems := absurd hproblems hβ

lemma hoisted {id : ℕ} {o : Origin} (h : Γ id = some o) :
    WorksFor ev data params L Γ loops o.node (Allocation.hoisted id) := by
  intro α
  cases hr : α.locals[id]? with
  | some r =>
    rw [hoisted_of_some hr]
    refine .none fun f hf => ?_
    obtain ⟨r', hr', hheld⟩ := hf.locals id o h
    obtain rfl : r = r' := Option.some.inj (hr.symm.trans hr')
    exact .cons hheld .nil
  | none =>
    rw [hoisted_of_none hr]
    exact .of_problems (α.grows_report _ _ _) (by simp)

lemma loopVariable {k : ℕ} (hk : k ∈ loops.ids) (h : e.IsNumerical) :
    WorksFor ev data params L Γ loops e (Allocation.loopVariable k) := by
  intro α
  cases hr : α.counters[k]? with
  | some r =>
    rw [loopVariable_of_some hr]
    refine .none fun f hf => ?_
    obtain ⟨r', m, hr', hlt, hm⟩ := hf.counters k hk
    obtain rfl : r = r' := Option.some.inj (hr.symm.trans hr')
    exact .cons ⟨hlt, h.hasShape_iff.2 ⟨m, hm⟩⟩ .nil
  | none =>
    rw [loopVariable_of_none hr]
    exact .of_problems (α.grows_report _ _ _) (by simp)

lemma unbound (name : String) :
    WorksFor ev data params L Γ loops e (Allocation.unbound name) := by
  intro α
  obtain ⟨β, hrun, hgrows, hproblems⟩ := exists_unbound_eq Γ.ids loops.ids name α
  rw [hrun]
  exact .of_problems hgrows hproblems

/-- A local, and then what refers to it. -/
lemma bindLocal (h : Works ev data params L Γ loops α [a] c [r] β) {id : ℕ}
    (hid : id ∉ Γ.ids) (h' : Works ev data params L (Γ.bind id ⟨a, loops⟩) loops
      (β.withLocal id r) es c' rs γ) :
    Works ev data params L Γ loops α es (c ++ c') rs γ := by
  -- The local is new, so whatever was in scope before keeps its register.
  have hsubset : Γ.ids ⊆ (Γ.bind id ⟨a, loops⟩).ids := fun j hj => by
    have hne : j ≠ id := fun heq => hid (heq ▸ hj)
    rwa [Origins.ids, Set.mem_ofPred_eq, Origins.bind_of_ne _ _ _ hne]
  have hgrows : β.Grows Γ.ids loops.ids γ := (Allocation.grows_withLocal hid _ β r).trans
    (h'.grows.anti hsubset subset_rfl)
  refine ⟨h.grows.trans hgrows, h.lawful.append h'.lawful, fun hproblems f hf hsize => ?_⟩
  rw [h.lawful.toList_append, Instruction.runAll_append]
  refine (h.safe (hgrows.problems hproblems) f hf
    (hgrows.registers.trans hsize)).bind fun f₁ h₁ => ?_
  obtain ⟨hkeeps, hheld⟩ := h₁
  have hserves := (hf.mono h.grows hkeeps).withLocal id (List.forall₂_cons.1 hheld).1 loops
  refine (h'.safe hproblems f₁ hserves (by rwa [hkeeps.size])).imp fun f₂ h₂ => ⟨?_, h₂.2⟩
  exact hkeeps.trans (h₂.1.anti h.grows.registers)

/-- Numerical expressions are all held in the same way. -/
lemma congr (h : Works ev data params L Γ loops α [e] c [r] β) (he : e.IsNumerical)
    (ha : a.IsNumerical) : Works ev data params L Γ loops α [a] c [r] β where
  grows := h.grows
  lawful := h.lawful
  safe hproblems f hf hsize := by
    refine (h.safe hproblems f hf hsize).imp fun f' h' => ⟨h'.1, ?_⟩
    obtain ⟨hlt, hshape⟩ := (List.forall₂_cons.1 h'.2).1
    exact .cons ⟨hlt, ha.hasShape_iff.2 (he.hasShape_iff.1 hshape)⟩ .nil

/-- Results that are combined one after the other, beginning with one that is there already. -/
lemma fold (op : ℕ → ℕ → ℕ → Instruction) (op' : Value → Value → Build Value)
    (hrun : ∀ dst a b f, (op dst a b).run ev data f =
      (op' (f.read a) (f.read b) >>= fun v => pure (f.write dst v)))
    (hop : ∀ m n, Safe L (op' (.number m) (.number n)) fun v => ∃ k, v = .number k)
    (he : e.IsNumerical) {cs : List Code} (hes : ∀ x ∈ es, x.IsNumerical)
    (hcs : List.Forall₂ (fun d x => WorksFor ev data params L Γ loops x d.compile) cs es)
    (h : Works ev data params L Γ loops α [e] c [r] β) :
    Works ev data params L Γ loops α [e] (c ++ (compileFold op r cs β).1.1)
      [(compileFold op r cs β).1.2] (compileFold op r cs β).2 := by
  induction hcs generalizing c r β with
  | nil =>
    rw [compileFold]
    exact h
  | @cons d x cs es hd _ ih =>
    -- What is combined so far is a number, so `e` stands for it at every step.
    rw [List.forall_mem_cons] at hes
    have hpair := h.append (hd β)
    have hstep := hpair.write (i := op (d.compile β).2.registers r (d.compile β).1.2) (e := e)
      (hrun _ _ _) fun f hf => by
        obtain ⟨hr, hf⟩ := List.forall₂_cons.1 hf
        obtain ⟨m, hm⟩ := he.hasShape_iff.1 hr.2
        obtain ⟨n, hn⟩ := hes.1.hasShape_iff.1 (List.forall₂_cons.1 hf).1.2
        rw [hm, hn]
        exact (hop m n).imp fun v hv => he.hasShape_iff.2 hv
    rw [compileFold]
    exact ih hes.2 hstep

/-- The results of a list of computations. -/
lemma all {cs : List Code}
    (hcs : List.Forall₂ (fun d x => WorksFor ev data params L Γ loops x d.compile) cs es)
    (α : Allocation) : Works ev data params L Γ loops α es (compileAll cs α).1.1
      (compileAll cs α).1.2 (compileAll cs α).2 := by
  induction hcs generalizing α with
  | nil =>
    rw [compileAll]
    exact .none fun _ _ => .nil
  | @cons d x cs es hd _ ih =>
    rw [compileAll]
    exact (hd α).append (ih (d.compile α).2)

end Works

/-! ## Loops -/

/-- A number is a bound of a summation, unless it is a float. -/
lemma Instruction.safe_bound (hL : L) (n : Number) :
    Safe L (Instruction.bound (.number n)) fun _ => True := by
  cases n with
  | int k => exact .pure trivial
  | float k => exact fun _ t => .inr ⟨hL, k, t, rfl⟩

/-- One round after the other adds up numbers. -/
lemma Instruction.safe_sumRange (ev : Evaluator) {round : Frame → Build Frame} {n result : ℕ} {f₀ : Frame}
    (hround : ∀ f k, f₀.Keeps n f → Safe L (round (f.write n (.number k))) fun f' =>
      f₀.Keeps n f' ∧ ∃ m, f'.read result = .number m) (first : ℤ) (count : ℕ) (sum : Number)
    {f : Frame} (hf : f₀.Keeps n f) :
    Safe L (sumRange ev round n result first count (.number sum) f) fun p =>
      f₀.Keeps n p.2 ∧ ∃ m, p.1 = .number m := by
  induction count generalizing first sum f with
  | zero => exact .pure ⟨hf, sum, rfl⟩
  | succ count ih =>
    rw [sumRange]
    refine (hround f _ hf).bind fun f' hf' => ?_
    obtain ⟨hkeeps, m, hm⟩ := hf'
    rw [hm]
    refine (Value.safe_ofOperation .add sum m).bind fun v hv => ?_
    obtain ⟨total, rfl⟩ := hv
    exact ih (first + 1) total hkeeps

/-- A loop over a range. -/
lemma Works.range (hL : L) (he : e.IsNumerical) (hl : l.IsNumerical) (hu : u.IsNumerical)
    (hb : b.IsNumerical) {lower upper i k : ℕ}
    (h : Works ev data params L Γ loops α [l, u] c [lower, upper] β) (hk : k ∉ loops.ids)
    (hbody : Works ev data params L Γ ((i, k) :: loops) (β.withVariable k) [b] c' [r] γ) :
    Works ev data params L Γ loops α [e]
      (c ++ .one (.rangeLoop γ.registers β.registers lower upper c'.toList r)) [γ.registers]
      γ.push := by
  have hle : β.registers ≤ γ.registers := (Nat.le_succ _).trans hbody.grows.registers
  have hgrows : β.Grows Γ.ids loops.ids γ.push := ((Allocation.grows_withVariable hk _ β).trans
    (hbody.grows.anti subset_rfl fun j hj => List.mem_cons_of_mem _ hj)).trans (γ.grows_push _ _)
  refine h.emit hgrows ⟨hle, Nat.lt_succ_self _⟩ fun hproblems f hf hsize hheld => ?_
  -- Every round writes the same registers again; what the body reads from outside stands below them.
  have hround : ∀ f' n, f.Keeps β.registers f' →
      Safe L (Instruction.runAll ev data c'.toList (f'.write β.registers (.number n)))
        fun f'' => f.Keeps β.registers f'' ∧ ∃ m, f''.read r = .number m := by
    intro f' n hf'
    have hlt : β.registers < f'.size := by
      rw [hf'.size]
      exact hle.trans_lt hsize
    have hserves := (hf.mono (.refl _ _ β) hf').withVariable hk hlt i n
    refine (hbody.safe hproblems _ hserves ?_).imp fun f'' hf'' => ⟨?_, ?_⟩
    · rw [Frame.size_write, hf'.size]
      exact (Nat.le_succ _).trans hsize
    · exact hf'.trans ((Frame.keeps_write le_rfl _).trans (hf''.1.anti (Nat.le_succ _)))
    · exact hb.hasShape_iff.1 (List.forall₂_cons.1 hf''.2).1.2
  obtain ⟨hlower, hheld⟩ := List.forall₂_cons.1 hheld
  obtain ⟨m, hm⟩ := hl.hasShape_iff.1 hlower.2
  obtain ⟨n, hn⟩ := hu.hasShape_iff.1 (List.forall₂_cons.1 hheld).1.2
  rw [Instruction.run, hm, hn]
  refine (Instruction.safe_bound hL m).bind fun first _ => ?_
  refine (Instruction.safe_bound hL n).bind fun last _ => ?_
  refine (Instruction.safe_sumRange ev hround first _ .zero (.refl _ f)).bind fun p hp => .pure ⟨?_, ?_⟩
  · exact hp.1.trans (Frame.keeps_write hle _)
  · rw [Frame.read_write_self (by rw [hp.1.size]; exact hsize)]
    exact he.hasShape_iff.2 hp.2

end Works

/-! ## Computations -/

namespace Expr

/-- Somewhere in the expression there is a summation over a range. -/
def HasRange (e : Expr) : Prop :=
  ∃ a, Below a e ∧ ∃ index lower upper body, a.kind = .indexedSum index lower upper body

/-- The node is evaluated in a numerical expression of the store, and if there are summations in it
they may fail. -/
structure Ready (s : Store) (L : Prop) (e : Expr) : Prop where
  /-- The store knows the node. -/
  known : s.Knows e
  /-- It is evaluated in a numerical expression. -/
  operand : e.IsOperand
  /-- Summations may fail. -/
  range : e.HasRange → L

variable {s : Store} {L : Prop} {e c : Expr}

lemma HasRange.of_child (hc : c ∈ e.children) (h : c.HasRange) : e.HasRange := by
  obtain ⟨a, ha, hrange⟩ := h
  exact ⟨a, .step hc ha, hrange⟩

namespace Ready

lemma of_mem_operands (h : e.Ready s L) (hs : s.WellFormed) (hc : c ∈ e.operands) :
    c.Ready s L where
  known := hs.children h.known c (mem_children_of_mem_operands hc)
  operand := h.operand.of_mem_operands hc
  range hrange := h.range (hrange.of_child (mem_children_of_mem_operands hc))

/-- The body of a summation. -/
lemma of_body (h : e.Ready s L) (hs : s.WellFormed) {index lower upper : Expr}
    (hkind : e.kind = .indexedSum index lower upper c) (hc : c.IsNumerical) : c.Ready s L := by
  have hchild : c ∈ e.children := by simp [children, hkind, Kind.children]
  exact ⟨hs.children h.known c hchild, .numerical hc, fun hrange => h.range (hrange.of_child hchild)⟩

/-- A node that is no function and no tuple is numerical. -/
lemma numerical (h : e.Ready s L) (hfunction : ∀ f, e.kind ≠ .function f)
    (htuple : ∀ l, e.kind ≠ .tuple l) : e.IsNumerical := by
  rcases h.operand with h | hkind | ⟨hkind, -⟩
  exacts [h, absurd hkind (hfunction _), absurd hkind (htuple _)]

/-- A symbol is numerical. -/
lemma symbol (h : e.Ready s L) (hsymbol : e.isSymbol = true) : e.IsNumerical := by
  obtain ⟨name, hkind⟩ := exists_symbol hsymbol
  exact h.numerical (by simp [hkind]) (by simp [hkind])

/-- The items of a tuple are numerical. -/
lemma items (h : e.Ready s L) {items : List Expr} (hkind : e.kind = .tuple items) :
    ∀ x ∈ items, x.IsNumerical := by
  rcases h.operand with h | hkind' | ⟨hkind', hitems⟩
  · exact absurd hkind (h.kind_ne.2 items)
  · cases hkind'.symm.trans hkind
  · cases hkind'.symm.trans hkind
    exact hitems

lemma of_reads (h : e.Ready s L) (hs : s.WellFormed) {a : Expr} (ha : a.Reads e) : a.Ready s L := by
  induction ha with
  | refl => exact h
  | step hc _ ih => exact ih (h.of_mem_operands hs hc)

end Ready

end Expr

/-- The symbol is the parameter that it refers to. -/
lemma Expr.getElem?_of_referent? {s : Store} {params : List Expr}
    (hparams : ∀ p ∈ params, s.Knows p) {e : Expr} (he : s.Knows e) {loops : Loops} {k : ℕ}
    (h : e.referent? params loops = some (.param k)) : params[k]? = some e := by
  unfold referent? at h
  cases hindex : params.findIdx? (· == e) with
  | none => simp [hindex] at h
  | some j =>
    rw [hindex] at h
    cases h
    obtain ⟨hlt, hbeq, -⟩ := List.findIdx?_eq_some_iff_getElem.1 hindex
    rw [List.getElem?_eq_getElem hlt]
    exact congrArg some (Store.WellFormed.eq_of_ordinal (hparams _ (List.getElem_mem hlt)) he
      (beq_iff_ordinal.1 hbeq))

section Codes

variable {s : Store} (ev : Evaluator) {data : List Value} {params : List Expr} {L : Prop}

/-! The induction is on the statement list, along with the node that it was lowered from.  What it binds
is fresh, so that no register of a local in scope is given away; the kinds of nodes that no numerical
expression evaluates do not occur. -/

mutual

/-- The instructions of a computation are safe and leave a value that suits its node. -/
theorem Code.works_compile (hs : s.WellFormed) (hparams : ∀ p ∈ params, s.Knows p) :
    ∀ (c : Code) (Γ : Origins) (loops : Loops) (e : Expr), c.Resolves params data Γ loops e →
      e.Ready s L → Fresh Γ loops c.binders →
      WorksFor ev data.toArray params L Γ loops e c.compile
  | .param k, Γ, loops, e, h, he, _ => by
    rw [Code.Resolves] at h
    obtain ⟨-, hsymbol, hreferent⟩ := h
    have hnumerical := he.symbol hsymbol
    have hparam : params[k]? = some e := Expr.getElem?_of_referent? hparams he.known hreferent
    intro α
    rw [Code.compile]
    refine .none fun f hf => ?_
    obtain ⟨hk, m, hm⟩ := hf.params k e hparam (hnumerical.real_of_symbol hsymbol)
    exact .cons ⟨hk, hnumerical.hasShape_iff.2 ⟨m, hm⟩⟩ .nil
  | .hoisted id, Γ, loops, e, h, _, _ => by
    rw [Code.Resolves] at h
    obtain ⟨o, ho, rfl, -⟩ := h
    rw [Code.compile]
    exact .hoisted ho
  | .loopVariable k, Γ, loops, e, h, he, _ => by
    rw [Code.Resolves] at h
    obtain ⟨⟨p, hp, rfl⟩, hsymbol, -⟩ := h
    rw [Code.compile]
    exact .loopVariable (List.mem_map_of_mem hp) (he.symbol hsymbol)
  | .captured slot, Γ, loops, e, h, he, _ => by
    rw [Code.Resolves] at h
    obtain ⟨v, hv, hslot⟩ := h
    intro α
    rw [Code.compile]
    have hempty : Works ev data.toArray params L Γ loops α [] .none [] α := .none fun _ _ => .nil
    refine hempty.write (i := .loadData α.registers slot) (x := fun _ => pure v) (fun f => ?_)
      fun f _ => .pure (he.operand.hasShape_value? hv)
    rw [Instruction.run, List.getElem?_toArray, hslot, pure_bind]
  | .number n, Γ, loops, e, h, _, _ => by
    rw [Code.Resolves] at h
    rw [Code.compile]
    exact .literal n ((Expr.IsNumerical.literal h).hasShape_iff.2 ⟨n, rfl⟩)
  | .unbound name, Γ, loops, e, _, _, _ => by
    rw [Code.compile]
    exact .unbound name
  | .tuple items, Γ, loops, e, h, he, hfresh => by
    rw [Code.Resolves] at h
    obtain ⟨es, hkind, hall⟩ := h
    rw [Code.binders] at hfresh
    have hoperands : e.operands = es := by rw [Expr.operands, hkind]
    have hitems := Code.works_compileEach hs hparams items Γ loops es hall
      (fun x hx => he.of_mem_operands hs (by rwa [hoperands])) hfresh
    intro α
    rw [Code.compile]
    refine (Works.all hitems α).write (i := .tuple _ _)
      (x := fun f => pure (.tuple ((compileAll items α).1.2.map f.read)))
      (fun f => by rw [Instruction.run, pure_bind]) fun f hf => .pure ?_
    have hshape : List.Forall₂ Expr.HasShape es ((compileAll items α).1.2.map f.read) :=
      List.forall₂_map_right_iff.2 (hf.flip.imp fun _ _ hheld => hheld.2)
    obtain ⟨ns, hlength, hns⟩ := Expr.exists_numbers hshape (he.items hkind)
    exact (Expr.hasShape_tuple hkind).2 ⟨ns, hlength, congrArg _ hns⟩
  | .apply target argument, Γ, loops, e, h, he, hfresh => by
    rw [Code.Resolves] at h
    obtain ⟨t, a, hkind, ht, ha⟩ := h
    rw [Code.binders] at hfresh
    have hoperands : e.operands = [t, a] := by rw [Expr.operands, hkind]
    have htarget := Code.works_compile hs hparams target Γ loops t ht
      (he.of_mem_operands hs (by simp [hoperands])) hfresh.left
    have hargument := Code.works_compile hs hparams argument Γ loops a ha
      (he.of_mem_operands hs (by simp [hoperands])) hfresh.right
    have hnumerical := he.numerical (by simp [hkind]) (by simp [hkind])
    intro α
    rw [Code.compile]
    refine ((htarget α).append (hargument (target.compile α).2)).write (i := .apply _ _ _)
      (fun f => by rw [Instruction.run]) fun f hf => ?_
    obtain ⟨htarget, hf⟩ := List.forall₂_cons.1 hf
    exact hnumerical.safe_apply hs he.known hkind htarget.2 (List.forall₂_cons.1 hf).1.2 ev
  | .sum [], Γ, loops, e, h, he, _ => by
    rw [Code.Resolves] at h
    obtain ⟨es, hkind, -⟩ := h
    have hnumerical := he.numerical (by simp [hkind]) (by simp [hkind])
    rw [Code.compile]
    exact .literal .zero (hnumerical.hasShape_iff.2 ⟨_, rfl⟩)
  | .sum (c :: cs), Γ, loops, e, h, he, hfresh => by
    rw [Code.Resolves] at h
    obtain ⟨es, hkind, hall⟩ := h
    rw [Code.binders] at hfresh
    have hnumerical := he.numerical (by simp [hkind]) (by simp [hkind])
    have hterms := hnumerical.of_sum hkind
    have hoperands : e.operands = es := by rw [Expr.operands, hkind]
    have hready : ∀ x ∈ es, x.Ready s L := fun x hx => he.of_mem_operands hs (by rwa [hoperands])
    have heach := Code.works_compileEach hs hparams (c :: cs) Γ loops es hall hready hfresh
    cases heach with
    | @cons _ x _ xs hfirst hrest =>
      rw [List.forall_mem_cons] at hterms
      intro α
      rw [Code.compile]
      exact ((hfirst α).congr hterms.1 hnumerical).fold .add ev.add
        (fun dst a b f => by rw [Instruction.run]) (Value.safe_ofOperation .add) hnumerical
        hterms.2 hrest
  | .multiply factors, Γ, loops, e, h, he, _ => by
    rw [Code.Resolves] at h
    obtain ⟨es, hkind, -⟩ := h
    exact absurd hkind ((he.numerical (by simp [hkind]) (by simp [hkind])).kind_ne_matrix.1 es)
  | .inverse inner, Γ, loops, e, h, he, _ => by
    rw [Code.Resolves] at h
    obtain ⟨i, hkind, -⟩ := h
    exact absurd hkind ((he.numerical (by simp [hkind]) (by simp [hkind])).kind_ne_matrix.2.1 i)
  | .transpose inner, Γ, loops, e, h, he, _ => by
    rw [Code.Resolves] at h
    obtain ⟨i, hkind, -⟩ := h
    exact absurd hkind ((he.numerical (by simp [hkind]) (by simp [hkind])).kind_ne_matrix.2.2.1 i)
  | .generate rows cols row col element, Γ, loops, e, h, he, _ => by
    rw [Code.Resolves] at h
    obtain ⟨b, hkind, -⟩ := h
    exact absurd hkind
      ((he.numerical (by simp [hkind]) (by simp [hkind])).kind_ne_matrix.2.2.2.1 rows cols b)
  | .range counter lower upper body, Γ, loops, e, h, he, hfresh => by
    rw [Code.Resolves] at h
    obtain ⟨i, l, u, b, hkind, hl, hu, hb⟩ := h
    rw [Code.binders] at hfresh
    obtain ⟨hcounter, hfreshBody⟩ := hfresh.right.underLoop i.ordinal
    have hoperands : e.operands = [l, u] := by rw [Expr.operands, hkind]
    have hlower := Code.works_compile hs hparams lower Γ loops l hl
      (he.of_mem_operands hs (by simp [hoperands])) hfresh.left.left
    have hupper := Code.works_compile hs hparams upper Γ loops u hu
      (he.of_mem_operands hs (by simp [hoperands])) hfresh.left.right
    have hnumerical := he.numerical (by simp [hkind]) (by simp [hkind])
    obtain ⟨hle, hue, hbe⟩ := hnumerical.of_indexedSum hkind
    have hloop := Block.works_compile hs hparams body Γ _ b hb (he.of_body hs hkind hbe) hfreshBody
    intro α
    rw [Code.compile]
    exact .range (he.range ⟨e, .refl, i, l, u, b, hkind⟩) hnumerical hle hue hbe
      ((hlower α).append (hupper _)) hcounter (hloop _)
  | .each counter collection body, Γ, loops, e, h, he, _ => by
    rw [Code.Resolves] at h
    obtain ⟨i, c, b, hkind, -⟩ := h
    exact absurd hkind
      ((he.numerical (by simp [hkind]) (by simp [hkind])).kind_ne_matrix.2.2.2.2 i c b)

/-- The same holds of each computation of a list. -/
theorem Code.works_compileEach (hs : s.WellFormed) (hparams : ∀ p ∈ params, s.Knows p) :
    ∀ (cs : List Code) (Γ : Origins) (loops : Loops) (es : List Expr),
      Code.ResolvesAll params data Γ loops cs es → (∀ x ∈ es, x.Ready s L) →
      Fresh Γ loops (Code.bindersAll cs) →
      List.Forall₂ (fun c x => WorksFor ev data.toArray params L Γ loops x c.compile) cs es
  | [], _, _, [], _, _, _ => .nil
  | c :: cs, Γ, loops, x :: es, h, hes, hfresh => by
    rw [Code.ResolvesAll] at h
    rw [Code.bindersAll] at hfresh
    rw [List.forall_mem_cons] at hes
    exact .cons (Code.works_compile hs hparams c Γ loops x h.1 hes.1 hfresh.left)
      (Code.works_compileEach hs hparams cs Γ loops es h.2 hes.2 hfresh.right)

/-- The same holds of a block. -/
theorem Block.works_compile (hs : s.WellFormed) (hparams : ∀ p ∈ params, s.Knows p) :
    ∀ (block : Block) (Γ : Origins) (loops : Loops) (e : Expr),
      block.Resolves params data Γ loops e → e.Ready s L → Fresh Γ loops block.binders →
      WorksFor ev data.toArray params L Γ loops e block.compile
  | .result value, Γ, loops, e, h, he, hfresh => by
    rw [Block.Resolves] at h
    rw [Block.binders] at hfresh
    rw [Block.compile]
    exact Code.works_compile hs hparams value Γ loops e h he hfresh
  | .bind id code rest, Γ, loops, e, h, he, hfresh => by
    rw [Block.Resolves] at h
    obtain ⟨a, hreads, hcode, hrest⟩ := h
    rw [Block.binders] at hfresh
    obtain ⟨hid, hfreshRest⟩ := hfresh.right.underLocal ⟨a, loops⟩
    have hfirst := Code.works_compile hs hparams code Γ loops a hcode (he.of_reads hs hreads)
      hfresh.left
    have hthen := Block.works_compile hs hparams rest _ loops e hrest he hfreshRest
    intro α
    rw [Block.compile]
    exact (hfirst α).bindLocal hid (hthen _)

end

/-- Locals, and then what refers to them. -/
lemma works_compileLocals (hs : s.WellFormed) (hparams : ∀ p ∈ params, s.Knows p) {e : Expr}
    (he : e.Ready s L) {loops : Loops} {ρ : Type} {x : CompileM (Emission × ρ)} {g : ρ → List ℕ}
    {l : List Binder} {Γ Γ' : Origins} {locals : List (ℕ × Code)}
    (hlocals : ResolvesLocals params data [e] loops Γ locals Γ')
    (hfresh : Fresh Γ loops (bindersLocals locals ++ l))
    (hx : Fresh Γ' loops l → ∀ β, Works ev data.toArray params L Γ' loops β [e] (x β).1.1
      (g (x β).1.2) (x β).2) (α : Allocation) :
    let r := (do
      let code ← compileLocals locals
      let r ← x
      return (code ++ r.1, r.2) : CompileM (Emission × ρ)) α
    Works ev data.toArray params L Γ loops α [e] r.1.1 (g r.1.2) r.2 := by
  induction locals generalizing Γ α with
  | nil =>
    obtain rfl : Γ = Γ' := hlocals
    exact hx hfresh α
  | cons entry locals ih =>
    obtain ⟨id, code⟩ := entry
    obtain ⟨a, ⟨root, hroot, hreads⟩, hcode, hrest⟩ := hlocals
    obtain rfl := List.mem_singleton.1 hroot
    have hsplit : bindersLocals ((id, code) :: locals) ++ l =
        code.binders ++ .hoisted id :: (bindersLocals locals ++ l) := by
      simp [bindersLocals]
    rw [hsplit] at hfresh
    obtain ⟨hid, hfreshRest⟩ := hfresh.right.underLocal ⟨a, loops⟩
    have hfirst := Code.works_compile ev hs hparams code Γ loops a hcode
      (he.of_reads hs hreads) hfresh.left
    exact (hfirst α).bindLocal hid (ih hrest hfreshRest _)

end Codes

/-! ## Calls -/

/-- Arguments that pass the check are accepted by their parameters. -/
lemma CompiledFunction.accepts_of_checkTypes {k i : ℕ} {ps : List Parameter} {vs : List Value}
    (h : checkTypes k ps vs = .ok ()) {p : Parameter} {v : Value} (hp : ps[i]? = some p)
    (hv : vs[i]? = some v) : p.type.accepts v = true := by
  induction ps generalizing k i vs with
  | nil => cases hp
  | cons q ps ih =>
    cases vs with
    | nil => cases hv
    | cons w vs =>
      rw [checkTypes] at h
      split_ifs at h with haccepts
      cases i with
      | zero =>
        cases hp
        cases hv
        exact haccepts
      | succ i => exact ih h hp hv

/-- A real parameter accepts numbers only. -/
lemma Expr.IsReal.number_of_accepts {p : Expr} (h : p.IsReal) {v : Value}
    (hv : (p.domain.nativeType?.getD .any).accepts v = true) : ∃ n, v = .number n := by
  have htype : p.domain.nativeType?.getD .any = .int ∨ p.domain.nativeType?.getD .any = .real := by
    rcases h with h | h <;> simp [h, Domain.nativeType?, Domain.firstAnswer, Domain.lineage]
  rcases htype with htype | htype <;> rw [htype] at hv <;> cases v with
  | number n => exact ⟨n, rfl⟩
  | _ => cases hv

namespace SourceFunction

variable {s : Store} (ev : Evaluator) {data : List Value} {params : List Expr} {L : Prop}
  {e : Expr} {f : SourceFunction}

/-- The instructions of a function that was lowered from an expression are safe. -/
lemma works_compileBody (hs : s.WellFormed) (hparams : ∀ p ∈ params, s.Knows p) (he : e.Ready s L)
    (hf : f.Resolves data (e.toJob params)) (α : Allocation) :
    Works ev data.toArray params L .empty [] α [e] (f.compileBody α).1.1
      [(f.compileBody α).1.2.1] (f.compileBody α).2 := by
  obtain ⟨-, honce, Γ, hlocals, hvalue, houtputs, harrays⟩ := hf
  have hnone : f.outputs = [] := by
    simpa [Expr.toJob] using Code.resolvesAll_iff.1 houtputs
  have hnone' : f.arrays = [] := by
    simpa [Expr.toJob] using harrays
  have hbinders : f.binders = bindersLocals f.locals ++ f.value.binders := by
    simp [binders, hnone, hnone', Code.bindersAll]
  have hfresh : Fresh .empty [] (bindersLocals f.locals ++ f.value.binders) :=
    ⟨hbinders ▸ honce, by simp [Origins.ids, Origins.empty], by simp [Loops.ids]⟩
  refine works_compileLocals ev (x := f.compileResults) (g := fun r => [r.1]) hs hparams he hlocals
    hfresh (fun hfresh β => ?_) α
  have hfirst := Code.works_compile ev hs hparams f.value Γ [] e hvalue he hfresh
  have hrun : f.compileResults β = (((f.value.compile β).1.1 ++ (.none ++ .none),
      (f.value.compile β).1.2, [], []), (f.value.compile β).2) := by
    rw [compileResults, hnone, hnone']
    rfl
  rw [hrun]
  exact hfirst β

/-- Running the program of a function that was lowered from a numerical expression is safe. -/
lemma safe_run (hs : s.WellFormed) (hparams : ∀ p ∈ params, s.Knows p) (he : e.Ready s L)
    (hnumerical : e.IsNumerical) (hf : f.Resolves data (e.toJob params)) {p : Program}
    (hp : f.compile = .ok p) {args : List Value} (hlength : args.length = f.params.length)
    (htypes : CompiledFunction.checkTypes 0 f.params args = .ok ()) :
    Safe L (p.run ev data.toArray args) fun r => ∃ n, r.value = .number n := by
  obtain ⟨hproblems, rfl⟩ := compile_eq_ok hp
  have hbody := works_compileBody ev hs hparams he hf
    { registers := f.params.length }
  generalize f.compileBody { registers := f.params.length } = r at hproblems hbody
  have hregisters : f.params.length ≤ r.2.registers := hbody.grows.registers
  have hserves : Allocation.Serves params .empty [] { registers := f.params.length }
      (.initial args r.2.registers) := by
    refine ⟨fun k x hx hreal => ?_, by simp [Origins.empty], by simp [Loops.ids]⟩
    have hparam : f.params[k]? = some ⟨x.text, x.domain.nativeType?.getD .any⟩ := by
      simp [hf.params, Job.parameters, Expr.toJob, hx]
    have hk : k < f.params.length := (List.getElem?_eq_some_iff.1 hparam).1
    have hk' : k < args.length := hlength ▸ hk
    obtain ⟨n, hn⟩ := hreal.number_of_accepts (CompiledFunction.accepts_of_checkTypes htypes hparam
      (List.getElem?_eq_getElem hk'))
    exact ⟨hk, n, by rw [Frame.read_initial hk', hn]⟩
  have hsize := Frame.size_initial (hlength.trans_le hregisters)
  rw [run_assemble hlength]
  refine (hbody.safe hproblems _ hserves hsize.ge).bind fun f' h => .pure ?_
  exact hnumerical.hasShape_iff.1 (List.forall₂_cons.1 h.2).1.2

end SourceFunction

namespace Expr

variable {s : Store} {e : Expr} {params : List Expr}

/-- A compiled expression is the linked program of its statement list. -/
lemma exists_of_compile_eq_ok {f : CompiledFunction} (h : e.compile params = .ok f) :
    ∃ p, (e.toJob params).aloneUnit.1.compile = .ok p ∧
      f = Toolchain.link {} (Job.unit [e.toJob params]) (e.toJob params).aloneUnit.1 p := by
  have hunit : (Job.unit [e.toJob params]).functions = [(e.toJob params).aloneUnit.1] := rfl
  unfold Expr.compile at h
  change ((e.toJob params).validate >>= fun _ =>
    Toolchain.compile {} (Job.unit [e.toJob params]) >>= _) = _ at h
  cases hvalid : (e.toJob params).validate with
  | error err =>
    rw [hvalid] at h
    cases h
  | ok _ =>
    cases hcompiled : Toolchain.compile {} (Job.unit [e.toJob params]) with
    | error err =>
      rw [hvalid, hcompiled] at h
      cases h
    | ok functions =>
      rw [hvalid, hcompiled] at h
      have hlinked := Toolchain.forall₂_compile rfl hcompiled
      rw [hunit] at hlinked
      obtain ⟨g, rest, ⟨p, hp, rfl⟩, -, rfl⟩ := List.forall₂_cons_left_iff.1 hlinked
      exact ⟨p, hp, (Except.ok.inj h).symm⟩

/-- The parameters of a compiled expression. -/
lemma params_of_compile {f : CompiledFunction} (h : e.compile params = .ok f) :
    f.params = (e.toJob params).parameters := by
  obtain ⟨p, -, rfl⟩ := exists_of_compile_eq_ok h
  rfl

/-- **Compiled numerical expressions do not go wrong.**  Whatever the parameters over which a
numerical expression compiles, and whatever the arguments that pass the check against them, a call of
the compiled function gives a number, or else there is a summation in the expression and the call fails
since a bound of a summation is a float. -/
theorem IsNumerical.safe_call (h : e.IsNumerical) (hs : s.WellFormed) (he : s.Knows e)
    (hparams : ∀ p ∈ params, s.Knows p) {f : CompiledFunction} (hf : e.compile params = .ok f)
    {args : List Value} (hlength : args.length = f.params.length)
    (htypes : CompiledFunction.checkTypes 0 f.params args = .ok ()) (d : ℕ) (t : Store) :
    (∃ r u n, f.call args d t = .ok r u ∧ r.value = .number n) ∨
      e.HasRange ∧
        ∃ k u, f.call args d t = .error (.evaluation (.boundNotInteger (.number (.float k)))) u := by
  obtain ⟨p, hp, rfl⟩ := exists_of_compile_eq_ok hf
  have hroots : ∀ job ∈ [e.toJob params], ∀ r ∈ job.roots, s.Knows r := by
    simpa [toJob, Job.roots] using he
  have hresolves := (Job.resolved_unit hs hroots).1
  rw [show (Job.unit [e.toJob params]).functions = [(e.toJob params).aloneUnit.1] from rfl]
    at hresolves
  have hready : e.Ready s e.HasRange := ⟨he, .numerical h, id⟩
  have hsafe := SourceFunction.safe_run {} hs hparams hready h
    (List.forall₂_cons.1 hresolves).1 hp hlength htypes
  rw [CompiledFunction.call_eq hlength htypes]
  rcases hsafe d t with ⟨r, u, hrun, n, hn⟩ | hfails
  · exact .inl ⟨r, u, n, hrun, hn⟩
  · exact .inr hfails

/-- The sum of `x * k` for `k` from one to `n`.  A whole float passes as the argument `n`, too, but it
is no bound. -/
theorem safe_call_range :
    let x : Expr := .node 50 .reals (.symbol "x")
    let n : Expr := .node 51 .integers (.symbol "n")
    let k : Expr := .node 2 .integers (.symbol "_1")
    let one : Expr := .node 52 .integers (.number (.int 1))
    let b : Expr := .node 53 .reals (.apply x k)
    let e : Expr := .node 54 .reals (.indexedSum k one n b)
    let s₁ := (Store.initial.intern .reals (.symbol "x")).2
    let s₂ := (s₁.intern .integers (.symbol "n")).2
    let s₃ := (s₂.intern .integers (.number (.int 1))).2
    let s₄ := (s₃.intern .reals (.apply x k)).2
    let s := (s₄.intern .reals (.indexedSum k one n b)).2
    e.IsNumerical ∧ s.WellFormed ∧ s.Knows e ∧ (∀ p ∈ [x, n], s.Knows p) ∧
      ∃ f, e.compile [x, n] = .ok f ∧
        ∀ args ∈ [[Value.number (.int 2), .number (.int 3)],
            [.number (.int 2), .number (.float ⟨0x4008000000000000⟩)]],
          args.length = f.params.length ∧ CompiledFunction.checkTypes 0 f.params args = .ok () ∧
            ∀ d t, (∃ r u m, f.call args d t = .ok r u ∧ r.value = .number m) ∨ e.HasRange ∧
              ∃ m u, f.call args d t =
                .error (.evaluation (.boundNotInteger (.number (.float m)))) u := by
  intro x n k one b e s₁ s₂ s₃ s₄ s
  have hnumerical : e.IsNumerical := by
    refine .indexedSum rfl (.inr rfl) (.literal rfl) (.symbol rfl (.inl rfl)) ?_
    exact .product rfl (.symbol rfl (.inr rfl)) (.symbol rfl (.inl rfl))
  obtain ⟨hs, hx, hn, he⟩ := Store.wellFormed_range
  have hparams : ∀ p ∈ [x, n], s.Knows p := by simpa using ⟨hx, hn⟩
  refine ⟨hnumerical, hs, he, hparams, ?_⟩
  obtain ⟨f, hf, hfparams⟩ : ∃ f, e.compile [x, n] = .ok f ∧
      f.params = [⟨"x", .real⟩, ⟨"n", .int⟩] := by
    have hok : (e.compile [x, n]).isOk = true := by decide +kernel
    generalize hf : e.compile [x, n] = outcome at hok ⊢
    cases outcome with
    | error err => cases hok
    | ok f =>
      exact ⟨f, rfl, params_of_compile hf⟩
  refine ⟨f, hf, fun args hargs => ?_⟩
  have hchecked : args.length = f.params.length ∧
      CompiledFunction.checkTypes 0 f.params args = .ok () := by
    rw [hfparams]
    simp only [List.mem_cons, List.not_mem_nil, or_false] at hargs
    rcases hargs with rfl | rfl <;> exact ⟨rfl, rfl⟩
  exact ⟨hchecked.1, hchecked.2, hnumerical.safe_call hs he hparams hf hchecked.1 hchecked.2⟩

end Expr

end TermGraph
