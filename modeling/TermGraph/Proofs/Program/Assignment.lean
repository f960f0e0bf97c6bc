import TermGraph.Proofs.Program.Registers

/-!
# Registers are assigned once

A register beyond the arguments has one place that gives it a value: the instruction that writes it,
or the loop whose variable it is.  An instruction reads what was given a value before it, in its own
block or in a block around; what the body of a loop writes is out of scope after the loop.

* `Instruction.destinations`, `Instruction.loopVariables`: what instructions write and what loops vary, in
  the bodies of loops too.
* `Instruction.Assigned scope i`: all that the instruction reads is in scope.
* `Assigns`: the instructions of a piece of code define each new register once, and read what is
  in scope.
* `Code.assigns_compile`: those of a scoped computation do.
* `Program.SingleAssignment`: the same for a program, where arguments are in scope in the beginning.
-/

namespace TermGraph

/-! ## Registers of instructions -/

namespace Instruction

/-- The register of the result of an instruction. -/
def target : Instruction → ℕ
  | .loadData dst _ | .loadNumber dst _ | .tuple dst _ | .apply dst _ _ | .add dst _ _
  | .inverse dst _ | .transpose dst _ | .rangeLoop dst _ _ _ _ _ | .eachLoop dst _ _ _ _
  | .gridLoop dst _ _ _ _ _ _ => dst

mutual

/-- The registers that an instruction writes, in the bodies of loops too. -/
def destinations : Instruction → List ℕ
  | .loadData dst _ | .loadNumber dst _ | .tuple dst _ | .apply dst _ _ | .add dst _ _
  | .inverse dst _ | .transpose dst _ => [dst]
  | .rangeLoop dst _ _ _ body _ | .eachLoop dst _ _ body _ | .gridLoop dst _ _ _ _ body _ =>
    dst :: destinationsAll body

/-- The registers that some instructions write. -/
def destinationsAll : List Instruction → List ℕ
  | [] => []
  | i :: is => destinations i ++ destinationsAll is

end

mutual

/-- The variables of loops in an instruction. -/
def loopVariables : Instruction → List ℕ
  | .loadData .. | .loadNumber .. | .tuple .. | .apply .. | .add .. | .inverse .. | .transpose .. => []
  | .rangeLoop _ counter _ _ body _ => counter :: loopVariablesAll body
  | .eachLoop _ item _ body _ => item :: loopVariablesAll body
  | .gridLoop _ row col _ _ body _ => row :: col :: loopVariablesAll body

/-- The variables of loops in some instructions. -/
def loopVariablesAll : List Instruction → List ℕ
  | [] => []
  | i :: is => loopVariables i ++ loopVariablesAll is

end

mutual

/-- All registers that an instruction names, in the bodies of loops too. -/
def registers : Instruction → List ℕ
  | .loadData dst _ | .loadNumber dst _ => [dst]
  | .tuple dst items => dst :: items
  | .apply dst a b | .add dst a b => [dst, a, b]
  | .inverse dst src | .transpose dst src => [dst, src]
  | .rangeLoop dst counter lower upper body result =>
    dst :: counter :: lower :: upper :: result :: registersAll body
  | .eachLoop dst item collection body result =>
    dst :: item :: collection :: result :: registersAll body
  | .gridLoop dst row col _ _ body result => dst :: row :: col :: result :: registersAll body

/-- All registers that some instructions name. -/
def registersAll : List Instruction → List ℕ
  | [] => []
  | i :: is => registers i ++ registersAll is

end

/-- The registers that an instruction gives a value, written or varied. -/
def definitions (i : Instruction) : List ℕ :=
  i.destinations ++ i.loopVariables

/-- The registers that some instructions give a value. -/
def definitionsAll (is : List Instruction) : List ℕ :=
  destinationsAll is ++ loopVariablesAll is

mutual

/-- What the instruction reads is in scope.  In the body of a loop its variables are in scope, too,
and after the body its result is. -/
def Assigned (scope : Set ℕ) : Instruction → Prop
  | .loadData .. | .loadNumber .. => True
  | .tuple _ items => ∀ r ∈ items, r ∈ scope
  | .apply _ a b | .add _ a b => a ∈ scope ∧ b ∈ scope
  | .inverse _ src | .transpose _ src => src ∈ scope
  | .rangeLoop _ counter lower upper body result =>
    lower ∈ scope ∧ upper ∈ scope ∧ AssignedAll (insert counter scope) body [result]
  | .eachLoop _ item collection body result =>
    collection ∈ scope ∧ AssignedAll (insert item scope) body [result]
  | .gridLoop _ row col _ _ body result =>
    AssignedAll (insert col (insert row scope)) body [result]

/-- What some instructions read is in scope, and so are the registers `rs` after them.  The result of
an instruction is in scope of the instructions after it. -/
def AssignedAll (scope : Set ℕ) : List Instruction → (rs : List ℕ) → Prop
  | [], rs => ∀ r ∈ rs, r ∈ scope
  | i :: is, rs => Assigned scope i ∧ AssignedAll (insert i.target scope) is rs

end

variable {scope : Set ℕ} {i : Instruction} {is js body : List Instruction} {rs rs' : List ℕ}

lemma target_mem_definitions (i : Instruction) : i.target ∈ i.definitions := by
  cases i <;> simp [target, definitions, destinations]

lemma destinationsAll_append (is js : List Instruction) :
    destinationsAll (is ++ js) = destinationsAll is ++ destinationsAll js := by
  induction is with
  | nil => rfl
  | cons i is ih => rw [List.cons_append, destinationsAll, destinationsAll, ih, List.append_assoc]

lemma loopVariablesAll_append (is js : List Instruction) :
    loopVariablesAll (is ++ js) = loopVariablesAll is ++ loopVariablesAll js := by
  induction is with
  | nil => rfl
  | cons i is ih => rw [List.cons_append, loopVariablesAll, loopVariablesAll, ih, List.append_assoc]

lemma definitionsAll_append_perm (is js : List Instruction) :
    (definitionsAll (is ++ js)).Perm (definitionsAll is ++ definitionsAll js) := by
  rw [definitionsAll, destinationsAll_append, loopVariablesAll_append, List.perm_iff_count]
  intro r
  simp only [definitionsAll, List.count_append]
  omega

lemma definitionsAll_singleton (i : Instruction) : definitionsAll [i] = i.definitions := by
  simp [definitionsAll, definitions, destinationsAll, loopVariablesAll]

lemma definitionsAll_cons_perm (i : Instruction) (is : List Instruction) :
    (definitionsAll (i :: is)).Perm (i.definitions ++ definitionsAll is) := by
  rw [← definitionsAll_singleton]
  exact definitionsAll_append_perm [i] is

lemma definitions_rangeLoop_perm (dst counter lower upper result : ℕ) (body : List Instruction) :
    (rangeLoop dst counter lower upper body result).definitions.Perm
      (dst :: counter :: definitionsAll body) := by
  rw [definitions, destinations, loopVariables, definitionsAll, List.cons_append]
  exact List.perm_middle.cons dst

lemma definitions_eachLoop_perm (dst item collection result : ℕ) (body : List Instruction) :
    (eachLoop dst item collection body result).definitions.Perm
      (dst :: item :: definitionsAll body) := by
  rw [definitions, destinations, loopVariables, definitionsAll, List.cons_append]
  exact List.perm_middle.cons dst

lemma definitions_gridLoop_perm (dst row col rows cols result : ℕ) (body : List Instruction) :
    (gridLoop dst row col rows cols body result).definitions.Perm
      (dst :: row :: col :: definitionsAll body) := by
  rw [definitions, destinations, loopVariables, definitionsAll, List.cons_append]
  exact (List.perm_middle.trans (List.perm_middle.cons row)).cons dst

/-- What is in scope stays in scope. -/
lemma AssignedAll.append_of_mem (h : AssignedAll scope is rs') (hrs : ∀ r ∈ rs, r ∈ scope) :
    AssignedAll scope is (rs ++ rs') := by
  induction is generalizing scope with
  | nil =>
    rw [AssignedAll] at h ⊢
    exact List.forall_mem_append.2 ⟨hrs, h⟩
  | cons i is ih =>
    rw [AssignedAll] at h ⊢
    exact ⟨h.1, ih h.2 fun r hr => .inr (hrs r hr)⟩

/-- Instructions after others read what was in scope before, and what the others left. -/
lemma AssignedAll.andThen (h : AssignedAll scope is rs)
    (hjs : ∀ scope', scope ⊆ scope' → (∀ r ∈ rs, r ∈ scope') → AssignedAll scope' js rs') :
    AssignedAll scope (is ++ js) rs' := by
  -- Each instruction adds its result to the scope, so the others are asked in any greater scope.
  induction is generalizing scope with
  | nil =>
    rw [AssignedAll] at h
    exact hjs scope subset_rfl h
  | cons i is ih =>
    rw [AssignedAll] at h
    rw [List.cons_append, AssignedAll]
    exact ⟨h.1, ih h.2 fun scope' hsub => hjs scope' ((Set.subset_insert _ _).trans hsub)⟩

mutual

/-- A register that an instruction names is in scope, or the instruction gives it a value. -/
lemma Assigned.mem_registers : ∀ {i : Instruction} {scope : Set ℕ}, i.Assigned scope →
    ∀ r ∈ i.registers, r ∈ scope ∨ r ∈ i.definitions
  | .loadData dst _, _, _ => by simp [registers, definitions, destinations]
  | .loadNumber dst _, _, _ => by simp [registers, definitions, destinations]
  | .tuple dst items, scope, h => by
    rw [Assigned] at h
    simp only [registers, definitions, destinations]
    grind
  | .apply dst a b, scope, h => by
    rw [Assigned] at h
    simp only [registers, definitions, destinations]
    grind
  | .add dst a b, scope, h => by
    rw [Assigned] at h
    simp only [registers, definitions, destinations]
    grind
  | .inverse dst src, scope, h => by
    rw [Assigned] at h
    simp only [registers, definitions, destinations]
    grind
  | .transpose dst src, scope, h => by
    rw [Assigned] at h
    simp only [registers, definitions, destinations]
    grind
  | .rangeLoop dst counter lower upper body result, scope, h => by
    rw [Assigned] at h
    -- What the body names from the scope inside the loop is the loop variable or in scope outside.
    have hbody := AssignedAll.mem_registersAll h.2.2
    intro r hr
    rw [(definitions_rangeLoop_perm ..).mem_iff]
    rw [registers] at hr
    grind
  | .eachLoop dst item collection body result, scope, h => by
    rw [Assigned] at h
    have hbody := AssignedAll.mem_registersAll h.2
    intro r hr
    rw [(definitions_eachLoop_perm ..).mem_iff]
    rw [registers] at hr
    grind
  | .gridLoop dst row col rows cols body result, scope, h => by
    rw [Assigned] at h
    have hbody := AssignedAll.mem_registersAll h
    intro r hr
    rw [(definitions_gridLoop_perm ..).mem_iff]
    rw [registers] at hr
    grind

/-- The same holds of some instructions, and of what is in scope after them. -/
lemma AssignedAll.mem_registersAll : ∀ {is : List Instruction} {scope : Set ℕ} {rs : List ℕ},
    AssignedAll scope is rs → ∀ r ∈ rs ++ registersAll is, r ∈ scope ∨ r ∈ definitionsAll is
  | [], scope, rs, h => by
    rw [AssignedAll] at h
    intro r hr
    rw [registersAll, List.append_nil] at hr
    exact .inl (h r hr)
  | i :: is, scope, rs, h => by
    rw [AssignedAll] at h
    have hfirst := Assigned.mem_registers h.1
    have hrest := AssignedAll.mem_registersAll h.2
    have htarget := target_mem_definitions i
    intro r hr
    rw [registersAll] at hr
    rw [(definitionsAll_cons_perm i is).mem_iff]
    grind

end

end Instruction

/-! ## Instructions of a piece of code -/

/-- The list has each number from `m` on below `n` once, and no others. -/
structure Fills (m n : ℕ) (l : List ℕ) : Prop where
  /-- The numbers are counted up. -/
  le : m ≤ n
  /-- Each number occurs once. -/
  count : ∀ r, l.count r = if m ≤ r ∧ r < n then 1 else 0

namespace Fills

variable {m n k : ℕ} {l l' : List ℕ}

lemma nil (m : ℕ) : Fills m m [] :=
  ⟨le_rfl, fun r => by rw [List.count_nil, if_neg (by omega)]⟩

lemma singleton (m : ℕ) : Fills m (m + 1) [m] := by
  refine ⟨Nat.le_succ m, fun r => ?_⟩
  rw [List.count_singleton]
  grind

lemma append (h : Fills m n l) (h' : Fills n k l') : Fills m k (l ++ l') := by
  refine ⟨h.le.trans h'.le, fun r => ?_⟩
  have hle := h.le
  have hle' := h'.le
  rw [List.count_append, h.count, h'.count]
  split_ifs <;> omega

lemma perm (h : Fills m n l) (hperm : l'.Perm l) : Fills m n l' :=
  ⟨h.le, fun r => (hperm.count_eq r).trans (h.count r)⟩

/-- A loop takes a register for its result after its body. -/
lemma cons_last (h : Fills m n l) : Fills m (n + 1) (n :: l) :=
  (h.append (.singleton n)).perm (List.perm_append_singleton n l).symm

lemma nodup (h : Fills m n l) : l.Nodup := by
  rw [List.nodup_iff_count_le_one]
  intro r
  rw [h.count]
  split_ifs <;> omega

lemma mem_iff (h : Fills m n l) {r : ℕ} : r ∈ l ↔ m ≤ r ∧ r < n := by
  rw [← List.count_pos_iff, h.count]
  split_ifs with hr <;> simp [hr]

end Fills

/-- Parameters, locals and loop variables have registers in scope. -/
structure Allocation.Provides (n : ℕ) (L V : Set ℕ) (α : Allocation) (scope : Set ℕ) : Prop where
  /-- Parameters have the first registers. -/
  params : ∀ k < n, k ∈ scope
  /-- Locals have registers. -/
  locals : ∀ id ∈ L, ∃ r, α.locals[id]? = some r ∧ r ∈ scope
  /-- Loop variables have registers. -/
  counters : ∀ k ∈ V, ∃ r, α.counters[k]? = some r ∧ r ∈ scope

namespace Allocation.Provides

variable {n id k r : ℕ} {L V : Set ℕ} {α β : Allocation} {scope scope' : Set ℕ}

lemma mono (h : α.Provides n L V scope) (hgrows : α.Grows L V β) (hsub : scope ⊆ scope') :
    β.Provides n L V scope' where
  params k hk := hsub (h.params k hk)
  locals id hid := by
    obtain ⟨r, hr, hmem⟩ := h.locals id hid
    exact ⟨r, (hgrows.locals id hid).trans hr, hsub hmem⟩
  counters k hk := by
    obtain ⟨r, hr, hmem⟩ := h.counters k hk
    exact ⟨r, (hgrows.counters k hk).trans hr, hsub hmem⟩

/-- A new local in a register. -/
lemma withLocal (h : α.Provides n L V scope) (hr : r ∈ scope) :
    (α.withLocal id r).Provides n (insert id L) V scope where
  params := h.params
  locals j hj := by
    by_cases heq : j = id
    · exact ⟨r, by simp [Allocation.withLocal, heq], hr⟩
    · obtain ⟨r', hr', hmem⟩ := h.locals j (hj.resolve_left heq)
      refine ⟨r', ?_, hmem⟩
      simpa [Allocation.withLocal, Std.TreeMap.getElem?_insert, Ne.symm heq] using hr'
  counters := h.counters

/-- A new loop variable in its register. -/
lemma withVariable (h : α.Provides n L V scope) :
    (α.withVariable k).Provides n L (insert k V) (insert α.registers scope) where
  params j hj := .inr (h.params j hj)
  locals id hid := by
    obtain ⟨r, hr, hmem⟩ := h.locals id hid
    exact ⟨r, hr, .inr hmem⟩
  counters j hj := by
    by_cases heq : j = k
    · exact ⟨α.registers, by simp [Allocation.withVariable, heq], .inl rfl⟩
    · obtain ⟨r', hr', hmem⟩ := h.counters j (hj.resolve_left heq)
      refine ⟨r', ?_, .inr hmem⟩
      simpa [Allocation.withVariable, Std.TreeMap.getElem?_insert, Ne.symm heq] using hr'

end Allocation.Provides

open Instruction

/-- The instructions `c` of a piece of code, where `α` was allocated before and `β` is allocated after:
they give each new register a value in one place, and no other register; and they read what is in
scope, where the results end up as well. -/
structure Assigns (n : ℕ) (L V : Set ℕ) (α : Allocation) (c : Emission) (rs : List ℕ)
    (β : Allocation) : Prop where
  /-- Registers are added. -/
  grows : α.Grows L V β
  /-- The instructions are put in front of those that follow. -/
  lawful : c.Lawful
  /-- Each new register is given a value in one place. -/
  once : Fills α.registers β.registers (definitionsAll c.toList)
  /-- What is read is in scope. -/
  assigned : ∀ scope, α.Provides n L V scope → AssignedAll scope c.toList rs

/-- The instructions of one computation. -/
abbrev AssignsFor (n : ℕ) (L V : Set ℕ) (x : CompileM (Emission × ℕ)) : Prop :=
  ∀ α, Assigns n L V α (x α).1.1 [(x α).1.2] (x α).2

namespace Assigns

variable {n id k r : ℕ} {L V : Set ℕ} {α β γ : Allocation} {rs rs' : List ℕ} {c c' : Emission}
  {i : Instruction}

/-- No instructions. -/
lemma none (h : ∀ scope, α.Provides n L V scope → ∀ r ∈ rs, r ∈ scope) :
    Assigns n L V α .none rs α where
  grows := .refl L V α
  lawful := Emission.lawful_none
  once := .nil α.registers
  assigned scope hscope := by
    show AssignedAll scope [] rs
    rw [AssignedAll]
    exact h scope hscope

/-- One piece after another. -/
lemma append (h : Assigns n L V α c rs β) (h' : Assigns n L V β c' rs' γ) :
    Assigns n L V α (c ++ c') (rs ++ rs') γ where
  grows := h.grows.trans h'.grows
  lawful := h.lawful.append h'.lawful
  once := by
    rw [h.lawful.toList_append]
    exact (h.once.append h'.once).perm (definitionsAll_append_perm ..)
  assigned scope hscope := by
    rw [h.lawful.toList_append]
    refine (h.assigned scope hscope).andThen fun scope' hsub hrs => ?_
    exact (h'.assigned scope' (hscope.mono h.grows hsub)).append_of_mem hrs

/-- An instruction that puts the results of a piece of code to use.  Registers may be allocated in
between. -/
lemma emit (h : Assigns n L V α c rs β) (hgrows : β.Grows L V γ)
    (hi : Fills β.registers γ.registers i.definitions)
    (hassigned : ∀ scope, β.Provides n L V scope → (∀ r ∈ rs, r ∈ scope) → i.Assigned scope) :
    Assigns n L V α (c ++ .one i) [i.target] γ where
  grows := h.grows.trans hgrows
  lawful := h.lawful.append (Emission.lawful_one i)
  once := by
    rw [h.lawful.toList_append]
    refine (h.once.append (?_ : Fills _ _ (definitionsAll [i]))).perm (definitionsAll_append_perm ..)
    rwa [definitionsAll_singleton]
  assigned scope hscope := by
    rw [h.lawful.toList_append]
    refine (h.assigned scope hscope).andThen fun scope' hsub hrs => ?_
    show AssignedAll scope' [i] [i.target]
    rw [AssignedAll, AssignedAll]
    exact ⟨hassigned scope' (hscope.mono h.grows hsub) hrs, by simp⟩

/-- An instruction that writes one new register. -/
lemma write (h : Assigns n L V α c rs β) (hi : i.definitions = [β.registers])
    (htarget : i.target = β.registers)
    (hassigned : ∀ scope, (∀ r ∈ rs, r ∈ scope) → i.Assigned scope) :
    Assigns n L V α (c ++ .one i) [β.registers] β.push := by
  rw [← htarget]
  refine h.emit (β.grows_push L V) ?_ fun scope _ => hassigned scope
  rw [hi]
  exact .singleton β.registers

/-- A literal in a new register. -/
lemma literal (m : Number) : AssignsFor n L V (Allocation.literal m) := by
  intro α
  have hempty : Assigns n L V α .none [] α := .none (by simp)
  exact hempty.write (i := .loadNumber α.registers m) rfl rfl fun _ _ => by simp [Assigned]

/-- A literal after a problem was noted. -/
lemma literal_after (hgrows : α.Grows L V β) (hregisters : β.registers = α.registers) :
    Assigns n L V α (Allocation.literal .zero β).1.1 [(Allocation.literal .zero β).1.2]
      (Allocation.literal .zero β).2 := by
  have h := literal (n := n) (L := L) (V := V) .zero β
  refine ⟨hgrows.trans h.grows, h.lawful, hregisters ▸ h.once, fun scope hscope => ?_⟩
  exact h.assigned scope (hscope.mono hgrows subset_rfl)

lemma hoisted (hid : id ∈ L) : AssignsFor n L V (Allocation.hoisted id) := by
  intro α
  cases hr : α.locals[id]? with
  | some r =>
    rw [hoisted_of_some hr]
    refine .none fun scope hscope => ?_
    obtain ⟨r', hr', hmem⟩ := hscope.locals id hid
    obtain rfl : r = r' := Option.some.inj (hr.symm.trans hr')
    simpa using hmem
  | none =>
    rw [hoisted_of_none hr]
    exact .literal_after (α.grows_report L V _) rfl

lemma loopVariable (hk : k ∈ V) : AssignsFor n L V (Allocation.loopVariable k) := by
  intro α
  cases hr : α.counters[k]? with
  | some r =>
    rw [loopVariable_of_some hr]
    refine .none fun scope hscope => ?_
    obtain ⟨r', hr', hmem⟩ := hscope.counters k hk
    obtain rfl : r = r' := Option.some.inj (hr.symm.trans hr')
    simpa using hmem
  | none =>
    rw [loopVariable_of_none hr]
    exact .literal_after (α.grows_report L V _) rfl

lemma unbound (name : String) : AssignsFor n L V (Allocation.unbound name) := by
  intro α
  have hrun : Allocation.unbound name α = (if !α.problems.contains (.unboundSymbol name) then do
      Allocation.report (.unboundSymbol name)
      Allocation.literal .zero
    else Allocation.literal .zero : CompileM (Emission × ℕ)) α := rfl
  rw [hrun]
  split
  · exact .literal_after (α.grows_report L V _) rfl
  · exact .literal .zero α

/-- A local, and then what refers to it. -/
lemma bindLocal (h : Assigns n L V α c [r] β) (hid : id ∉ L)
    (h' : Assigns n (insert id L) V (β.withLocal id r) c' rs γ) :
    Assigns n L V α (c ++ c') rs γ where
  grows := h.grows.trans ((Allocation.grows_withLocal hid V β r).trans
    (h'.grows.anti (Set.subset_insert id L) subset_rfl))
  lawful := h.lawful.append h'.lawful
  once := by
    rw [h.lawful.toList_append]
    exact (h.once.append h'.once).perm (definitionsAll_append_perm ..)
  assigned scope hscope := by
    rw [h.lawful.toList_append]
    refine (h.assigned scope hscope).andThen fun scope' hsub hrs => ?_
    exact h'.assigned scope' ((hscope.mono h.grows hsub).withLocal (hrs r (by simp)))

/-- Results that are combined one after the other, beginning with one that is there already. -/
lemma fold {op : ℕ → ℕ → ℕ → Instruction} (hop : ∀ dst a b, (op dst a b).definitions = [dst] ∧
      (op dst a b).target = dst ∧ ∀ scope, a ∈ scope → b ∈ scope → (op dst a b).Assigned scope)
    {cs : List Code} (hcs : ∀ c ∈ cs, AssignsFor n L V c.compile)
    (h : Assigns n L V α c [r] β) :
    Assigns n L V α (c ++ (compileFold op r cs β).1.1) [(compileFold op r cs β).1.2]
      (compileFold op r cs β).2 := by
  -- What is combined so far is the piece of code `c` with the result `r`.
  induction cs generalizing c r β with
  | nil =>
    rw [compileFold]
    exact h
  | cons d cs ih =>
    rw [List.forall_mem_cons] at hcs
    obtain ⟨hdefinitions, htarget, hassigned⟩ :=
      hop (d.compile β).2.registers r (d.compile β).1.2
    have hstep := (h.append (hcs.1 β)).write hdefinitions htarget fun scope hrs =>
      hassigned scope (hrs r (by simp)) (hrs _ (by simp))
    rw [compileFold]
    exact ih hcs.2 hstep

/-- The results of a list of computations. -/
lemma all {cs : List Code} (hcs : ∀ c ∈ cs, AssignsFor n L V c.compile) (α : Allocation) :
    Assigns n L V α (compileAll cs α).1.1 (compileAll cs α).1.2 (compileAll cs α).2 := by
  induction cs generalizing α with
  | nil =>
    rw [compileAll]
    exact .none fun _ _ _ hr => absurd hr List.not_mem_nil
  | cons d cs ih =>
    rw [List.forall_mem_cons] at hcs
    rw [compileAll]
    exact (hcs.1 α).append (ih hcs.2 _)

/-- The results of the output arrays. -/
lemma arrays {css : List (List Code)} (hcss : ∀ cs ∈ css, ∀ c ∈ cs, AssignsFor n L V c.compile)
    (α : Allocation) : Assigns n L V α (compileArrays css α).1.1 (compileArrays css α).1.2.flatten
      (compileArrays css α).2 := by
  induction css generalizing α with
  | nil =>
    rw [compileArrays]
    exact .none fun _ _ _ hr => absurd hr List.not_mem_nil
  | cons cs css ih =>
    rw [List.forall_mem_cons] at hcss
    rw [compileArrays]
    exact (Assigns.all hcss.1 α).append (ih hcss.2 _)

/-! The body of a loop is compiled where the loop variable has the next register, and the register of
the result comes after those of the body. -/

/-- The allocation after the body of a loop. -/
lemma grows_loop (hk : k ∉ V) (hbody : Assigns n L (insert k V) (α.withVariable k) c rs β) :
    α.Grows L V β.push :=
  ((Allocation.grows_withVariable hk L α).trans
    (hbody.grows.anti subset_rfl (Set.subset_insert k V))).trans (β.grows_push L V)

/-- The variable, the body and the result of a loop take the next registers. -/
lemma fills_loop (hbody : Assigns n L (insert k V) (α.withVariable k) c rs β) :
    Fills α.registers β.push.registers
      (β.registers :: α.registers :: definitionsAll c.toList) :=
  ((Fills.singleton α.registers).append hbody.once).cons_last

/-- A loop over a range. -/
lemma range {lower upper : ℕ} (h : Assigns n L V α c [lower, upper] β) (hk : k ∉ V)
    (hbody : Assigns n L (insert k V) (β.withVariable k) c' [r] γ) :
    Assigns n L V α (c ++ .one (.rangeLoop γ.registers β.registers lower upper c'.toList r))
      [γ.registers] γ.push := by
  refine h.emit (i := .rangeLoop γ.registers β.registers lower upper c'.toList r)
    (hbody.grows_loop hk) (hbody.fills_loop.perm (definitions_rangeLoop_perm ..))
    fun scope hscope hrs => ?_
  rw [Assigned]
  exact ⟨hrs lower (by simp), hrs upper (by simp), hbody.assigned _ hscope.withVariable⟩

/-- A loop over a collection. -/
lemma each {collection : ℕ} (h : Assigns n L V α c [collection] β) (hk : k ∉ V)
    (hbody : Assigns n L (insert k V) (β.withVariable k) c' [r] γ) :
    Assigns n L V α (c ++ .one (.eachLoop γ.registers β.registers collection c'.toList r))
      [γ.registers] γ.push := by
  refine h.emit (i := .eachLoop γ.registers β.registers collection c'.toList r)
    (hbody.grows_loop hk) (hbody.fills_loop.perm (definitions_eachLoop_perm ..))
    fun scope hscope hrs => ?_
  rw [Assigned]
  exact ⟨hrs collection (by simp), hbody.assigned _ hscope.withVariable⟩

/-- A loop over rows and columns. -/
lemma grid (rows cols : ℕ) {k' : ℕ} (hk : k ∉ V) (hk' : k' ∉ insert k V)
    (hbody : Assigns n L (insert k' (insert k V)) ((α.withVariable k).withVariable k') c [r] β) :
    Assigns n L V α (.one (.gridLoop β.registers α.registers (α.registers + 1) rows cols c.toList r))
      [β.registers] β.push := by
  have hempty : Assigns n L V α .none [] α := .none (by simp)
  have hgrows : α.Grows L V β.push := (Allocation.grows_withVariable hk L α).trans
    ((hbody.grows_loop hk').anti subset_rfl (Set.subset_insert k V))
  have hfills : Fills α.registers β.push.registers (β.registers :: α.registers ::
      (α.registers + 1) :: definitionsAll c.toList) :=
    ((Fills.singleton α.registers).append
      ((Fills.singleton (α.registers + 1)).append hbody.once)).cons_last
  refine hempty.emit (i := .gridLoop β.registers α.registers (α.registers + 1) rows cols c.toList r)
    hgrows (hfills.perm (definitions_gridLoop_perm ..)) fun scope hscope _ => ?_
  rw [Assigned]
  exact hbody.assigned _ hscope.withVariable.withVariable

end Assigns

/-! ## Computations -/

section Codes

variable {n : ℕ}

mutual

/-- The instructions of a scoped computation define each new register once, and read what is in
scope. -/
theorem Code.assigns_compile : ∀ (c : Code) (L V : Set ℕ), c.Scoped n L V →
    AssignsFor n L V c.compile
  | .param k, L, V, h => by
    rw [Code.Scoped] at h
    intro α
    rw [Code.compile]
    exact .none fun scope hscope => List.forall_mem_singleton.2 (hscope.params k h)
  | .hoisted id, L, V, h => by
    rw [Code.Scoped] at h
    rw [Code.compile]
    exact .hoisted h
  | .loopVariable k, L, V, h => by
    rw [Code.Scoped] at h
    rw [Code.compile]
    exact .loopVariable h
  | .captured slot, L, V, _ => by
    intro α
    rw [Code.compile]
    have hempty : Assigns n L V α .none [] α := .none (by simp)
    exact hempty.write (i := .loadData α.registers slot) rfl rfl fun _ _ => by simp [Assigned]
  | .number m, L, V, _ => by
    rw [Code.compile]
    exact .literal m
  | .unbound name, L, V, _ => by
    rw [Code.compile]
    exact .unbound name
  | .tuple items, L, V, h => by
    rw [Code.Scoped] at h
    intro α
    rw [Code.compile]
    refine (Assigns.all (Code.assigns_compileEach items L V h) α).write (i := .tuple _ _) rfl rfl
      fun scope hrs => ?_
    rwa [Assigned]
  | .apply target argument, L, V, h => by
    rw [Code.Scoped] at h
    have htarget := Code.assigns_compile target L V h.1
    have hargument := Code.assigns_compile argument L V h.2
    intro α
    rw [Code.compile]
    refine ((htarget α).append (hargument (target.compile α).2)).write (i := .apply _ _ _) rfl rfl
      fun scope hrs => ?_
    rw [Assigned]
    exact ⟨hrs _ (by simp), hrs _ (by simp)⟩
  | .sum [], L, V, _ => by
    rw [Code.compile]
    exact .literal .zero
  | .sum (c :: cs), L, V, h => by
    rw [Code.Scoped, Code.ScopedAll] at h
    have hfirst := Code.assigns_compile c L V h.1
    have hrest := Code.assigns_compileEach cs L V h.2
    intro α
    rw [Code.compile]
    exact (hfirst α).fold
      (fun _ _ _ => ⟨rfl, rfl, fun _ ha hb => by rw [Assigned]; exact ⟨ha, hb⟩⟩) hrest
  | .multiply [], L, V, _ => by
    rw [Code.compile]
    exact .literal .zero
  | .multiply (c :: cs), L, V, h => by
    rw [Code.Scoped, Code.ScopedAll] at h
    have hfirst := Code.assigns_compile c L V h.1
    have hrest := Code.assigns_compileEach cs L V h.2
    intro α
    rw [Code.compile]
    exact (hfirst α).fold
      (fun _ _ _ => ⟨rfl, rfl, fun _ ha hb => by rw [Assigned]; exact ⟨ha, hb⟩⟩) hrest
  | .inverse inner, L, V, h => by
    rw [Code.Scoped] at h
    have hinner := Code.assigns_compile inner L V h
    intro α
    rw [Code.compile]
    refine (hinner α).write (i := .inverse _ _) rfl rfl fun scope hrs => ?_
    rw [Assigned]
    exact hrs _ (by simp)
  | .transpose inner, L, V, h => by
    rw [Code.Scoped] at h
    have hinner := Code.assigns_compile inner L V h
    intro α
    rw [Code.compile]
    refine (hinner α).write (i := .transpose _ _) rfl rfl fun scope hrs => ?_
    rw [Assigned]
    exact hrs _ (by simp)
  | .generate rows cols row col element, L, V, h => by
    rw [Code.Scoped] at h
    -- The loop gives both counters their values before the body reads them.
    have hbody := Block.assigns_compile element L _ h.2.2
    intro α
    rw [Code.compile]
    exact .grid rows cols h.1 h.2.1 (hbody ((α.withVariable row).withVariable col))
  | .range counter lower upper body, L, V, h => by
    rw [Code.Scoped] at h
    have hlower := Code.assigns_compile lower L V h.1.1
    have hupper := Code.assigns_compile upper L V h.1.2
    have hbody := Block.assigns_compile body L _ h.2.2
    intro α
    rw [Code.compile]
    exact ((hlower α).append (hupper _)).range h.2.1 (hbody _)
  | .each counter collection body, L, V, h => by
    rw [Code.Scoped] at h
    have hcollection := Code.assigns_compile collection L V h.1
    have hbody := Block.assigns_compile body L _ h.2.2
    intro α
    rw [Code.compile]
    exact (hcollection α).each h.2.1 (hbody _)

/-- The same holds of each computation of a list. -/
theorem Code.assigns_compileEach : ∀ (cs : List Code) (L V : Set ℕ), Code.ScopedAll n L V cs →
    ∀ c ∈ cs, AssignsFor n L V c.compile
  | [], _, _, _ => by simp
  | c :: cs, L, V, h => by
    rw [Code.ScopedAll] at h
    exact List.forall_mem_cons.2 ⟨Code.assigns_compile c L V h.1,
      Code.assigns_compileEach cs L V h.2⟩

/-- The same holds of a block. -/
theorem Block.assigns_compile : ∀ (block : Block) (L V : Set ℕ), block.Scoped n L V →
    AssignsFor n L V block.compile
  | .result value, L, V, h => by
    rw [Block.Scoped] at h
    rw [Block.compile]
    exact Code.assigns_compile value L V h
  | .bind id code rest, L, V, h => by
    rw [Block.Scoped] at h
    have hcode := Code.assigns_compile code L V h.1
    have hrest := Block.assigns_compile rest (insert id L) V h.2.2
    intro α
    rw [Block.compile]
    exact (hcode α).bindLocal h.2.1 (hrest _)

end

/-- Locals, and then what refers to them. -/
lemma assigns_compileLocals {ρ : Type} {g : ρ → List ℕ} {L L' V : Set ℕ} {locals : List (ℕ × Code)}
    (hlocals : ScopedLocals n V L locals L') {x : CompileM (Emission × ρ)}
    (hx : ∀ β, Assigns n L' V β (x β).1.1 (g (x β).1.2) (x β).2) (α : Allocation) :
    let r := (do
      let code ← compileLocals locals
      let r ← x
      return (code ++ r.1, r.2) : CompileM (Emission × ρ)) α
    Assigns n L V α r.1.1 (g r.1.2) r.2 := by
  induction locals generalizing L α with
  | nil =>
    obtain rfl : L = L' := hlocals
    exact hx α
  | cons entry locals ih =>
    obtain ⟨id, code⟩ := entry
    obtain ⟨hcode, hid, hrest⟩ := hlocals
    exact (Code.assigns_compile code L V hcode α).bindLocal hid (ih hrest _)

end Codes

/-! ## Functions -/

/-- The registers of all results of a program. -/
def Program.results (p : Program) : List ℕ :=
  p.value :: (p.outputs ++ p.arrays.flatten)

/-- All registers that a program names. -/
def Program.names (p : Program) : List ℕ :=
  p.results ++ registersAll p.instructions

/-- A program gives each register beyond its arguments a value in one place, and it reads what was
given a value before. -/
structure Program.SingleAssignment (p : Program) : Prop where
  /-- Each register is given a value in one place. -/
  once : Fills p.params p.registers (definitionsAll p.instructions)
  /-- What is read is in scope. -/
  assigned : AssignedAll {k | k < p.params} p.instructions p.results

namespace SourceFunction

variable {f : SourceFunction}

lemma assigns_compileBody (hf : f.Scoped) (α : Allocation) :
    Assigns f.params.length ∅ ∅ α (f.compileBody α).1.1
      ((f.compileBody α).1.2.1 :: ((f.compileBody α).1.2.2.1 ++ (f.compileBody α).1.2.2.2.flatten))
      (f.compileBody α).2 := by
  obtain ⟨L, hlocals, hvalue, houtputs, harrays⟩ := hf
  refine assigns_compileLocals hlocals (x := f.compileResults)
    (g := fun r => r.1 :: (r.2.1 ++ r.2.2.flatten)) (fun β => ?_) α
  have hfirst := Code.assigns_compile f.value L ∅ hvalue β
  have hsecond := Assigns.all (fun c hc => Code.assigns_compile c L ∅ (houtputs c hc))
    (f.value.compile β).2
  have hthird := Assigns.arrays (fun cs hcs c hc => Code.assigns_compile c L ∅ (harrays cs hcs c hc))
    (compileAll f.outputs (f.value.compile β).2).2
  exact hfirst.append (hsecond.append hthird)

/-- The program of a scoped function assigns each register once. -/
lemma Scoped.singleAssignment (hf : f.Scoped) {p : Program} (hp : f.compile = .ok p) :
    p.SingleAssignment := by
  obtain ⟨-, rfl⟩ := compile_eq_ok hp
  have hbody := assigns_compileBody hf { registers := f.params.length }
  exact ⟨hbody.once, hbody.assigned _ ⟨fun _ hk => hk, by simp, by simp⟩⟩

/-- A program has no more registers than are allowed. -/
lemma registers_le_of_compile {p : Program} (hp : f.compile = .ok p) : p.registers ≤ maxRegisters := by
  obtain ⟨-, rfl⟩ := compile_eq_ok hp
  -- A function that takes more is refused.
  by_contra hmany
  have hmany : maxRegisters < (f.compileBody { registers := f.params.length }).2.registers :=
    not_le.1 hmany
  have hrun : f.emit.run { registers := f.params.length } = _ := emit_eq f _
  unfold compile at hp
  rw [hrun, if_pos hmany] at hp
  cases hp

end SourceFunction

namespace Program.SingleAssignment

variable {p : Program}

/-- All registers that are named are there. -/
lemma lt_registers (h : p.SingleAssignment) : ∀ r ∈ p.names, r < p.registers := by
  intro r hr
  rcases h.assigned.mem_registersAll r hr with hlt | hmem
  · exact hlt.trans_le h.once.le
  · exact (h.once.mem_iff.1 hmem).2

/-- A register beyond the arguments is written by one instruction, or it is the variable of one
loop. -/
lemma count_eq_one (h : p.SingleAssignment) {r : ℕ} (hparams : p.params ≤ r)
    (hregisters : r < p.registers) :
    (destinationsAll p.instructions).count r + (loopVariablesAll p.instructions).count r = 1 := by
  rw [← List.count_append]
  exact (h.once.count r).trans (if_pos ⟨hparams, hregisters⟩)

/-- Arguments are never written. -/
lemma notMem_of_lt (h : p.SingleAssignment) {r : ℕ} (hr : r < p.params) :
    r ∉ destinationsAll p.instructions ∧ r ∉ loopVariablesAll p.instructions := by
  have hnot : r ∉ definitionsAll p.instructions := fun hmem => (h.once.mem_iff.1 hmem).1.not_gt hr
  exact ⟨fun hmem => hnot (List.mem_append_left _ hmem), fun hmem => hnot (List.mem_append_right _ hmem)⟩

end Program.SingleAssignment

end TermGraph
