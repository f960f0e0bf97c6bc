import TermGraph.Proofs.Program.Agreement
import TermGraph.Proofs.Program.Blocks

/-!
# Register code keeps the value

The instructions of a statement list leave its value in the register of its result.  Registers are
handed out in order and a computation writes to new ones only, so what was computed before stays
where it is.  The variable of a loop is written again in every round, and so are all registers of
its body; whatever the body reads from outside was computed before the loop and is still there.

* `Allocation.Holds`: the registers hold what a statement list refers to.
* `Emits`: the instructions of something, run from such registers, answer what it evaluates to.
* `Code.emits_compile`: the instructions of a computation answer its value.
* `SourceFunction.answers_compile`: a compiled function answers the values of its results.
-/

namespace TermGraph

/-! ## Frames -/

namespace Frame

variable {f f' f'' : Frame} {m n k r : ℕ} {v : Value}

/-- Two frames of one size have the same values in the registers below `n`. -/
structure Keeps (n : ℕ) (f f' : Frame) : Prop where
  /-- The frames have one size. -/
  size : f'.size = f.size
  /-- The values are the same. -/
  read : ∀ k < n, f'.read k = f.read k

namespace Keeps

lemma refl (n : ℕ) (f : Frame) : Keeps n f f := ⟨rfl, fun _ _ => rfl⟩

lemma trans (h : Keeps n f f') (h' : Keeps n f' f'') : Keeps n f f'' :=
  ⟨h'.size.trans h.size, fun k hk => (h'.read k hk).trans (h.read k hk)⟩

lemma anti (h : Keeps n f f') (hle : m ≤ n) : Keeps m f f' :=
  ⟨h.size, fun k hk => h.read k (hk.trans_le hle)⟩

end Keeps

@[simp] lemma size_write (f : Frame) (r : ℕ) (v : Value) : (f.write r v).size = f.size := by
  simp [write]

lemma read_write_self (h : r < f.size) (v : Value) : (f.write r v).read r = v := by
  simp [write, read, h]

lemma read_write_of_ne (h : r ≠ k) (v : Value) : (f.write r v).read k = f.read k := by
  simp [write, read, h]

lemma keeps_write (h : n ≤ r) (v : Value) : Keeps n f (f.write r v) :=
  ⟨size_write f r v, fun _ hk => read_write_of_ne (hk.trans_le h).ne' v⟩

/-- The registers before a program runs: the arguments, and zeros. -/
def initial (args : List Value) (n : ℕ) : Frame :=
  (args ++ List.replicate (n - args.length) (Value.number .zero)).toArray

lemma size_initial {args : List Value} (h : args.length ≤ n) : (initial args n).size = n := by
  simp only [initial, List.size_toArray, List.length_append, List.length_replicate]
  omega

lemma read_initial {args : List Value} (h : k < args.length) : (initial args n).read k = args[k] := by
  simp [initial, read, List.getElem?_append_left h, h]

end Frame

/-! ## Results in registers -/

/-- Registers, as the instructions of something name them, and the values that stand in them. -/
class Readable (ρ : Type) (υ : outParam Type) where
  /-- The registers below `n` that `r` names hold the value, up to the identities of matrices. -/
  Reads : (F : Function → Prop) → (n : ℕ) → Frame → (r : ρ) → υ → Prop
  /-- The value stays where it is as long as its registers are not written. -/
  keeps : ∀ {F : Function → Prop} {n n' : ℕ} {f f' : Frame} {r : ρ} {v : υ}, Reads F n f r v →
    n ≤ n' → Frame.Keeps n f f' → Reads F n' f' r v

export Readable (Reads)

section Readable

variable {ρ ρ' υ υ' : Type} [Readable ρ υ] [Readable ρ' υ']

instance : Readable ℕ Value where
  Reads F n f r v := r < n ∧ (f.read r).Alike F v
  keeps h hle hkeeps := ⟨h.1.trans_le hle, by rw [hkeeps.read _ h.1]; exact h.2⟩

instance : Readable Unit Unit where
  Reads _ _ _ _ _ := True
  keeps _ _ _ := trivial

instance : Readable (ρ × ρ') (υ × υ') where
  Reads F n f r v := Reads F n f r.1 v.1 ∧ Reads F n f r.2 v.2
  keeps h hle hkeeps := ⟨Readable.keeps h.1 hle hkeeps, Readable.keeps h.2 hle hkeeps⟩

instance : Readable (List ρ) (List υ) where
  Reads F n f r v := List.Forall₂ (Reads F n f) r v
  keeps h hle hkeeps := h.imp fun _ _ hv => Readable.keeps hv hle hkeeps

end Readable

/-! ## Emissions -/

namespace Emission

/-- The instructions are put in front of those that follow, whatever these are. -/
def Lawful (c : Emission) : Prop :=
  ∀ rest, c.onto rest = c.toList ++ rest

lemma lawful_none : Lawful none := fun _ => rfl

lemma lawful_one (i : Instruction) : Lawful (one i) := fun _ => rfl

lemma Lawful.toList_append {c : Emission} (hc : c.Lawful) (c' : Emission) :
    (c ++ c').toList = c.toList ++ c'.toList :=
  hc c'.toList

lemma Lawful.append {c c' : Emission} (hc : c.Lawful) (hc' : c'.Lawful) : (c ++ c').Lawful := by
  intro rest
  rw [hc.toList_append, onto_append, hc, hc', List.append_assoc]

end Emission

namespace Instruction

variable (ev : Evaluator) (data : Array Value)

lemma runAll_nil (f : Frame) : runAll ev data [] f = pure f := by
  rw [runAll]

lemma runAll_singleton (i : Instruction) (f : Frame) :
    runAll ev data [i] f = run ev data i f := by
  rw [runAll]
  simp only [runAll_nil, bind_pure]

lemma runAll_append (is js : List Instruction) (f : Frame) :
    runAll ev data (is ++ js) f = runAll ev data is f >>= runAll ev data js := by
  induction is generalizing f with
  | nil => rw [List.nil_append, runAll_nil, pure_bind]
  | cons i is ih =>
    rw [List.cons_append, runAll, runAll, bind_assoc]
    simp only [ih]

end Instruction

/-! ## Allocations -/

namespace Allocation

variable {L V : Set ℕ} {α β γ : Allocation}

/-- Registers are added, and those of the locals in `L` and the loop variables in `V` stay. -/
structure Grows (L V : Set ℕ) (α β : Allocation) : Prop where
  /-- Registers are counted up. -/
  registers : α.registers ≤ β.registers
  /-- Locals keep their registers. -/
  locals : ∀ id ∈ L, β.locals[id]? = α.locals[id]?
  /-- Loop variables keep their registers. -/
  counters : ∀ k ∈ V, β.counters[k]? = α.counters[k]?
  /-- Problems are not forgotten. -/
  problems : β.problems = [] → α.problems = []

namespace Grows

lemma refl (L V : Set ℕ) (α : Allocation) : Grows L V α α :=
  ⟨le_rfl, fun _ _ => rfl, fun _ _ => rfl, id⟩

lemma trans (h : Grows L V α β) (h' : Grows L V β γ) : Grows L V α γ :=
  ⟨h.registers.trans h'.registers, fun id hid => (h'.locals id hid).trans (h.locals id hid),
    fun k hk => (h'.counters k hk).trans (h.counters k hk), fun hγ => h.problems (h'.problems hγ)⟩

lemma anti {L' V' : Set ℕ} (h : Grows L V α β) (hL : L' ⊆ L) (hV : V' ⊆ V) : Grows L' V' α β :=
  ⟨h.registers, fun id hid => h.locals id (hL hid), fun k hk => h.counters k (hV hk), h.problems⟩

end Grows

/-- The allocation with one more register. -/
def push (α : Allocation) : Allocation :=
  { α with registers := α.registers + 1 }

lemma grows_push (L V : Set ℕ) (α : Allocation) : Grows L V α α.push :=
  ⟨Nat.le_succ _, fun _ _ => rfl, fun _ _ => rfl, id⟩

/-- The registers hold what a statement list refers to: `n` parameters, the constants `data`, the
locals in `L` and the loop variables in `V`. -/
structure Holds (F : Function → Prop) (data : Array Value) (n : ℕ) (L V : Set ℕ) (α : Allocation)
    (E : Surroundings) (f : Frame) : Prop where
  /-- Parameters have the first registers. -/
  params : ∀ k < n, ∃ v, E.params[k]? = some v ∧ Reads F α.registers f k v
  /-- The constants are those of the function. -/
  data : E.data = data.toList
  /-- The functions in the constants satisfy `F`. -/
  functions : ∀ v ∈ E.data, v.Within F
  /-- Locals have registers. -/
  locals : ∀ id ∈ L, ∃ r v, α.locals[id]? = some r ∧ E.locals id = some v ∧
    Reads F α.registers f r v
  /-- Loop variables have registers. -/
  counters : ∀ k ∈ V, ∃ r v, α.counters[k]? = some r ∧ E.counters k = some v ∧
    Reads F α.registers f r v

variable {F : Function → Prop} {data : Array Value} {n : ℕ} {E : Surroundings} {f f' : Frame}

/-- What was computed before stays where it is. -/
lemma Holds.mono (h : Holds F data n L V α E f) (hgrows : Grows L V α β)
    (hkeeps : f.Keeps α.registers f') : Holds F data n L V β E f' where
  params k hk := by
    obtain ⟨v, hv, hreads⟩ := h.params k hk
    exact ⟨v, hv, Readable.keeps hreads hgrows.registers hkeeps⟩
  data := h.data
  functions := h.functions
  locals id hid := by
    obtain ⟨r, v, hr, hv, hreads⟩ := h.locals id hid
    exact ⟨r, v, (hgrows.locals id hid).trans hr, hv,
      Readable.keeps hreads hgrows.registers hkeeps⟩
  counters k hk := by
    obtain ⟨r, v, hr, hv, hreads⟩ := h.counters k hk
    exact ⟨r, v, (hgrows.counters k hk).trans hr, hv,
      Readable.keeps hreads hgrows.registers hkeeps⟩

/-- The allocation with a register for a local. -/
def withLocal (α : Allocation) (id r : ℕ) : Allocation :=
  { α with locals := α.locals.insert id r }

/-- The allocation with a new register for a loop variable. -/
def withVariable (α : Allocation) (k : ℕ) : Allocation :=
  { α with registers := α.registers + 1, counters := α.counters.insert k α.registers }

lemma grows_withLocal {id : ℕ} (hid : id ∉ L) (V : Set ℕ) (α : Allocation) (r : ℕ) :
    Grows L V α (α.withLocal id r) := by
  refine ⟨le_rfl, fun j hj => ?_, fun _ _ => rfl, fun h => h⟩
  have hne : id ≠ j := fun heq => hid (heq ▸ hj)
  simp [withLocal, Std.TreeMap.getElem?_insert, hne]

lemma grows_withVariable {k : ℕ} (hk : k ∉ V) (L : Set ℕ) (α : Allocation) :
    Grows L V α (α.withVariable k) := by
  refine ⟨Nat.le_succ _, fun _ _ => rfl, fun j hj => ?_, id⟩
  have hne : k ≠ j := fun heq => hk (heq ▸ hj)
  simp [withVariable, Std.TreeMap.getElem?_insert, hne]

/-- A new local in a register. -/
lemma Holds.withLocal (h : Holds F data n L V α E f) {id : ℕ} (hid : id ∉ L) {r : ℕ} {v : Value}
    (hr : Reads F α.registers f r v) :
    Holds F data n (insert id L) V (α.withLocal id r) (E.bindLocal id v) f where
  params := h.params
  data := h.data
  functions := h.functions
  locals j hj := by
    rcases hj with rfl | hj
    · exact ⟨r, v, by simp [Allocation.withLocal], E.bindLocal_locals_self _ v, hr⟩
    · obtain ⟨r', w, hr', hw, hreads⟩ := h.locals j hj
      have hne : j ≠ id := fun heq => hid (heq ▸ hj)
      exact ⟨r', w, ((grows_withLocal hid V α r).locals j hj).trans hr',
        (E.bindLocal_locals_of_ne _ v hne).trans hw, hreads⟩
  counters := h.counters

/-- A loop variable in its register. -/
lemma Holds.withVariable (h : Holds F data n L V α E f) {k : ℕ} (hk : k ∉ V) {u v : Value}
    (huv : u.Alike F v) (hsize : α.registers < f.size) :
    Holds F data n L (insert k V) (α.withVariable k) (E.bindVariable k v)
      (f.write α.registers u) := by
  have hkept := h.mono (grows_withVariable hk L α) (Frame.keeps_write le_rfl u)
  refine ⟨hkept.params, h.data, h.functions, hkept.locals, fun j hj => ?_⟩
  rcases hj with rfl | hj
  · refine ⟨α.registers, v, by simp [Allocation.withVariable], E.bindVariable_counters_self _ v,
      Nat.lt_succ_self _, ?_⟩
    rwa [Frame.read_write_self hsize]
  · obtain ⟨r, w, hr, hw, hreads⟩ := hkept.counters j hj
    have hne : j ≠ k := fun heq => hk (heq ▸ hj)
    exact ⟨r, w, hr, (E.bindVariable_counters_of_ne _ v hne).trans hw, hreads⟩

end Allocation

/-! ## Instructions of a piece of code -/

section Emits

variable {ρ ρ' υ υ' : Type} [Readable ρ υ] [Readable ρ' υ']

/-- The instructions of a piece of code, where `α` was allocated before and `r` holds the
instructions, the registers of the result and what is allocated after.  Run from registers that hold
what the piece refers to, they answer what `o` says, and they write new registers only. -/
structure Emits (ev : Evaluator) (d : ℕ) (s : Store) (F : Function → Prop)
    (data : Array Value) (n : ℕ) (L V : Set ℕ) (α : Allocation) (o : Surroundings → Option υ)
    (r : (Emission × ρ) × Allocation) : Prop where
  /-- Registers are added. -/
  grows : α.Grows L V r.2
  /-- The instructions are put in front of those that follow. -/
  lawful : r.1.1.Lawful
  /-- The instructions answer. -/
  runs : r.2.problems = [] → ∀ E f, α.Holds F data n L V E f → r.2.registers ≤ f.size →
    Answers d s (Instruction.runAll ev data r.1.1.toList f) (o E) fun f' v =>
      f.Keeps α.registers f' ∧ Reads F r.2.registers f' r.1.2 v

variable {ev : Evaluator} {d : ℕ} {s : Store} {F : Function → Prop} {data : Array Value}
  {n : ℕ} {L V : Set ℕ} {α : Allocation} {o : Surroundings → Option υ} {o' : Surroundings → Option υ'}

namespace Emits

/-- No instructions. -/
lemma none {x : ρ} (h : ∀ E f, α.Holds F data n L V E f →
    ∃ v, o E = some v ∧ Reads F α.registers f x v) :
    Emits ev d s F data n L V α o ((.none, x), α) where
  grows := .refl L V α
  lawful := Emission.lawful_none
  runs _ E f hf _ := by
    obtain ⟨v, hv, hreads⟩ := h E f hf
    rw [hv]
    show Answers d s (Instruction.runAll ev data [] f) _ _
    rw [Instruction.runAll_nil]
    exact .pure ⟨.refl _ f, hreads⟩

/-- One piece after another. -/
lemma andThen {r : (Emission × ρ) × Allocation} {q : (Emission × ρ') × Allocation}
    (h : Emits ev d s F data n L V α o r) (h' : Emits ev d s F data n L V r.2 o' q) :
    Emits ev d s F data n L V α (fun E => do return (← o E, ← o' E))
      ((r.1.1 ++ q.1.1, (r.1.2, q.1.2)), q.2) where
  grows := h.grows.trans h'.grows
  lawful := h.lawful.append h'.lawful
  runs hproblems E f hf hsize := by
    show Answers d s (Instruction.runAll ev data (r.1.1 ++ q.1.1).toList f) _ _
    rw [h.lawful.toList_append, Instruction.runAll_append]
    refine (h.runs (h'.grows.problems hproblems) E f hf
      (h'.grows.registers.trans hsize)).bind fun f₁ v h₁ => ?_
    have hrest := h'.runs hproblems E f₁ (hf.mono h.grows h₁.1) (by rw [h₁.1.size]; exact hsize)
    rw [← bind_pure (Instruction.runAll ev data q.1.1.toList f₁)]
    refine hrest.bind fun f₂ w h₂ => .pure ⟨?_, ?_, h₂.2⟩
    · exact h₁.1.trans (h₂.1.anti h.grows.registers)
    · exact Readable.keeps h₁.2 h'.grows.registers h₂.1

/-- An instruction that puts the result of a piece of code to use.  Registers may be allocated in
between. -/
lemma emit {r : (Emission × ρ) × Allocation} (h : Emits ev d s F data n L V α o r)
    {β : Allocation} (hgrows : r.2.Grows L V β) {i : Instruction} {dst : ℕ}
    (hdst : r.2.registers ≤ dst ∧ dst < β.registers) {g : Surroundings → υ → Option Value}
    (hi : β.problems = [] → ∀ E f v, r.2.Holds F data n L V E f → β.registers ≤ f.size →
      Reads F r.2.registers f r.1.2 v →
        Answers d s (i.run ev data f) (g E v) fun f' w =>
          f.Keeps r.2.registers f' ∧ (f'.read dst).Alike F w) :
    Emits ev d s F data n L V α (fun E => o E >>= g E) ((r.1.1 ++ .one i, dst), β) where
  grows := h.grows.trans hgrows
  lawful := h.lawful.append (Emission.lawful_one i)
  runs hproblems E f hf hsize := by
    show Answers d s (Instruction.runAll ev data (r.1.1 ++ .one i).toList f) _ _
    rw [h.lawful.toList_append, Instruction.runAll_append]
    refine (h.runs (hgrows.problems hproblems) E f hf
      (hgrows.registers.trans hsize)).bind fun f₁ v h₁ => ?_
    show Answers d s (Instruction.runAll ev data [i] f₁) _ _
    rw [Instruction.runAll_singleton]
    refine (hi hproblems E f₁ v (hf.mono h.grows h₁.1) (by rw [h₁.1.size]; exact hsize)
      h₁.2).imp fun f₂ w h₂ => ⟨?_, hdst.2, h₂.2⟩
    exact h₁.1.trans (h₂.1.anti h.grows.registers)

/-- An instruction that writes one new register. -/
lemma write {r : (Emission × ρ) × Allocation} (h : Emits ev d s F data n L V α o r)
    {i : Instruction} {g : υ → Option Value}
    (hi : ∀ f v, Reads F r.2.registers f r.1.2 v →
      Answers d s (i.run ev data f) (g v) fun f' w =>
        ∃ u, f' = f.write r.2.registers u ∧ u.Alike F w) :
    Emits ev d s F data n L V α (fun E => o E >>= g)
      ((r.1.1 ++ .one i, r.2.registers), r.2.push) := by
  refine h.emit (Allocation.grows_push L V r.2) ⟨le_rfl, Nat.lt_succ_self _⟩
    (g := fun _ v => g v) fun _ E f v _ hsize hreads => ?_
  refine (hi f v hreads).imp fun f' w hw => ?_
  obtain ⟨u, rfl, hu⟩ := hw
  exact ⟨Frame.keeps_write le_rfl u, by rwa [Frame.read_write_self hsize]⟩

end Emits

end Emits

/-! ## Loops -/

section Loops

open Instruction

variable {ev : Evaluator} {d : ℕ} {s : Store} {F : Function → Prop} {data : Array Value}
  {n : ℕ} {L V : Set ℕ} {α : Allocation} {round : Frame → Build Frame} {c c' result : ℕ}
  {f₀ f : Frame}

/-- One round after the other adds up what the rounds answer. -/
lemma answers_sumItems {body : Value → Option Value}
    (hround : ∀ f u v, f₀.Keeps c f → u.Alike F v → Answers d s (round (f.write c u)) (body v)
      fun f' w => f₀.Keeps c f' ∧ (f'.read result).Alike F w)
    {values values' : List Value} (hvalues : List.Forall₂ (Value.Alike F) values values')
    {sum sum' : Value} (hsum : sum.Alike F sum') (hf : f₀.Keeps c f) :
    Answers d s (sumItems ev round c result values sum f)
      (values'.foldlM
        (fun sum v => do (Arithmetic.observed ev d s).add sum (← body v)) sum')
      fun p w => f₀.Keeps c p.2 ∧ p.1.Alike F w := by
  induction hvalues generalizing sum sum' f with
  | nil => exact .pure ⟨hf, hsum⟩
  | @cons v v' _ _ hv _ ih =>
    rw [sumItems, List.foldlM_cons, bind_assoc]
    refine (hround f v v' hf hv).bind fun f' w hw => ?_
    exact (Arithmetic.answers_add hsum hw.2).bind fun sum sum' hsum => ih hsum hw.1

/-- A range is the list of its integers. -/
lemma sumRange_eq_sumItems (ev : Evaluator) (round : Frame → Build Frame) (c result : ℕ)
    (first : ℤ) (count : ℕ) (sum : Value) (f : Frame) :
    sumRange ev round c result first count sum f = sumItems ev round c result
      ((List.range count).map fun k : ℕ => .number (.int (Int64.ofInt (first + k)))) sum f := by
  induction count generalizing first sum f with
  | zero => rfl
  | succ count ih =>
    have hshift : ((fun k : ℕ => Value.number (.int (Int64.ofInt (first + k)))) ∘ Nat.succ) =
        fun k : ℕ => .number (.int (Int64.ofInt (first + 1 + k))) := by
      funext k
      simp only [Function.comp, Nat.succ_eq_add_one, Nat.cast_add, Nat.cast_one, add_assoc,
        add_comm (1 : ℤ)]
    rw [List.range_succ_eq_map, List.map_cons, List.map_map, hshift, sumRange, sumItems]
    simp only [ih, Nat.cast_zero, add_zero]

/-- One round after the other gathers the entries that the rounds answer. -/
lemma answers_gatherEntries (element : Value → Value → Option Value)
    (hround : ∀ f i j, f₀.Keeps c f → Answers d s
      (round ((f.write c (Arithmetic.position i)).write c' (Arithmetic.position j)))
      (element (Arithmetic.position i) (Arithmetic.position j))
      fun f' w => f₀.Keeps c f' ∧ (f'.read result).Alike F w)
    (positions : List (ℕ × ℕ)) (entries : List Float) (hf : f₀.Keeps c f) :
    Answers d s (gatherEntries round c c' result positions entries f)
      (positions.mapM fun p => do
        (Arithmetic.observed ev d s).entry
          (← element (Arithmetic.position p.1) (Arithmetic.position p.2)))
      fun p es => f₀.Keeps c p.2 ∧ p.1 = es.reverse ++ entries := by
  induction positions generalizing entries f with
  | nil => exact .pure ⟨hf, rfl⟩
  | cons p positions ih =>
    obtain ⟨i, j⟩ := p
    rw [gatherEntries, List.mapM_cons, bind_assoc]
    refine (hround f i j hf).bind fun f' w hw => ?_
    rcases hw.2.cases with ⟨hsame, -, -⟩ | ⟨i', j', m, hm, rfl⟩ | ⟨l, l', hl, rfl, -⟩
    · rw [hsame]
      cases w with
      | number k =>
        dsimp only
        rw [← bind_pure (gatherEntries round c c' result positions (k.toFloat :: entries) f')]
        refine (ih (k.toFloat :: entries) hw.1).bind fun q es hq => .pure ⟨hq.1, ?_⟩
        rw [hq.2, List.reverse_cons, List.append_assoc, List.singleton_append]
      | _ => exact .throw _
    · rw [hm]
      exact .throw _
    · rw [hl]
      exact .throw _

lemma bound_eq (ev : Evaluator) (v : Value) :
    Instruction.bound v = (Arithmetic.concrete ev).bound v := by
  cases v with
  | number n => cases n <;> rfl
  | _ => rfl

section Bodies

variable {k k' : ℕ} {body : Surroundings → Option Value} {q : (Emission × ℕ) × Allocation}

/-- The allocation after the body of a loop. -/
lemma grows_body (hk : k ∉ V) (hbody : Emits ev d s F data n L (insert k V) (α.withVariable k)
    body q) : α.Grows L V q.2.push :=
  ((Allocation.grows_withVariable hk L α).trans
    (hbody.grows.anti subset_rfl (Set.subset_insert k V))).trans (Allocation.grows_push L V q.2)

/-- One round of a loop: the body finds the loop variable and all that was computed before. -/
lemma answers_round (hk : k ∉ V) (hbody : Emits ev d s F data n L (insert k V)
    (α.withVariable k) body q) (hproblems : q.2.problems = []) {E : Surroundings}
    (hf₀ : α.Holds F data n L V E f₀) (hsize : q.2.registers ≤ f₀.size)
    (hf : f₀.Keeps α.registers f) {u v : Value} (huv : u.Alike F v) :
    Answers d s (runAll ev data q.1.1.toList (f.write α.registers u))
      (body (E.bindVariable k v)) fun f' w =>
        f₀.Keeps α.registers f' ∧ (f'.read q.1.2).Alike F w := by
  have hlt : α.registers < f.size := by
    rw [hf.size]
    exact (Nat.lt_succ_self _).trans_le (hbody.grows.registers.trans hsize)
  have hholds := (hf₀.mono (.refl L V α) hf).withVariable hk huv hlt
  refine (hbody.runs hproblems _ _ hholds (by rwa [Frame.size_write, hf.size])).imp
    fun f' w hw => ⟨?_, hw.2.2⟩
  exact hf.trans ((Frame.keeps_write le_rfl u).trans (hw.1.anti (Nat.le_succ _)))

/-- A loop over a range. -/
lemma Emits.range {o : Surroundings → Option (Value × Value)} {r : (Emission × ℕ × ℕ) × Allocation}
    (h : Emits ev d s F data n L V α o r) (hk : k ∉ V)
    (hbody : Emits ev d s F data n L (insert k V) (r.2.withVariable k) body q) :
    Emits ev d s F data n L V α
      (fun E => o E >>= fun p => (Arithmetic.observed ev d s).range p.1 p.2 fun v =>
        body (E.bindVariable k v))
      ((r.1.1 ++ .one (.rangeLoop q.2.registers r.2.registers r.1.2.1 r.1.2.2 q.1.1.toList q.1.2),
        q.2.registers), q.2.push) := by
  have hle : r.2.registers ≤ q.2.registers := (Nat.le_succ _).trans hbody.grows.registers
  refine h.emit (grows_body hk hbody) ⟨hle, Nat.lt_succ_self _⟩
    (g := fun E p => (Arithmetic.observed ev d s).range p.1 p.2 fun v =>
      body (E.bindVariable k v)) fun hproblems E f p hf hsize hreads => ?_
  rw [run, bound_eq ev, bound_eq ev]
  refine (Arithmetic.answers_bound hreads.1.2).bind fun first _ hfirst => ?_
  refine (Arithmetic.answers_bound hreads.2.2).bind fun last _ hlast => ?_
  rw [← hfirst, ← hlast]
  dsimp only
  rw [sumRange_eq_sumItems, ← bind_pure (Arithmetic.sumOver ..)]
  refine (answers_sumItems (fun f' u v hf' huv => answers_round hk hbody hproblems hf
    ((Nat.le_succ _).trans hsize) hf' huv) (Arithmetic.alike_rangeValues first last)
    (Value.alike_number _) (.refl _ f)).bind fun p w hp => .pure ⟨?_, ?_⟩
  · exact hp.1.trans (Frame.keeps_write hle _)
  · rw [Frame.read_write_self (by rw [hp.1.size]; exact hsize)]
    exact hp.2

/-- A loop over a collection. -/
lemma Emits.each {o : Surroundings → Option Value} {r : (Emission × ℕ) × Allocation}
    (h : Emits ev d s F data n L V α o r) (hk : k ∉ V)
    (hbody : Emits ev d s F data n L (insert k V) (r.2.withVariable k) body q) :
    Emits ev d s F data n L V α
      (fun E => o E >>= fun items => (Arithmetic.observed ev d s).each items fun v =>
        body (E.bindVariable k v))
      ((r.1.1 ++ .one (.eachLoop q.2.registers r.2.registers r.1.2 q.1.1.toList q.1.2),
        q.2.registers), q.2.push) := by
  have hle : r.2.registers ≤ q.2.registers := (Nat.le_succ _).trans hbody.grows.registers
  refine h.emit (grows_body hk hbody) ⟨hle, Nat.lt_succ_self _⟩
    (g := fun E items => (Arithmetic.observed ev d s).each items fun v =>
      body (E.bindVariable k v)) fun hproblems E f items hf hsize hreads => ?_
  rw [run]
  rcases hreads.2.cases with ⟨hsame, -, -⟩ | ⟨i, j, m, hm, rfl⟩ | ⟨l, l', hl, rfl, -⟩
  · rw [hsame]
    cases items with
    | array identity type items =>
      have hwithin : ∀ v ∈ items, v.Within F := fun v hv g hg =>
        hreads.2.within_right g (.item hv hg)
      show Answers d s _ ((Arithmetic.observed ev d s).sumOver items _) _
      dsimp only
      rw [← bind_pure (Arithmetic.sumOver ..)]
      refine (answers_sumItems (fun f' u v hf' huv => answers_round hk hbody hproblems hf
        ((Nat.le_succ _).trans hsize) hf' huv) (List.forall₂_same.2 fun v hv => .refl (hwithin v hv))
        (Value.alike_number _) (.refl _ f)).bind fun p w hp => .pure ⟨?_, ?_⟩
      · exact hp.1.trans (Frame.keeps_write hle _)
      · rw [Frame.read_write_self (by rw [hp.1.size]; exact hsize)]
        exact hp.2
    | _ => exact .throw _
  · rw [hm]
    exact .throw _
  · rw [hl]
    exact .throw _

/-- A loop over rows and columns. -/
lemma Emits.grid (rows cols : ℕ) (hk : k ∉ V) (hk' : k' ∉ insert k V)
    (hbody : Emits ev d s F data n L (insert k' (insert k V))
      ((α.withVariable k).withVariable k') body q) :
    Emits ev d s F data n L V α
      (fun E => (Arithmetic.observed ev d s).grid rows cols fun i j =>
        body ((E.bindVariable k i).bindVariable k' j))
      ((.one (.gridLoop q.2.registers α.registers (α.registers + 1) rows cols q.1.1.toList q.1.2),
        q.2.registers), q.2.push) := by
  have hle : α.registers + 2 ≤ q.2.registers := hbody.grows.registers
  have hgrows := (Allocation.grows_withVariable hk L α).trans
    ((grows_body hk' hbody).anti subset_rfl (Set.subset_insert k V))
  have hempty : Emits ev d s F data n L V α (fun _ => some ()) ((.none, ()), α) :=
    .none fun _ _ _ => ⟨(), rfl, trivial⟩
  refine hempty.emit hgrows ⟨(Nat.le_add_right _ 2).trans hle, Nat.lt_succ_self _⟩
    (g := fun E _ => (Arithmetic.observed ev d s).grid rows cols fun i j =>
      body ((E.bindVariable k i).bindVariable k' j)) fun hproblems E f p hf hsize hreads => ?_
  have hround (f' : Frame) (i j : ℕ) (hf' : f.Keeps α.registers f') :
      Answers d s (runAll ev data q.1.1.toList
        ((f'.write α.registers (Arithmetic.position i)).write (α.registers + 1)
          (Arithmetic.position j)))
        (body ((E.bindVariable k (Arithmetic.position i)).bindVariable k' (Arithmetic.position j)))
        fun f'' w => f.Keeps α.registers f'' ∧ (f''.read q.1.2).Alike F w := by
    have hlt : α.registers < f'.size := by
      rw [hf'.size]
      exact (Nat.lt_of_lt_of_le (by omega) hle).trans_le ((Nat.le_succ _).trans hsize)
    have hrow := (hf.mono (.refl L V α) hf').withVariable hk
      (Value.alike_number (F := F) (.int (Int64.ofNat i))) hlt
    refine (answers_round hk' hbody hproblems hrow ?_ (.refl _ _) (Value.alike_number _)).imp
      fun f'' w hw => ⟨?_, hw.2⟩
    · rw [Frame.size_write, hf'.size]
      exact (Nat.le_succ _).trans hsize
    · exact hf'.trans ((Frame.keeps_write le_rfl _).trans (hw.1.anti (Nat.le_succ _)))
  rw [run]
  refine (answers_gatherEntries (fun i j => body ((E.bindVariable k i).bindVariable k' j)) hround
    (Expr.positions rows cols) [] (.refl _ f)).bind fun p es hp => ?_
  obtain ⟨entries, f'⟩ := p
  obtain ⟨hkeeps, hentries⟩ := hp
  dsimp only at hkeeps hentries ⊢
  rw [hentries, List.append_nil, List.reverse_reverse, ← bind_pure (Arithmetic.matrix _ _)]
  refine (Arithmetic.answers_matrix (F := F) _).bind fun u w hu => .pure ⟨?_, ?_⟩
  · exact hkeeps.trans (Frame.keeps_write ((Nat.le_add_right _ 2).trans hle) _)
  · rw [Frame.read_write_self (by rw [hkeeps.size]; exact hsize)]
    exact hu

end Bodies

end Loops

/-! ## Computations -/

section Codes

variable {ev : Evaluator} {d : ℕ} {s : Store} {F : Function → Prop} {data : Array Value}
  {n : ℕ} {L V : Set ℕ}

/-- A piece of code that says the same in other words. -/
lemma Emits.congr {ρ υ : Type} [Readable ρ υ] {α : Allocation} {o o' : Surroundings → Option υ}
    {r : (Emission × ρ) × Allocation} (h : Emits ev d s F data n L V α o r)
    (ho : ∀ E, o E = o' E) : Emits ev d s F data n L V α o' r := by
  rw [show o' = o from funext fun E => (ho E).symm]
  exact h

/-- Results that are read in another way. -/
lemma Emits.map {ρ ρ' υ υ' : Type} [Readable ρ υ] [Readable ρ' υ'] {α : Allocation}
    {o : Surroundings → Option υ} {r : (Emission × ρ) × Allocation}
    (h : Emits ev d s F data n L V α o r) (g : ρ → ρ') (g' : υ → υ')
    (hg : ∀ m f x v, Reads F m f x v → Reads F m f (g x) (g' v)) :
    Emits ev d s F data n L V α (fun E => (o E).map g') ((r.1.1, g r.1.2), r.2) where
  grows := h.grows
  lawful := h.lawful
  runs hproblems E f hf hsize := by
    rw [← bind_pure (Instruction.runAll _ _ _ f), Option.map_eq_bind]
    exact (h.runs hproblems E f hf hsize).bind fun f' v hv => .pure ⟨hv.1, hg _ _ _ _ hv.2⟩

/-- A literal in a new register. -/
lemma Emits.literal (α : Allocation) (k : Number) : Emits ev d s F data n L V α
    (fun _ => some (.number k)) (Allocation.literal k α) := by
  have hempty : Emits ev d s F data n L V α (fun _ => some ()) ((.none, ()), α) :=
    .none fun _ _ _ => ⟨(), rfl, trivial⟩
  refine (hempty.write (i := .loadNumber α.registers k) (g := fun _ => some (.number k))
    fun f v _ => ?_).congr fun _ => rfl
  rw [Instruction.run]
  exact .pure ⟨_, rfl, Value.alike_number k⟩

/-- Results that are combined one after the other, beginning with one that is there already. -/
lemma Emits.fold (op : ℕ → ℕ → ℕ → Instruction) (op' : Value → Value → Build Value)
    (op'' : Value → Value → Option Value)
    (hrun : ∀ dst a b f, (op dst a b).run ev data f =
      (op' (f.read a) (f.read b) >>= fun v => pure (f.write dst v)))
    (hop : ∀ v v' w w', v.Alike F v' → w.Alike F w' → Answers d s (op' v w) (op'' v' w')
      (Value.Alike F)) {cs : List Code}
    (hcs : ∀ c ∈ cs, ∀ α, Emits ev d s F data n L V α
      (fun E => c.evaluate (Arithmetic.observed ev d s) E) (c.compile α))
    {α : Allocation} {o : Surroundings → Option Value} {r : (Emission × ℕ) × Allocation}
    (h : Emits ev d s F data n L V α o r) :
    Emits ev d s F data n L V α
      (fun E => o E >>= fun v => Code.evaluateOnto (Arithmetic.observed ev d s) op'' E v cs)
      ((r.1.1 ++ (compileFold op r.1.2 cs r.2).1.1, (compileFold op r.1.2 cs r.2).1.2),
        (compileFold op r.1.2 cs r.2).2) := by
  induction cs generalizing o r with
  | nil =>
    rw [compileFold]
    refine h.congr fun E => ?_
    simp only [Code.evaluateOnto]
    cases o E <;> rfl
  | cons c cs ih =>
    have hpair := h.andThen (hcs c (by simp) r.2)
    have hstep := hpair.write (i := op (c.compile r.2).2.registers r.1.2 (c.compile r.2).1.2)
      (g := fun p => op'' p.1 p.2) fun f p hp => by
        rw [hrun, ← bind_pure (op'' p.1 p.2)]
        exact (hop _ _ _ _ hp.1.2 hp.2.2).bind fun u w huw => .pure ⟨u, rfl, huw⟩
    have hrest := ih (fun c' hc' => hcs c' (by simp [hc'])) hstep
    rw [compileFold]
    refine hrest.congr fun E => ?_
    simp only [Code.evaluateOnto]
    cases o E with
    | none => rfl
    | some v => cases c.evaluate (Arithmetic.observed ev d s) E <;> rfl

/-- The results of a list of computations. -/
lemma emits_compileAll {cs : List Code}
    (hcs : ∀ c ∈ cs, ∀ α, Emits ev d s F data n L V α
      (fun E => c.evaluate (Arithmetic.observed ev d s) E) (c.compile α)) (α : Allocation) :
    Emits ev d s F data n L V α
      (fun E => Code.evaluateAll (Arithmetic.observed ev d s) E cs) (compileAll cs α) := by
  induction cs generalizing α with
  | nil =>
    rw [compileAll]
    exact .none fun E f _ => ⟨[], by rw [Code.evaluateAll], .nil⟩
  | cons c cs ih =>
    have hpair := (hcs c (by simp) α).andThen
      (ih (fun c' hc' => hcs c' (by simp [hc'])) (c.compile α).2)
    rw [compileAll]
    refine (hpair.map (fun p => p.1 :: p.2) (fun p => p.1 :: p.2)
      fun _ _ _ _ h => List.Forall₂.cons h.1 h.2).congr fun E => ?_
    rw [Code.evaluateAll]
    cases c.evaluate (Arithmetic.observed ev d s) E with
    | none => rfl
    | some v => cases Code.evaluateAll (Arithmetic.observed ev d s) E cs <;> rfl

/-- A function with a problem is not run. -/
lemma Emits.of_problems {α β : Allocation} {o : Surroundings → Option Value}
    (hgrows : α.Grows L V β) (hβ : β.problems ≠ []) :
    Emits ev d s F data n L V α o (Allocation.literal .zero β) where
  grows := hgrows.trans (Allocation.grows_push L V β)
  lawful := Emission.lawful_one _
  runs hproblems := absurd hproblems hβ

lemma Allocation.grows_report (L V : Set ℕ) (α : Allocation) (p : Problem) :
    α.Grows L V { α with problems := p :: α.problems } :=
  ⟨le_rfl, fun _ _ => rfl, fun _ _ => rfl, fun h => absurd h (by simp)⟩

lemma hoisted_of_some {id r : ℕ} {α : Allocation} (h : α.locals[id]? = some r) :
    Allocation.hoisted id α = ((.none, r), α) := by
  simp only [Allocation.hoisted, get, getThe, MonadStateOf.get, StateT.get, bind, StateT.bind, pure, h]
  rfl

lemma hoisted_of_none {id : ℕ} {α : Allocation} (h : α.locals[id]? = none) :
    Allocation.hoisted id α =
      (Allocation.report (.unboundLocal id) >>= fun _ => Allocation.literal .zero) α := by
  simp only [Allocation.hoisted, get, getThe, MonadStateOf.get, StateT.get, bind, StateT.bind, pure, h]

lemma loopVariable_of_some {id r : ℕ} {α : Allocation} (h : α.counters[id]? = some r) :
    Allocation.loopVariable id α = ((.none, r), α) := by
  simp only [Allocation.loopVariable, get, getThe, MonadStateOf.get, StateT.get, bind, StateT.bind,
    pure, h]
  rfl

lemma loopVariable_of_none {id : ℕ} {α : Allocation} (h : α.counters[id]? = none) :
    Allocation.loopVariable id α =
      (Allocation.report (.unboundLoopVariable id) >>= fun _ => Allocation.literal .zero) α := by
  simp only [Allocation.loopVariable, get, getThe, MonadStateOf.get, StateT.get, bind, StateT.bind,
    pure, h]

lemma emits_hoisted {id : ℕ} (hid : id ∈ L) (α : Allocation) :
    Emits ev d s F data n L V α (fun E => E.locals id) (Allocation.hoisted id α) := by
  cases hr : α.locals[id]? with
  | some r =>
    rw [hoisted_of_some hr]
    refine .none fun E f hf => ?_
    obtain ⟨r', v, hr', hv, hreads⟩ := hf.locals id hid
    obtain rfl : r = r' := Option.some.inj (hr.symm.trans hr')
    exact ⟨v, hv, hreads⟩
  | none =>
    rw [hoisted_of_none hr]
    exact .of_problems (α.grows_report L V _) (by simp)

lemma emits_loopVariable {k : ℕ} (hk : k ∈ V) (α : Allocation) :
    Emits ev d s F data n L V α (fun E => E.counters k) (Allocation.loopVariable k α) := by
  cases hr : α.counters[k]? with
  | some r =>
    rw [loopVariable_of_some hr]
    refine .none fun E f hf => ?_
    obtain ⟨r', v, hr', hv, hreads⟩ := hf.counters k hk
    obtain rfl : r = r' := Option.some.inj (hr.symm.trans hr')
    exact ⟨v, hv, hreads⟩
  | none =>
    rw [loopVariable_of_none hr]
    exact .of_problems (α.grows_report L V _) (by simp)

/-- A symbol without a meaning leaves a problem. -/
lemma exists_unbound_eq (L V : Set ℕ) (name : String) (α : Allocation) :
    ∃ β, Allocation.unbound name α = Allocation.literal .zero β ∧ α.Grows L V β ∧
      β.problems ≠ [] := by
  have hrun : Allocation.unbound name α = (if !α.problems.contains (.unboundSymbol name) then do
      Allocation.report (.unboundSymbol name)
      Allocation.literal .zero
    else Allocation.literal .zero : CompileM (Emission × ℕ)) α := rfl
  rw [hrun]
  cases hcontains : α.problems.contains (.unboundSymbol name) with
  | true =>
    refine ⟨α, rfl, .refl L V α, fun hempty => ?_⟩
    rw [hempty] at hcontains
    cases hcontains
  | false => exact ⟨_, rfl, α.grows_report L V _, by simp⟩

lemma emits_unbound (name : String) (α : Allocation) {o : Surroundings → Option Value} :
    Emits ev d s F data n L V α o (Allocation.unbound name α) := by
  obtain ⟨β, hrun, hgrows, hproblems⟩ := exists_unbound_eq L V name α
  rw [hrun]
  exact .of_problems hgrows hproblems

lemma emits_captured (slot : ℕ) (α : Allocation) :
    Emits ev d s F data n L V α (fun E => E.data[slot]?)
      ((.one (.loadData α.registers slot), α.registers), α.push) := by
  have hempty : Emits ev d s F data n L V α (fun _ => some ()) ((.none, ()), α) :=
    .none fun _ _ _ => ⟨(), rfl, trivial⟩
  refine (hempty.emit (α.grows_push L V) ⟨le_rfl, Nat.lt_succ_self _⟩
    (i := .loadData α.registers slot) (g := fun E _ => E.data[slot]?)
    fun _ E f v hf hsize _ => ?_).congr fun _ => rfl
  rw [Instruction.run, hf.data, Array.getElem?_toList]
  cases hv : data[slot]? with
  | none => exact .throw _
  | some v =>
    refine .pure ⟨Frame.keeps_write le_rfl v, ?_⟩
    rw [Frame.read_write_self hsize]
    refine .refl (hf.functions v ?_)
    rw [hf.data]
    exact Array.mem_toList_iff.2 (Array.mem_of_getElem? hv)

/-- A local, and then what refers to it. -/
lemma Emits.bindLocal {ρ υ : Type} [Readable ρ υ] {α : Allocation}
    {o : Surroundings → Option Value} {o' : Surroundings → Option υ} {id : ℕ} (hid : id ∉ L)
    {r : (Emission × ℕ) × Allocation} {q : (Emission × ρ) × Allocation}
    (h : Emits ev d s F data n L V α o r)
    (h' : Emits ev d s F data n (insert id L) V (r.2.withLocal id r.1.2) o' q) :
    Emits ev d s F data n L V α (fun E => o E >>= fun v => o' (E.bindLocal id v))
      ((r.1.1 ++ q.1.1, q.1.2), q.2) := by
  have hgrows : r.2.Grows L V q.2 := (Allocation.grows_withLocal hid V r.2 r.1.2).trans
    (h'.grows.anti (Set.subset_insert id L) subset_rfl)
  refine ⟨h.grows.trans hgrows, h.lawful.append h'.lawful, fun hproblems E f hf hsize => ?_⟩
  show Answers d s (Instruction.runAll ev data (r.1.1 ++ q.1.1).toList f) _ _
  rw [h.lawful.toList_append, Instruction.runAll_append]
  refine (h.runs (hgrows.problems hproblems) E f hf
    (hgrows.registers.trans hsize)).bind fun f₁ v h₁ => ?_
  refine (h'.runs hproblems _ f₁ ((hf.mono h.grows h₁.1).withLocal hid h₁.2)
    (by rw [h₁.1.size]; exact hsize)).imp fun f₂ w h₂ => ⟨?_, h₂.2⟩
  exact h₁.1.trans (h₂.1.anti h.grows.registers)

mutual

/-- The instructions of a computation answer its value. -/
theorem Code.emits_compile (hF : Arithmetic.Faithful ev d s F) :
    ∀ (c : Code) (L V : Set ℕ) (α : Allocation), c.Scoped n L V →
      Emits ev d s F data n L V α
        (fun E => c.evaluate (Arithmetic.observed ev d s) E) (c.compile α)
  | .param k, L, V, α, h => by
    rw [Code.compile]
    rw [Code.Scoped] at h
    -- A parameter has its register from the start: no instruction is emitted.
    refine .none fun E f hf => ?_
    obtain ⟨v, hv, hreads⟩ := hf.params k h
    exact ⟨v, by rw [Code.evaluate, hv], hreads⟩
  | .hoisted id, L, V, α, h => by
    rw [Code.Scoped] at h
    rw [Code.compile]
    exact (emits_hoisted h α).congr fun E => by rw [Code.evaluate]
  | .loopVariable k, L, V, α, h => by
    rw [Code.Scoped] at h
    rw [Code.compile]
    exact (emits_loopVariable h α).congr fun E => by rw [Code.evaluate]
  | .captured slot, L, V, α, h => by
    rw [Code.compile]
    exact (emits_captured slot α).congr fun E => by rw [Code.evaluate]
  | .number k, L, V, α, h => by
    rw [Code.compile]
    exact (Emits.literal α k).congr fun E => by rw [Code.evaluate]
  | .unbound name, L, V, α, h => by
    rw [Code.compile]
    exact emits_unbound name α
  | .tuple items, L, V, α, h => by
    rw [Code.Scoped] at h
    have hitems := emits_compileAll (Code.emits_compileEach hF items L V h) α
    rw [Code.compile]
    refine (hitems.write (i := .tuple _ _) (g := fun vs => some (.tuple vs))
      fun f vs hvs => ?_).congr fun E => by rw [Code.evaluate]; rfl
    rw [Instruction.run]
    refine .pure ⟨_, rfl, Value.alike_tuple ?_⟩
    rw [List.forall₂_map_left_iff]
    exact hvs.imp fun _ _ hv => hv.2
  | .apply target argument, L, V, α, h => by
    rw [Code.Scoped] at h
    have ht := Code.emits_compile hF target L V α h.1
    have ha := Code.emits_compile hF argument L V (target.compile α).2 h.2
    rw [Code.compile]
    refine ((ht.andThen ha).write (i := .apply _ _ _)
      (g := fun p => (Arithmetic.observed ev d s).apply p.1 p.2) fun f p hp => ?_).congr
      fun E => ?_
    · rw [Instruction.run, ← bind_pure (Arithmetic.apply _ _ _)]
      exact (Arithmetic.answers_apply hF hp.1.2 hp.2.2).bind fun u w huw => .pure ⟨u, rfl, huw⟩
    · rw [Code.evaluate]
      cases target.evaluate (Arithmetic.observed ev d s) E with
      | none => rfl
      | some v => cases argument.evaluate (Arithmetic.observed ev d s) E <;> rfl
  | .sum [], L, V, α, h => by
    rw [Code.compile]
    exact (Emits.literal α .zero).congr fun E => by rw [Code.evaluate, Code.evaluateFold]
  | .sum (c :: cs), L, V, α, h => by
    rw [Code.Scoped, Code.ScopedAll] at h
    have hfirst := Code.emits_compile hF c L V α h.1
    have hrest := Code.emits_compileEach hF cs L V h.2
    rw [Code.compile]
    refine (Emits.fold .add ev.add (Arithmetic.observed ev d s).add (fun dst a b f => by rw [Instruction.run])
      (fun v v' w w' => Arithmetic.answers_add) hrest hfirst).congr fun E => ?_
    rw [Code.evaluate, Code.evaluateFold]
  | .multiply [], L, V, α, h => by
    rw [Code.compile]
    exact (Emits.literal α .zero).congr fun E => by rw [Code.evaluate, Code.evaluateFold]
  | .multiply (c :: cs), L, V, α, h => by
    rw [Code.Scoped, Code.ScopedAll] at h
    have hfirst := Code.emits_compile hF c L V α h.1
    have hrest := Code.emits_compileEach hF cs L V h.2
    rw [Code.compile]
    refine (Emits.fold .apply ev.apply (Arithmetic.observed ev d s).apply (fun dst a b f => by rw [Instruction.run])
      (fun v v' w w' => Arithmetic.answers_apply hF) hrest hfirst).congr fun E => ?_
    rw [Code.evaluate, Code.evaluateFold]
  | .inverse inner, L, V, α, h => by
    rw [Code.Scoped] at h
    have hinner := Code.emits_compile hF inner L V α h
    rw [Code.compile]
    refine (hinner.write (i := .inverse _ _)
      (g := fun v => (Arithmetic.observed ev d s).inverse v) fun f v hv => ?_).congr
      fun E => by rw [Code.evaluate]
    rw [Instruction.run, ← bind_pure (Arithmetic.inverse _ _)]
    exact (Arithmetic.answers_inverse hv.2).bind fun u w huw => .pure ⟨u, rfl, huw⟩
  | .transpose inner, L, V, α, h => by
    rw [Code.Scoped] at h
    have hinner := Code.emits_compile hF inner L V α h
    rw [Code.compile]
    refine (hinner.write (i := .transpose _ _)
      (g := fun v => (Arithmetic.observed ev d s).transpose v) fun f v hv => ?_).congr
      fun E => by rw [Code.evaluate]
    rw [Instruction.run, ← bind_pure (Arithmetic.transpose _ _)]
    exact (Arithmetic.answers_transpose hv.2).bind fun u w huw => .pure ⟨u, rfl, huw⟩
  | .generate rows cols row col element, L, V, α, h => by
    rw [Code.Scoped] at h
    have hbody := Block.emits_compile hF element L _ ((α.withVariable row).withVariable col) h.2.2
    rw [Code.compile]
    exact (Emits.grid rows cols h.1 h.2.1 hbody).congr fun E => by rw [Code.evaluate]
  | .range counter lower upper body, L, V, α, h => by
    rw [Code.Scoped] at h
    have hlower := Code.emits_compile hF lower L V α h.1.1
    have hupper := Code.emits_compile hF upper L V (lower.compile α).2 h.1.2
    -- The body is compiled after both bounds, with the counter in a register of its own.
    have hbody := Block.emits_compile hF body L _
      ((upper.compile (lower.compile α).2).2.withVariable counter) h.2.2
    rw [Code.compile]
    refine ((hlower.andThen hupper).range h.2.1 hbody).congr fun E => ?_
    rw [Code.evaluate]
    cases lower.evaluate (Arithmetic.observed ev d s) E with
    | none => rfl
    | some v => cases upper.evaluate (Arithmetic.observed ev d s) E <;> rfl
  | .each counter collection body, L, V, α, h => by
    rw [Code.Scoped] at h
    have hcollection := Code.emits_compile hF collection L V α h.1
    have hbody := Block.emits_compile hF body L _
      ((collection.compile α).2.withVariable counter) h.2.2
    rw [Code.compile]
    exact (hcollection.each h.2.1 hbody).congr fun E => by rw [Code.evaluate]

/-- The instructions of each computation of a list answer its value. -/
theorem Code.emits_compileEach (hF : Arithmetic.Faithful ev d s F) :
    ∀ (cs : List Code) (L V : Set ℕ), Code.ScopedAll n L V cs → ∀ c ∈ cs, ∀ α,
      Emits ev d s F data n L V α
        (fun E => c.evaluate (Arithmetic.observed ev d s) E) (c.compile α)
  | [], _, _, _ => by simp
  | c :: cs, L, V, h => by
    rw [Code.ScopedAll] at h
    exact List.forall_mem_cons.2 ⟨fun α => Code.emits_compile hF c L V α h.1,
      Code.emits_compileEach hF cs L V h.2⟩

/-- The instructions of a block answer its value. -/
theorem Block.emits_compile (hF : Arithmetic.Faithful ev d s F) :
    ∀ (block : Block) (L V : Set ℕ) (α : Allocation), block.Scoped n L V →
      Emits ev d s F data n L V α
        (fun E => block.evaluate (Arithmetic.observed ev d s) E) (block.compile α)
  | .result value, L, V, α, h => by
    rw [Block.Scoped] at h
    rw [Block.compile]
    exact (Code.emits_compile hF value L V α h).congr fun E => by rw [Block.evaluate]
  | .bind id code rest, L, V, α, h => by
    rw [Block.Scoped] at h
    have hcode := Code.emits_compile hF code L V α h.1
    have hrest := Block.emits_compile hF rest (insert id L) V
      ((code.compile α).2.withLocal id (code.compile α).1.2) h.2.2
    rw [Block.compile]
    exact (hcode.bindLocal h.2.1 hrest).congr fun E => by rw [Block.evaluate]

end

/-! ## Functions -/

/-- Locals, and then what refers to them. -/
lemma emits_compileLocals {ρ υ : Type} [Readable ρ υ] (hF : Arithmetic.Faithful ev d s F)
    {L L' V : Set ℕ} {locals : List (ℕ × Code)} (hlocals : ScopedLocals n V L locals L')
    {o : Surroundings → Option υ} {x : CompileM (Emission × ρ)}
    (hx : ∀ β, Emits ev d s F data n L' V β o (x β)) (α : Allocation) :
    Emits ev d s F data n L V α
      (fun E => evaluateLocals (Arithmetic.observed ev d s) E locals >>= o)
      ((do
        let code ← compileLocals locals
        let r ← x
        return (code ++ r.1, r.2)) α) := by
  induction locals generalizing L α with
  | nil =>
    obtain rfl : L = L' := hlocals
    exact (hx α).congr fun E => rfl
  | cons entry locals ih =>
    obtain ⟨id, code⟩ := entry
    obtain ⟨hcode, hid, hrest⟩ := hlocals
    have hfirst : Emits ev d s F data n L V α _ (code.compile α) :=
      Code.emits_compile hF code L V α hcode
    have hthen := hfirst.bindLocal hid
      (ih hrest ((code.compile α).2.withLocal id (code.compile α).1.2))
    refine hthen.congr fun E => ?_
    rw [evaluateLocals, bind_assoc]

/-- The results of the output arrays. -/
lemma emits_compileArrays {arrays : List (List Code)}
    (h : ∀ cs ∈ arrays, ∀ c ∈ cs, ∀ α, Emits ev d s F data n L V α
      (fun E => c.evaluate (Arithmetic.observed ev d s) E) (c.compile α)) (α : Allocation) :
    Emits ev d s F data n L V α
      (fun E => arrays.mapM (Code.evaluateAll (Arithmetic.observed ev d s) E))
      (compileArrays arrays α) := by
  induction arrays generalizing α with
  | nil => exact .none fun E f _ => ⟨[], rfl, List.Forall₂.nil⟩
  | cons cs arrays ih =>
    have hpair := (emits_compileAll (h cs (by simp)) α).andThen
      (ih (fun cs' hcs' => h cs' (by simp [hcs'])) (compileAll cs α).2)
    rw [compileArrays]
    refine (hpair.map (fun p => p.1 :: p.2) (fun p => p.1 :: p.2)
      fun _ _ _ _ h => List.Forall₂.cons h.1 h.2).congr fun E => ?_
    rw [List.mapM_cons]
    cases Code.evaluateAll (Arithmetic.observed ev d s) E cs with
    | none => rfl
    | some v => cases arrays.mapM (Code.evaluateAll (Arithmetic.observed ev d s) E) <;> rfl

end Codes

namespace SourceFunction

variable {ev : Evaluator} {d : ℕ} {s : Store} {F : Function → Prop}

/-- The instructions of the results of a function and the registers of the results. -/
def compileResults (f : SourceFunction) : CompileM (Emission × ℕ × List ℕ × List (List ℕ)) := do
  let (code, value) ← f.value.compile
  let (outputCode, outputs) ← compileAll f.outputs
  let (arrayCode, arrays) ← compileArrays f.arrays
  return (code ++ (outputCode ++ arrayCode), value, outputs, arrays)

/-- The instructions of a function and the registers of its results. -/
def compileBody (f : SourceFunction) : CompileM (Emission × ℕ × List ℕ × List (List ℕ)) := do
  let code ← compileLocals f.locals
  let r ← f.compileResults
  return (code ++ r.1, r.2)

/-- The program of a function from its parts. -/
def assemble (f : SourceFunction) (r : (Emission × ℕ × List ℕ × List (List ℕ)) × Allocation) :
    Program where
  instructions := r.1.1.toList
  registers := r.2.registers
  params := f.params.length
  value := r.1.2.1
  outputs := r.1.2.2.1
  arrays := r.1.2.2.2

lemma emit_eq (f : SourceFunction) (α : Allocation) :
    f.emit α = (f.assemble (f.compileBody α),
      if maxRegisters < (f.compileBody α).2.registers then
        { (f.compileBody α).2 with
          problems := .tooManyRegisters (f.compileBody α).2.registers maxRegisters ::
            (f.compileBody α).2.problems }
      else (f.compileBody α).2) := by
  show ((if maxRegisters < (f.compileBody α).2.registers then do
      Allocation.report (.tooManyRegisters (f.compileBody α).2.registers maxRegisters)
      return f.assemble (f.compileBody α)
    else return f.assemble (f.compileBody α) : CompileM Program) (f.compileBody α).2) = _
  split <;> rfl

/-- A program is the one of a function without problems. -/
lemma compile_eq_ok {f : SourceFunction} {p : Program} (h : f.compile = .ok p) :
    (f.compileBody { registers := f.params.length }).2.problems = [] ∧
      p = f.assemble (f.compileBody { registers := f.params.length }) := by
  generalize hr : f.compileBody { registers := f.params.length } = r
  have hrun : f.emit.run { registers := f.params.length } = _ := emit_eq f _
  unfold compile at h
  rw [hrun, hr] at h
  dsimp only at h
  split at h
  · rename_i hproblems
    cases h
    refine ⟨?_, rfl⟩
    split at hproblems
    · cases hproblems
    · exact hproblems
  · cases h

/-- Running the program of a function is running its instructions and reading the results. -/
lemma run_assemble {f : SourceFunction} {r : (Emission × ℕ × List ℕ × List (List ℕ)) × Allocation}
    {ev : Evaluator} {data : Array Value} {args : List Value}
    (h : args.length = f.params.length) : (f.assemble r).run ev data args =
      Instruction.runAll ev data r.1.1.toList (.initial args r.2.registers) >>= fun frame =>
        pure ⟨frame.read r.1.2.1, r.1.2.2.1.map frame.read,
          r.1.2.2.2.map fun items => items.map frame.read⟩ := by
  unfold Program.run
  rw [if_neg (by simpa [assemble] using h)]
  rfl

variable {ev : Evaluator} {d : ℕ} {s : Store} {F : Function → Prop}

lemma emits_compileBody (hF : Arithmetic.Faithful ev d s F) {f : SourceFunction}
    (hf : f.Scoped) (data : Array Value) (α : Allocation) :
    Emits ev d s F data f.params.length ∅ ∅ α
      (fun E => do
        let E ← evaluateLocals (.observed ev d s) E f.locals
        let value ← f.value.evaluate (.observed ev d s) E
        let outputs ← Code.evaluateAll (.observed ev d s) E f.outputs
        let arrays ← f.arrays.mapM (Code.evaluateAll (.observed ev d s) E)
        return (value, outputs, arrays))
      (f.compileBody α) := by
  obtain ⟨L, hlocals, hvalue, houtputs, harrays⟩ := hf
  refine emits_compileLocals hF hlocals (x := f.compileResults) (fun β => ?_) α
  have hcode : ∀ (c : Code) (γ : Allocation), c.Scoped f.params.length L ∅ →
      Emits ev d s F data f.params.length L ∅ γ
        (fun E => c.evaluate (Arithmetic.observed ev d s) E) (c.compile γ) :=
    fun c γ hc => Code.emits_compile hF c L ∅ γ hc
  have hfirst := hcode f.value β hvalue
  have hsecond := emits_compileAll (fun c hc γ => hcode c γ (houtputs c hc)) (f.value.compile β).2
  have hthird := emits_compileArrays (fun cs hcs c hc γ => hcode c γ (harrays cs hcs c hc))
    (compileAll f.outputs (f.value.compile β).2).2
  refine (hfirst.andThen (hsecond.andThen hthird)).congr fun E => ?_
  cases f.value.evaluate (.observed ev d s) E with
  | none => rfl
  | some v =>
    cases Code.evaluateAll (.observed ev d s) E f.outputs with
    | none => rfl
    | some vs => cases f.arrays.mapM (Code.evaluateAll (.observed ev d s) E) <;> rfl

/-- A compiled function answers the values of its results. -/
theorem answers_run (hF : Arithmetic.Faithful ev d s F) {f : SourceFunction}
    (hf : f.Scoped) {p : Program} (hp : f.compile = .ok p) {args data : List Value}
    (hlength : args.length = f.params.length) (hargs : ∀ v ∈ args, v.Within F)
    (hdata : ∀ v ∈ data, v.Within F) :
    Answers d s (p.run ev data.toArray args)
      (f.evaluate (.observed ev d s) (.initial args data)) (Evaluation.Alike F) := by
  obtain ⟨hproblems, rfl⟩ := compile_eq_ok hp
  have hbody := emits_compileBody hF hf data.toArray { registers := f.params.length }
  generalize f.compileBody { registers := f.params.length } = r at hproblems hbody
  have hregisters : f.params.length ≤ r.2.registers := hbody.grows.registers
  have hholds : Allocation.Holds F data.toArray f.params.length ∅ ∅
      { registers := f.params.length } (.initial args data) (.initial args r.2.registers) := by
    refine ⟨fun k hk => ?_, by simp [Surroundings.initial], hdata, by simp, by simp⟩
    have hk' : k < args.length := hlength ▸ hk
    refine ⟨args[k], by simp [Surroundings.initial, hk'], hk, ?_⟩
    rw [Frame.read_initial hk']
    exact .refl (hargs _ (List.getElem_mem hk'))
  have hrun := hbody.runs hproblems _ _ hholds (Frame.size_initial (hlength.trans_le hregisters)).ge
  have hevaluate : f.evaluate (.observed ev d s) (.initial args data) =
      ((do
        let E ← evaluateLocals (.observed ev d s) (.initial args data) f.locals
        let value ← f.value.evaluate (.observed ev d s) E
        let outputs ← Code.evaluateAll (.observed ev d s) E f.outputs
        let arrays ← f.arrays.mapM (Code.evaluateAll (.observed ev d s) E)
        return (value, outputs, arrays)) >>= fun r => some ⟨r.1, r.2.1, r.2.2⟩) := by
    simp only [SourceFunction.evaluate, bind_assoc]
    rfl
  rw [run_assemble hlength, hevaluate]
  refine hrun.bind fun frame' v h => .pure ?_
  obtain ⟨hvalue, houtputs, harrays⟩ := h.2
  have hread : ∀ {k : ℕ} {w : Value}, Reads F r.2.registers frame' k w → (frame'.read k).Alike F w :=
    fun h => h.2
  refine ⟨hread hvalue, ?_, ?_⟩
  · exact List.forall₂_map_left_iff.2 (houtputs.imp fun _ _ => hread)
  · refine List.forall₂_map_left_iff.2 (List.Forall₂.imp (fun registers values h => ?_) harrays)
    exact List.forall₂_map_left_iff.2 (List.Forall₂.imp (fun _ _ => hread) h)

end SourceFunction

end TermGraph
