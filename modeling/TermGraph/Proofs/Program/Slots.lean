import Mathlib.Tactic
import TermGraph.Program.Batch

/-!
# Slots of captured constants

The slot of a captured constant is a number that stands in the code of a function and in its
program, and nothing but the load of that constant ever looks at it.

* `SourceFunction.compile_renumber`: compiling goes along with exchanging the slots; registers and
  problems stay what they are.
* `Program.run_renumber`: programs that load the same constants from the slots they name run the
  same way.
-/

namespace TermGraph

/-! ## Exchanging slots -/

mutual

/-- The computation with its captured constants in the slots that `ρ` says. -/
def Code.renumber (ρ : ℕ → ℕ) : Code → Code
  | .param k => .param k
  | .hoisted id => .hoisted id
  | .loopVariable id => .loopVariable id
  | .captured slot => .captured (ρ slot)
  | .number n => .number n
  | .unbound name => .unbound name
  | .tuple items => .tuple (Code.renumberAll ρ items)
  | .apply target argument => .apply (target.renumber ρ) (argument.renumber ρ)
  | .sum terms => .sum (Code.renumberAll ρ terms)
  | .multiply factors => .multiply (Code.renumberAll ρ factors)
  | .inverse inner => .inverse (inner.renumber ρ)
  | .transpose inner => .transpose (inner.renumber ρ)
  | .generate rows cols row col element => .generate rows cols row col (element.renumber ρ)
  | .range counter lower upper body =>
    .range counter (lower.renumber ρ) (upper.renumber ρ) (body.renumber ρ)
  | .each counter collection body => .each counter (collection.renumber ρ) (body.renumber ρ)

/-- The computations of a list with their captured constants in the slots that `ρ` says. -/
def Code.renumberAll (ρ : ℕ → ℕ) : List Code → List Code
  | [] => []
  | c :: cs => c.renumber ρ :: Code.renumberAll ρ cs

/-- The block with its captured constants in the slots that `ρ` says. -/
def Block.renumber (ρ : ℕ → ℕ) : Block → Block
  | .result value => .result (value.renumber ρ)
  | .bind id code rest => .bind id (code.renumber ρ) (rest.renumber ρ)

end

/-- Locals with their captured constants in the slots that `ρ` says. -/
def renumberLocals (ρ : ℕ → ℕ) (locals : List (ℕ × Code)) : List (ℕ × Code) :=
  locals.map fun p => (p.1, p.2.renumber ρ)

/-- The function with its captured constants in the slots that `ρ` says. -/
def SourceFunction.renumber (ρ : ℕ → ℕ) (f : SourceFunction) : SourceFunction :=
  { f with
    locals := renumberLocals ρ f.locals
    value := f.value.renumber ρ
    outputs := Code.renumberAll ρ f.outputs
    arrays := f.arrays.map (Code.renumberAll ρ) }

mutual

/-- The instruction with its captured constants in the slots that `ρ` says. -/
def Instruction.renumber (ρ : ℕ → ℕ) : Instruction → Instruction
  | .loadData dst slot => .loadData dst (ρ slot)
  | .loadNumber dst n => .loadNumber dst n
  | .tuple dst items => .tuple dst items
  | .apply dst target argument => .apply dst target argument
  | .add dst left right => .add dst left right
  | .inverse dst src => .inverse dst src
  | .transpose dst src => .transpose dst src
  | .rangeLoop dst counter lower upper body result =>
    .rangeLoop dst counter lower upper (Instruction.renumberAll ρ body) result
  | .eachLoop dst item collection body result =>
    .eachLoop dst item collection (Instruction.renumberAll ρ body) result
  | .gridLoop dst row col rows cols body result =>
    .gridLoop dst row col rows cols (Instruction.renumberAll ρ body) result

/-- The instructions with their captured constants in the slots that `ρ` says. -/
def Instruction.renumberAll (ρ : ℕ → ℕ) : List Instruction → List Instruction
  | [] => []
  | i :: is => i.renumber ρ :: Instruction.renumberAll ρ is

end

/-- The program with its captured constants in the slots that `ρ` says. -/
def Program.renumber (ρ : ℕ → ℕ) (p : Program) : Program :=
  { p with instructions := Instruction.renumberAll ρ p.instructions }

/-- The diagnostic as one of the function called `name`. -/
def Diagnostic.of (name : String) (d : Diagnostic) : Diagnostic :=
  { d with function := some name }

/-! ## Compiling -/

/-- `y` does to the state what `x` does, and the results of the two are related by `R`. -/
def InStep {α β : Type} (R : α → β → Prop) (x : CompileM α) (y : CompileM β) : Prop :=
  ∀ σ : Allocation, R (x σ).1 (y σ).1 ∧ (y σ).2 = (x σ).2

namespace InStep

variable {α β γ δ : Type} {R : α → β → Prop} {S : γ → δ → Prop} {x : CompileM α} {y : CompileM β}

lemma pure {a : α} {b : β} (h : R a b) :
    InStep R (Pure.pure a : CompileM α) (Pure.pure b : CompileM β) := fun _ => ⟨h, rfl⟩

lemma bind {f : α → CompileM γ} {g : β → CompileM δ} (h : InStep R x y)
    (hfg : ∀ a b, R a b → InStep S (f a) (g b)) : InStep S (x >>= f) (y >>= g) := by
  intro σ
  obtain ⟨hR, hstate⟩ := h σ
  show S (f (x σ).1 (x σ).2).1 (g (y σ).1 (y σ).2).1 ∧
    (g (y σ).1 (y σ).2).2 = (f (x σ).1 (x σ).2).2
  rw [hstate]
  exact hfg _ _ hR _

/-- A computation is in step with itself. -/
lemma self {T : α → α → Prop} (h : ∀ a, T a a) (x : CompileM α) : InStep T x x := fun _ => ⟨h _, rfl⟩

end InStep

/-- The instructions of `code'` are those of `code` with the slots that `ρ` says. -/
def Emission.Renumbers (ρ : ℕ → ℕ) (code code' : Emission) : Prop :=
  ∀ rest, code'.onto (Instruction.renumberAll ρ rest) = Instruction.renumberAll ρ (code.onto rest)

namespace Emission.Renumbers

variable {ρ : ℕ → ℕ} {first first' second second' : Emission}

lemma none : Renumbers ρ .none .none := fun _ => rfl

lemma one (i : Instruction) : Renumbers ρ (.one i) (.one (i.renumber ρ)) := fun rest => by
  rw [onto_one, onto_one, Instruction.renumberAll]

lemma append (h : Renumbers ρ first first') (h' : Renumbers ρ second second') :
    Renumbers ρ (first ++ second) (first' ++ second') := fun rest => by
  rw [onto_append, onto_append, h', h]

lemma toList (h : Renumbers ρ first first') :
    first'.toList = Instruction.renumberAll ρ first.toList := h []

end Emission.Renumbers

/-- The instructions of `q` are those of `p` with the slots that `ρ` says, and the registers are the
same. -/
def Emitted {γ : Type} (ρ : ℕ → ℕ) (p q : Emission × γ) : Prop :=
  p.1.Renumbers ρ q.1 ∧ p.2 = q.2

variable {ρ : ℕ → ℕ}

namespace Allocation

/-- What the state is asked for, or made to hold, does not depend on slots. -/
lemma inStep_self {α : Type} (x : CompileM α) : InStep Eq x x := .self (fun _ => rfl) x

lemma inStep_literal (n : Number) : InStep (Emitted ρ) (literal n) (literal n) :=
  (inStep_self alloc).bind fun dst _ h => h ▸ .pure ⟨.one (.loadNumber dst n), rfl⟩

lemma inStep_reported (p : Problem) : InStep (Emitted ρ)
    (report p >>= fun _ => literal .zero) (report p >>= fun _ => literal .zero) :=
  (inStep_self (report p)).bind fun _ _ _ => inStep_literal .zero

lemma inStep_hoisted (id : ℕ) : InStep (Emitted ρ) (hoisted id) (hoisted id) := by
  refine (inStep_self get).bind ?_
  rintro σ _ rfl
  cases σ.locals[id]? with
  | some r => exact .pure ⟨.none, rfl⟩
  | none => exact inStep_reported _

lemma inStep_loopVariable (id : ℕ) : InStep (Emitted ρ) (loopVariable id) (loopVariable id) := by
  refine (inStep_self get).bind ?_
  rintro σ _ rfl
  cases σ.counters[id]? with
  | some r => exact .pure ⟨.none, rfl⟩
  | none => exact inStep_reported _

lemma inStep_unbound (name : String) : InStep (Emitted ρ) (unbound name) (unbound name) := by
  refine (inStep_self get).bind ?_
  rintro σ _ rfl
  cases hknown : σ.problems.contains (.unboundSymbol name) with
  | true =>
    simp only
    exact inStep_literal .zero
  | false =>
    simp only
    exact inStep_reported _

end Allocation

open Allocation

section Emitted

variable {γ δ ε : Type} {x x' : CompileM (Emission × γ)} {y y' : CompileM (Emission × δ)}

/-- One instruction in a new register after some code. -/
lemma InStep.write (h : InStep (Emitted ρ) x x') (i : γ → ℕ → Instruction) :
    InStep (Emitted ρ)
      (x >>= fun p => alloc >>= fun dst => Pure.pure (p.1 ++ .one (i p.2 dst), dst))
      (x' >>= fun p => alloc >>= fun dst =>
        Pure.pure (p.1 ++ .one ((i p.2 dst).renumber ρ), dst)) := by
  refine h.bind ?_
  rintro ⟨code, r⟩ ⟨code', _⟩ ⟨hcode, rfl⟩
  refine (inStep_self alloc).bind ?_
  rintro dst _ rfl
  exact .pure ⟨hcode.append (.one _), rfl⟩

/-- One code after another. -/
lemma InStep.andThen (h : InStep (Emitted ρ) x x') (h' : InStep (Emitted ρ) y y') (g : γ → δ → ε) :
    InStep (Emitted ρ)
      (x >>= fun p => y >>= fun q => Pure.pure (p.1 ++ q.1, g p.2 q.2))
      (x' >>= fun p => y' >>= fun q => Pure.pure (p.1 ++ q.1, g p.2 q.2)) := by
  refine h.bind ?_
  rintro ⟨code, r⟩ ⟨code', _⟩ ⟨hcode, rfl⟩
  refine h'.bind ?_
  rintro ⟨more, r'⟩ ⟨more', _⟩ ⟨hmore, rfl⟩
  exact .pure ⟨hcode.append hmore, rfl⟩

end Emitted

/-- A loop over a body in a new register. -/
lemma InStep.loop {r r' : Emission × ℕ} (hr : Emitted ρ r r') {code code' : Emission}
    (hcode : code.Renumbers ρ code') (i : List Instruction → ℕ → ℕ → Instruction)
    (hi : ∀ body result dst, (i body result dst).renumber ρ =
      i (Instruction.renumberAll ρ body) result dst) :
    InStep (Emitted ρ)
      (alloc >>= fun dst => Pure.pure (code ++ .one (i r.1.toList r.2 dst), dst))
      (alloc >>= fun dst => Pure.pure (code' ++ .one (i r'.1.toList r'.2 dst), dst)) := by
  refine (inStep_self alloc).bind ?_
  rintro dst _ rfl
  obtain ⟨hbody, hresult⟩ := hr
  rw [hbody.toList, ← hresult, ← hi]
  exact .pure ⟨hcode.append (.one _), rfl⟩

mutual

/-- Compiling a computation goes along with exchanging its slots. -/
theorem Code.inStep_compile (ρ : ℕ → ℕ) :
    ∀ c : Code, InStep (Emitted ρ) c.compile (c.renumber ρ).compile
  | .param k => by
    rw [Code.renumber, Code.compile]
    exact .pure ⟨.none, rfl⟩
  | .hoisted id => by
    rw [Code.renumber, Code.compile]
    exact inStep_hoisted id
  | .loopVariable id => by
    rw [Code.renumber, Code.compile]
    exact inStep_loopVariable id
  | .captured slot => by
    rw [Code.renumber, Code.compile, Code.compile]
    -- Only here a slot is named: the two instructions differ in it, and agree in the register.
    refine (inStep_self alloc).bind ?_
    rintro dst _ rfl
    exact .pure ⟨.one (.loadData dst slot), rfl⟩
  | .number n => by
    rw [Code.renumber, Code.compile]
    exact inStep_literal n
  | .unbound name => by
    rw [Code.renumber, Code.compile]
    exact inStep_unbound name
  | .tuple items => by
    rw [Code.renumber, Code.compile, Code.compile]
    exact (Code.inStep_compileAll ρ items).write fun registers dst => .tuple dst registers
  | .apply target argument => by
    rw [Code.renumber, Code.compile, Code.compile]
    refine (Code.inStep_compile ρ target).bind ?_
    rintro ⟨code, t⟩ ⟨code', _⟩ ⟨hcode, rfl⟩
    refine (Code.inStep_compile ρ argument).bind ?_
    rintro ⟨more, a⟩ ⟨more', _⟩ ⟨hmore, rfl⟩
    refine (inStep_self alloc).bind ?_
    rintro dst _ rfl
    exact .pure ⟨(hcode.append hmore).append (.one (.apply dst t a)), rfl⟩
  | .sum [] => by
    rw [Code.renumber, Code.renumberAll, Code.compile]
    exact inStep_literal .zero
  | .sum (first :: rest) => by
    rw [Code.renumber, Code.renumberAll, Code.compile, Code.compile]
    refine (Code.inStep_compile ρ first).bind ?_
    rintro ⟨code, r⟩ ⟨code', _⟩ ⟨hcode, rfl⟩
    refine (Code.inStep_compileFold ρ .add (fun _ _ _ => rfl) rest r).bind ?_
    rintro ⟨more, dst⟩ ⟨more', _⟩ ⟨hmore, rfl⟩
    exact .pure ⟨hcode.append hmore, rfl⟩
  | .multiply [] => by
    rw [Code.renumber, Code.renumberAll, Code.compile]
    exact inStep_literal .zero
  | .multiply (first :: rest) => by
    rw [Code.renumber, Code.renumberAll, Code.compile, Code.compile]
    refine (Code.inStep_compile ρ first).bind ?_
    rintro ⟨code, r⟩ ⟨code', _⟩ ⟨hcode, rfl⟩
    refine (Code.inStep_compileFold ρ .apply (fun _ _ _ => rfl) rest r).bind ?_
    rintro ⟨more, dst⟩ ⟨more', _⟩ ⟨hmore, rfl⟩
    exact .pure ⟨hcode.append hmore, rfl⟩
  | .inverse inner => by
    rw [Code.renumber, Code.compile, Code.compile]
    exact (Code.inStep_compile ρ inner).write fun src dst => .inverse dst src
  | .transpose inner => by
    rw [Code.renumber, Code.compile, Code.compile]
    exact (Code.inStep_compile ρ inner).write fun src dst => .transpose dst src
  | .generate rows cols row col element => by
    rw [Code.renumber, Code.compile, Code.compile]
    refine (inStep_self (bindVariable row)).bind ?_
    rintro row _ rfl
    refine (inStep_self (bindVariable col)).bind ?_
    rintro col _ rfl
    refine (Block.inStep_compile ρ element).bind fun r r' hr => ?_
    exact .loop hr .none (fun body result dst => .gridLoop dst row col rows cols body result)
      fun _ _ _ => rfl
  | .range counter lower upper body => by
    rw [Code.renumber, Code.compile, Code.compile]
    refine (Code.inStep_compile ρ lower).bind ?_
    rintro ⟨code, lower⟩ ⟨code', _⟩ ⟨hcode, rfl⟩
    refine (Code.inStep_compile ρ upper).bind ?_
    rintro ⟨more, upper⟩ ⟨more', _⟩ ⟨hmore, rfl⟩
    refine (inStep_self (bindVariable counter)).bind ?_
    rintro counter _ rfl
    refine (Block.inStep_compile ρ body).bind fun r r' hr => ?_
    exact .loop hr (hcode.append hmore)
      (fun body result dst => .rangeLoop dst counter lower upper body result) fun _ _ _ => rfl
  | .each counter collection body => by
    rw [Code.renumber, Code.compile, Code.compile]
    refine (Code.inStep_compile ρ collection).bind ?_
    rintro ⟨code, collection⟩ ⟨code', _⟩ ⟨hcode, rfl⟩
    refine (inStep_self (bindVariable counter)).bind ?_
    rintro item _ rfl
    refine (Block.inStep_compile ρ body).bind fun r r' hr => ?_
    exact .loop hr hcode (fun body result dst => .eachLoop dst item collection body result)
      fun _ _ _ => rfl

theorem Code.inStep_compileAll (ρ : ℕ → ℕ) :
    ∀ cs : List Code, InStep (Emitted ρ) (compileAll cs) (compileAll (Code.renumberAll ρ cs))
  | [] => by
    rw [Code.renumberAll, compileAll]
    exact .pure ⟨.none, rfl⟩
  | c :: cs => by
    rw [Code.renumberAll, compileAll, compileAll]
    exact (Code.inStep_compile ρ c).andThen (Code.inStep_compileAll ρ cs) List.cons

theorem Code.inStep_compileFold (ρ : ℕ → ℕ) (op : ℕ → ℕ → ℕ → Instruction)
    (hop : ∀ dst a b, (op dst a b).renumber ρ = op dst a b) : ∀ (cs : List Code) (acc : ℕ),
      InStep (Emitted ρ) (compileFold op acc cs) (compileFold op acc (Code.renumberAll ρ cs))
  | [], acc => by
    rw [Code.renumberAll, compileFold]
    exact .pure ⟨.none, rfl⟩
  | c :: cs, acc => by
    rw [Code.renumberAll, compileFold, compileFold]
    refine (Code.inStep_compile ρ c).bind ?_
    rintro ⟨code, r⟩ ⟨code', _⟩ ⟨hcode, rfl⟩
    refine (inStep_self alloc).bind ?_
    rintro dst _ rfl
    refine (Code.inStep_compileFold ρ op hop cs dst).bind ?_
    rintro ⟨more, result⟩ ⟨more', _⟩ ⟨hmore, rfl⟩
    have hone := Emission.Renumbers.one (ρ := ρ) (op dst acc r)
    rw [hop] at hone
    exact .pure ⟨(hcode.append hone).append hmore, rfl⟩

/-- Compiling a block goes along with exchanging its slots. -/
theorem Block.inStep_compile (ρ : ℕ → ℕ) :
    ∀ b : Block, InStep (Emitted ρ) b.compile (b.renumber ρ).compile
  | .result value => by
    rw [Block.renumber, Block.compile, Block.compile]
    exact Code.inStep_compile ρ value
  | .bind id code rest => by
    rw [Block.renumber, Block.compile, Block.compile]
    refine (Code.inStep_compile ρ code).bind ?_
    rintro ⟨code, r⟩ ⟨code', _⟩ ⟨hcode, rfl⟩
    refine (inStep_self (bindLocal id r)).bind fun _ _ _ => ?_
    refine (Block.inStep_compile ρ rest).bind ?_
    rintro ⟨more, result⟩ ⟨more', _⟩ ⟨hmore, rfl⟩
    exact .pure ⟨hcode.append hmore, rfl⟩

end

/-- Compiling locals goes along with exchanging their slots. -/
lemma inStep_compileLocals (ρ : ℕ → ℕ) (locals : List (ℕ × Code)) :
    InStep (fun code code' => code.Renumbers ρ code') (compileLocals locals)
      (compileLocals (renumberLocals ρ locals)) := by
  induction locals with
  | nil => exact .pure .none
  | cons entry locals ih =>
    rw [renumberLocals, List.map_cons, ← renumberLocals, compileLocals, compileLocals]
    refine (Code.inStep_compile ρ entry.2).bind ?_
    rintro ⟨code, r⟩ ⟨code', _⟩ ⟨hcode, rfl⟩
    refine (inStep_self (bindLocal entry.1 r)).bind fun _ _ _ => ?_
    exact ih.bind fun more more' hmore => .pure (hcode.append hmore)

/-- Compiling output arrays goes along with exchanging their slots. -/
lemma inStep_compileArrays (ρ : ℕ → ℕ) (arrays : List (List Code)) :
    InStep (Emitted ρ) (compileArrays arrays)
      (compileArrays (arrays.map (Code.renumberAll ρ))) := by
  induction arrays with
  | nil => exact .pure ⟨.none, rfl⟩
  | cons items arrays ih =>
    rw [List.map_cons, compileArrays, compileArrays]
    exact (Code.inStep_compileAll ρ items).andThen ih List.cons

namespace SourceFunction

/-- Emitting a program goes along with exchanging its slots. -/
lemma inStep_emit (ρ : ℕ → ℕ) (f : SourceFunction) :
    InStep (fun p p' => p' = p.renumber ρ) f.emit (f.renumber ρ).emit := by
  unfold emit
  refine (inStep_compileLocals ρ f.locals).bind fun locals locals' hlocals => ?_
  refine (Code.inStep_compile ρ f.value).bind ?_
  rintro ⟨code, value⟩ ⟨code', _⟩ ⟨hcode, rfl⟩
  refine (Code.inStep_compileAll ρ f.outputs).bind ?_
  rintro ⟨outputs, _⟩ ⟨outputs', _⟩ ⟨houtputs, rfl⟩
  refine (inStep_compileArrays ρ f.arrays).bind ?_
  rintro ⟨arrays, _⟩ ⟨arrays', _⟩ ⟨harrays, rfl⟩
  refine (inStep_self get).bind ?_
  rintro σ _ rfl
  have hall := (((hlocals.append hcode).append houtputs).append harrays).toList
  dsimp only at hall ⊢
  by_cases hmany : maxRegisters < σ.registers
  · rw [if_pos hmany, if_pos hmany]
    exact (inStep_self (report _)).bind fun _ _ _ => .pure (by rw [hall]; rfl)
  · rw [if_neg hmany, if_neg hmany]
    exact .pure (by rw [hall]; rfl)

lemma compile_eq_emit (f : SourceFunction) : f.compile =
    match (f.emit { registers := f.params.length }).2.problems with
    | [] => .ok (f.emit { registers := f.params.length }).1
    | problems => .error (problems.reverse.map fun p => ⟨false, some f.name, p⟩) := rfl

/-- The function with other slots and another name has the program with these slots, or the same
problems under its name. -/
theorem compile_renumber (ρ : ℕ → ℕ) (f : SourceFunction) (name : String) :
    ({ f.renumber ρ with name := name } : SourceFunction).compile =
      match f.compile with
      | .ok p => .ok (p.renumber ρ)
      | .error ds => .error (ds.map (.of name)) := by
  obtain ⟨hprogram, hstate⟩ := inStep_emit ρ f { registers := f.params.length }
  have hemit : ({ f.renumber ρ with name := name } : SourceFunction).emit
      { registers := f.params.length } = (f.renumber ρ).emit { registers := f.params.length } := rfl
  rw [compile_eq_emit, compile_eq_emit, show (f.renumber ρ).params = f.params from rfl, hemit,
    hprogram, hstate]
  cases (f.emit { registers := f.params.length }).2.problems with
  | nil => rfl
  | cons p ps =>
    simp only [List.map_map]
    rfl

end SourceFunction

/-! ## Running -/

/-- From the slots that `a` says, `data` loads what `data'` loads from those that `b` says. -/
def LoadsAlike (data data' : Array Value) (a b : ℕ → ℕ) : Prop :=
  ∀ k, data[a k]? = data'[b k]? ∧ (data[a k]? = none → a k = b k)

section Running

variable {ev : Evaluator} {data data' : Array Value} {a b : ℕ → ℕ}

mutual

/-- An instruction does the same with constants that load alike. -/
theorem Instruction.run_renumber (h : LoadsAlike data data' a b) (frame : Frame) :
    ∀ i : Instruction, (i.renumber a).run ev data frame =
      (i.renumber b).run ev data' frame
  | .loadData dst slot => by
    rw [Instruction.renumber, Instruction.renumber, Instruction.run, Instruction.run]
    obtain ⟨hload, hmissing⟩ := h slot
    rw [← hload]
    cases hv : data[a slot]? with
    | some v => rfl
    | none => rw [hmissing hv]
  | .loadNumber dst n | .tuple dst items | .apply dst target argument | .add dst left right
  | .inverse dst src | .transpose dst src => by
    rw [Instruction.renumber, Instruction.renumber, Instruction.run, Instruction.run]
  | .rangeLoop dst counter lower upper body result => by
    have hbody : Instruction.runAll ev data (Instruction.renumberAll a body) =
        Instruction.runAll ev data' (Instruction.renumberAll b body) :=
      funext fun frame => Instruction.runAll_renumber h frame body
    rw [Instruction.renumber, Instruction.renumber, Instruction.run, Instruction.run, hbody]
  | .eachLoop dst item collection body result => by
    have hbody : Instruction.runAll ev data (Instruction.renumberAll a body) =
        Instruction.runAll ev data' (Instruction.renumberAll b body) :=
      funext fun frame => Instruction.runAll_renumber h frame body
    rw [Instruction.renumber, Instruction.renumber, Instruction.run, Instruction.run, hbody]
  | .gridLoop dst row col rows cols body result => by
    have hbody : Instruction.runAll ev data (Instruction.renumberAll a body) =
        Instruction.runAll ev data' (Instruction.renumberAll b body) :=
      funext fun frame => Instruction.runAll_renumber h frame body
    rw [Instruction.renumber, Instruction.renumber, Instruction.run, Instruction.run, hbody]

theorem Instruction.runAll_renumber (h : LoadsAlike data data' a b) (frame : Frame) :
    ∀ is : List Instruction,
      Instruction.runAll ev data (Instruction.renumberAll a is) frame =
        Instruction.runAll ev data' (Instruction.renumberAll b is) frame
  | [] => by rw [Instruction.renumberAll, Instruction.renumberAll, runAll, runAll]
  | i :: is => by
    rw [Instruction.renumberAll, Instruction.renumberAll, Instruction.runAll, Instruction.runAll,
      Instruction.run_renumber h frame i]
    exact congrArg _ (funext fun frame => Instruction.runAll_renumber h frame is)

end

/-- A program does the same with constants that load alike. -/
theorem Program.run_renumber (h : LoadsAlike data data' a b) (p : Program) (args : List Value) :
    (p.renumber a).run ev data args = (p.renumber b).run ev data' args := by
  unfold run
  simp only [renumber, Instruction.runAll_renumber h]
  rfl

end Running

end TermGraph
