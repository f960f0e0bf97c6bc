import TermGraph.Program.Batch
import TermGraph.Proofs.Store.WellFormed

/-!
# Plain evaluation

The value of an expression by recursion over it as a tree, without any sharing.  Symbols read the
innermost binding; parameters are bound around everything.  Sums and matrix products are left folds
over their items, and the body of a summation or generator is evaluated anew in every round.

The operations on values are handed in as an `Arithmetic`, in a monad of its own.  With those of a
running function (`Arithmetic.concrete`) evaluation runs on the store; with partial functions it is
a partial function itself, and the latter is what lowering is compared with.

* `Expr.evaluate`, `Job.evaluate`: the plain value of an expression and of a job.
* `Code.evaluate`: the value of a statement list, by recursion too.
* `Expr.evaluate_mono`: what an expression evaluates to stays the same under further bindings.
-/

namespace TermGraph

/-- The operations on values that evaluation is made of. -/
structure Arithmetic (m : Type → Type) where
  /-- One value applied to another. -/
  apply : Value → Value → m Value
  /-- The sum of two values. -/
  add : Value → Value → m Value
  /-- The inverse of a value. -/
  inverse : Value → m Value
  /-- The transpose of a value. -/
  transpose : Value → m Value
  /-- A new matrix. -/
  matrix : Matrix → m Value
  /-- No value. -/
  fail : {α : Type} → Error → m α

namespace Arithmetic

/-- The operations of a running function. -/
def concrete (ev : Evaluator) : Arithmetic Build where
  apply := ev.apply
  add := ev.add
  inverse := ev.inverse
  transpose := ev.transpose
  matrix := Value.ofMatrix
  fail := throw

variable {m : Type → Type} [Monad m] (ops : Arithmetic m)

/-- A bound of a summation, which must be an integer. -/
def bound : Value → m ℤ
  | .number (.int n) => pure n.toInt
  | v => ops.fail (.evaluation (.boundNotInteger v))

/-- The sum of what `body` makes of some values, beginning with zero. -/
def sumOver (values : List Value) (body : Value → m Value) : m Value :=
  values.foldlM (fun sum v => do ops.add sum (← body v)) (.number .zero)

/-- The integers of a range, both ends included. -/
def rangeValues (first last : ℤ) : List Value :=
  (List.range (last - first + 1).toNat).map fun k : ℕ => .number (.int (Int64.ofInt (first + k)))

/-- The sum over a range. -/
def range (lower upper : Value) (body : Value → m Value) : m Value := do
  let first ← ops.bound lower
  let last ← ops.bound upper
  ops.sumOver (rangeValues first last) body

/-- The sum over the items of an array. -/
def each (collection : Value) (body : Value → m Value) : m Value :=
  match collection with
  | .array _ _ items => ops.sumOver items body
  | v => ops.fail (.evaluation (.notIterable v))

/-- An entry of a matrix, which must be a number. -/
def entry : Value → m Float
  | .number n => pure n.toFloat
  | v => ops.fail (.evaluation (.entryNotANumber v))

/-- A row or column index as a value. -/
def position (k : ℕ) : Value :=
  .number (.int (Int64.ofNat k))

/-- The matrix of what `element` makes of each row and column, column by column. -/
def grid (rows cols : ℕ) (element : Value → Value → m Value) : m Value := do
  let entries ← (Expr.positions rows cols).mapM fun p => do
    ops.entry (← element (position p.1) (position p.2))
  ops.matrix (.ofColumns rows cols entries.toArray)

end Arithmetic

/-- Values of symbols by their ordinals, the innermost binding first. -/
abbrev Bindings := List (ℕ × Value)

section Plain

variable {m : Type → Type} [Monad m] (ops : Arithmetic m)

namespace Expr

mutual

/-- The plain value of an expression. -/
def evaluate (bindings : Bindings) : Expr → m Value
  | .node ordinal _ (.symbol name) =>
    match bindings.lookup ordinal with
    | some v => pure v
    | none => ops.fail (.compilation [⟨false, none, .unboundSymbol name⟩])
  | .node _ _ (.number n) => pure (.number n)
  | .node _ _ (.object v _) => pure v
  | .node _ _ (.field name) => pure (.field name)
  | .node _ _ (.function f) => pure (.function f)
  | .node _ _ (.tuple items) => do return .tuple (← evaluateAll bindings items)
  | .node _ _ (.apply target argument) => do
    let t ← evaluate bindings target
    let a ← evaluate bindings argument
    ops.apply t a
  | .node _ _ (.sum items) => evaluateFold ops.add bindings items
  | .node _ _ (.chain items) => evaluateFold ops.apply bindings items
  | .node _ _ (.inverse inner) => do ops.inverse (← evaluate bindings inner)
  | .node _ _ (.transpose inner) => do ops.transpose (← evaluate bindings inner)
  | .node _ _ (.generator rows cols element) =>
    ops.grid rows cols fun i j =>
      evaluate ((colIndex.ordinal, j) :: (rowIndex.ordinal, i) :: bindings) element
  | .node _ _ (.indexedSum index lower upper body) => do
    let first ← evaluate bindings lower
    let last ← evaluate bindings upper
    ops.range first last fun v => evaluate ((index.ordinal, v) :: bindings) body
  | .node _ _ (.collectionSum index collection body) => do
    let items ← evaluate bindings collection
    ops.each items fun v => evaluate ((index.ordinal, v) :: bindings) body

/-- The plain values of a list. -/
def evaluateAll (bindings : Bindings) : List Expr → m (List Value)
  | [] => pure []
  | e :: es => do
    let v ← evaluate bindings e
    return v :: (← evaluateAll bindings es)

/-- The values of a list combined from left to right. -/
def evaluateFold (op : Value → Value → m Value) (bindings : Bindings) : List Expr → m Value
  | [] => pure (.number .zero)
  | e :: es => do evaluateOnto op bindings (← evaluate bindings e) es

/-- A value combined with those of a list from left to right. -/
def evaluateOnto (op : Value → Value → m Value) (bindings : Bindings) (acc : Value) :
    List Expr → m Value
  | [] => pure acc
  | e :: es => do
    let v ← evaluate bindings e
    evaluateOnto op bindings (← op acc v) es

end

end Expr

/-- The bindings of parameters to arguments. -/
def Job.bindings (job : Job) (args : List Value) : Bindings :=
  (job.params.map Expr.ordinal).zip args

/-- The plain values of all results of a job. -/
def Job.evaluate (job : Job) (args : List Value) : m Evaluation := do
  let value ← job.value.evaluate ops (job.bindings args)
  let outputs ← Expr.evaluateAll ops (job.bindings args) job.outputs
  let arrays ← job.arrays.mapM (Expr.evaluateAll ops (job.bindings args))
  return ⟨value, outputs, arrays⟩

end Plain

/-! ## Statement lists -/

/-- What a statement list refers to. -/
structure Surroundings where
  /-- The arguments. -/
  params : List Value
  /-- The captured constants. -/
  data : List Value
  /-- The locals. -/
  locals : ℕ → Option Value
  /-- The loop variables. -/
  counters : ℕ → Option Value

namespace Surroundings

/-- One more local. -/
def bindLocal (E : Surroundings) (id : ℕ) (v : Value) : Surroundings :=
  { E with locals := Function.update E.locals id (some v) }

/-- One more loop variable. -/
def bindVariable (E : Surroundings) (id : ℕ) (v : Value) : Surroundings :=
  { E with counters := Function.update E.counters id (some v) }

variable (E : Surroundings) (id : ℕ) (v : Value)

@[simp] lemma bindLocal_params : (E.bindLocal id v).params = E.params := rfl

@[simp] lemma bindLocal_data : (E.bindLocal id v).data = E.data := rfl

@[simp] lemma bindLocal_counters : (E.bindLocal id v).counters = E.counters := rfl

@[simp] lemma bindLocal_locals_self : (E.bindLocal id v).locals id = some v :=
  Function.update_self ..

lemma bindLocal_locals_of_ne {j : ℕ} (h : j ≠ id) : (E.bindLocal id v).locals j = E.locals j :=
  Function.update_of_ne h ..

@[simp] lemma bindVariable_params : (E.bindVariable id v).params = E.params := rfl

@[simp] lemma bindVariable_data : (E.bindVariable id v).data = E.data := rfl

@[simp] lemma bindVariable_locals : (E.bindVariable id v).locals = E.locals := rfl

@[simp] lemma bindVariable_counters_self : (E.bindVariable id v).counters id = some v :=
  Function.update_self ..

lemma bindVariable_counters_of_ne {j : ℕ} (h : j ≠ id) :
    (E.bindVariable id v).counters j = E.counters j :=
  Function.update_of_ne h ..

end Surroundings

section Statements

variable (ops : Arithmetic Option)

mutual

/-- The value of a computation. -/
def Code.evaluate (E : Surroundings) : Code → Option Value
  | .param k => E.params[k]?
  | .hoisted id => E.locals id
  | .loopVariable id => E.counters id
  | .captured slot => E.data[slot]?
  | .number n => some (.number n)
  | .unbound _ => none
  | .tuple items => do return .tuple (← Code.evaluateAll E items)
  | .apply target argument => do
    let t ← target.evaluate E
    let a ← argument.evaluate E
    ops.apply t a
  | .sum terms => Code.evaluateFold ops.add E terms
  | .multiply factors => Code.evaluateFold ops.apply E factors
  | .inverse inner => do ops.inverse (← inner.evaluate E)
  | .transpose inner => do ops.transpose (← inner.evaluate E)
  | .generate rows cols row col element =>
    ops.grid rows cols fun i j => element.evaluate ((E.bindVariable row i).bindVariable col j)
  | .range counter lower upper body => do
    let first ← lower.evaluate E
    let last ← upper.evaluate E
    ops.range first last fun v => body.evaluate (E.bindVariable counter v)
  | .each counter collection body => do
    let items ← collection.evaluate E
    ops.each items fun v => body.evaluate (E.bindVariable counter v)

/-- The values of a list. -/
def Code.evaluateAll (E : Surroundings) : List Code → Option (List Value)
  | [] => some []
  | c :: cs => do
    let v ← c.evaluate E
    return v :: (← Code.evaluateAll E cs)

/-- The values of a list combined from left to right. -/
def Code.evaluateFold (op : Value → Value → Option Value) (E : Surroundings) :
    List Code → Option Value
  | [] => some (.number .zero)
  | c :: cs => do Code.evaluateOnto op E (← c.evaluate E) cs

/-- A value combined with those of a list from left to right. -/
def Code.evaluateOnto (op : Value → Value → Option Value) (E : Surroundings) (acc : Value) :
    List Code → Option Value
  | [] => some acc
  | c :: cs => do
    let v ← c.evaluate E
    Code.evaluateOnto op E (← op acc v) cs

/-- The value of a block. -/
def Block.evaluate (E : Surroundings) : Block → Option Value
  | .result value => value.evaluate E
  | .bind id code rest => do
    let v ← code.evaluate E
    rest.evaluate (E.bindLocal id v)

end

/-- The surroundings after locals are bound in order. -/
def evaluateLocals (E : Surroundings) : List (ℕ × Code) → Option Surroundings
  | [] => some E
  | (id, code) :: rest => do
    let v ← code.evaluate ops E
    evaluateLocals (E.bindLocal id v) rest

/-- A block binds its locals and then gives its result. -/
lemma Block.evaluate_ofLocals (E : Surroundings) (locals : List (ℕ × Code)) (value : Code) :
    (Block.ofLocals locals value).evaluate ops E =
      (evaluateLocals ops E locals).bind (value.evaluate ops ·) := by
  induction locals generalizing E with
  | nil =>
    show (Block.result value).evaluate ops E = _
    rw [Block.evaluate, evaluateLocals, Option.bind_some]
  | cons entry locals ih =>
    obtain ⟨id, code⟩ := entry
    show (Block.bind id code (Block.ofLocals locals value)).evaluate ops E = _
    rw [Block.evaluate, evaluateLocals]
    cases code.evaluate ops E with
    | none => rfl
    | some v => exact ih (E.bindLocal id v)

/-- The values of all results of a function. -/
def SourceFunction.evaluate (f : SourceFunction) (E : Surroundings) : Option Evaluation := do
  let E ← evaluateLocals ops E f.locals
  let value ← f.value.evaluate ops E
  let outputs ← Code.evaluateAll ops E f.outputs
  let arrays ← f.arrays.mapM (Code.evaluateAll ops E)
  return ⟨value, outputs, arrays⟩

end Statements

/-! ## Operands and bodies -/

namespace Expr

/-- The nodes that are evaluated whenever a node is, under the same bindings. -/
def operands (e : Expr) : List Expr :=
  match e.kind with
  | .tuple items => items
  | .apply target argument => [target, argument]
  | .sum items => items
  | .chain items => items
  | .inverse inner => [inner]
  | .transpose inner => [inner]
  | .indexedSum _ lower upper _ => [lower, upper]
  | .collectionSum _ collection _ => [collection]
  | _ => []

/-- The body of a summation or the element of a generator. -/
def body? (e : Expr) : Option Expr :=
  match e.kind with
  | .generator _ _ element => some element
  | .indexedSum _ _ _ body => some body
  | .collectionSum _ _ body => some body
  | _ => none

lemma mem_children_of_mem_operands {e c : Expr} (h : c ∈ e.operands) : c ∈ e.children := by
  unfold operands at h
  unfold children
  cases hkind : e.kind <;> rw [hkind] at h <;> simp only [Kind.children] <;> grind

lemma mem_children_of_body {e b : Expr} (h : e.body? = some b) : b ∈ e.children := by
  unfold body? at h
  unfold children
  cases hkind : e.kind <;> simp_all [Kind.children]

/-- The evaluation of the second expression reads the value of the first, under the same
bindings. -/
inductive Reads (a : Expr) : Expr → Prop
  | refl : Reads a a
  | step {b c : Expr} : c ∈ b.operands → Reads a c → Reads a b

end Expr

/-! ## Partial values -/

section Partial

variable {α β γ : Type}

/-- Whatever `o` gives, `o'` gives too. -/
def Refines (o o' : Option α) : Prop :=
  ∀ a, o = some a → o' = some a

namespace Refines

@[simp] lemma refl (o : Option α) : Refines o o := fun _ h => h

lemma bind {o o' : Option α} {f g : α → Option β} (h : Refines o o')
    (hfg : ∀ a, Refines (f a) (g a)) : Refines (o >>= f) (o' >>= g) := by
  intro b hb
  obtain ⟨a, ha, hfa⟩ := Option.bind_eq_some_iff.1 hb
  exact Option.bind_eq_some_iff.2 ⟨a, h a ha, hfg a b hfa⟩

lemma foldlM {f g : β → α → Option β} (hfg : ∀ b a, Refines (f b a) (g b a)) (l : List α) (b : β) :
    Refines (l.foldlM f b) (l.foldlM g b) := by
  induction l generalizing b with
  | nil => exact refl _
  | cons a l ih =>
    rw [List.foldlM_cons, List.foldlM_cons]
    exact (hfg b a).bind ih

lemma mapM {f g : α → Option β} (hfg : ∀ a, Refines (f a) (g a)) (l : List α) :
    Refines (l.mapM f) (l.mapM g) := by
  induction l with
  | nil => exact refl _
  | cons a l ih =>
    rw [List.mapM_cons, List.mapM_cons]
    exact (hfg a).bind fun b => ih.bind fun bs => refl _

end Refines

end Partial

namespace Arithmetic

/-- Operations on partial values that give no value where they fail. -/
class Strict (ops : Arithmetic Option) : Prop where
  /-- A failure gives no value. -/
  fail_eq_none : ∀ {α : Type} (e : Error), (ops.fail e : Option α) = none

variable (ops : Arithmetic Option)

lemma sumOver_refines {body body' : Value → Option Value} (h : ∀ v, Refines (body v) (body' v))
    (values : List Value) : Refines (ops.sumOver values body) (ops.sumOver values body') :=
  Refines.foldlM (fun _ v => (h v).bind fun _ => .refl _) values _

lemma range_refines {body body' : Value → Option Value} (h : ∀ v, Refines (body v) (body' v))
    (lower upper : Value) : Refines (ops.range lower upper body) (ops.range lower upper body') :=
  (Refines.refl _).bind fun _ => (Refines.refl _).bind fun _ => ops.sumOver_refines h _

lemma each_refines {body body' : Value → Option Value} (h : ∀ v, Refines (body v) (body' v))
    (collection : Value) : Refines (ops.each collection body) (ops.each collection body') := by
  unfold each
  split
  · exact ops.sumOver_refines h _
  · exact .refl _

lemma grid_refines {element element' : Value → Value → Option Value}
    (h : ∀ v w, Refines (element v w) (element' v w)) (rows cols : ℕ) :
    Refines (ops.grid rows cols element) (ops.grid rows cols element') := by
  unfold grid
  exact (Refines.mapM (fun _ => (h _ _).bind fun _ => .refl _) _).bind fun _ => .refl _

end Arithmetic

namespace Expr

variable {ops : Arithmetic Option} {b b' : Bindings}

section Lists

variable {op : Value → Value → Option Value} {l : List Expr}

attribute [local simp] evaluate evaluateAll evaluateFold evaluateOnto

lemma evaluateAll_refines (h : ∀ e ∈ l, Refines (e.evaluate ops b) (e.evaluate ops b')) :
    Refines (evaluateAll ops b l) (evaluateAll ops b' l) := by
  induction l with
  | nil => simp
  | cons e l ih =>
    rw [evaluateAll, evaluateAll]
    exact (h e (by simp)).bind fun _ => (ih fun c hc => h c (by simp [hc])).bind fun _ => .refl _

lemma evaluateOnto_refines (h : ∀ e ∈ l, Refines (e.evaluate ops b) (e.evaluate ops b'))
    (acc : Value) : Refines (evaluateOnto ops op b acc l) (evaluateOnto ops op b' acc l) := by
  induction l generalizing acc with
  | nil => simp
  | cons e l ih =>
    rw [evaluateOnto, evaluateOnto]
    exact (h e (by simp)).bind fun _ => (Refines.refl _).bind fun _ =>
      ih (fun c hc => h c (by simp [hc])) _

lemma evaluateFold_refines (h : ∀ e ∈ l, Refines (e.evaluate ops b) (e.evaluate ops b')) :
    Refines (evaluateFold ops op b l) (evaluateFold ops op b' l) := by
  cases l with
  | nil => simp
  | cons e l =>
    rw [evaluateFold, evaluateFold]
    exact (h e (by simp)).bind fun _ => evaluateOnto_refines (fun c hc => h c (by simp [hc])) _

lemma evaluateAll_eq_none {e : Expr} (he : e ∈ l) (h : e.evaluate ops b = none) :
    evaluateAll ops b l = none := by
  induction l with
  | nil => cases he
  | cons c l ih =>
    rw [evaluateAll]
    rcases List.mem_cons.1 he with rfl | he
    · rw [h]
      rfl
    · rw [ih he]
      cases c.evaluate ops b <;> rfl

lemma evaluateOnto_eq_none {e : Expr} (he : e ∈ l) (h : e.evaluate ops b = none) (acc : Value) :
    evaluateOnto ops op b acc l = none := by
  induction l generalizing acc with
  | nil => cases he
  | cons c l ih =>
    rw [evaluateOnto]
    rcases List.mem_cons.1 he with rfl | he
    · rw [h]
      rfl
    · cases c.evaluate ops b with
      | none => rfl
      | some v =>
        cases hop : op acc v with
        | none => simp [hop]
        | some acc' => simpa [hop] using ih he acc'

lemma evaluateFold_eq_none {e : Expr} (he : e ∈ l) (h : e.evaluate ops b = none) :
    evaluateFold ops op b l = none := by
  cases l with
  | nil => cases he
  | cons c l =>
    rw [evaluateFold]
    rcases List.mem_cons.1 he with rfl | he
    · rw [h]
      rfl
    · cases c.evaluate ops b with
      | none => rfl
      | some v => exact evaluateOnto_eq_none he h v

end Lists

/-- Further bindings of other symbols do not change the value of an expression that has one. -/
lemma evaluate_refines [ops.Strict] (hb : ∀ i, Refines (b.lookup i) (b'.lookup i)) (e : Expr) :
    Refines (e.evaluate ops b) (e.evaluate ops b') := by
  induction h : sizeOf e using Nat.strongRecOn generalizing e b b' with
  | _ n ih =>
    subst h
    have hchild {c : Expr} (hc : c ∈ e.children) {b b' : Bindings}
        (hb : ∀ i, Refines (b.lookup i) (b'.lookup i)) :
        Refines (c.evaluate ops b) (c.evaluate ops b') :=
      ih _ (sizeOf_lt_of_mem_children hc) hb c rfl
    -- A loop binds its index in front of both.
    have hcons (i : ℕ) (v : Value) {b b' : Bindings}
        (hb : ∀ i, Refines (b.lookup i) (b'.lookup i)) (j : ℕ) :
        Refines (List.lookup j ((i, v) :: b)) (List.lookup j ((i, v) :: b')) := by
      rw [List.lookup_cons, List.lookup_cons]
      split
      · exact .refl _
      · exact hb j
    obtain ⟨ordinal, domain, kind⟩ := e
    cases kind with
    | symbol name =>
      rw [evaluate, evaluate]
      cases hlookup : b.lookup ordinal with
      | none =>
        intro v hv
        rw [Arithmetic.Strict.fail_eq_none] at hv
        cases hv
      | some w =>
        rw [hb ordinal w hlookup]
        exact .refl _
    | number _ | object _ _ | field _ | function _ =>
      rw [evaluate, evaluate]
      exact .refl _
    | tuple items =>
      rw [evaluate, evaluate]
      exact (evaluateAll_refines fun c hc => hchild hc hb).bind fun _ => .refl _
    | apply target argument =>
      rw [evaluate, evaluate]
      exact (hchild (by simp [children, Kind.children, Expr.kind]) hb).bind fun _ =>
        (hchild (by simp [children, Kind.children, Expr.kind]) hb).bind fun _ => .refl _
    | sum items | chain items =>
      rw [evaluate, evaluate]
      exact evaluateFold_refines fun c hc => hchild hc hb
    | inverse inner | transpose inner =>
      rw [evaluate, evaluate]
      exact (hchild (by simp [children, Kind.children, Expr.kind]) hb).bind fun _ => .refl _
    | generator rows cols element =>
      rw [evaluate, evaluate]
      exact ops.grid_refines (fun v w => hchild (by simp [children, Kind.children, Expr.kind])
        (hcons _ w (hcons _ v hb))) rows cols
    | indexedSum index lower upper body =>
      rw [evaluate, evaluate]
      exact (hchild (by simp [children, Kind.children, Expr.kind]) hb).bind fun _ =>
        (hchild (by simp [children, Kind.children, Expr.kind]) hb).bind fun _ =>
          ops.range_refines (fun v => hchild (by simp [children, Kind.children, Expr.kind])
            (hcons _ v hb)) _ _
    | collectionSum index collection body =>
      rw [evaluate, evaluate]
      exact (hchild (by simp [children, Kind.children, Expr.kind]) hb).bind fun _ =>
        ops.each_refines (fun v => hchild (by simp [children, Kind.children, Expr.kind])
          (hcons _ v hb)) _

/-- An expression that reads one without a value has none. -/
lemma Reads.evaluate_eq_none {a e : Expr} (h : Reads a e) (ha : a.evaluate ops b = none) :
    e.evaluate ops b = none := by
  induction h with
  | refl => exact ha
  | @step e c hc _ ih =>
    obtain ⟨ordinal, domain, kind⟩ := e
    cases kind with
    | tuple items =>
      rw [evaluate, evaluateAll_eq_none (l := items) hc ih]
      rfl
    | sum items | chain items =>
      rw [evaluate]
      exact evaluateFold_eq_none (l := items) hc ih
    | apply target argument =>
      rw [evaluate]
      simp only [operands, Expr.kind, List.mem_cons, List.not_mem_nil, or_false] at hc
      rcases hc with rfl | rfl
      · simp [ih]
      · cases target.evaluate ops b <;> simp [ih]
    | inverse inner | transpose inner =>
      simp only [operands, Expr.kind, List.mem_singleton] at hc
      rw [evaluate, ← hc, ih]
      rfl
    | indexedSum index lower upper body =>
      rw [evaluate]
      simp only [operands, Expr.kind, List.mem_cons, List.not_mem_nil, or_false] at hc
      rcases hc with rfl | rfl
      · simp [ih]
      · cases lower.evaluate ops b <;> simp [ih]
    | collectionSum index collection body =>
      simp only [operands, Expr.kind, List.mem_singleton] at hc
      rw [evaluate, ← hc, ih]
      rfl
    | _ => cases hc

end Expr

end TermGraph
