import TermGraph.Evaluation.Basic

/-!
# Normalization

Normalization goes beyond what construction already does.  From the leaves up, it

* evaluates applications, sums and matrix operations whose operands are all constant;
* writes `(a*b)^e` as `a^e * b^e` for scalars and `(x^a)^b` as `x^(a*b)`;
* writes the transpose of a product as the product of the transposes in reverse;
* writes out summations over constant ranges and arrays, and generators with constant entries, up
  to a limit.

A node is normalized after its children, and normalized again as long as something changes.
Results are remembered by node in the normalizer, and a result is its own result.
-/

namespace TermGraph

/-- How to normalize. -/
structure NormalSettings extends Evaluator where
  /-- The most terms or entries that are written out. -/
  maxUnroll : Nat := 4096

namespace Expr

/-- `(a*b)^e` as `a^e * b^e`, and `(x^a)^b` as `x^(a*b)`. -/
def reducePower (base exponent : Expr) : Build (Option Expr) :=
  if base.isProduct && base.domain.isScalar then do
    let raised ← base.factors.mapM fun f => power f exponent
    some <$> product raised
  else
    match base.power? with
    | some (innerBase, innerExponent) => do
      let merged ← product [innerExponent, exponent]
      some <$> power innerBase merged
    | none => pure none

/-- The transpose of a constant, of a matrix product or of a scaled matrix. -/
def reduceTranspose (ev : Evaluator) (inner : Expr) : Build (Option Expr) :=
  match inner.value? with
  | some v => do some <$> constant .declared (← ev.transpose v)
  | none =>
    match inner.kind with
    | .chain items => do
      let transposed ← items.reverse.mapM transpose
      some <$> chain transposed
    | _ =>
      if inner.isProduct then do
        let transposed ← inner.factors.mapM transpose
        some <$> product transposed
      else
        pure none

/-- Adds a factor at the end of a chain that is kept in reverse, multiplied with the last one if
both are constant.  The flag says whether anything was multiplied. -/
def foldFactor (apply : Value → Value → Build Value) (state : List Expr × Bool) (factor : Expr) :
    Build (List Expr × Bool) :=
  match state.1, factor.value? with
  | last :: rest, some next =>
    match last.value? with
    | some previous => do
      let folded ← constant .declared (← apply previous next)
      return (folded :: rest, true)
    | none => pure (factor :: last :: rest, state.2)
  | reversed, _ => pure (factor :: reversed, state.2)

/-- The bodies of a summation with its index replaced by the integers from `first` on. -/
def unrolled (index body : Expr) (first : Int) : (count : Nat) → Build (List Expr)
  | 0 => pure []
  | count + 1 => do
    let k ← int (Int64.ofInt first)
    let term ← substitute [(index, k)] body
    return term :: (← unrolled index body (first + 1) count)

/-- The bodies of a summation with its index replaced by the items of an array. -/
def unrolledOver (index body : Expr) : List Value → Build (List Expr)
  | [] => pure []
  | item :: items => do
    let v ← constant .declared item
    let term ← substitute [(index, v)] body
    return term :: (← unrolledOver index body items)

/-- The row and column positions of a matrix, column by column. -/
def positions (rows cols : Nat) : List (Nat × Nat) :=
  (List.range (rows * cols)).map fun k => (k % rows, k / rows)

/-- The entries of a generator at the given positions, normalized by `visit`, if all are literals. -/
def entriesAt (visit : Expr → Memoized Memo Expr) (element : Expr) :
    List (Nat × Nat) → Memoized Memo (Option (List Float))
  | [] => pure (some [])
  | (i, j) :: rest => do
    let row ← int (Int64.ofNat i)
    let col ← int (Int64.ofNat j)
    let entry ← visit (← substitute [(rowIndex, row), (colIndex, col)] element)
    match entry.number? with
    | none => pure none
    | some n => return (← entriesAt visit element rest).map (n.toFloat :: ·)

/-- A generator whose entries depend on the row and column alone, as a constant matrix. -/
def tabulate (visit : Expr → Memoized Memo Expr) (maxUnroll rows cols : Nat) (element : Expr) :
    Memoized Memo (Option Expr) :=
  if element.freeSymbols.any fun s => s != rowIndex && s != colIndex then pure none
  else if maxUnroll < rows * cols then pure none
  else do
    match ← entriesAt visit element (positions rows cols) with
    | some entries => some <$> (ofMatrix (.ofColumns rows cols entries.toArray) : Build Expr)
    | none => pure none

/-- One step on a node whose children are normal.  `apply` evaluates applications and `visit`
normalizes. -/
def reduceNode (settings : NormalSettings) (apply : Value → Value → Build Value)
    (visit : Expr → Memoized Memo Expr) (e : Expr) : Memoized Memo (Option Expr) :=
  match e.kind with
  | .apply target argument =>
    match target.value?, argument.value? with
    | some t, some a => do some <$> (constant .declared (← apply t a) : Build Expr)
    | _, _ =>
      match e.power? with
      | some (base, exponent) => reducePower base exponent
      | none => pure none
  | .sum items =>
    match values? items with
    | some values => do some <$> (constant .declared (← settings.sum values) : Build Expr)
    | none => pure none
  | .chain items => do
    let (reversed, folded) ← (items.foldlM (foldFactor apply) ([], false) : Build _)
    if folded then some <$> (chain reversed.reverse : Build Expr) else pure none
  | .inverse inner =>
    match inner.value? with
    | some v => do some <$> (constant .declared (← settings.inverse v) : Build Expr)
    | none => pure none
  | .transpose inner => reduceTranspose settings.toEvaluator inner
  | .generator rows cols element => tabulate visit settings.maxUnroll rows cols element
  | .indexedSum index lower upper body =>
    match lower.number?, upper.number? with
    | some (.int lo), some (.int hi) =>
      let count := hi.toInt - lo.toInt + 1
      if count ≤ 0 then some <$> (zero : Build Expr)
      else if settings.maxUnroll < count.toNat then pure none
      else do
        let terms ← unrolled index body lo.toInt count.toNat
        some <$> (sum terms : Build Expr)
    | _, _ => pure none
  | .collectionSum index collection body =>
    match collection.value? with
    | some (.array _ _ items) =>
      if settings.maxUnroll < items.length then pure none
      else do
        let terms ← unrolledOver index body items
        some <$> (sum terms : Build Expr)
    | _ => pure none
  | _ => pure none

/-- Goes on with the node over its new children, or else with what one step makes of it, until
nothing changes. -/
def settleNode (visit : Expr → Memoized Memo Expr) (reduce : Memoized Memo (Option Expr))
    (e rebuilt : Expr) : Memoized Memo Expr :=
  if rebuilt == e then do
    match ← reduce with
    | some next => if next == e then pure e else visit next
    | none => pure e
  else
    visit rebuilt

/-- Normalization with a memo and a bound on the depth of recursion. -/
def normalizeAux : Nat → NormalSettings → Expr → Memoized Memo Expr
  | 0, _, _ => throw .depthExceeded
  | depth + 1, settings, e => do
    match (← Memoized.memo)[e.ordinal]? with
    | some known => pure known
    | none =>
      let visit := normalizeAux depth settings
      let call := Function.evaluateWith fun body =>
        Build.forgetting ∅ (normalizeAux depth { toEvaluator := settings.toEvaluator } body)
      let apply := settings.applyWith call
      let children ← e.children.mapM visit
      let rebuilt ← rebuild e children
      let result ← settleNode visit (reduceNode settings apply visit e) e rebuilt
      Memoized.modifyMemo fun m => (m.insert e.ordinal result).insert result.ordinal result
      pure result

end Expr

/-- Settings of normalization together with the results so far. -/
structure Normalizer where
  /-- How to normalize. -/
  settings : NormalSettings := {}
  /-- The results so far. -/
  memo : Memo := ∅

namespace Normalizer

/-- Reads members through another resolver; the results so far are dropped. -/
def withResolver (n : Normalizer) (resolver : Resolver) : Normalizer :=
  ⟨{ n.settings with resolver := resolver }, ∅⟩

/-- Computes matrices by another arithmetic; the results so far are dropped. -/
def withMatrices (n : Normalizer) (matrices : MatrixArithmetic) : Normalizer :=
  ⟨{ n.settings with matrices := matrices }, ∅⟩

/-- Writes out up to another number of terms; the results so far are dropped. -/
def withMaxUnroll (n : Normalizer) (maxUnroll : Nat) : Normalizer :=
  ⟨{ n.settings with maxUnroll := maxUnroll }, ∅⟩

/-- Drops the results so far. -/
def reset (n : Normalizer) : Normalizer :=
  { n with memo := ∅ }

/-- The normal form of an expression.  The normalizer that comes back knows the new results, also
after a failure. -/
def normalize (n : Normalizer) (e : Expr) : Build (Except Error Expr × Normalizer) := do
  let depth ← read
  let (outcome, memo) ← Build.withMemo n.memo (Expr.normalizeAux depth n.settings e)
  return (outcome, { n with memo := memo })

end Normalizer

namespace Expr

/-- The normal form of an expression under given settings. -/
def normalizeWith (settings : NormalSettings) (e : Expr) : Build Expr := do
  let depth ← read
  Build.forgetting ∅ (normalizeAux depth settings e)

/-- The normal form of an expression. -/
def normalize (e : Expr) : Build Expr :=
  normalizeWith {} e

end Expr

namespace Function

/-- The value of a call. -/
def evaluate (ev : Evaluator) (f : Function) (args : List Value) : Build Value :=
  f.evaluateWith (Expr.normalizeWith { toEvaluator := ev }) args

end Function

namespace Evaluator

/-- The evaluator with a resolver and dense matrices. -/
instance : Coe Resolver Evaluator where
  coe resolver := { resolver := resolver }

/-- One value applied to another. -/
def apply (ev : Evaluator) (target argument : Value) : Build Value :=
  ev.applyWith (Function.evaluate ev) target argument

end Evaluator

/-! ## With dense matrices -/

namespace Value

/-- One value applied to another, members read through `resolver`. -/
def apply (resolver : Resolver) (target argument : Value) : Build Value :=
  (resolver : Evaluator).apply target argument

/-- The sum of two values. -/
def add (left right : Value) : Build Value :=
  ({} : Evaluator).add left right

/-- The sum of values in order, beginning with the integer zero. -/
def sum (values : List Value) : Build Value :=
  ({} : Evaluator).sum values

/-- The inverse of a value. -/
def inverse (v : Value) : Build Value :=
  ({} : Evaluator).inverse v

/-- The transpose of a value. -/
def transpose (v : Value) : Build Value :=
  ({} : Evaluator).transpose v

end Value

end TermGraph
