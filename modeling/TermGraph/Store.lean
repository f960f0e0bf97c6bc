import TermGraph.Error
import Std.Data.TreeMap

/-!
# The store of nodes

The store keeps every node that was ever made, in order of creation, and a table from the
structure of a node to the node.  Asking for a node whose structure is in the table gives the node
that is there; otherwise a new node with the next ordinal is made.  Symbols have no structure of
their own, so every request for one makes a new node.

* `Kind.code` is the structure of a node: its kind, its own data, and the ordinals of its children.
* `Store.intern` finds or makes a node.
* `Build` is the monad of computations on the store.  A failing computation keeps the nodes that it
  made before it failed.  The natural number that a computation reads bounds the depth of
  recursions that have no smaller bound of their own.
* `Memoized` adds a memo table to `Build`, which also survives failures.
-/

namespace TermGraph

namespace Kind

/-- The structure of a node, which is equal exactly for equal kinds with the same children.
Symbols have none. -/
def code : Kind → Option (List Nat)
  | .symbol _ => none
  | .number n => some (0 :: n.code)
  | .object v resolver => some (1 :: v.identity :: resolver :: v.hostType.code)
  | .field name => some (2 :: name.toList.map Char.toNat)
  | .function f => some (3 :: f.code)
  | .tuple items => some (4 :: items.map Expr.ordinal)
  | .apply target argument => some [5, target.ordinal, argument.ordinal]
  | .sum terms => some (6 :: terms.map Expr.ordinal)
  | .generator rows cols element => some [7, rows, cols, element.ordinal]
  | .chain factors => some (8 :: factors.map Expr.ordinal)
  | .inverse inner => some [9, inner.ordinal]
  | .transpose inner => some [10, inner.ordinal]
  | .indexedSum index lower upper body =>
    some [11, index.ordinal, lower.ordinal, upper.ordinal, body.ordinal]
  | .collectionSum index collection body =>
    some [12, index.ordinal, collection.ordinal, body.ordinal]

end Kind

/-- The symbol that summations of one nesting level over one domain bind. -/
structure Placeholder where
  /-- The nesting level, counted from one. -/
  level : Nat
  /-- The domain of the index. -/
  domain : Domain
  /-- The symbol itself. -/
  symbol : Expr

/-- How often a resolver has answered on values. -/
structure Tally where
  /-- Fields read. -/
  fields : Nat := 0
  /-- Elements fetched. -/
  elements : Nat := 0
deriving DecidableEq, Repr, Inhabited

/-- All nodes made so far, and what else a run remembers. -/
structure Store where
  /-- The nodes by ordinal. -/
  nodes : Array Expr
  /-- The node of each structure. -/
  table : Std.TreeMap (List Nat) Expr
  /-- The placeholders in use. -/
  placeholders : List Placeholder
  /-- The next identity of a function, a captured value, a custom domain or a resolver. -/
  nextIdentity : Nat
  /-- The tallies of the resolvers by their identity. -/
  tallies : Std.TreeMap Nat Tally
  /-- Whether every operation on integer literals so far gave an integer. -/
  exact : Bool
  /-- The indices that summations were given so far, each with the body that it was chosen for, the
  last one first. -/
  bound : List (Expr × Expr)

namespace Store

/-- The number of levels for which placeholders exist from the start. -/
def placeholderLevels : Nat := 16

/-- The placeholder symbol of a level. -/
def placeholderName (level : Nat) : String :=
  "_" ++ Nat.repr level

/-- The placeholders that exist from the start: those over the integers, then over the reals, then
over the matrices, each level in turn. -/
def firstPlaceholders : List Placeholder :=
  [(0, Domain.integers), (1, Domain.reals), (2, Domain.matrices)].flatMap fun (row, domain) =>
    (List.range placeholderLevels).map fun k =>
      { level := k + 1
        domain := domain
        symbol := .node (2 + row * placeholderLevels + k) domain (.symbol (placeholderName (k + 1))) }

/-- The store before anything is built: the row and column index and the first placeholders. -/
def initial : Store where
  nodes := (Expr.rowIndex :: Expr.colIndex :: firstPlaceholders.map Placeholder.symbol).toArray
  table := ∅
  placeholders := firstPlaceholders
  nextIdentity := 1
  tallies := ∅
  exact := true
  bound := []

/-- The node of a kind, made in `domain` if there is none yet. -/
def intern (domain : Domain) (kind : Kind) (s : Store) : Expr × Store :=
  match kind.code with
  | none =>
    let e : Expr := .node s.nodes.size domain kind
    (e, { s with nodes := s.nodes.push e })
  | some code =>
    match s.table[code]? with
    | some e => (e, s)
    | none =>
      let e : Expr := .node s.nodes.size domain kind
      (e, { s with nodes := s.nodes.push e, table := s.table.insert code e })

/-- The placeholder of a level over a domain, made if there is none yet. -/
def placeholder (level : Nat) (domain : Domain) (s : Store) : Expr × Store :=
  match s.placeholders.find? fun p => p.level == level && p.domain == domain with
  | some p => (p.symbol, s)
  | none =>
    let (e, s) := s.intern domain (.symbol (placeholderName level))
    (e, { s with placeholders := s.placeholders ++ [⟨level, domain, e⟩] })

/-- An identity that nothing else has. -/
def fresh (s : Store) : Nat × Store :=
  (s.nextIdentity, { s with nextIdentity := s.nextIdentity + 1 })

/-- Notes whether some operations kept to the integers. -/
def settle (t : Number.Tracked) (s : Store) : Number × Store :=
  (t.value, { s with exact := s.exact && t.kept })

/-- Notes that a summation over `body` is given `index`. -/
def noteIndex (index body : Expr) (s : Store) : Unit × Store :=
  ((), { s with bound := (index, body) :: s.bound })

/-- The tally of a resolver. -/
def tally (s : Store) (resolver : Resolver) : Tally :=
  s.tallies.getD resolver.identity {}

/-- Changes the tally of a resolver. -/
def modifyTally (f : Tally → Tally) (resolver : Resolver) (s : Store) : Store :=
  { s with tallies := s.tallies.insert resolver.identity (f (s.tally resolver)) }

end Store

/-! ## Computations on the store -/

/-- A computation on the store that may fail.  It reads the bound on the depth of recursion. -/
abbrev Build := ReaderT Nat (EStateM Error Store)

/-- A computation on the store that also keeps a memo of type `μ`. -/
abbrev Memoized (μ : Type) := ReaderT Nat (EStateM Error (Store × μ))

namespace Build

/-- Runs a state change that cannot fail. -/
def step {α : Type} (f : Store → α × Store) : Build α :=
  fun _ s => let (a, s) := f s; .ok a s

/-- Finds or makes a node. -/
def intern (domain : Domain) (kind : Kind) : Build Expr :=
  step (Store.intern domain kind)

/-- An identity that nothing else has. -/
def fresh : Build Nat :=
  step Store.fresh

/-- The literal that some operations led to; the store notes whether they kept to the integers. -/
def settle (t : Number.Tracked) : Build Number :=
  step (Store.settle t)

/-- Notes that a summation over `body` is given `index`. -/
def noteIndex (index body : Expr) : Build Unit :=
  step (Store.noteIndex index body)

/-- The value of a computation that fails with one of the errors of a part. -/
def ofExcept {ε α : Type} (toError : ε → Error) : Except ε α → Build α
  | .ok a => pure a
  | .error e => throw (toError e)

/-- Runs a computation with a memo, and gives the memo back along with the outcome. -/
def withMemo {μ α : Type} (memo : μ) (x : Memoized μ α) : Build (Except Error α × μ) :=
  fun depth s =>
    match x depth (s, memo) with
    | .ok a (s, memo) => .ok (.ok a, memo) s
    | .error e (s, memo) => .ok (.error e, memo) s

/-- Runs a computation with a memo that is not needed afterwards. -/
def forgetting {μ α : Type} (memo : μ) (x : Memoized μ α) : Build α := do
  let (outcome, _) ← withMemo memo x
  ofExcept id outcome

/-- Runs a computation and turns a failure into a value. -/
def attempt {α : Type} (x : Build α) : Build (Except Error α) :=
  fun depth s =>
    match x depth s with
    | .ok a s => .ok (.ok a) s
    | .error e s => .ok (.error e) s

end Build

namespace Memoized

/-- A computation on the store leaves the memo alone. -/
def lift {μ α : Type} (x : Build α) : Memoized μ α :=
  fun depth (s, memo) =>
    match x depth s with
    | .ok a s => .ok a (s, memo)
    | .error e s => .error e (s, memo)

instance {μ : Type} : MonadLift Build (Memoized μ) := ⟨lift⟩

/-- The memo. -/
def memo {μ : Type} : Memoized μ μ :=
  fun _ (s, memo) => .ok memo (s, memo)

/-- Changes the memo. -/
def modifyMemo {μ : Type} (f : μ → μ) : Memoized μ Unit :=
  fun _ (s, memo) => .ok () (s, f memo)

end Memoized

end TermGraph
