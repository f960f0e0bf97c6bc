import TermGraph.Expr.Leaf
import TermGraph.Expr.Walk

/-!
# Substitution and summations

Substitution replaces all given expressions at once.  A node above a replacement is rebuilt from
its new children by a function that is handed in, so the result is as canonical as if it had been
built from scratch; a shared node is rebuilt once.  A summation that binds one of the replaced
symbols shields its body.

A summation is built in two halves.  The first half checks the range and makes a symbol for the
index; the caller writes the body with that symbol; the second half writes the body with the
placeholder for its nesting level instead.  Summations that differ by the name of the index alone
are thereby one node, and no summation binds the placeholder of one around it.
-/

namespace TermGraph

/-- Expressions by the ordinal of another. -/
abbrev Memo := Std.TreeMap Nat Expr

namespace Memoized

/-- The remembered result for a node, or else the result of `x`, which is remembered. -/
def remember (e : Expr) (x : Memoized Memo Expr) : Memoized Memo Expr := do
  match (← memo)[e.ordinal]? with
  | some known => pure known
  | none =>
    let result ← x
    modifyMemo (·.insert e.ordinal result)
    pure result

end Memoized

namespace Expr

/-- Gives a node new children. -/
abbrev Rebuild := Expr → List Expr → Build Expr

/-- The replacements of a list of pairs; of two pairs for one expression the later one counts. -/
def replacements (pairs : List (Expr × Expr)) : Memo :=
  pairs.foldl (fun map (key, value) => if key == value then map else map.insert key.ordinal value) ∅

mutual

/-- Substitution with a memo. -/
def substituteFrom (rebuild : Rebuild) (map : Memo) (e : Expr) : Memoized Memo Expr :=
  match map[e.ordinal]? with
  | some replacement => pure replacement
  | none =>
    .remember e <|
      match e with
      | .node _ _ (.tuple items) => do rebuild e (← substituteAll rebuild map items)
      | .node _ _ (.apply target argument) => do
        let target ← substituteFrom rebuild map target
        let argument ← substituteFrom rebuild map argument
        rebuild e [target, argument]
      | .node _ _ (.sum items) => do rebuild e (← substituteAll rebuild map items)
      | .node _ _ (.generator _ _ element) => do
        rebuild e [← substituteFrom rebuild map element]
      | .node _ _ (.chain items) => do rebuild e (← substituteAll rebuild map items)
      | .node _ _ (.inverse inner) => do rebuild e [← substituteFrom rebuild map inner]
      | .node _ _ (.transpose inner) => do rebuild e [← substituteFrom rebuild map inner]
      | .node _ _ (.indexedSum index lower upper body) => do
        if map.contains index.ordinal then
          let lower ← substituteFrom rebuild map lower
          let upper ← substituteFrom rebuild map upper
          rebuild e [index, lower, upper, body]
        else
          let lower ← substituteFrom rebuild map lower
          let upper ← substituteFrom rebuild map upper
          let body ← substituteFrom rebuild map body
          rebuild e [index, lower, upper, body]
      | .node _ _ (.collectionSum index collection body) => do
        if map.contains index.ordinal then
          let collection ← substituteFrom rebuild map collection
          rebuild e [index, collection, body]
        else
          let collection ← substituteFrom rebuild map collection
          let body ← substituteFrom rebuild map body
          rebuild e [index, collection, body]
      | _ => pure e

/-- Substitution in a list of expressions. -/
def substituteAll (rebuild : Rebuild) (map : Memo) : List Expr → Memoized Memo (List Expr)
  | [] => pure []
  | e :: es => do
    let e ← substituteFrom rebuild map e
    return e :: (← substituteAll rebuild map es)

end

/-- The expression with every key of `pairs` replaced, nodes rebuilt by `rebuild`. -/
def substituteWith (rebuild : Rebuild) (pairs : List (Expr × Expr)) (e : Expr) : Build Expr :=
  let map := replacements pairs
  if map.isEmpty then pure e else Build.forgetting ∅ (substituteFrom rebuild map e)

/-! ## Summations -/

/-- Substitution as a summation uses it. -/
abbrev Substitute := List (Expr × Expr) → Expr → Build Expr

/-- The domain of the sum of a body with itself. -/
def bodyDomain (body : Expr) : Build Domain :=
  match body.domain.resolveSum? body.domain with
  | some d => pure d
  | none => throw (.unsupportedSum body body.domain body)

/-- Writes a body with the placeholder of its nesting level for `temporary`. -/
def bindIndex (substitute : Substitute) (temporary body : Expr) : Build (Expr × Expr) := do
  let index ← Build.step (Store.placeholder (body.nesting + 1) temporary.domain)
  Build.noteIndex index body
  let body ← substitute [(temporary, index)] body
  return (index, body)

/-- Begins a summation over a range: both bounds must be integral, and the result is the symbol to
write the body with. -/
def beginIndexedSum (lower upper : Expr) : Build Expr := do
  if !lower.domain.isIntegral then throw (.boundNotIntegral lower)
  if !upper.domain.isIntegral then throw (.boundNotIntegral upper)
  symbol "i" .integers

/-- Ends a summation over a range. -/
def endIndexedSumWith (substitute : Substitute) (lower upper temporary body : Expr) :
    Build Expr := do
  let domain ← bodyDomain body
  let (index, body) ← bindIndex substitute temporary body
  Build.intern domain (.indexedSum index lower upper body)

/-- The domain of the elements of a collection. -/
def elementDomain (collection : Expr) : Build Domain :=
  match collection.domain with
  | .host type resolver => Build.ofExcept .member (Domain.ofElement type resolver [.integers])
  | other =>
    match other.nativeType? with
    | some type => Build.ofExcept .member (Domain.ofElement type .declared [.integers])
    | none => throw (.notACollection collection)

/-- Begins a summation over a collection: the result is the symbol for an element to write the body
with. -/
def beginCollectionSum (collection : Expr) : Build Expr := do
  symbol "v" (← elementDomain collection)

/-- Ends a summation over a collection. -/
def endCollectionSumWith (substitute : Substitute) (collection temporary body : Expr) :
    Build Expr := do
  let domain ← bodyDomain body
  let (index, body) ← bindIndex substitute temporary body
  Build.intern domain (.collectionSum index collection body)

end Expr

end TermGraph
