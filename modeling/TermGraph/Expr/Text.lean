import TermGraph.Host.Value

/-!
# Text of expressions

Expressions are written with as few parentheses as the strength of their operators allows:
`2*x + 3*y`, `x^2*sin(x)`, `r.F`, `a[k + 1]`, `inv(A)*B'`, `sum(_1 = 0..n, _1^2)`.

* A term of a sum with a negative coefficient is written with a minus sign.
* The coefficient `-1` of a product is written as a leading minus sign.
* The base of a power, and an exponent that is not a literal, stand in parentheses unless they
  are atoms.
-/

namespace TermGraph

/-- How strongly the outermost operator of an expression binds, from weak to strong. -/
inductive Strength where
  /-- Sums. -/
  | sum
  /-- Products and negative literals. -/
  | product
  /-- Powers. -/
  | power
  /-- All else. -/
  | atom
deriving DecidableEq, Repr, Inhabited

namespace Strength

/-- The rank of a strength. -/
def rank : Strength → Nat
  | .sum => 0
  | .product => 1
  | .power => 2
  | .atom => 3

end Strength

namespace Expr

/-- The strength of the outermost operator. -/
def strength (e : Expr) : Strength :=
  match e.kind with
  | .sum _ => .sum
  | .number n => if n.isNegative then .product else .atom
  | .chain _ => .product
  | .apply _ _ =>
    if e.isProduct then .product
    else if e.power?.isSome then .power
    else .atom
  | _ => .atom

/-- The text of `e` in a place that needs strength `least`. -/
def enclosed (e : Expr) (least : Strength) (text : String) : String :=
  if e.strength.rank < least.rank then "(" ++ text ++ ")" else text

/-- A factor of a product: its text there and, for a literal, its value. -/
structure Factor where
  /-- The value of a literal factor. -/
  literal : Option Number
  /-- The text inside a product. -/
  text : String

/-- The text of an expression, and the texts of its factors for the product or sum that it stands
in. -/
structure Rendering where
  /-- The text on its own. -/
  text : String
  /-- Whether the expression is a product. -/
  isProduct : Bool
  /-- The factors of a product, or the expression itself as the only factor. -/
  factors : List Factor

/-- Texts joined by `*` behind a coefficient.  The coefficient one is left out and the integer
`-1` is a minus sign. -/
def productText (coefficient : Option Number) (factors : List Factor) : String :=
  let texts := factors.map Factor.text
  match coefficient with
  | some c =>
    if c = .int (-1) then "-" ++ "*".intercalate texts
    else if c.isOne then "*".intercalate texts
    else "*".intercalate (c.text :: texts)
  | none => "*".intercalate texts

/-- The rendering of an expression that is not a product. -/
def Rendering.single (e : Expr) (text : String) : Rendering :=
  ⟨text, false, [⟨e.number?, enclosed e .power text⟩]⟩

/-- The rendering of a product of two others; a literal at the front is its coefficient. -/
def Rendering.product (left right : Rendering) : Rendering :=
  let factors := left.factors ++ right.factors
  match factors with
  | ⟨some c, _⟩ :: rest => ⟨productText (some c) rest, true, factors⟩
  | _ => ⟨productText none factors, true, factors⟩

/-- The text of one term of a sum with the sign in front of it. -/
def Rendering.termText (first : Bool) (r : Rendering) : String :=
  let plus := if first then "" else " + "
  match r.isProduct, r.factors with
  | false, [⟨some n, _⟩] =>
    if !first && n.isNegative then " - " ++ n.neg.text else plus ++ n.text
  | true, ⟨some c, _⟩ :: rest =>
    if !first && c.isNegative then " - " ++ productText (some c.neg) rest
    else plus ++ productText (some c) rest
  | _, factors => plus ++ productText none factors

/-- The text of a sum. -/
def Rendering.sumText : List Rendering → String
  | [] => ""
  | r :: rs => r.termText true ++ String.join (rs.map (Rendering.termText false))

/-- Texts separated by commas. -/
def Rendering.listText (rs : List Rendering) : String :=
  ", ".intercalate (rs.map Rendering.text)

mutual

/-- The rendering of an expression. -/
def render (e : Expr) : Rendering :=
  match e with
  | .node _ _ (.symbol name) => .single e name
  | .node _ _ (.number n) => .single e n.text
  | .node _ _ (.object v _) => .single e v.text
  | .node _ _ (.field name) => .single e ("." ++ name)
  | .node _ _ (.function f) => .single e f.name
  | .node _ _ (.tuple items) => .single e ("(" ++ Rendering.listText (renderAll items) ++ ")")
  | .node _ _ (.sum terms) => .single e (Rendering.sumText (renderAll terms))
  | .node _ _ (.apply target argument) =>
    if multiplies target argument then
      .product target.render argument.render
    else
      .single e <|
        match target, argument with
        | .node _ _ (.function (.builtin .pow)), .node _ _ (.tuple [base, exponent]) =>
          let raised := exponent.render.text
          enclosed base .atom base.render.text ++ "^" ++
            (if exponent.number?.isSome then raised else enclosed exponent .atom raised)
        | .node _ _ (.function f), .node _ _ (.tuple items) =>
          let list := Rendering.listText (renderAll items)
          if f.arity = 1 then f.name ++ "((" ++ list ++ "))" else f.name ++ "(" ++ list ++ ")"
        | .node _ _ (.function f), argument => f.name ++ "(" ++ argument.render.text ++ ")"
        | target, .node _ _ (.field name) => enclosed target .atom target.render.text ++ "." ++ name
        | target, .node _ _ (.tuple items) =>
          enclosed target .atom target.render.text ++ "[" ++ Rendering.listText (renderAll items) ++ "]"
        | target, argument =>
          enclosed target .atom target.render.text ++ "[" ++ argument.render.text ++ "]"
  | .node _ _ (.generator rows cols element) =>
    .single e
      ("[i,j => " ++ element.render.text ++ "; " ++ Nat.repr rows ++ "x" ++ Nat.repr cols ++ "]")
  | .node _ _ (.chain factors) => .single e ("*".intercalate (renderChain factors))
  | .node _ _ (.inverse inner) => .single e ("inv(" ++ inner.render.text ++ ")")
  | .node _ _ (.transpose inner) => .single e (enclosed inner .atom inner.render.text ++ "'")
  | .node _ _ (.indexedSum index lower upper body) =>
    .single e
      ("sum(" ++ index.render.text ++ " = " ++ lower.render.text ++ ".." ++ upper.render.text ++
        ", " ++ body.render.text ++ ")")
  | .node _ _ (.collectionSum index collection body) =>
    .single e
      ("sum(" ++ index.render.text ++ " in " ++ collection.render.text ++ ", " ++
        body.render.text ++ ")")

/-- The renderings of a list of expressions. -/
def renderAll : List Expr → List Rendering
  | [] => []
  | e :: es => e.render :: renderAll es

/-- The texts of the factors of a matrix product. -/
def renderChain : List Expr → List String
  | [] => []
  | e :: es => enclosed e .power e.render.text :: renderChain es

end

/-- Text of an expression. -/
def text (e : Expr) : String :=
  e.render.text

end Expr

end TermGraph
