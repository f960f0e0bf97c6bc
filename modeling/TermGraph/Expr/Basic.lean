import TermGraph.Domain

/-!
# Expressions, functions and host values

An expression is a node with three parts: its ordinal, which is its place in the order of
creation, its domain, and its kind, which holds the children.  Nodes are made by the store only,
and the store makes no two nodes with one ordinal, so expressions are compared by their ordinals.

Expressions hold host values and functions, functions hold expressions, and host values hold
functions; the four types are defined together.

* `Expr.children` lists the direct children in order of evaluation.
* `Expr.isProduct` and `Expr.power?` recognise products and powers among the applications.
* `Expr.factors` are the factors of a product chain in order.
* `Expr.value?` is the host value of a constant expression.
-/

namespace TermGraph

/-- A function defined outside the expression language. -/
structure Native where
  /-- Number of arguments. -/
  arity : Nat
  /-- The value of a call. -/
  rule : NativeRule
  /-- The partial derivatives by argument position, when the function has any. -/
  partials : Option (List PartialRule)
deriving Inhabited

mutual

/-- A node of the expression graph. -/
inductive Expr where
  /-- The node that was created as number `ordinal`. -/
  | node (ordinal : Nat) (domain : Domain) (kind : Kind)

/-- What a node is, with its children. -/
inductive Kind where
  /-- A variable.  Two symbols of one name are still two symbols. -/
  | symbol (name : String)
  /-- A numeric literal. -/
  | number (value : Number)
  /-- A captured array, matrix or record, and the identity of the resolver that types it. -/
  | object (value : Value) (resolver : Nat)
  /-- A member name. -/
  | field (name : String)
  /-- A function as a value. -/
  | function (function : Function)
  /-- A package of arguments. -/
  | tuple (items : List Expr)
  /-- Product, call, indexing or member access. -/
  | apply (target argument : Expr)
  /-- A sum of terms. -/
  | sum (terms : List Expr)
  /-- The matrix whose entries are `element` at each row and column index. -/
  | generator (rows cols : Nat) (element : Expr)
  /-- A product of matrices in order. -/
  | chain (factors : List Expr)
  /-- The inverse of a matrix. -/
  | inverse (inner : Expr)
  /-- The transpose of a matrix. -/
  | transpose (inner : Expr)
  /-- The sum of `body` for `index` from `lower` to `upper`. -/
  | indexedSum (index lower upper body : Expr)
  /-- The sum of `body` for `index` over the elements of `collection`. -/
  | collectionSum (index collection body : Expr)

/-- A function that can be applied. -/
inductive Function where
  /-- A built-in function. -/
  | builtin (function : Builtin)
  /-- A native function. -/
  | native (identity : Nat) (name : String) (definition : Native)
  /-- A function whose application puts the arguments for the parameters in the body. -/
  | lambda (identity : Nat) (name : String) (params : List Expr) (body : Expr)

/-- A concrete value. -/
inductive Value where
  /-- A number. -/
  | number (value : Number)
  /-- An array with the declared type of its elements. -/
  | array (identity : Nat) (element : HostType) (items : List Value)
  /-- A dense matrix. -/
  | matrix (identity : Nat) (value : Matrix)
  /-- A tuple. -/
  | tuple (items : List Value)
  /-- A record: named fields and, if it can be indexed, rows of arguments with their results. -/
  | object (identity : Nat) (type : HostType) (fields : List (String × Value))
      (table : Option (List (List Value × Value)))
  /-- A function. -/
  | function (function : Function)
  /-- A member name. -/
  | field (name : String)

end

namespace Function

instance : Inhabited Function := ⟨.builtin .log⟩

/-- The name of a function. -/
def name : Function → String
  | .builtin b => b.name
  | .native _ name _ => name
  | .lambda _ name _ _ => name

/-- The number of arguments. -/
def arity : Function → Nat
  | .builtin b => b.arity
  | .native _ _ definition => definition.arity
  | .lambda _ _ params _ => params.length

/-- A code that is equal exactly for one and the same function. -/
def code : Function → List Nat
  | .builtin b => [0, b.index]
  | .native identity _ _ => [1, identity]
  | .lambda identity _ _ _ => [1, identity]

/-- Whether two functions are one and the same. -/
def same (f g : Function) : Bool :=
  f.code == g.code

/-- Whether the function is the built-in power. -/
def isPow : Function → Bool
  | .builtin .pow => true
  | _ => false

end Function

namespace Kind

/-- The direct children in order of evaluation. -/
def children : Kind → List Expr
  | .symbol _ | .number _ | .object _ _ | .field _ | .function _ => []
  | .tuple items => items
  | .apply target argument => [target, argument]
  | .sum terms => terms
  | .generator _ _ element => [element]
  | .chain factors => factors
  | .inverse inner => [inner]
  | .transpose inner => [inner]
  | .indexedSum index lower upper body => [index, lower, upper, body]
  | .collectionSum index collection body => [index, collection, body]

end Kind

namespace Expr

/-- The place in the order of creation. -/
def ordinal : Expr → Nat
  | .node ordinal _ _ => ordinal

/-- The domain. -/
def domain : Expr → Domain
  | .node _ domain _ => domain

/-- What the node is. -/
def kind : Expr → Kind
  | .node _ _ kind => kind

/-- What code from outside sees of an expression. -/
def sight (e : Expr) : Sight := ⟨e.ordinal, e.domain.view⟩

/-- Expressions are compared by their ordinals. -/
instance : BEq Expr := ⟨fun a b => a.ordinal == b.ordinal⟩

instance : Inhabited Expr := ⟨.node 0 .universal (.tuple [])⟩

/-! ## Views of a node -/

/-- The literal that a node is. -/
def number? (e : Expr) : Option Number :=
  match e.kind with
  | .number n => some n
  | _ => none

/-- The function that a node is. -/
def function? (e : Expr) : Option Function :=
  match e.kind with
  | .function f => some f
  | _ => none

/-- The constant matrix that a node is. -/
def matrix? (e : Expr) : Option Matrix :=
  match e.kind with
  | .object (.matrix _ m) _ => some m
  | _ => none

/-- A literal that is numerically zero. -/
def isZero (e : Expr) : Bool :=
  match e.number? with
  | some n => n.isZero
  | none => false

/-- A literal that is numerically one. -/
def isOne (e : Expr) : Bool :=
  match e.number? with
  | some n => n.isOne
  | none => false

/-- Whether a node is a symbol. -/
def isSymbol (e : Expr) : Bool :=
  match e.kind with
  | .symbol _ => true
  | _ => false

/-- The direct children in order of evaluation. -/
def children (e : Expr) : List Expr :=
  e.kind.children

/-- The base and exponent of an application of the power function. -/
def power? (e : Expr) : Option (Expr × Expr) :=
  match e.kind with
  | .apply (.node _ _ (.function (.builtin .pow))) (.node _ _ (.tuple [base, exponent])) =>
    some (base, exponent)
  | _ => none

/-- Whether applying `target` to `argument` multiplies numbers or matrices. -/
def multiplies (target argument : Expr) : Bool :=
  target.function?.isNone && target.domain.isLinear && argument.domain.isLinear

/-- An application that multiplies numbers or matrices. -/
def isProduct (e : Expr) : Bool :=
  match e.kind with
  | .apply target argument => multiplies target argument
  | _ => false

/-- The factors of a product chain in order, in front of `rest`. -/
def factorsOnto : Expr → List Expr → List Expr
  | .node ordinal domain (.apply target argument), rest =>
    if multiplies target argument then target.factorsOnto (argument.factorsOnto rest)
    else .node ordinal domain (.apply target argument) :: rest
  | e, rest => e :: rest

/-- The factors of a product chain in order; anything else is its own only factor. -/
def factors (e : Expr) : List Expr :=
  e.factorsOnto []

theorem factorsOnto_eq_append (e : Expr) (rest : List Expr) :
    e.factorsOnto rest = e.factors ++ rest := by
  unfold factors
  induction h : sizeOf e using Nat.strongRecOn generalizing e rest with
  | _ n ih =>
    subst h
    match e with
    | .node _ _ (.apply t a) =>
      rw [factorsOnto, factorsOnto]
      split
      · have ht : ∀ l, t.factorsOnto l = t.factorsOnto [] ++ l :=
          fun l => ih _ (by simp +arith) t l rfl
        have ha : ∀ l, a.factorsOnto l = a.factorsOnto [] ++ l :=
          fun l => ih _ (by simp +arith) a l rfl
        rw [ht, ha, ht (a.factorsOnto []), List.append_assoc]
      · rfl
    | .node _ _ (.symbol _) | .node _ _ (.number _) | .node _ _ (.object _ _) | .node _ _ (.field _)
    | .node _ _ (.function _) | .node _ _ (.tuple _) | .node _ _ (.sum _)
    | .node _ _ (.generator _ _ _) | .node _ _ (.chain _) | .node _ _ (.inverse _)
    | .node _ _ (.transpose _) | .node _ _ (.indexedSum _ _ _ _)
    | .node _ _ (.collectionSum _ _ _) => rfl

/-- The factors of a product are those of its two sides. -/
theorem factors_apply {target argument : Expr} (ordinal : Nat) (domain : Domain)
    (h : multiplies target argument = true) :
    (node ordinal domain (.apply target argument)).factors = target.factors ++ argument.factors := by
  rw [factors, factorsOnto, if_pos h, factorsOnto_eq_append, factors]
  rfl

mutual

/-- Literals, objects, member names, functions, and tuples of constants. -/
def isConstant : Expr → Bool
  | .node _ _ (.number _) => true
  | .node _ _ (.object _ _) => true
  | .node _ _ (.field _) => true
  | .node _ _ (.function _) => true
  | .node _ _ (.tuple items) => areConstant items
  | _ => false

/-- Whether all expressions of a list are constant. -/
def areConstant : List Expr → Bool
  | [] => true
  | e :: es => e.isConstant && areConstant es

end

mutual

/-- The host value of a constant expression. -/
def value? : Expr → Option Value
  | .node _ _ (.number n) => some (.number n)
  | .node _ _ (.object v _) => some v
  | .node _ _ (.field name) => some (.field name)
  | .node _ _ (.function f) => some (.function f)
  | .node _ _ (.tuple items) => (values? items).map .tuple
  | _ => none

/-- The host values of a list of constant expressions. -/
def values? : List Expr → Option (List Value)
  | [] => some []
  | e :: es =>
    match e.value?, values? es with
    | some v, some vs => some (v :: vs)
    | _, _ => none

end

/-! ## The shared index symbols -/

/-- The row index that every generator binds. -/
def rowIndex : Expr := .node 0 .integers (.symbol "i")

/-- The column index that every generator binds. -/
def colIndex : Expr := .node 1 .integers (.symbol "j")

end Expr

end TermGraph
