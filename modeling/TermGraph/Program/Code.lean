import TermGraph.Host.Value

/-!
# Statement lists

The form of a function between its expressions and its instructions.  A function binds locals in
order, each used at least twice, and then states its results.  A loop carries a block of its own,
with locals that are bound anew in every round.

`Code.text` and `SourceFunction.text` write statement lists.
-/

namespace TermGraph

mutual

/-- A computation in a statement list. -/
inductive Code where
  /-- The parameter at a position. -/
  | param (position : Nat)
  /-- A local that was bound before. -/
  | hoisted (id : Nat)
  /-- The variable of a loop around. -/
  | loopVariable (id : Nat)
  /-- A captured constant by its slot. -/
  | captured (slot : Nat)
  /-- A literal. -/
  | number (value : Number)
  /-- A symbol that is neither a parameter nor the variable of a loop around. -/
  | unbound (name : String)
  /-- A tuple. -/
  | tuple (items : List Code)
  /-- Product, call, indexing or member access. -/
  | apply (target argument : Code)
  /-- A sum. -/
  | sum (terms : List Code)
  /-- A product of matrices. -/
  | multiply (factors : List Code)
  /-- An inverse. -/
  | inverse (inner : Code)
  /-- A transpose. -/
  | transpose (inner : Code)
  /-- The matrix of the values of a block for each row and column. -/
  | generate (rows cols row col : Nat) (element : Block)
  /-- The sum of the values of a block over a range. -/
  | range (counter : Nat) (lower upper : Code) (body : Block)
  /-- The sum of the values of a block over the elements of a collection. -/
  | each (counter : Nat) (collection : Code) (body : Block)

/-- Locals bound in order before a result. -/
inductive Block where
  /-- The result. -/
  | result (value : Code)
  /-- A local bound before the rest. -/
  | bind (id : Nat) (code : Code) (rest : Block)

end

instance : Inhabited Code := ⟨.number .zero⟩

/-- A declared parameter. -/
structure Parameter where
  /-- Its name. -/
  name : String
  /-- Its type. -/
  type : HostType

/-- A function as a statement list. -/
structure SourceFunction where
  /-- The name of the function. -/
  name : String
  /-- The parameters. -/
  params : List Parameter
  /-- The locals in order of binding. -/
  locals : List (Nat × Code)
  /-- The value returned. -/
  value : Code
  /-- The further outputs. -/
  outputs : List Code
  /-- The output arrays, item by item. -/
  arrays : List (List Code)

/-- The functions of a batch and the constants that they capture. -/
structure SourceUnit where
  /-- The functions in order. -/
  functions : List SourceFunction
  /-- The captured constants by slot. -/
  data : List Value

/-- A block with given locals before its result. -/
def Block.ofLocals (locals : List (Nat × Code)) (value : Code) : Block :=
  locals.foldr (fun (id, code) rest => .bind id code rest) (.result value)

/-! ## Text -/

mutual

/-- Text of a computation. -/
def Code.text : Code → String
  | .param k => "p" ++ Nat.repr k
  | .hoisted k => "t" ++ Nat.repr k
  | .loopVariable k => "v" ++ Nat.repr k
  | .captured k => "data[" ++ Nat.repr k ++ "]"
  | .number n => n.text
  | .unbound name => name
  | .tuple items => "(" ++ ", ".intercalate (codeTexts items) ++ ")"
  | .apply target argument => "apply(" ++ target.text ++ ", " ++ argument.text ++ ")"
  | .sum terms => "(" ++ " + ".intercalate (codeTexts terms) ++ ")"
  | .multiply factors => "matmul(" ++ ", ".intercalate (codeTexts factors) ++ ")"
  | .inverse inner => "inv(" ++ inner.text ++ ")"
  | .transpose inner => "transpose(" ++ inner.text ++ ")"
  | .generate rows cols row col element =>
    "generate(" ++ Nat.repr rows ++ ", " ++ Nat.repr cols ++ ", |v" ++ Nat.repr row ++ ", v" ++
      Nat.repr col ++ "| \x7b " ++ element.text ++ " \x7d)"
  | .range counter lower upper body =>
    "sum(v" ++ Nat.repr counter ++ " in " ++ lower.text ++ "..=" ++ upper.text ++ ", \x7b " ++
      body.text ++ " \x7d)"
  | .each counter collection body =>
    "sum(v" ++ Nat.repr counter ++ " in " ++ collection.text ++ ", \x7b " ++ body.text ++ " \x7d)"

/-- Texts of a list of computations. -/
def codeTexts : List Code → List String
  | [] => []
  | c :: cs => c.text :: codeTexts cs

/-- Text of a block. -/
def Block.text : Block → String
  | .result value => value.text
  | .bind id code rest => "let t" ++ Nat.repr id ++ " = " ++ code.text ++ "; " ++ rest.text

end

namespace SourceFunction

/-- The names and types of parameters and outputs. -/
def signatureText (f : SourceFunction) : String :=
  let params := f.params.mapIdx fun k p =>
    "p" ++ Nat.repr k ++ ": " ++ p.type.text ++ " /* " ++ p.name ++ " */"
  let outputs := (List.range f.outputs.length).map fun k => ", out o" ++ Nat.repr k
  let arrays := (List.range f.arrays.length).map fun k => ", out a" ++ Nat.repr k
  ", ".intercalate params ++ String.join outputs ++ String.join arrays

/-- One indented line. -/
def line (text : String) : String :=
  "    " ++ text ++ ";\n"

/-- The lines that fill one output array. -/
def arrayText (k : Nat) (items : List Code) : String :=
  let name := "a" ++ Nat.repr k
  line (name ++ " = Vec::with_capacity(" ++ Nat.repr items.length ++ ")") ++
    String.join (items.map fun item => line (name ++ ".push(" ++ item.text ++ ")"))

/-- Text of a function. -/
def text (f : SourceFunction) : String :=
  let locals := f.locals.map fun (id, code) => line ("let t" ++ Nat.repr id ++ " = " ++ code.text)
  let outputs := f.outputs.mapIdx fun k code => line ("o" ++ Nat.repr k ++ " = " ++ code.text)
  let arrays := f.arrays.mapIdx arrayText
  "fn " ++ f.name ++ "(" ++ f.signatureText ++ ") \x7b\n" ++ String.join locals ++
    String.join outputs ++ String.join arrays ++ line ("return " ++ f.value.text) ++ "\x7d\n"

end SourceFunction

namespace SourceUnit

/-- Text of all functions of a batch. -/
def text (u : SourceUnit) : String :=
  String.join (u.functions.map SourceFunction.text)

end SourceUnit

end TermGraph
