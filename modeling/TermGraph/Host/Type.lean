/-!
# Host types

The declared type of a host value or of a function parameter.  A record type lists the types of
its named fields and of its positional indexers; two record types are the same when their name
and both lists agree.
-/

namespace TermGraph

mutual

/-- The declared type of a host value. -/
inductive HostType where
  /-- Any value at all. -/
  | any
  /-- Integers. -/
  | int
  /-- Integers and doubles. -/
  | real
  /-- Dense matrices and the scalars that stand for multiples of the identity. -/
  | matrix
  /-- Functions. -/
  | function
  /-- Arrays of one element type. -/
  | array (element : HostType)
  /-- A named record. -/
  | record (name : String) (fields : FieldTypes) (indexers : IndexerTypes)

/-- The named fields of a record type, in order of declaration. -/
inductive FieldTypes where
  /-- No fields. -/
  | nil
  /-- A field before the others. -/
  | cons (name : String) (type : HostType) (rest : FieldTypes)

/-- The positional indexers of a record type, in order of declaration. -/
inductive IndexerTypes where
  /-- No indexers. -/
  | nil
  /-- An indexer that takes `arity` arguments, before the others. -/
  | cons (arity : Nat) (type : HostType) (rest : IndexerTypes)

end

deriving instance DecidableEq for HostType, FieldTypes, IndexerTypes
deriving instance Inhabited for HostType, FieldTypes, IndexerTypes

namespace FieldTypes

/-- The fields of a list. -/
def ofList : List (String × HostType) → FieldTypes
  | [] => .nil
  | (name, type) :: rest => .cons name type (ofList rest)

/-- The type of the first field called `name`. -/
def get? (name : String) : FieldTypes → Option HostType
  | .nil => none
  | .cons n type rest => if n = name then some type else rest.get? name

end FieldTypes

namespace IndexerTypes

/-- The indexers of a list. -/
def ofList : List (Nat × HostType) → IndexerTypes
  | [] => .nil
  | (arity, type) :: rest => .cons arity type (ofList rest)

/-- The result types of the indexers that take `arity` arguments. -/
def results (arity : Nat) : IndexerTypes → List HostType
  | .nil => []
  | .cons n type rest => if n = arity then type :: rest.results arity else rest.results arity

end IndexerTypes

namespace HostType

/-- Text of a host type; a record is written by its name. -/
def text : HostType → String
  | .any => "any"
  | .int => "int"
  | .real => "real"
  | .matrix => "matrix"
  | .function => "fn"
  | .array element => "[" ++ element.text ++ "]"
  | .record name _ _ => name

/-- The letters of a name behind their number. -/
def nameCode (name : String) : List Nat :=
  name.toList.length :: name.toList.map Char.toNat

end HostType

mutual

/-- A code that is equal exactly for equal types.  No code is a prefix of another one, so codes can be
put one after the other. -/
def HostType.code : HostType → List Nat
  | .any => [0]
  | .int => [1]
  | .real => [2]
  | .matrix => [3]
  | .function => [4]
  | .array element => 5 :: element.code
  | .record name fields indexers => 6 :: (HostType.nameCode name ++ (fields.code ++ indexers.code))

/-- The code of the fields of a record type. -/
def FieldTypes.code : FieldTypes → List Nat
  | .nil => [0]
  | .cons name type rest => 1 :: (HostType.nameCode name ++ (type.code ++ rest.code))

/-- The code of the indexers of a record type. -/
def IndexerTypes.code : IndexerTypes → List Nat
  | .nil => [0]
  | .cons arity type rest => 1 :: arity :: (type.code ++ rest.code)

end

end TermGraph
