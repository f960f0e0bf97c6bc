import TermGraph.Expr.Basic

/-!
# Host values

The type, the text and the equality of host values, and which values a declared type accepts.

Arrays and tuples are equal when their items are, matrices when their entries are, and records
only when they are one and the same.
-/

namespace TermGraph

namespace Value

instance : Inhabited Value := ⟨.number .zero⟩

/-- The value as a number. -/
def number? : Value → Option Number
  | .number n => some n
  | _ => none

/-- The declared type of a value. -/
def hostType : Value → HostType
  | .number (.int _) => .int
  | .number (.float _) => .real
  | .array _ element _ => .array element
  | .matrix _ _ => .matrix
  | .object _ type _ _ => type
  | .function _ => .function
  | .tuple _ | .field _ => .any

/-- What tells one captured array, matrix or record from another. -/
def identity : Value → Nat
  | .array identity _ _ => identity
  | .matrix identity _ => identity
  | .object identity _ _ _ => identity
  | _ => 0

mutual

/-- Equality of values. -/
def same : Value → Value → Bool
  | .number a, .number b => a.same b
  | .array _ s xs, .array _ t ys => decide (s = t) && sameAll xs ys
  | .matrix _ a, .matrix _ b => a.same b
  | .tuple xs, .tuple ys => sameAll xs ys
  | .object a _ _ _, .object b _ _ _ => a == b
  | .function f, .function g => f.same g
  | .field a, .field b => a == b
  | _, _ => false

/-- Equality of lists of values, item by item. -/
def sameAll : List Value → List Value → Bool
  | [], [] => true
  | x :: xs, y :: ys => x.same y && sameAll xs ys
  | _, _ => false

end

mutual

/-- Text of a value. -/
def text : Value → String
  | .number n => n.text
  | .array _ _ items => "[" ++ ", ".intercalate (texts items) ++ "]"
  | .matrix _ m => "<" ++ Nat.repr m.rows ++ "x" ++ Nat.repr m.cols ++ " matrix>"
  | .tuple items => "(" ++ ", ".intercalate (texts items) ++ ")"
  | .object _ type _ _ => "<" ++ type.text ++ ">"
  | .function f => f.name
  | .field name => "." ++ name

/-- Texts of a list of values. -/
def texts : List Value → List String
  | [] => []
  | v :: vs => v.text :: texts vs

end

mutual

/-- What code from outside sees of a value. -/
def datum : Value → Datum
  | .number n => .number n
  | .array identity element items => .array identity element (data items)
  | .matrix _ m => .matrix m
  | .tuple items => .tuple (data items)
  | .object identity type fields table => .object identity type (fieldData fields) (tableData table)
  | .function f => .function f.code
  | .field name => .field name

/-- What it sees of a list of values. -/
def data : List Value → List Datum
  | [] => []
  | v :: vs => v.datum :: data vs

/-- What it sees of the fields of a record. -/
def fieldData : List (String × Value) → List (String × Datum)
  | [] => []
  | (name, v) :: fields => (name, v.datum) :: fieldData fields

/-- What it sees of the rows of a record, if it has any. -/
def tableData : Option (List (List Value × Value)) → Option (List (List Datum × Datum))
  | none => none
  | some rows => some (rowData rows)

/-- What it sees of some rows of a record. -/
def rowData : List (List Value × Value) → List (List Datum × Datum)
  | [] => []
  | (args, v) :: rows => (data args, v.datum) :: rowData rows

end

end Value

namespace HostType

/-- Whether a value may stand where the type is declared.  A whole double counts as an integer,
and a number as a matrix. -/
def accepts (type : HostType) (v : Value) : Bool :=
  match type, v with
  | .any, _ => true
  | .int, .number (.int _) => true
  | .int, .number (.float x) => x.isWhole
  | .real, .number _ => true
  | .matrix, .matrix _ _ => true
  | .matrix, .number _ => true
  | .function, .function _ => true
  | .array element, .array _ actual _ => decide (element = .any) || decide (actual = element)
  | .record _ _ _, .object _ actual _ _ => decide (actual = type)
  | _, _ => false

end HostType

end TermGraph
