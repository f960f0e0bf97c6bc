import TermGraph.Expr.Leaf

/-!
# Members of host values

What a resolver answers about values: the field of a record, and the element of an array or record
at an index.  Each question is tallied before it is answered.

The index of an array is a whole number from zero up to its length.  A record is indexed through
its rows: the first row whose arguments equal the given ones holds the element.
-/

namespace TermGraph

namespace Value

/-- The field of a record. -/
def fieldValue (v : Value) (name : String) : Except MemberError Value :=
  match v with
  | .object _ type fields _ =>
    match fields.find? fun entry => entry.1 == name with
    | some entry => .ok entry.2
    | none => .error (.unknownMember type name)
  | _ => .error (.unknownMember v.hostType name)

/-- The integer that an index stands for. -/
def index? (v : Value) : Option Int64 :=
  v.number?.bind Number.toInt64?

/-- The item of an array at a position. -/
def itemAt (items : List Value) (position : Int) : Except MemberError Value :=
  match (if 0 ≤ position then items[position.toNat]? else none) with
  | some item => .ok item
  | none => .error (.indexOutOfRange position items.length)

/-- The element at an index. -/
def element (v : Value) (arguments : List Value) : Except MemberError Value :=
  match v, arguments with
  | .array _ _ items, [index] =>
    match index.index? with
    | some position => itemAt items position.toInt
    | none => .error (.notIndexable v.hostType 1)
  | .object _ _ _ (some rows), _ =>
    match rows.find? fun row => sameAll row.1 arguments with
    | some row => .ok row.2
    | none =>
      let position := (arguments.head?.bind index?).map Int64.toInt
      .error (.indexOutOfRange (position.getD (-1)) rows.length)
  | _, _ => .error (.notIndexable v.hostType arguments.length)

end Value

/-- What a derived field makes of the value of its source. -/
def DerivedField.value (d : DerivedField) (source : Value) : Value :=
  match d.change source.datum with
  | some n => .number n
  | none => source

namespace Resolver

/-- The field of a value: a declared one, or what a derived one makes of its source. -/
def fieldOf (r : Resolver) (v : Value) (name : String) : Except MemberError Value :=
  match r.derived v.hostType name with
  | some d => (v.fieldValue d.source).map d.value
  | none => v.fieldValue name

/-- The field of a value, tallied. -/
def field (r : Resolver) (v : Value) (name : String) : Build Value := do
  modify (Store.modifyTally (fun t => { t with fields := t.fields + 1 }) r)
  Build.ofExcept .member (r.fieldOf v name)

/-- The element of a value at an index, tallied. -/
def element (r : Resolver) (v : Value) (arguments : List Value) : Build Value := do
  modify (Store.modifyTally (fun t => { t with elements := t.elements + 1 }) r)
  Build.ofExcept .member (v.element arguments)

end Resolver

end TermGraph
