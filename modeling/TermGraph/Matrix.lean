/-!
# Dense matrices

Matrices of doubles, stored row by row, with the arithmetic that concrete operands need: sum,
product, scaling, transpose and inverse.

* A product entry adds its terms in order, beginning with the first one.
* Inverses up to four rows go by cofactors over the determinant, larger ones by elimination with
  the largest pivot of each column; a determinant or pivot of exactly zero means singular.

Whoever evaluates matrices may bring other arithmetic; this one is the default.
-/

namespace TermGraph

/-- A dense matrix. -/
structure Matrix where
  /-- Number of rows. -/
  rows : Nat
  /-- Number of columns. -/
  cols : Nat
  /-- The entries, row by row. -/
  entries : Array Float
deriving DecidableEq, Inhabited

/-- Why an operation on matrices failed. -/
inductive MatrixFault where
  /-- The inner dimensions of a product differ. -/
  | product (leftRows leftCols rightRows rightCols : Nat)
  /-- The shapes of the terms of a sum differ. -/
  | sum (leftRows leftCols rightRows rightCols : Nat)
  /-- Only square matrices have an inverse. -/
  | notSquare (rows cols : Nat)
  /-- The matrix has no inverse. -/
  | singular
  /-- What an arithmetic of its own reports. -/
  | other (operation reason : String)
deriving DecidableEq, Repr, Inhabited

namespace MatrixFault

/-- Text of a fault. -/
def message : MatrixFault → String
  | .product r c r' c' =>
    "matrix multiply failed: " ++ Nat.repr r ++ "x" ++ Nat.repr c ++ " by " ++ Nat.repr r' ++ "x" ++
      Nat.repr c'
  | .sum r c r' c' =>
    "matrix add failed: (" ++ Nat.repr r ++ ", " ++ Nat.repr c ++ ") and (" ++ Nat.repr r' ++ ", " ++
      Nat.repr c' ++ ")"
  | .notSquare r c => "matrix inverse failed: " ++ Nat.repr r ++ "x" ++ Nat.repr c ++ " is not square"
  | .singular => "matrix inverse failed: matrix is singular"
  | .other operation reason => "matrix " ++ operation ++ " failed: " ++ reason

end MatrixFault

namespace Matrix

/-- The matrix with the entry `f i j` in row `i` and column `j`. -/
def tabulate (rows cols : Nat) (f : Nat → Nat → Float) : Matrix where
  rows := rows
  cols := cols
  entries := ((List.range (rows * cols)).map fun k => f (k / cols) (k % cols)).toArray

/-- The entry in row `i` and column `j`; zero outside the matrix. -/
def get (m : Matrix) (i j : Nat) : Float :=
  m.entries.getD (i * m.cols + j) 0

/-- The matrix whose columns one after the other are `entries`. -/
def ofColumns (rows cols : Nat) (entries : Array Float) : Matrix :=
  tabulate rows cols fun i j => entries.getD (j * rows + i) 0

/-- Ones on the diagonal, also of a matrix that is not square. -/
def identity (rows cols : Nat) : Matrix :=
  tabulate rows cols fun i j => if i = j then 1 else 0

/-- Equality of shape and, as numbers, of the entries: a not-a-number equals nothing. -/
def same (a b : Matrix) : Bool :=
  a.rows == b.rows && a.cols == b.cols &&
    (a.entries.toList.zip b.entries.toList).all fun (x, y) => x == y

/-- The sum of numbers in order, beginning with the first. -/
def orderedSum : List Float → Float
  | [] => 0
  | x :: xs => xs.foldl (· + ·) x

/-- The matrix product. -/
def mul (a b : Matrix) : Except MatrixFault Matrix :=
  if a.cols = b.rows then
    .ok (tabulate a.rows b.cols fun i j =>
      orderedSum ((List.range a.cols).map fun k => a.get i k * b.get k j))
  else
    .error (.product a.rows a.cols b.rows b.cols)

/-- The entrywise sum. -/
def add (a b : Matrix) : Except MatrixFault Matrix :=
  if a.rows = b.rows ∧ a.cols = b.cols then
    .ok (tabulate a.rows a.cols fun i j => a.get i j + b.get i j)
  else
    .error (.sum a.rows a.cols b.rows b.cols)

/-- Every entry times a scalar. -/
def scale (a : Matrix) (s : Float) : Matrix where
  rows := a.rows
  cols := a.cols
  entries := a.entries.map (· * s)

/-- Rows and columns exchanged. -/
def transpose (a : Matrix) : Matrix :=
  tabulate a.cols a.rows fun i j => a.get j i

/-! ## Inverses -/

/-- The inverse of a matrix of one row. -/
def inverse1? (m : Matrix) : Option Matrix :=
  let det := m.get 0 0
  if det == 0 then none else some (tabulate 1 1 fun _ _ => 1 / det)

/-- The inverse of a matrix of two rows, by cofactors. -/
def inverse2? (m : Matrix) : Option Matrix :=
  let a := m.get 0 0
  let b := m.get 0 1
  let c := m.get 1 0
  let d := m.get 1 1
  let det := a * d - c * b
  if det == 0 then none
  else some ⟨2, 2, #[d / det, -b / det, -c / det, a / det]⟩

/-- The inverse of a matrix of three rows, by cofactors. -/
def inverse3? (m : Matrix) : Option Matrix :=
  let m11 := m.get 0 0
  let m12 := m.get 0 1
  let m13 := m.get 0 2
  let m21 := m.get 1 0
  let m22 := m.get 1 1
  let m23 := m.get 1 2
  let m31 := m.get 2 0
  let m32 := m.get 2 1
  let m33 := m.get 2 2
  let minor11 := m22 * m33 - m32 * m23
  let minor12 := m21 * m33 - m31 * m23
  let minor13 := m21 * m32 - m31 * m22
  let det := m11 * minor11 - m12 * minor12 + m13 * minor13
  if det == 0 then none
  else some ⟨3, 3, #[
    minor11 / det, (m13 * m32 - m33 * m12) / det, (m12 * m23 - m22 * m13) / det,
    -minor12 / det, (m11 * m33 - m31 * m13) / det, (m13 * m21 - m23 * m11) / det,
    minor13 / det, (m12 * m31 - m32 * m11) / det, (m11 * m22 - m21 * m12) / det]⟩

/-- The determinant of the matrix of three rows left when row `i` and column `j` of one of four
rows are struck out. -/
def minor4 (m : Matrix) (i j : Nat) : Float :=
  let rs := (List.range 4).filter (· ≠ i)
  let cs := (List.range 4).filter (· ≠ j)
  let at' := fun (r c : Nat) => m.get (rs.getD r 0) (cs.getD c 0)
  at' 0 0 * (at' 1 1 * at' 2 2 - at' 2 1 * at' 1 2)
    - at' 0 1 * (at' 1 0 * at' 2 2 - at' 2 0 * at' 1 2)
    + at' 0 2 * (at' 1 0 * at' 2 1 - at' 2 0 * at' 1 1)

/-- The inverse of a matrix of four rows, by cofactors. -/
def inverse4? (m : Matrix) : Option Matrix :=
  let cofactor := fun (i j : Nat) => if (i + j) % 2 = 0 then minor4 m i j else -minor4 m i j
  let det := orderedSum ((List.range 4).map fun j => m.get 0 j * cofactor 0 j)
  if det == 0 then none
  else some (tabulate 4 4 fun i j => cofactor j i * (1 / det))

/-- A matrix as a list of rows. -/
abbrev Rows := List (List Float)

/-- The row among `rows` with the largest leading entry, and the others, in the order in which an
exchange with the first row leaves them. -/
def pivot : Rows → Option (List Float × Rows)
  | [] => none
  | first :: rest =>
    let size := fun (row : List Float) => (row.headD 0).abs
    let best := rest.foldl (fun b row => if size b < size row then row else b) first
    if size best == 0 then none
    else if size best == size first then some (first, rest)
    else
      let before := rest.takeWhile fun row => size row != size best
      some (best, before ++ first :: (rest.drop (before.length + 1)))

/-- Subtracts from `row` the multiple of `top` that clears its leading entry, and drops that entry. -/
def clear (top row : List Float) : List Float :=
  let factor := row.headD 0 / top.headD 1
  (row.tail.zip top.tail).map fun (x, t) => x - factor * t

/-- The solutions of an upper triangular system with several right-hand sides.  Each row holds its
remaining coefficients followed by the right-hand sides; `steps` rows are eliminated. -/
def solve : (steps : Nat) → Rows → Option Rows
  | 0, _ => some []
  | steps + 1, rows => do
    let (top, rest) ← pivot rows
    let lower ← solve steps (rest.map (clear top))
    let right := top.drop (steps + 1)
    let known := (top.drop 1).take steps
    let reduced := (known.zip lower).foldl
      (fun acc (c, row) => (acc.zip row).map fun (x, y) => x - c * y) right
    return (reduced.map (· / top.headD 1)) :: lower

/-- The inverse by elimination, for any size. -/
def inverseBySolving? (m : Matrix) : Option Matrix := do
  let n := m.rows
  let rows := (List.range n).map fun i =>
    (List.range n).map (m.get i) ++ (List.range n).map fun j => if i = j then (1 : Float) else 0
  let solved ← solve n rows
  return ⟨n, n, solved.flatten.toArray⟩

/-- The inverse of a square matrix. -/
def inverse (m : Matrix) : Except MatrixFault Matrix :=
  if m.rows ≠ m.cols then
    .error (.notSquare m.rows m.cols)
  else
    let answer :=
      match m.rows with
      | 0 => some m
      | 1 => inverse1? m
      | 2 => inverse2? m
      | 3 => inverse3? m
      | 4 => inverse4? m
      | _ => inverseBySolving? m
    match answer with
    | some inv => .ok inv
    | none => .error .singular

end Matrix

/-- The arithmetic that concrete operands are evaluated with. -/
structure MatrixArithmetic where
  /-- The product, which may fail. -/
  mul : Matrix → Matrix → Except MatrixFault Matrix
  /-- The sum, which may fail. -/
  add : Matrix → Matrix → Except MatrixFault Matrix
  /-- Every entry times a scalar. -/
  scale : Matrix → Float → Matrix
  /-- The inverse, which may fail. -/
  inverse : Matrix → Except MatrixFault Matrix
  /-- Rows and columns exchanged. -/
  transpose : Matrix → Matrix

namespace MatrixArithmetic

/-- The arithmetic of dense matrices, which is used where no other is named. -/
def dense : MatrixArithmetic where
  mul := Matrix.mul
  add := Matrix.add
  scale := Matrix.scale
  inverse := Matrix.inverse
  transpose := Matrix.transpose

end MatrixArithmetic

end TermGraph
