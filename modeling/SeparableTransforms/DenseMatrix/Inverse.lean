import SeparableTransforms.DenseMatrix.Basic
import SeparableTransforms.DoubleDouble.Basic

/-!
# Inverse matrices

Inversion by Gauss–Jordan elimination with partial pivoting, in double-double
precision.  The elimination carries two square tables of cells: the work table,
which starts as the matrix, and the inverse table, which starts as the identity.
One pivot at a time it swaps a row into place, divides that row by the pivot and
clears the pivot column in all other rows, on both tables alike.

A cell that is exactly zero is never touched by a division, and a row with a
zero factor is never touched by an elimination.  In this way a coefficient that
is not determined spreads only to the cells that depend on it.

A pivot must exceed a tolerance.  If none does, a row with an undetermined cell
in the pivot column is taken, and if there is none either, the matrix has no
inverse.

For an affine matrix only the linear part is eliminated.  The offset of the
inverse follows from it, and the last row is written exactly.
-/

namespace SeparableTransforms
namespace DenseMatrix

universe u

section Elimination

variable {α : Type u} [Scalar α]

/-- The rows of a table with two of them exchanged. -/
def swapRows (m : DenseMatrix (DoubleDouble α)) (a b : Nat) : DenseMatrix (DoubleDouble α) :=
  ofFn m.rows m.cols fun r c => m.entry (if r = a then b else if r = b then a else r) c

/-- The table with row `k` divided by a number; zero cells stay as they are. -/
def divideRow (m : DenseMatrix (DoubleDouble α)) (k : Nat) (divisor : DoubleDouble α) :
    DenseMatrix (DoubleDouble α) :=
  ofFn m.rows m.cols fun r c =>
    let cell := m.entry r c
    if r = k && !cell.isZero then cell / divisor else cell

/-- The table with a multiple of row `k` subtracted from every other row.  The multiple of row `r`
is `factor r`; a zero factor and a zero cell in row `k` change nothing. -/
def eliminateRows (m : DenseMatrix (DoubleDouble α)) (k : Nat) (factor : Nat → DoubleDouble α) :
    DenseMatrix (DoubleDouble α) :=
  ofFn m.rows m.cols fun r c =>
    let cell := m.entry r c
    let source := m.entry k c
    if r = k || (factor r).isZero || source.isZero then cell
    else cell - factor r * source

/-- The pivot candidates in one column: the row with the largest magnitude so far and that
magnitude, and the first row with an undetermined cell. -/
structure PivotSearch (α : Type u) where
  best : Option (Nat × α)
  undetermined : Option Nat

/-- Looks at one more row of the pivot column. -/
def PivotSearch.visit (search : PivotSearch α) (r : Nat) (v : α) : PivotSearch α :=
  if Scalar.isNaN v then
    { search with undetermined := search.undetermined.or (some r) }
  else
    match search.best with
    | none => { search with best := some (r, Scalar.abs v) }
    | some (_, magnitude) =>
        if magnitude < Scalar.abs v then { search with best := some (r, Scalar.abs v) }
        else search

/-- The row to take the pivot of column `k` from, among the rows from `k` on. -/
def pivotRow? (work : DenseMatrix (DoubleDouble α)) (tolerance : α) (k : Nat) : Option Nat :=
  let candidates := (List.range work.rows).drop k
  let search : PivotSearch α :=
    candidates.foldl (fun s r => s.visit r (work.entry r k).value) ⟨none, none⟩
  match search.best with
  | some (r, magnitude) => if tolerance < magnitude then some r else search.undetermined
  | none => search.undetermined

/-- The two tables of an elimination. -/
structure Elimination (α : Type u) where
  work : DenseMatrix (DoubleDouble α)
  inverse : DenseMatrix (DoubleDouble α)

/-- Brings a pivot to its place on the diagonal and clears its column. -/
def Elimination.pivot (s : Elimination α) (k row : Nat) : Elimination α :=
  let work := s.work.swapRows k row
  let inverse := s.inverse.swapRows k row
  let divisor := work.entry k k
  let work := work.divideRow k divisor
  let inverse := inverse.divideRow k divisor
  let factor := fun r => work.entry r k
  ⟨work.eliminateRows k factor, inverse.eliminateRows k factor⟩

/-- One step of the elimination, for column `k`. -/
def Elimination.step (tolerance : α) (s : Elimination α) (k : Nat) :
    Except MatrixError (Elimination α) :=
  match pivotRow? s.work tolerance k with
  | some row => .ok (s.pivot k row)
  | none => .error .notInvertible

/-- The start of an elimination on the leading block of a matrix. -/
def Elimination.start (m : DenseMatrix α) (size : Nat) : Elimination α where
  work := ofFn size size fun r c => DoubleDouble.ofScalar (m.entry r c)
  inverse := ofFn size size fun r c => DoubleDouble.ofScalar (if r = c then 1 else 0)

/-- The inverse of the leading block of a matrix, as a table of double-double cells. -/
def gaussJordan (tolerance : α) (m : DenseMatrix α) (size : Nat) :
    Except MatrixError (DenseMatrix (DoubleDouble α)) :=
  ((List.range size).foldlM (Elimination.step tolerance) (Elimination.start m size)).map
    Elimination.inverse

/-- The largest finite magnitude in the leading block of a matrix. -/
def largestMagnitude (m : DenseMatrix α) (size : Nat) : α :=
  let magnitudes := (List.range size).flatMap fun r =>
    (List.range size).map fun c => Scalar.abs (m.entry r c)
  (magnitudes.filter Scalar.isFinite).foldl Scalar.larger 0

/-- The magnitude that a pivot has to exceed. -/
def pivotTolerance (m : DenseMatrix α) (size : Nat) : α :=
  m.largestMagnitude size * Scalar.ofNat size * Scalar.epsilon

end Elimination

section Inverse

variable {α : Type u} [Scalar α]

/-- The offset of the inverse of an affine matrix in row `r`, given the inverse of its linear
part. -/
def inverseOffset (m : DenseMatrix α) (linear : DenseMatrix (DoubleDouble α)) (r : Nat) : α :=
  let dim := linear.rows
  let total := (List.range dim).foldl (fun (sum : DoubleDouble α) c =>
    let a := linear.entry r c
    let b := m.entry c dim
    if b == 0 || a.isZero then sum else sum + a * DoubleDouble.ofScalar b) 0
  (-total).value

/-- The affine matrix that undoes another one, given the inverse of its linear part. -/
def affineInverse (m : DenseMatrix α) (linear : DenseMatrix (DoubleDouble α)) : DenseMatrix α :=
  let dim := linear.rows
  ofFn (dim + 1) (dim + 1) fun r c =>
    if r < dim then
      if c < dim then (linear.entry r c).value else m.inverseOffset linear r
    else if c < dim then 0 else 1

/-- The inverse, with the tolerance of the pivots given as a function of the block to eliminate. -/
def inverseWithin (tolerance : DenseMatrix α → Nat → α) (m : DenseMatrix α) :
    Except MatrixError (DenseMatrix α) :=
  if m.isSquare then
    if m.isAffine then
      let dim := m.rows - 1
      (gaussJordan (tolerance m dim) m dim).map (affineInverse m)
    else
      (gaussJordan (tolerance m m.rows) m m.rows).map (map DoubleDouble.value)
  else .error (.notSquare m.rows m.cols)

/-- The inverse of a square matrix. -/
def inverse (m : DenseMatrix α) : Except MatrixError (DenseMatrix α) :=
  m.inverseWithin pivotTolerance

end Inverse

end DenseMatrix
end SeparableTransforms
