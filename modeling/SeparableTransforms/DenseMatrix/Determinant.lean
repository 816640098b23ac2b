import SeparableTransforms.DenseMatrix.Basic

/-!
# Determinants

Up to three rows the determinant is expanded along the first row.  A larger
matrix is brought to triangular form with partial pivoting; the determinant is
the product of the diagonal, negated for an odd number of row exchanges.  All
arithmetic is in plain scalars.
-/

namespace SeparableTransforms
namespace DenseMatrix

universe u

section Determinant

variable {α : Type u} [Scalar α]

/-- The first row from `k` on with the largest magnitude in column `k`. -/
def largestRow (m : DenseMatrix α) (k : Nat) : Nat :=
  let later := (List.range m.rows).drop (k + 1)
  (later.foldl (fun best r =>
    let magnitude := Scalar.abs (m.entry r k)
    if best.2 < magnitude then (r, magnitude) else best) (k, Scalar.abs (m.entry k k))).1

/-- A table on its way to triangular form, and whether its determinant is to be negated. -/
structure Triangulation (α : Type u) where
  table : DenseMatrix α
  negated : Bool

/-- Clears column `k` below the diagonal.  A column without a pivot is left alone. -/
def Triangulation.step (s : Triangulation α) (k : Nat) : Triangulation α :=
  let row := s.table.largestRow k
  let pivot := s.table.entry row k
  if pivot == 0 then s
  else
    let swapped := ofFn s.table.rows s.table.cols fun r c =>
      s.table.entry (if r = k then row else if r = row then k else r) c
    let reciprocal := 1 / pivot
    let factor := fun r => swapped.entry r k * reciprocal
    let table := ofFn s.table.rows s.table.cols fun r c =>
      let cell := swapped.entry r c
      if k < r && k < c then -(swapped.entry k c) * factor r + cell else cell
    ⟨table, s.negated != (row != k)⟩

/-- The product of the diagonal of a triangular form, with its sign. -/
def triangularDeterminant (m : DenseMatrix α) : α :=
  let final := (List.range m.rows).foldl Triangulation.step ⟨m, false⟩
  let diagonal := (List.range m.rows).foldl (fun product k => product * final.table.entry k k) 1
  diagonal * if final.negated then -1 else 1

/-- The determinant of a square matrix. -/
def determinant (m : DenseMatrix α) : Except MatrixError α :=
  if m.isSquare then
    match m.rows with
    | 0 => .ok 1
    | 1 => .ok (m.entry 0 0)
    | 2 => .ok (m.entry 0 0 * m.entry 1 1 - m.entry 1 0 * m.entry 0 1)
    | 3 =>
        let minor₁ := m.entry 1 1 * m.entry 2 2 - m.entry 2 1 * m.entry 1 2
        let minor₂ := m.entry 1 0 * m.entry 2 2 - m.entry 2 0 * m.entry 1 2
        let minor₃ := m.entry 1 0 * m.entry 2 1 - m.entry 2 0 * m.entry 1 1
        .ok (m.entry 0 0 * minor₁ - m.entry 0 1 * minor₂ + m.entry 0 2 * minor₃)
    | _ => .ok m.triangularDeterminant
  else .error (.notSquare m.rows m.cols)

end Determinant

end DenseMatrix
end SeparableTransforms
