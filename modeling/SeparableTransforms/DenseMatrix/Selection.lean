import SeparableTransforms.DenseMatrix.Basic

/-!
# Selecting rows and columns

Rows and columns may be selected in any order and more than once.  An index out
of bounds is an error that names the first such index, except when columns are
removed: a column that does not exist is removed already.
-/

namespace SeparableTransforms
namespace DenseMatrix

universe u

section Selection

variable {α : Type u} [Scalar α]

/-- The rows with the given numbers, in that order; zeros for a row that does not exist. -/
def takeRows (m : DenseMatrix α) (indices : List Nat) : DenseMatrix α :=
  ofFn indices.length m.cols fun r c => m.entry (indices.getD r m.rows) c

/-- The columns with the given numbers, in that order; zeros for a column that does not exist. -/
def takeColumns (m : DenseMatrix α) (indices : List Nat) : DenseMatrix α :=
  ofFn m.rows indices.length fun r c => m.entry r (indices.getD c m.cols)

/-- The rows with the given numbers, all of which must exist. -/
def selectRows (m : DenseMatrix α) (indices : List Nat) : Except MatrixError (DenseMatrix α) :=
  match indices.find? fun r => m.rows ≤ r with
  | some r => .error (.rowOutOfBounds r m.rows)
  | none => .ok (m.takeRows indices)

/-- The columns with the given numbers, all of which must exist. -/
def selectColumns (m : DenseMatrix α) (indices : List Nat) : Except MatrixError (DenseMatrix α) :=
  match indices.find? fun c => m.cols ≤ c with
  | some c => .error (.columnOutOfBounds c m.cols)
  | none => .ok (m.takeColumns indices)

/-- The entries where the given rows and columns cross; a missing row is reported first. -/
def submatrix (m : DenseMatrix α) (rows cols : List Nat) : Except MatrixError (DenseMatrix α) :=
  match m.selectRows rows with
  | .ok selected => selected.selectColumns cols
  | .error e => .error e

/-- The matrix without the given columns. -/
def removeColumns (m : DenseMatrix α) (removed : List Nat) : DenseMatrix α :=
  m.takeColumns ((List.range m.cols).filter fun c => !removed.contains c)

theorem entry_takeRows {m : DenseMatrix α} {indices : List Nat} {r c : Nat}
    (hr : r < indices.length) (hc : c < m.cols) :
    (m.takeRows indices).entry r c = m.entry indices[r] c := by
  simp [takeRows, entry_ofFn _ hr hc, hr]

theorem entry_takeColumns {m : DenseMatrix α} {indices : List Nat} {r c : Nat}
    (hr : r < m.rows) (hc : c < indices.length) :
    (m.takeColumns indices).entry r c = m.entry r indices[c] := by
  simp [takeColumns, entry_ofFn _ hr hc, hc]

/-- Selecting rows succeeds exactly if all of them exist. -/
theorem selectRows_eq_ok_iff {m : DenseMatrix α} {indices : List Nat} :
    m.selectRows indices = .ok (m.takeRows indices) ↔ ∀ r ∈ indices, r < m.rows := by
  unfold selectRows
  split
  · rename_i r h
    simp only [reduceCtorEq, false_iff]
    intro all
    have := List.find?_some h
    have := all r (List.mem_of_find?_eq_some h)
    simp_all
    omega
  · rename_i h
    simpa [List.find?_eq_none] using h

/-- Selecting columns succeeds exactly if all of them exist. -/
theorem selectColumns_eq_ok_iff {m : DenseMatrix α} {indices : List Nat} :
    m.selectColumns indices = .ok (m.takeColumns indices) ↔ ∀ c ∈ indices, c < m.cols := by
  unfold selectColumns
  split
  · rename_i c h
    simp only [reduceCtorEq, false_iff]
    intro all
    have := List.find?_some h
    have := all c (List.mem_of_find?_eq_some h)
    simp_all
    omega
  · rename_i h
    simpa [List.find?_eq_none] using h

end Selection

end DenseMatrix
end SeparableTransforms
