import SeparableTransforms.DenseMatrix.Error
import SeparableTransforms.Scalar

/-!
# Dense matrices

A matrix of any shape, with zero rows or columns allowed.  The cells are stored
row by row; all operations of this library reach them through two functions.

* `DenseMatrix.ofFn` makes a matrix from the value of each entry.
* `DenseMatrix.entry` reads an entry, and is zero outside the matrix.

A matrix is *affine* if its last row is `[0, …, 0, 1]`.  Such a matrix maps
points: all columns but the last hold the linear part and the last column holds
the offset.
-/

namespace SeparableTransforms

universe u

/-- A matrix with its cells stored row by row. -/
structure DenseMatrix (α : Type u) where
  rows : Nat
  cols : Nat
  cells : Array α
  size_cells : cells.size = rows * cols

namespace DenseMatrix

section Entries

variable {α : Type u}

/-- The matrix whose entry in row `r` and column `c` is `f r c`. -/
def ofFn (rows cols : Nat) (f : Nat → Nat → α) : DenseMatrix α where
  rows := rows
  cols := cols
  cells := Array.ofFn fun i : Fin (rows * cols) => f (i.val / cols) (i.val % cols)
  size_cells := Array.size_ofFn

/-- The entry in row `r` and column `c`, if the matrix has one. -/
def get? (m : DenseMatrix α) (r c : Nat) : Option α :=
  if r < m.rows ∧ c < m.cols then m.cells[r * m.cols + c]? else none

/-- The entry in row `r` and column `c`, or zero outside the matrix. -/
def entry [Zero α] (m : DenseMatrix α) (r c : Nat) : α :=
  (m.get? r c).getD 0

/-- The entry in row `r` and column `c`, or the error that names the place. -/
def element (m : DenseMatrix α) (r c : Nat) : Except MatrixError α :=
  match m.get? r c with
  | some a => .ok a
  | none => .error (.elementOutOfBounds r c m.rows m.cols)

/-- The matrix with one entry replaced. -/
def set [Zero α] (m : DenseMatrix α) (r c : Nat) (a : α) : Except MatrixError (DenseMatrix α) :=
  if r < m.rows ∧ c < m.cols then
    .ok (ofFn m.rows m.cols fun i j => if i = r ∧ j = c then a else m.entry i j)
  else .error (.elementOutOfBounds r c m.rows m.cols)

/-- The entries of row `r` from left to right. -/
def rowList [Zero α] (m : DenseMatrix α) (r : Nat) : List α :=
  (List.range m.cols).map fun c => m.entry r c

/-- The entries of row `r`, if the matrix has that row. -/
def row? [Zero α] (m : DenseMatrix α) (r : Nat) : Option (List α) :=
  if r < m.rows then some (m.rowList r) else none

/-- All entries, column by column. -/
def columnMajor [Zero α] (m : DenseMatrix α) : List α :=
  (List.range m.cells.size).map fun i => m.entry (i % m.rows) (i / m.rows)

/-- All entries, row by row. -/
def rowMajor (m : DenseMatrix α) : List α :=
  m.cells.toList

/-- The matrix with the given entries, listed row by row. -/
def ofRowMajor (rows cols : Nat) (values : List α) : Except MatrixError (DenseMatrix α) :=
  if h : values.length = rows * cols then
    .ok ⟨rows, cols, values.toArray, by simpa using h⟩
  else .error (.dimensionMismatch .valueCount (rows * cols) values.length)

/-- The matrix with the given entries, listed column by column. -/
def ofColumnMajor? [Zero α] (rows cols : Nat) (values : List α) : Option (DenseMatrix α) :=
  if values.length = rows * cols then
    let stored := values.toArray
    some (ofFn rows cols fun r c => stored[c * rows + r]?.getD 0)
  else none

/-- Applies a function to every entry. -/
def map {β : Type u} (f : α → β) (m : DenseMatrix α) : DenseMatrix β where
  rows := m.rows
  cols := m.cols
  cells := m.cells.map f
  size_cells := by simpa using m.size_cells

end Entries

section Views

variable {α : Type u}

@[simp] theorem rows_ofFn (rows cols : Nat) (f : Nat → Nat → α) : (ofFn rows cols f).rows = rows :=
  rfl

@[simp] theorem cols_ofFn (rows cols : Nat) (f : Nat → Nat → α) : (ofFn rows cols f).cols = cols :=
  rfl

/-- Every entry has a place among the cells. -/
theorem cell_lt {rows cols r c : Nat} (hr : r < rows) (hc : c < cols) :
    r * cols + c < rows * cols :=
  calc r * cols + c < r * cols + cols := Nat.add_lt_add_left hc _
    _ = (r + 1) * cols := (Nat.succ_mul r cols).symm
    _ ≤ rows * cols := Nat.mul_le_mul_right cols hr

theorem get?_ofFn (rows cols : Nat) (f : Nat → Nat → α) (r c : Nat) :
    (ofFn rows cols f).get? r c = if r < rows ∧ c < cols then some (f r c) else none := by
  unfold get?
  by_cases h : r < rows ∧ c < cols
  · have hcell := cell_lt h.1 h.2
    have hpos : 0 < cols := Nat.lt_of_le_of_lt (Nat.zero_le c) h.2
    have hdiv : (r * cols + c) / cols = r := by
      rw [Nat.mul_comm, Nat.mul_add_div hpos, Nat.div_eq_of_lt h.2, Nat.add_zero]
    have hmod : (r * cols + c) % cols = c := by
      rw [Nat.mul_comm, Nat.mul_add_mod, Nat.mod_eq_of_lt h.2]
    simp [ofFn, h, hcell, hdiv, hmod]
  · simp [h]

theorem get?_eq_none {m : DenseMatrix α} {r c : Nat} (h : ¬(r < m.rows ∧ c < m.cols)) :
    m.get? r c = none := by
  simp [get?, h]

variable [Zero α]

theorem entry_ofFn {rows cols : Nat} (f : Nat → Nat → α) {r c : Nat} (hr : r < rows)
    (hc : c < cols) : (ofFn rows cols f).entry r c = f r c := by
  simp [entry, get?_ofFn, hr, hc]

theorem entry_eq_zero {m : DenseMatrix α} {r c : Nat} (h : ¬(r < m.rows ∧ c < m.cols)) :
    m.entry r c = 0 := by
  simp [entry, get?_eq_none h]

/-- Matrices of one shape with the same entries are equal. -/
theorem ext_entry {a b : DenseMatrix α} (hr : a.rows = b.rows) (hc : a.cols = b.cols)
    (h : ∀ r c, r < a.rows → c < a.cols → a.entry r c = b.entry r c) : a = b := by
  obtain ⟨rows, cols, cells, size⟩ := a
  obtain ⟨rows', cols', cells', size'⟩ := b
  cases hr
  cases hc
  suffices cells = cells' by subst this; rfl
  apply Array.ext (size.trans size'.symm)
  intro i hi hi'
  have hi : i < rows * cols := size ▸ hi
  have hpos : 0 < cols := Nat.pos_of_ne_zero fun hz => by simp [hz] at hi
  have hr : i / cols < rows := Nat.div_lt_of_lt_mul (Nat.mul_comm rows cols ▸ hi)
  have hc : i % cols < cols := Nat.mod_lt _ hpos
  have hplace : i / cols * cols + i % cols = i := by
    rw [Nat.mul_comm]
    exact Nat.div_add_mod i cols
  have hsame := h (i / cols) (i % cols) hr hc
  simpa [entry, get?, hr, hc, hplace, size, size', hi] using hsame

/-- A matrix is made of its entries. -/
theorem ofFn_entry (m : DenseMatrix α) : ofFn m.rows m.cols m.entry = m :=
  ext_entry rfl rfl fun _ _ hr hc => entry_ofFn _ hr hc

end Views

section Shapes

variable {α : Type u} [Scalar α]

/-- The matrix of zeros. -/
def zeros (rows cols : Nat) : DenseMatrix α :=
  ofFn rows cols fun _ _ => 0

/-- The matrix with ones where the row and the column number agree, and zeros elsewhere. -/
def diagonal (rows cols : Nat) : DenseMatrix α :=
  ofFn rows cols fun r c => if r = c then 1 else 0

/-- The identity matrix. -/
def identity (size : Nat) : DenseMatrix α :=
  diagonal size size

/-- Rows and columns exchanged. -/
def transpose (m : DenseMatrix α) : DenseMatrix α :=
  ofFn m.cols m.rows fun r c => m.entry c r

theorem entry_transpose {m : DenseMatrix α} {r c : Nat} (hr : r < m.cols) (hc : c < m.rows) :
    m.transpose.entry r c = m.entry c r :=
  entry_ofFn _ hr hc

theorem transpose_transpose (m : DenseMatrix α) : m.transpose.transpose = m :=
  ext_entry rfl rfl fun _ _ hr hc => by
    rw [entry_transpose (m := m.transpose) hr hc, entry_transpose (m := m) hc hr]

/-- Whether there are as many rows as columns. -/
def isSquare (m : DenseMatrix α) : Bool :=
  m.rows == m.cols

/-- Whether the last row is `[0, …, 0, 1]`. -/
def isAffine (m : DenseMatrix α) : Bool :=
  m.rows != 0 && m.cols != 0 &&
    (List.range m.cols).all fun c =>
      m.entry (m.rows - 1) c == if c + 1 = m.cols then 1 else 0

/-- Whether the matrix is an identity matrix. -/
def isIdentity (m : DenseMatrix α) : Bool :=
  m.isSquare &&
    (List.range m.rows).all fun r => (List.range m.cols).all fun c =>
      m.entry r c == if r = c then 1 else 0

/-- Whether some entry is not determined. -/
def hasUnconstrained (m : DenseMatrix α) : Bool :=
  m.cells.any Scalar.isNaN

/-- Matrices are equal if their shapes are and all entries agree: zeros of either sign are equal,
and an entry that is not determined equals itself. -/
instance : BEq (DenseMatrix α) :=
  ⟨fun a b => a.rows == b.rows && a.cols == b.cols &&
    Array.isEqv a.cells b.cells Scalar.agree⟩

instance : Inhabited (DenseMatrix α) := ⟨zeros 0 0⟩

end Shapes

end DenseMatrix
end SeparableTransforms
