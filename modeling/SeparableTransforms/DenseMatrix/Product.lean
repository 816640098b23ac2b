import SeparableTransforms.DenseMatrix.Basic
import SeparableTransforms.DoubleDouble.Basic

/-!
# Products of matrices

An entry of a product is a sum of products, accumulated in double-double
precision from left to right and rounded once.  A term with a zero factor is
left out, so that an undetermined or infinite coefficient has no effect where
its partner is zero.
-/

namespace SeparableTransforms
namespace DenseMatrix

universe u

section Product

variable {α : Type u} [Scalar α]

/-- Adds the product of two coefficients, unless one of them is zero. -/
def accumulate (sum : DoubleDouble α) (a b : α) : DoubleDouble α :=
  if a == 0 || b == 0 then sum else sum + DoubleDouble.product a b

/-- Row `r` of one matrix times column `c` of another. -/
def dot (a b : DenseMatrix α) (r c : Nat) : α :=
  ((List.range a.cols).foldl (fun sum k => accumulate sum (a.entry r k) (b.entry k c)) 0).value

/-- The product of two matrices, if the columns of the first are as many as the rows of the
second. -/
def multiply (a b : DenseMatrix α) : Except MatrixError (DenseMatrix α) :=
  if a.cols = b.rows then .ok (ofFn a.rows b.cols (dot a b))
  else .error (.dimensionMismatch .innerSize a.cols b.rows)

theorem entry_multiply {a b p : DenseMatrix α} (h : a.multiply b = .ok p) {r c : Nat}
    (hr : r < a.rows) (hc : c < b.cols) : p.entry r c = dot a b r c := by
  unfold multiply at h
  split at h
  · cases h
    exact entry_ofFn _ hr hc
  · cases h

end Product

end DenseMatrix
end SeparableTransforms
