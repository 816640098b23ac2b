import SeparableTransforms.DenseMatrix.Inverse
import SeparableTransforms.Transform.Basic

/-!
# Inverse transforms

The inverse of a tree has the inverses of its nodes, with the parts of every
chain in the opposite order.
-/

namespace SeparableTransforms
namespace Transform

section Inverse

variable {κ α : Type} [Kernel κ α] [Scalar α]

/-- The matrix that undoes an affine matrix. -/
def inverseMatrix (m : DenseMatrix α) : Except TransformError (DenseMatrix α) :=
  if m.isSquare then TransformError.ofMatrix m.inverse
  else .error (.noninvertible (.rectangular (m.cols - 1) (m.rows - 1)))

/-- The transform that undoes another one.  The second part of a chain is inverted first. -/
def inverse : Transform κ α → Except TransformError (Transform κ α)
  | linear _ m => linear none <$> inverseMatrix m
  | chain _ a b => do
      let first ← b.inverse
      let second ← a.inverse
      join first second
  | passThrough _ k t n => do
      let inner ← t.inverse
      return passThrough none k inner n
  | kernel _ k =>
      match Kernel.inverse? k with
      | some k' => .ok (kernel none k')
      | none => .error (.noninvertible (.kernel (Kernel.name k)))

end Inverse

end Transform
end SeparableTransforms
