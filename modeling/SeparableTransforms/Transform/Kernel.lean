import SeparableTransforms.DenseMatrix.Basic
import SeparableTransforms.Transform.Error

/-!
# Kernels

A kernel is a transform that is known only through what it computes: how many
coordinates it takes and gives, its values, and perhaps its derivatives and its
inverse.  The rest of the library is written for any type of kernels.

Nothing is assumed of a kernel.  It may return a point or a derivative of the
wrong size, return no derivative, fail, or have an inverse of other dimensions
than its own turned round.
-/

namespace SeparableTransforms

/-- What evaluating a transform at a point gives: the image, and perhaps the derivative there. -/
structure Evaluation (α : Type) where
  point : List α
  jacobian : Option (DenseMatrix α)

/-- A type of kernels over the scalars `α`. -/
class Kernel (κ : Type) (α : outParam Type) where
  /-- The name by which messages and descriptions refer to the kernel. -/
  name : κ → String
  /-- How many coordinates the kernel takes. -/
  sourceDimensions : κ → Nat
  /-- How many coordinates the kernel gives. -/
  targetDimensions : κ → Nat
  /-- The image of a point; the flag asks for the derivative as well. -/
  evaluate : κ → List α → Bool → Except TransformError (Evaluation α)
  /-- The kernel that undoes this one, if there is one. -/
  inverse? : κ → Option κ

/-- Two types of kernels side by side. -/
instance {κ₁ κ₂ α : Type} [Kernel κ₁ α] [Kernel κ₂ α] : Kernel (κ₁ ⊕ κ₂) α where
  name
    | .inl k => Kernel.name k
    | .inr k => Kernel.name k
  sourceDimensions
    | .inl k => Kernel.sourceDimensions k
    | .inr k => Kernel.sourceDimensions k
  targetDimensions
    | .inl k => Kernel.targetDimensions k
    | .inr k => Kernel.targetDimensions k
  evaluate
    | .inl k => Kernel.evaluate k
    | .inr k => Kernel.evaluate k
  inverse?
    | .inl k => (Kernel.inverse? k).map .inl
    | .inr k => (Kernel.inverse? k).map .inr

namespace Kernel

section Checks

variable {κ α : Type} [Kernel κ α]

/-- Whether a derivative has the shape that the kernel declares. -/
def checkJacobian (k : κ) (j : DenseMatrix α) : Except TransformError Unit :=
  if j.rows ≠ targetDimensions k then
    .error (.dimensionMismatch .jacobianRows (targetDimensions k) j.rows)
  else if j.cols ≠ sourceDimensions k then
    .error (.dimensionMismatch .jacobianColumns (sourceDimensions k) j.cols)
  else .ok ()

/-- Evaluates a kernel and refuses a result that does not have the declared size. -/
def evaluateChecked (k : κ) (point : List α) (derivative : Bool) :
    Except TransformError (Evaluation α) := do
  let result ← evaluate k point derivative
  if result.point.length ≠ targetDimensions k then
    throw (.dimensionMismatch .kernelOutput (targetDimensions k) result.point.length)
  match result.jacobian with
  | some j => checkJacobian k j
  | none => pure ()
  return result

end Checks

end Kernel
end SeparableTransforms
