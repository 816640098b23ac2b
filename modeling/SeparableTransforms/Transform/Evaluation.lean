import SeparableTransforms.DenseMatrix.Product
import SeparableTransforms.DenseMatrix.Selection
import SeparableTransforms.Transform.Basic

/-!
# Evaluating transforms

`Transform.evaluate` computes the image of a point and, if asked to, the
derivative there by the chain rule.  Every node first checks how many
coordinates it is given, and a chain has a derivative only if both of its parts
have one.
-/

namespace SeparableTransforms
namespace Transform

section Linear

variable {α : Type} [Scalar α]

/-- Coordinate `r` of the image under an affine matrix: the offset and the weighted
coordinates, accumulated from left to right and rounded once. -/
def affineCoordinate (m : DenseMatrix α) (point : List α) (r : Nat) : α :=
  let n := m.cols - 1
  let start := DoubleDouble.ofScalar (m.entry r n)
  let terms := (point.take n).zipIdx
  (terms.foldl (fun sum term => sum.addTerm (m.entry r term.2) term.1) start).value

/-- The image of a point under an affine matrix. -/
def applyAffine (m : DenseMatrix α) (point : List α) : List α :=
  (List.range (m.rows - 1)).map (affineCoordinate m point)

theorem length_applyAffine (m : DenseMatrix α) (point : List α) :
    (applyAffine m point).length = m.rows - 1 := by
  simp [applyAffine]

/-- The linear part of an affine matrix. -/
def linearPart (m : DenseMatrix α) : Except MatrixError (DenseMatrix α) :=
  m.submatrix (List.range (m.rows - 1)) (List.range (m.cols - 1))

/-- A derivative with `k` copied coordinates before it and `n` after it. -/
def surround (k : Nat) (j : DenseMatrix α) (n targets sources : Nat) : DenseMatrix α :=
  DenseMatrix.ofFn (k + targets + n) (k + sources + n) fun r c =>
    if r < k then if c = r then 1 else 0
    else if r < k + targets then
      if k ≤ c ∧ c < k + sources then j.entry (r - k) (c - k) else 0
    else if c + targets = r + sources then 1 else 0

end Linear

section Evaluate

variable {κ α : Type} [Kernel κ α] [Scalar α]

/-- The image of a point, and the derivative there if the flag asks for it. -/
def evaluate (t : Transform κ α) (point : List α) (derivative : Bool) :
    Except TransformError (Evaluation α) :=
  if point.length ≠ t.sourceDimensions then
    .error (.dimensionMismatch .point t.sourceDimensions point.length)
  else
    match t with
    | linear _ m => do
        let jacobian ←
          if derivative then some <$> TransformError.ofMatrix (linearPart m) else pure none
        return ⟨applyAffine m point, jacobian⟩
    | chain _ a b => do
        let middle ← a.evaluate point derivative
        let final ← b.evaluate middle.point derivative
        match final.jacobian, middle.jacobian with
        | some j₂, some j₁ =>
            let j ← TransformError.ofMatrix (j₂.multiply j₁)
            return ⟨final.point, some j⟩
        | _, _ => return ⟨final.point, none⟩
    | passThrough _ k inner n => do
        let sources := inner.sourceDimensions
        let targets := inner.targetDimensions
        let result ← inner.evaluate ((point.drop k).take sources) derivative
        return ⟨point.take k ++ result.point ++ point.drop (k + sources),
          result.jacobian.map fun j => surround k j n targets sources⟩
    | kernel _ k => Kernel.evaluateChecked k point derivative

/-- The image of a point. -/
def apply (t : Transform κ α) (point : List α) : Except TransformError (List α) :=
  (t.evaluate point false).map Evaluation.point

/-- The image of a point and the derivative there, which must exist. -/
def applyWithDerivative (t : Transform κ α) (point : List α) :
    Except TransformError (List α × DenseMatrix α) := do
  let result ← t.evaluate point true
  match result.jacobian with
  | some j => return (result.point, j)
  | none => throw (.illegalState .noDerivative)

/-- The derivative at a point. -/
def derivative (t : Transform κ α) (point : List α) : Except TransformError (DenseMatrix α) :=
  (t.applyWithDerivative point).map Prod.snd

/-- The images of points whose coordinates are listed one point after the other, under a transform
that takes a coordinate. -/
def applyPacked (t : Transform κ α) (coordinates : List α) : Except TransformError (List α) :=
  let dim := t.sourceDimensions
  let remainder := coordinates.length % dim
  if remainder ≠ 0 then
    .error (.dimensionMismatch .packedCoordinates (coordinates.length - remainder + dim)
      coordinates.length)
  else
    List.flatten <$> (List.range (coordinates.length / dim)).mapM fun i =>
      t.apply ((coordinates.drop (i * dim)).take dim)

/-- The images of points whose coordinates are listed one point after the other.  A list cannot be
cut into points without coordinates, so under a transform that takes none there is no outcome. -/
def applyPacked? (t : Transform κ α) (coordinates : List α) :
    Option (Except TransformError (List α)) :=
  if t.sourceDimensions = 0 then none else some (t.applyPacked coordinates)

end Evaluate

end Transform
end SeparableTransforms
