import SeparableTransforms.DenseMatrix.Basic
import SeparableTransforms.DoubleDouble.Basic

/-!
# Uniform scale

The scale of an output axis of an affine matrix is the Euclidean norm of its row
in the linear part.  `uniformScale` gives all axes that have a scale the same
one, chosen between the smallest and the largest by a selector in `[0, 1]`, and
moves the offset so that an anchor point stays fixed.

An axis without a scale, that is with a row of zeros, is left alone, and so is
an axis that has the common scale already.
-/

namespace SeparableTransforms
namespace DenseMatrix

universe u

section Scales

variable {α : Type u} [Radical α]

/-- The coefficients of an output axis in the linear part of an affine matrix. -/
def linearRow (m : DenseMatrix α) (r : Nat) : List α :=
  (List.range (m.cols - 1)).map fun c => m.entry r c

/-- The scale of an output axis. -/
def axisScale (m : DenseMatrix α) (r : Nat) : α :=
  DoubleDouble.norm (m.linearRow r)

/-- The scales of all output axes. -/
def axisScales (m : DenseMatrix α) : List α :=
  (List.range (m.rows - 1)).map m.axisScale

/-- The selector forced into `[0, 1]`; a selector that is not a number stays so. -/
def clampSelector (selector : α) : α :=
  let s := if selector < 0 then 0 else selector
  if 1 < s then 1 else s

/-- The common scale that a selector chooses among the positive ones of the given scales. -/
def commonScale? (selector : α) (scales : List α) : Option α :=
  match scales.filter fun s => decide (0 < s) with
  | [] => none
  | first :: rest =>
      let least := rest.foldl Scalar.smaller first
      let greatest := rest.foldl Scalar.larger first
      let s := clampSelector selector
      some (Scalar.fma (1 - s) least (s * greatest))

/-- Whether an axis of the given scale is to be given the common scale. -/
def needsRescale (common scale : α) : Bool :=
  !(scale == 0) && !(scale == common)

/-- The entry of a rescaled axis.  The offset moves so that the anchor stays where it is. -/
def rescaledEntry (m : DenseMatrix α) (common scale anchor : α) (r c : Nat) : α :=
  let rescale := DoubleDouble.ofScalar common / DoubleDouble.ofScalar scale
  let old := DoubleDouble.ofScalar (m.entry r c)
  if c + 1 = m.cols then
    let a := DoubleDouble.ofScalar anchor
    ((old - a) * rescale + a).value
  else (old * rescale).value

/-- The matrix with every axis of the given scales brought to the common one. -/
def rescaleAxes (m : DenseMatrix α) (common : α) (scales anchor : List α) : DenseMatrix α :=
  ofFn m.rows m.cols fun r c =>
    match scales[r]? with
    | some scale =>
        if needsRescale common scale then m.rescaledEntry common scale (anchor.getD r 0) r c
        else m.entry r c
    | none => m.entry r c

/-- The affine matrix with one scale for all axes, and whether it differs from the old one. -/
def uniformScale (m : DenseMatrix α) (selector : α) (anchor : List α) :
    Except MatrixError (DenseMatrix α × Bool) :=
  if !m.isAffine then .error .notAffine
  else if anchor.length ≠ m.rows - 1 then
    .error (.dimensionMismatch .anchor (m.rows - 1) anchor.length)
  else
    let scales := m.axisScales
    match commonScale? selector scales with
    | none => .ok (m, false)
    | some common =>
        if scales.any (needsRescale common) then
          .ok (m.rescaleAxes common scales anchor, true)
        else .ok (m, false)

end Scales

end DenseMatrix
end SeparableTransforms
