import SeparableTransforms.Proofs.Dimensions
import SeparableTransforms.Proofs.Outcome
import SeparableTransforms.Separation.Targets

/-!
# The stages of reducing a pass-through

A pass-through is reduced to some of its outputs in two stages.  The first one decides
what to wrap: the pass-through itself, or a new one around the reduced inner transform.
The second one selects the requested outputs from those that the wrapper gives.
-/

namespace SeparableTransforms
namespace Transform

open Outcome

section Stages

variable {κ α : Type} [Kernel κ α] [Scalar α]

/-- The transform to select from, and the outputs of the inner one that it gives. -/
def wrapPart (assembler : Assembler κ α) (whole : Transform κ α) (k : Nat) (inner : Transform κ α)
    (n : Nat) (keep : List Nat → Except TransformError (Transform κ α)) (targets : List Nat) :
    Except TransformError (Transform κ α × List Nat) :=
  let innerTargets := inside k inner.targetDimensions targets
  if isFull innerTargets inner.targetDimensions then .ok (whole, innerTargets)
  else
    match keep innerTargets with
    | .ok reduced => (fun wrapper => (wrapper, innerTargets)) <$> assembler.passThrough k reduced n
    | .error (.cannotSeparate _) => .ok (whole, List.range inner.targetDimensions)
    | .error e => .error e

/-- The requested outputs selected from those of a wrapper. -/
def selectPart (assembler : Assembler κ α) (k c n : Nat) (targets : List Nat)
    (part : Transform κ α × List Nat) : Except TransformError (Transform κ α) :=
  let rows := targets.map (reducedPosition k c part.2)
  let outputs := k + part.2.length + n
  if isFull rows outputs then .ok part.1
  else do
    let matrix ← selectCoordinates rows outputs
    let selection ← assembler.affine matrix
    assembler.concatenate part.1 selection

variable {assembler : Assembler κ α} {whole inner : Transform κ α} {k n : Nat}
  {keep : List Nat → Except TransformError (Transform κ α)} {targets : List Nat}

/-- Where nothing is requested of the inner transform, coordinates are selected from the point. -/
theorem keepPassThrough_eq_copied (h : (inside k inner.targetDimensions targets).isEmpty = true) :
    keepPassThrough assembler whole k inner n keep targets =
      selectCoordinates
        (targets.map fun t => if t < k then t else t - inner.targetDimensions +
          inner.sourceDimensions) (k + inner.sourceDimensions + n) >>= assembler.affine :=
  if_pos h

/-- Otherwise the two stages follow each other. -/
theorem keepPassThrough_eq_stages
    (h : (inside k inner.targetDimensions targets).isEmpty = false) :
    keepPassThrough assembler whole k inner n keep targets =
      wrapPart assembler whole k inner n keep targets >>=
        selectPart assembler k inner.targetDimensions n targets := by
  cases hfull : isFull (inside k inner.targetDimensions targets) inner.targetDimensions with
  | true =>
      unfold inside at h hfull
      simp only [keepPassThrough, wrapPart, inside, h, hfull, Bool.false_eq_true, if_false, if_true]
      rfl
  | false =>
      cases hkeep : keep (inside k inner.targetDimensions targets) with
      | ok reduced =>
          unfold inside at h hfull hkeep
          simp only [keepPassThrough, wrapPart, inside, h, hfull, hkeep, Bool.false_eq_true,
            if_false]
          cases assembler.passThrough k reduced n with
          | error e => rfl
          | ok wrapper => rfl
      | error e =>
          unfold inside at h hfull hkeep
          simp only [keepPassThrough, wrapPart, inside, h, hfull, hkeep, Bool.false_eq_true,
            if_false]
          cases e with
          | _ => rfl

end Stages

end Transform
end SeparableTransforms
