import SeparableTransforms.Separation.Targets

/-!
# Keeping some inputs

`keepSources` reduces a transform to some of its source dimensions and to those
of its outputs that can be computed from them.  The result comes with the list
of these outputs, in increasing order.

An output of a linear transform remains if every coefficient of the excluded
inputs is ignorable, that is known to be zero or not determined.  A kernel needs
all of its inputs.  A chain is walked from its first step forwards, each step
being reduced to the outputs that remain of the step before it.  A pass-through
keeps the requested coordinates that it copies and reduces its inner transform
to the others.
-/

namespace SeparableTransforms
namespace Transform

/-- A reduced transform and the outputs of the whole one that it computes. -/
abbrev Reduced (κ α : Type) := Transform κ α × List Nat

section Steps

variable {κ α : Type}

/-- A step together with the way to reduce it to a proper part of its inputs. -/
structure SourceStep (κ α : Type) where
  step : Transform κ α
  reduce : List Nat → Except TransformError (Reduced κ α)

variable [Kernel κ α] [Scalar α]

/-- The step reduced to the given inputs; the step itself if they are all of them. -/
def SourceStep.keep (s : SourceStep κ α) (sources : List Nat) :
    Except TransformError (Reduced κ α) :=
  if isFull sources s.step.sourceDimensions then
    .ok (s.step, List.range s.step.targetDimensions)
  else s.reduce sources

/-- The outputs of an affine matrix that depend on no input outside the given ones. -/
def determinedRows (m : DenseMatrix α) (sources : List Nat) : List Nat :=
  let excluded := (List.range (m.cols - 1)).filter fun c => !sources.contains c
  (List.range (m.rows - 1)).filter fun r =>
    excluded.all fun c => (m.coefficient r c).isIgnorable

/-- A linear transform reduced to the given inputs. -/
def keepMatrixSources (assembler : Assembler κ α) (m : DenseMatrix α) (sources : List Nat) :
    Except TransformError (Reduced κ α) := do
  let kept := determinedRows m sources
  let block ← TransformError.ofMatrix
    (m.submatrix (kept ++ [m.rows - 1]) (sources ++ [m.cols - 1]))
  let reduced ← assembler.affine block
  return (reduced, kept)

/-- The steps from number `i` on reduced to the given inputs, and the outputs that remain of the
last one.  Only the last step may be left without outputs. -/
def keepForward : List (SourceStep κ α) → Nat → List Nat →
    Except TransformError (List (Transform κ α) × List Nat)
  | [], _, current => .ok ([], current)
  | s :: rest, i, current => do
      let (step, outputs) ← s.keep current
      if outputs.isEmpty && !rest.isEmpty then
        throw (.cannotSeparate (.stepWithoutOutput i))
      let (later, final) ← keepForward rest (i + 1) outputs
      return (step :: later, final)

/-- A transform, given by its steps, reduced to the given inputs. -/
def keepSourceSteps (assembler : Assembler κ α) (whole : Transform κ α)
    (steps : List (SourceStep κ α)) (sources : List Nat) :
    Except TransformError (Reduced κ α) :=
  if isFull sources whole.sourceDimensions then .ok (whole, List.range whole.targetDimensions)
  else
    match steps with
    | [only] => only.reduce sources
    | steps => do
        let (reduced, final) ← keepForward steps 0 sources
        let result ← assembler.compose reduced
        return (result, final)

/-- A pass-through reduced to the given inputs, with the inner transform reduced by `keep`. -/
def keepPassThroughSources (assembler : Assembler κ α) (k : Nat) (inner : Transform κ α)
    (keep : List Nat → Except TransformError (Reduced κ α)) (sources : List Nat) :
    Except TransformError (Reduced κ α) := do
  let inputs := inner.sourceDimensions
  let outputs := inner.targetDimensions
  let leading := sources.take (sources.filter fun s => s < k).length
  let trailing := sources.filter fun s => k + inputs ≤ s
  let innerSources := (sources.filter fun s => k ≤ s && s < k + inputs).map fun s => s - k
  let shifted := trailing.map fun s => s - inputs + outputs
  if innerSources.isEmpty then
    let copy ← assembler.affine (DenseMatrix.identity (sources.length + 1))
    return (copy, leading ++ shifted)
  else
    let (reduced, innerTargets) ← keep innerSources
    let result ← assembler.passThrough leading.length reduced trailing.length
    return (result, leading ++ innerTargets.map (fun t => t + k) ++ shifted)

/-- Every step of a transform with the way to reduce it. -/
def sourceSteps (assembler : Assembler κ α) : Transform κ α → List (SourceStep κ α)
  | linear id m => [⟨linear id m, keepMatrixSources assembler m⟩]
  | chain _ a b => a.sourceSteps assembler ++ b.sourceSteps assembler
  | passThrough id k inner n =>
      let keep := keepSourceSteps assembler inner (inner.sourceSteps assembler)
      [⟨passThrough id k inner n, keepPassThroughSources assembler k inner keep⟩]
  | kernel id k =>
      [⟨kernel id k, fun sources =>
        .error (.cannotSeparate
          (.kernelSources (Kernel.name k) (Kernel.sourceDimensions k) sources))⟩]

/-- The transform reduced to the given inputs, and the outputs that remain. -/
def keepSources (assembler : Assembler κ α) (t : Transform κ α) (sources : List Nat) :
    Except TransformError (Reduced κ α) :=
  keepSourceSteps assembler t (t.sourceSteps assembler) sources

end Steps

end Transform
end SeparableTransforms
