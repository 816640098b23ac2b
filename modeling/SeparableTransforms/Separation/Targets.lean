import SeparableTransforms.DenseMatrix.Coefficient
import SeparableTransforms.DenseMatrix.Selection
import SeparableTransforms.Transform.Assembly

/-!
# Keeping some outputs

`keepTargets` reduces a transform to some of its target dimensions and leaves
the source dimensions as they are.  A linear transform is reduced by selecting
rows, and a kernel cannot be reduced.

A chain is walked from its last step backwards.  Its last step keeps the
requested outputs.  If that step is linear and does not use all of its inputs,
the unused ones are dropped and the steps before it are reduced to the used
ones.  Where the earlier steps cannot be reduced, they are kept as they are.

A pass-through keeps of its inner transform what is requested of it, or all of
it if it cannot be reduced, and then selects the requested coordinates.

`trimSources` drops the source dimensions that no output of the first linear
step depends on.
-/

namespace SeparableTransforms

section Dimensions

/-- Whether the list holds all dimensions below the limit, in order. -/
def isFull (dimensions : List Nat) (limit : Nat) : Bool :=
  dimensions == List.range limit

variable {α : Type} [Scalar α]

/-- The affine matrix that picks the given coordinates out of a number of them. -/
def selectionMatrix (picked : List Nat) (sources : Nat) : DenseMatrix α :=
  DenseMatrix.ofFn (picked.length + 1) (sources + 1) fun r c =>
    if c = picked.getD r sources then 1 else 0

/-- The affine matrix that picks the given coordinates, all of which must exist. -/
def selectCoordinates (picked : List Nat) (sources : Nat) :
    Except TransformError (DenseMatrix α) :=
  match picked.zipIdx.find? fun entry => sources < entry.1 with
  | some (d, row) =>
      .error (.matrix (.elementOutOfBounds row d (picked.length + 1) (sources + 1)))
  | none => .ok (selectionMatrix picked sources)

theorem selectCoordinates_eq_ok {picked : List Nat} {sources : Nat}
    (h : ∀ d ∈ picked, d < sources) :
    (selectCoordinates picked sources : Except TransformError (DenseMatrix α)) =
      .ok (selectionMatrix picked sources) := by
  have hnone : (picked.zipIdx.find? fun entry => sources < entry.1) = none := by
    refine List.find?_eq_none.mpr fun entry hentry => ?_
    have hbound := h entry.1 (List.fst_mem_of_mem_zipIdx hentry)
    simpa using Nat.le_of_lt hbound
  simp only [selectCoordinates, hnone]

/-- The source dimensions of an affine matrix on which some output depends. -/
def usedColumns (m : DenseMatrix α) : List Nat :=
  (List.range (m.cols - 1)).filter fun c =>
    (List.range (m.rows - 1)).any fun r => !(m.coefficient r c).isZero

/-- The rows of an affine matrix for the given outputs, with the last row. -/
def targetRows (m : DenseMatrix α) (targets : List Nat) : Except TransformError (DenseMatrix α) :=
  TransformError.ofMatrix (m.selectRows (targets ++ [m.rows - 1]))

end Dimensions

namespace Transform

section Steps

variable {κ α : Type}

/-- A step together with the way to reduce it to a proper part of its outputs. -/
structure TargetStep (κ α : Type) where
  step : Transform κ α
  reduce : List Nat → Except TransformError (Transform κ α)

variable [Kernel κ α] [Scalar α]

/-- The step reduced to the given outputs; the step itself if they are all of them. -/
def TargetStep.keep (s : TargetStep κ α) (targets : List Nat) :
    Except TransformError (Transform κ α) :=
  if isFull targets s.step.targetDimensions then .ok s.step else s.reduce targets

/-- The steps of a chain reduced to the given outputs.  The steps are listed from last to first, the
reduced ones from first to last. -/
def keepChain (assembler : Assembler κ α) :
    List (TargetStep κ α) → List Nat → Except TransformError (List (Transform κ α))
  | [], _ => .ok []
  | [only], targets => do
      let reduced ← only.keep targets
      return [reduced]
  | last :: previous :: earlier, targets => do
      let whole := ((previous :: earlier).map TargetStep.step).reverse
      match last.step with
      | linear _ m =>
          let rows ← targetRows m targets
          let used := usedColumns rows
          if !used.isEmpty && used.length < m.cols - 1 then
            match keepChain assembler (previous :: earlier) used with
            | .ok reduced =>
                let unused := (List.range (m.cols - 1)).filter fun c => !used.contains c
                let final ← assembler.affine (rows.removeColumns unused)
                return reduced ++ [final]
            | .error (.cannotSeparate _) =>
                let final ← assembler.affine rows
                return whole ++ [final]
            | .error e => throw e
          else
            let final ← assembler.affine rows
            return whole ++ [final]
      | _ =>
          let final ← last.keep targets
          return whole ++ [final]

/-- A transform, given by its steps, reduced to the given outputs. -/
def keepSteps (assembler : Assembler κ α) (whole : Transform κ α) (steps : List (TargetStep κ α))
    (targets : List Nat) : Except TransformError (Transform κ α) :=
  if isFull targets whole.targetDimensions then .ok whole
  else
    match steps with
    | [only] => only.reduce targets
    | steps => do
        let reduced ← keepChain assembler steps.reverse targets
        assembler.compose reduced

/-- The position of an output in a pass-through whose inner transform has been reduced to the
outputs `kept`. -/
def reducedPosition (k innerTargets : Nat) (kept : List Nat) (t : Nat) : Nat :=
  if t < k then t
  else if t < k + innerTargets then k + kept.idxOf (t - k)
  else t - innerTargets + kept.length

/-- A pass-through reduced to the given outputs, with the inner transform reduced by `keep`. -/
def keepPassThrough (assembler : Assembler κ α) (whole : Transform κ α) (k : Nat)
    (inner : Transform κ α) (n : Nat) (keep : List Nat → Except TransformError (Transform κ α))
    (targets : List Nat) : Except TransformError (Transform κ α) := do
  let sources := inner.sourceDimensions
  let count := inner.targetDimensions
  let innerTargets := (targets.filter fun t => k ≤ t && t < k + count).map fun t => t - k
  if innerTargets.isEmpty then
    let picked := targets.map fun t => if t < k then t else t - count + sources
    let matrix ← selectCoordinates picked (k + sources + n)
    assembler.affine matrix
  else
    let (wrapper, kept) ←
      if isFull innerTargets count then pure (whole, innerTargets)
      else
        match keep innerTargets with
        | .ok reduced => do
            let wrapper ← assembler.passThrough k reduced n
            pure (wrapper, innerTargets)
        | .error (.cannotSeparate _) => pure (whole, List.range count)
        | .error e => throw e
    let outputs := k + kept.length + n
    let rows := targets.map (reducedPosition k count kept)
    if isFull rows outputs then return wrapper
    else
      let matrix ← selectCoordinates rows outputs
      let selection ← assembler.affine matrix
      assembler.concatenate wrapper selection

/-- Every step of a transform with the way to reduce it. -/
def targetSteps (assembler : Assembler κ α) : Transform κ α → List (TargetStep κ α)
  | linear id m =>
      [⟨linear id m, fun targets => do
        let rows ← targetRows m targets
        assembler.affine rows⟩]
  | chain _ a b => a.targetSteps assembler ++ b.targetSteps assembler
  | passThrough id k inner n =>
      let whole := passThrough id k inner n
      let keep := keepSteps assembler inner (inner.targetSteps assembler)
      [⟨whole, keepPassThrough assembler whole k inner n keep⟩]
  | kernel id k =>
      [⟨kernel id k, fun targets =>
        .error (.cannotSeparate (.kernelTargets (Kernel.name k) targets))⟩]

/-- The transform reduced to the given outputs. -/
def keepTargets (assembler : Assembler κ α) (t : Transform κ α) (targets : List Nat) :
    Except TransformError (Transform κ α) :=
  keepSteps assembler t (t.targetSteps assembler) targets

end Steps

section Trimming

variable {κ α : Type} [Kernel κ α] [Scalar α]

/-- An affine matrix without the source dimensions that no output depends on, and those that
remain; `none` if all of them would remain, or none. -/
def trimMatrix (m : DenseMatrix α) : Except TransformError (Option (DenseMatrix α × List Nat)) :=
  let kept := usedColumns m
  if kept.isEmpty || kept.length == m.cols - 1 then .ok none
  else do
    let trimmed ← TransformError.ofMatrix (m.selectColumns (kept ++ [m.cols - 1]))
    return some (trimmed, kept)

/-- The transform without the source dimensions that its first step, if linear, does not use, and
the dimensions that remain. -/
def trimSources (assembler : Assembler κ α) (t : Transform κ α) :
    Except TransformError (Transform κ α × List Nat) :=
  match t.steps with
  | linear _ m :: rest => do
      match ← trimMatrix m with
      | some (trimmed, kept) =>
          let head ← assembler.affine trimmed
          let result ← assembler.compose (head :: rest)
          return (result, kept)
      | none => return (t, List.range t.sourceDimensions)
  | _ => .ok (t, List.range t.sourceDimensions)

end Trimming

end Transform
end SeparableTransforms
