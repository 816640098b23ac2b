import SeparableTransforms.Transform.Kernel

/-!
# Transforms

A transform maps points with a fixed number of coordinates to points with a
fixed number of coordinates.  It is a tree of four kinds of nodes.

* A *linear* node holds an affine matrix.
* A *chain* applies one transform after another.
* A *pass-through* node copies some leading and some trailing coordinates and
  applies a transform to those between.
* A *kernel* node holds a kernel.

A node may carry an identity, by which it is recognised after other operations.
An operation that keeps a node keeps its identity, and a node that an operation
makes has none.

The *steps* of a transform are what remains when all chains are flattened.
-/

namespace SeparableTransforms

/-- The identity of a node, if it has been given one. -/
abbrev NodeId := Option Nat

/-- A tree of transforms over kernels `κ` and scalars `α`. -/
inductive Transform (κ α : Type) where
  | linear (id : NodeId) (matrix : DenseMatrix α)
  | chain (id : NodeId) (first second : Transform κ α)
  | passThrough (id : NodeId) (leading : Nat) (inner : Transform κ α) (trailing : Nat)
  | kernel (id : NodeId) (kernel : κ)

namespace Transform

section Structure

variable {κ α : Type}

/-- The identity of the outermost node. -/
def nodeId : Transform κ α → NodeId
  | linear id _ => id
  | chain id _ _ => id
  | passThrough id _ _ _ => id
  | kernel id _ => id

/-- The transform with another identity of the outermost node. -/
def withNodeId (id : NodeId) : Transform κ α → Transform κ α
  | linear _ m => linear id m
  | chain _ a b => chain id a b
  | passThrough _ k t n => passThrough id k t n
  | kernel _ k => kernel id k

/-- The steps, in the order in which they apply. -/
def steps : Transform κ α → List (Transform κ α)
  | chain _ a b => a.steps ++ b.steps
  | t => [t]

/-- The kernels of the tree in the order in which they are evaluated, each with its node. -/
def kernels : Transform κ α → List (NodeId × κ)
  | linear _ _ => []
  | chain _ a b => a.kernels ++ b.kernels
  | passThrough _ _ t _ => t.kernels
  | kernel id k => [(id, k)]

/-- The matrix of a linear transform. -/
def matrix? : Transform κ α → Option (DenseMatrix α)
  | linear _ m => some m
  | _ => none

/-- The same tree over other kernels. -/
def mapKernel {κ' : Type} (f : κ → κ') : Transform κ α → Transform κ' α
  | linear id m => linear id m
  | chain id a b => chain id (a.mapKernel f) (b.mapKernel f)
  | passThrough id k t n => passThrough id k (t.mapKernel f) n
  | kernel id k => kernel id (f k)

/-- Whether the transform is a linear one with an identity matrix. -/
def isIdentity [Scalar α] : Transform κ α → Bool
  | linear _ m => m.isIdentity
  | _ => false

theorem steps_ne_nil (t : Transform κ α) : t.steps ≠ [] := by
  induction t with
  | linear id m => simp [steps]
  | chain id a b iha ihb => simp [steps, iha]
  | passThrough id k t n ih => simp [steps]
  | kernel id k => simp [steps]

/-- No step is a chain. -/
theorem steps_of_mem_steps {t s : Transform κ α} (h : s ∈ t.steps) : s.steps = [s] := by
  induction t with
  | linear id m => simp [steps] at h; simp [h, steps]
  | chain id a b iha ihb =>
      simp only [steps, List.mem_append] at h
      exact h.elim iha ihb
  | passThrough id k t n ih => simp [steps] at h; simp [h, steps]
  | kernel id k => simp [steps] at h; simp [h, steps]

end Structure

section Dimensions

variable {κ α : Type} [Kernel κ α]

/-- How many coordinates the transform takes. -/
def sourceDimensions : Transform κ α → Nat
  | linear _ m => m.cols - 1
  | chain _ a _ => a.sourceDimensions
  | passThrough _ k t n => k + t.sourceDimensions + n
  | kernel _ k => Kernel.sourceDimensions k

/-- How many coordinates the transform gives. -/
def targetDimensions : Transform κ α → Nat
  | linear _ m => m.rows - 1
  | chain _ _ b => b.targetDimensions
  | passThrough _ k t n => k + t.targetDimensions + n
  | kernel _ k => Kernel.targetDimensions k

/-- Every node has a source dimension, every matrix is affine, and neighbours in a chain fit. -/
def WellFormed [Scalar α] : Transform κ α → Prop
  | linear _ m => m.isAffine = true ∧ 2 ≤ m.cols
  | chain _ a b => a.WellFormed ∧ b.WellFormed ∧ a.targetDimensions = b.sourceDimensions
  | passThrough _ _ t _ => t.WellFormed
  | kernel _ k => 0 < Kernel.sourceDimensions k

end Dimensions

section Making

variable {κ α : Type} [Kernel κ α]

/-- The linear transform with the given matrix, which must be affine and take a coordinate. -/
def ofMatrix [Scalar α] (m : DenseMatrix α) : Except TransformError (Transform κ α) :=
  if !m.isAffine then .error (.matrix .notAffine)
  else if m.cols < 2 then .error (.illegalArgument .matrixWithoutSource)
  else .ok (linear none m)

/-- The transform that copies its coordinates. -/
def identity [Scalar α] (dimensions : Nat) : Except TransformError (Transform κ α) :=
  ofMatrix (DenseMatrix.identity (dimensions + 1))

/-- The transform of a kernel, which must take a coordinate. -/
def ofKernel (k : κ) : Except TransformError (Transform κ α) :=
  if Kernel.sourceDimensions k = 0 then
    .error (.illegalArgument (.kernelWithoutSource (Kernel.name k)))
  else .ok (kernel none k)

/-- Two transforms one after the other, which must fit. -/
def join (first second : Transform κ α) : Except TransformError (Transform κ α) :=
  if first.targetDimensions ≠ second.sourceDimensions then
    .error (.dimensionMismatch .concatenation first.targetDimensions second.sourceDimensions)
  else .ok (chain none first second)

/-- All given transforms one after another; `none` if there are none. -/
def joinAll : List (Transform κ α) → Except TransformError (Option (Transform κ α))
  | [] => .ok none
  | first :: rest => (rest.foldlM join first).map some

end Making

end Transform
end SeparableTransforms
