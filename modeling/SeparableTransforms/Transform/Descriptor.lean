import SeparableTransforms.Transform.Basic

/-!
# Descriptors

A descriptor says how a transform is put together without the means to evaluate
it: of a kernel only its name and its dimensions are kept, and nodes have no
identity.  Descriptors are compared as matrices are, so that zeros of either
sign and coefficients that are not determined are equal.
-/

namespace SeparableTransforms

/-- The structure of a transform. -/
inductive Descriptor (α : Type) where
  | linear (matrix : DenseMatrix α)
  | chain (first second : Descriptor α)
  | passThrough (leading : Nat) (inner : Descriptor α) (trailing : Nat)
  | kernel (name : String) (sourceDimensions targetDimensions : Nat)

namespace Descriptor

section Descriptor

variable {α : Type}

/-- Equality of descriptors. -/
def same [Scalar α] : Descriptor α → Descriptor α → Bool
  | linear m, linear m' => m == m'
  | chain a b, chain a' b' => a.same a' && b.same b'
  | passThrough k t n, passThrough k' t' n' => k == k' && t.same t' && n == n'
  | kernel name s t, kernel name' s' t' => name == name' && s == s' && t == t'
  | _, _ => false

instance [Scalar α] : BEq (Descriptor α) := ⟨same⟩

/-- How many linear and kernel nodes there are. -/
def leafCount : Descriptor α → Nat
  | linear _ => 1
  | chain a b => a.leafCount + b.leafCount
  | passThrough _ t _ => t.leafCount
  | kernel .. => 1

end Descriptor

end Descriptor

/-- The structure of a transform. -/
def Transform.describe {κ α : Type} [Kernel κ α] : Transform κ α → Descriptor α
  | linear _ m => .linear m
  | chain _ a b => .chain a.describe b.describe
  | passThrough _ k t n => .passThrough k t.describe n
  | kernel _ k =>
      .kernel (Kernel.name k) (Kernel.sourceDimensions k) (Kernel.targetDimensions k)

end SeparableTransforms
