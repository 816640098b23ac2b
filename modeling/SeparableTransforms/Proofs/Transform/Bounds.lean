import SeparableTransforms.Proofs.Kernels.Synthetic
import SeparableTransforms.Proofs.Transform.Collapsing

/-!
# Evaluation stays within bounds

Matrices and points are read through functions that give zero, or nothing, outside of
them.  Here evaluation is written once more, with every read, write and call checked:
a *guarded* computation has no outcome at all if it reads or writes outside of what it
is given, if it takes one from an empty number of rows or columns, or if it calls a
kernel with a point of another length than the kernel declares.

On well-formed transforms guarded evaluation always has an outcome, and it is the
outcome of evaluation.  The kernels may return points and derivatives of any size:
a node reads from what a part returned only after the part has been found to have
kept to its declaration.
-/

namespace SeparableTransforms

/-- A computation that may fail, or break off because it leaves the bounds of its data. -/
abbrev Guarded (β : Type) :=
  ExceptT TransformError Option β

namespace Guarded

section Outcomes

variable {β γ : Type}

/-- A computation that stays within bounds. -/
def outcome (x : Except TransformError β) : Guarded β :=
  ExceptT.mk (some x)

/-- A computation that leaves them. -/
def breach : Guarded β :=
  ExceptT.mk none

@[simp] theorem pure_eq_outcome (b : β) : (pure b : Guarded β) = outcome (.ok b) :=
  rfl

end Outcomes

section Matrices

variable {α : Type} [Scalar α]

/-- Writes an entry, which must exist. -/
def write (m : DenseMatrix α) (r c : Nat) (a : α) : Guarded (DenseMatrix α) :=
  match m.set r c a with
  | .ok m' => outcome (.ok m')
  | .error _ => breach

variable {R C top left rows cols count : Nat} {f g : Nat → Nat → α}

end Matrices

end Guarded

namespace Transform

open Outcome Guarded

section Linear

variable {α : Type} [Scalar α]

variable {m a b j : DenseMatrix α} {p : List α} {k n s t r : Nat}

end Linear

section Evaluate

variable {κ α : Type} [Kernel κ α] [Scalar α]

variable {t : Transform κ α} {p : List α} {derivative : Bool}

end Evaluate

section Construction

variable {κ α : Type} [Kernel κ α] [Scalar α]

variable {t : Transform κ α}

theorem wellFormed_of_ofMatrix {m : DenseMatrix α} (h : ofMatrix m = .ok t) : t.WellFormed := by
  unfold ofMatrix at h
  split at h
  · cases h
  · rename_i haffine
    split at h
    · cases h
    · cases h
      exact ⟨by simpa using haffine, by omega⟩

theorem wellFormed_of_ofKernel {k : κ} (h : ofKernel k = .ok t) : t.WellFormed := by
  unfold ofKernel at h
  split at h
  · cases h
  · rename_i hsource
    cases h
    exact Nat.pos_of_ne_zero hsource

theorem WellFormed.withNodeId (h : t.WellFormed) (id : NodeId) : (t.withNodeId id).WellFormed := by
  cases t with
  | _ => exact h

end Construction

section Binary64

variable {κ : Type} [Kernel κ Float]

end Binary64

end Transform
end SeparableTransforms
