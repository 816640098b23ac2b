import SeparableTransforms.DenseMatrix.Basic

/-!
# Coefficients

A matrix stores plain scalars, and `NaN` among them means that a coefficient is
not determined.  A `Coefficient` makes the two cases explicit, for the code that
asks how an output depends on an input.
-/

namespace SeparableTransforms

universe u

/-- A coefficient of a matrix: a known value, or not determined. -/
inductive Coefficient (α : Type u) where
  | known (value : α)
  | unconstrained
deriving Repr

namespace Coefficient

section Coefficient

variable {α : Type u} [Scalar α]

/-- The coefficient that a stored scalar stands for. -/
def ofScalar (a : α) : Coefficient α :=
  if Scalar.isNaN a then .unconstrained else .known a

/-- The scalar to store for a coefficient. -/
def value : Coefficient α → α
  | .known a => a
  | .unconstrained => Scalar.nan

/-- Whether the coefficient is known to be zero: the output does not depend on the input. -/
def isZero : Coefficient α → Bool
  | .known a => a == 0
  | .unconstrained => false

/-- Whether the coefficient lets an output do without the input: known zero or not determined. -/
def isIgnorable : Coefficient α → Bool
  | .known a => a == 0
  | .unconstrained => true

/-- Known values compare as scalars do. -/
instance : BEq (Coefficient α) :=
  ⟨fun
    | .known a, .known b => a == b
    | .unconstrained, .unconstrained => true
    | _, _ => false⟩

end Coefficient

end Coefficient

/-- The coefficient in row `r` and column `c`, if the matrix has one. -/
def DenseMatrix.coefficient? {α : Type u} [Scalar α] (m : DenseMatrix α) (r c : Nat) :
    Option (Coefficient α) :=
  (m.get? r c).map Coefficient.ofScalar

/-- The coefficient in row `r` and column `c`; known to be zero outside the matrix. -/
def DenseMatrix.coefficient {α : Type u} [Scalar α] (m : DenseMatrix α) (r c : Nat) :
    Coefficient α :=
  Coefficient.ofScalar (m.entry r c)

end SeparableTransforms
