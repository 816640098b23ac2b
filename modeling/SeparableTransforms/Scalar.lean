import SeparableTransforms.Binary64.Exact

/-!
# Scalars

Coordinates and matrix coefficients are scalars.  Everything in this library
that computes with them is written once, over the class `Scalar`, and is read
in two ways.

* Over `Float` every operation rounds, and three special values take part:
  `NaN` (a coefficient that is not determined) and the two infinities.
* Over `Rat` every operation is exact and every scalar is finite.

The class only names the operations.  It states no laws, because the two
readings share hardly any.
-/

namespace SeparableTransforms

universe u

/-- The arithmetic that coordinates and coefficients are computed in. -/
class Scalar (α : Type u) extends
    Zero α, One α, Add α, Sub α, Mul α, Div α, Neg α, BEq α, LT α where
  /-- The strict order is decidable. -/
  decidableLT : DecidableLT α
  /-- The scalar nearest to a natural number. -/
  ofNat : Nat → α
  /-- Product and sum `a * b + c`, rounded once. -/
  fma : α → α → α → α
  /-- Absolute value. -/
  abs : α → α
  /-- Whether the scalar is neither infinite nor `NaN`. -/
  isFinite : α → Bool
  /-- Whether the scalar stands for "not determined". -/
  isNaN : α → Bool
  /-- The scalar that stands for "not determined", where there is one. -/
  nan : α
  /-- Distance from one to the next larger scalar; zero if arithmetic is exact. -/
  epsilon : α

attribute [reducible, instance] Scalar.decidableLT

/-- Scalars with a square root. -/
class Radical (α : Type u) extends Scalar α where
  /-- The nearest scalar to the square root. -/
  sqrt : α → α

section Comparison

variable {α : Type u} [Scalar α]

/-- Equality of stored values: numeric equality, with `NaN` equal to itself. -/
def Scalar.agree (a b : α) : Bool :=
  a == b || (Scalar.isNaN a && Scalar.isNaN b)

/-- The larger of two scalars; the first one if they do not compare. -/
def Scalar.larger (a b : α) : α :=
  if a < b then b else a

/-- The smaller of two scalars; the first one if they do not compare. -/
def Scalar.smaller (a b : α) : α :=
  if b < a then b else a

end Comparison

instance : Scalar Float where
  zero := 0
  one := 1
  decidableLT := fun a b => Float.decLt a b
  ofNat := Float.ofNat
  fma := Binary64.fma
  abs := Float.abs
  isFinite := Float.isFinite
  isNaN := Float.isNaN
  nan := Binary64.nan
  epsilon := Binary64.epsilon

instance : Radical Float where
  sqrt := Float.sqrt

instance : Scalar Rat where
  zero := 0
  one := 1
  decidableLT := fun a b => inferInstanceAs (Decidable (a < b))
  ofNat := fun n => (n : Rat)
  fma := fun a b c => a * b + c
  abs := fun a => if a < 0 then -a else a
  isFinite := fun _ => true
  isNaN := fun _ => false
  nan := 0
  epsilon := 0

end SeparableTransforms
