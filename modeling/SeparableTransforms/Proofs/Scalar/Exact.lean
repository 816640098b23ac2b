import SeparableTransforms.Proofs.Scalar.Lawful

/-!
# Exact scalars

Scalars are exact if no operation rounds: they are the elements of a field, and all of them
are finite.  `ExactScalar` lists the laws of a field that the operations on double-double
numbers use.  They are stated with the operations of `Scalar`, so that what follows from
them holds of the rationals and of the real numbers alike.

Division by zero is total in both, and what it gives does not matter: the law on quotients
only asks that the remainder of a division has the quotient zero.
-/

namespace SeparableTransforms

universe u

/-- Scalars whose operations do not round. -/
class ExactScalar (α : Type u) [Scalar α] : Prop where
  same_iff {a b : α} : Same a b ↔ a = b
  isFinite_eq (a : α) : Scalar.isFinite a = true
  isNaN_eq (a : α) : Scalar.isNaN a = false
  one_ne_zero : (1 : α) ≠ 0
  fma_eq (a b c : α) : Scalar.fma a b c = a * b + c
  zero_add (a : α) : 0 + a = a
  add_zero (a : α) : a + 0 = a
  neg_zero : -(0 : α) = 0
  add_neg (a b : α) : a + -b = a - b
  sub_self (a : α) : a - a = 0
  add_sub_cancel_left (a b : α) : a + b - a = b
  add_sub_cancel_right (a b : α) : a + b - b = a
  zero_mul (a : α) : 0 * a = 0
  mul_zero (a : α) : a * 0 = 0
  one_mul (a : α) : 1 * a = a
  div_remainder (a b : α) : (a - b * (a / b)) / b = 0

namespace ExactScalar

section Laws

variable {α : Type u} [Scalar α] [ExactScalar α]

theorem sub_zero (a : α) : a - 0 = a := by
  rw [← add_neg, neg_zero, add_zero]

theorem beq_iff {a b : α} : (a == b) = true ↔ a = b := by
  rw [← same_iff (a := a), Same, Scalar.agree, isNaN_eq, Bool.false_and, Bool.or_false]

/-- Exact arithmetic keeps every law. -/
theorem lawful : LawfulScalar α where
  refl _ := same_iff.mpr rfl
  symm h := same_iff.mpr (same_iff.mp h).symm
  trans h h' := same_iff.mpr ((same_iff.mp h).trans (same_iff.mp h'))
  isFinite_congr _ := by rw [isFinite_eq, isFinite_eq]
  neg_congr h := by rw [same_iff.mp h, same_iff]
  add_congr h h' := by rw [same_iff.mp h, same_iff.mp h', same_iff]
  sub_congr h h' := by rw [same_iff.mp h, same_iff.mp h', same_iff]
  mul_congr h h' := by rw [same_iff.mp h, same_iff.mp h', same_iff]
  fma_congr h h' h'' := by rw [same_iff.mp h, same_iff.mp h', same_iff.mp h'', same_iff]
  isNaN_zero := isNaN_eq 0
  isNaN_one := isNaN_eq 1
  one_ne_zero := Bool.eq_false_iff.mpr fun h => one_ne_zero (beq_iff.mp h)
  isFinite_zero := isFinite_eq 0
  zero_add a := same_iff.mpr (zero_add a)
  add_zero a := same_iff.mpr (add_zero a)
  sub_zero a := same_iff.mpr (sub_zero a)
  one_mul a := same_iff.mpr (one_mul a)
  sub_self _ := same_iff.mpr (sub_self _)
  fma_one {a} _ := same_iff.mpr (by rw [fma_eq, one_mul, add_neg, sub_self])

end Laws

end ExactScalar

instance : ExactScalar Rat where
  same_iff := same_rat_iff
  isFinite_eq _ := rfl
  isNaN_eq _ := rfl
  one_ne_zero := by decide
  fma_eq _ _ _ := rfl
  zero_add := Rat.zero_add
  add_zero := Rat.add_zero
  neg_zero := Rat.neg_zero
  add_neg a b := (Rat.sub_eq_add_neg a b).symm
  sub_self _ := Rat.sub_self
  add_sub_cancel_left a b := by show a + b - a = b; grind
  add_sub_cancel_right a b := by show a + b - b = a; grind
  zero_mul := Rat.zero_mul
  mul_zero := Rat.mul_zero
  one_mul := Rat.one_mul
  div_remainder a b := by show (a - b * (a / b)) / b = 0; grind

end SeparableTransforms
