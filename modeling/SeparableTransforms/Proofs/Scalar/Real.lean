import Mathlib.Analysis.Real.Sqrt
import SeparableTransforms.Proofs.Scalar.Exact

/-!
# Real scalars

The rationals are exact scalars, but they are not closed under square roots.  The real
numbers are, and so they are the scalars over which norms are read as exact.
-/

namespace SeparableTransforms

noncomputable instance : Scalar ℝ where
  toZero := inferInstance
  toOne := inferInstance
  toAdd := inferInstance
  toSub := inferInstance
  toMul := inferInstance
  toDiv := inferInstance
  toNeg := inferInstance
  toBEq := instBEqOfDecidableEq
  toLT := inferInstance
  decidableLT := fun a b => Real.decidableLT a b
  ofNat := fun n => (n : ℝ)
  fma := fun a b c => a * b + c
  abs := fun a => |a|
  isFinite := fun _ => true
  isNaN := fun _ => false
  nan := 0
  epsilon := 0

noncomputable instance : Radical ℝ where
  sqrt := Real.sqrt

theorem same_real_iff {a b : ℝ} : Same a b ↔ a = b := by
  show ((a == b) || (false && false)) = true ↔ a = b
  simp

instance : ExactScalar ℝ where
  same_iff := same_real_iff
  isFinite_eq _ := rfl
  isNaN_eq _ := rfl
  one_ne_zero := one_ne_zero
  fma_eq _ _ _ := rfl
  zero_add := zero_add
  add_zero := add_zero
  neg_zero := neg_zero
  add_neg a b := (sub_eq_add_neg a b).symm
  sub_self := sub_self
  add_sub_cancel_left := add_sub_cancel_left
  add_sub_cancel_right := add_sub_cancel_right
  zero_mul := zero_mul
  mul_zero := mul_zero
  one_mul := one_mul
  div_remainder a b := by
    rcases eq_or_ne b 0 with rfl | hb
    · exact div_zero _
    · show (a - b * (a / b)) / b = 0
      rw [mul_div_cancel₀ a hb, sub_self, zero_div]

instance : LawfulScalar ℝ :=
  ExactScalar.lawful

end SeparableTransforms
