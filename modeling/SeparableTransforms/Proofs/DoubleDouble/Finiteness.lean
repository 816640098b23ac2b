import SeparableTransforms.Proofs.Binary64.Finiteness
import SeparableTransforms.Proofs.DenseMatrix.Tolerance
import SeparableTransforms.Proofs.DoubleDouble.Agreement

/-!
# Finite factors

A scalar is multiplied with a double-double number, and the product is rounded to a
scalar.  If both parts of the factor are finite, a finite scalar gives a number or an
infinity, and zero gives zero.  If a part of the factor is not finite, zero gives `NaN`,
because zero times an infinity is `NaN`.

So whether the zeros in a row survive when the row is multiplied depends on the factor
alone.
-/

namespace SeparableTransforms

universe u

/-- Scalars whose operations take finite operands to numbers, which may have overflowed.  Zero
times a scalar is zero if the scalar is finite, and `NaN` otherwise. -/
class OverflowingScalar (α : Type u) [Scalar α] : Prop where
  isNaN_add {a b : α} :
    Scalar.isFinite a = true → Scalar.isNaN b = false → Scalar.isNaN (a + b) = false
  isNaN_mul {a b : α} :
    Scalar.isFinite a = true → Scalar.isFinite b = true → Scalar.isNaN (a * b) = false
  isNaN_fma {a b : α} :
    Scalar.isFinite a = true → Scalar.isFinite b = true → Scalar.isNaN (Scalar.fma a b 0) = false
  isFinite_residual {a b : α} :
    Scalar.isFinite a = true → Scalar.isFinite b = true → Scalar.isFinite (a * b) = true →
      Scalar.isFinite (Scalar.fma a b (-(a * b))) = true
  zero_mul {a : α} : Scalar.isFinite a = true → Same (0 * a) 0
  zero_fma {a : α} : Scalar.isFinite a = true → Same (Scalar.fma 0 a 0) 0
  isNaN_zero_mul {a : α} : Scalar.isFinite a = false → Scalar.isNaN (0 * a) = true
  isNaN_zero_fma {a : α} (b : α) :
    Scalar.isFinite a = false → Scalar.isNaN (Scalar.fma 0 a b) = true

/-- In exact arithmetic nothing overflows. -/
instance : OverflowingScalar Rat where
  isNaN_add _ _ := rfl
  isNaN_mul _ _ := rfl
  isNaN_fma _ _ := rfl
  isFinite_residual _ _ _ := rfl
  zero_mul _ := same_rat_iff.mpr (Rat.zero_mul _)
  zero_fma _ := same_rat_iff.mpr (by show (0 : Rat) * _ + 0 = 0; grind)
  isNaN_zero_mul := nofun
  isNaN_zero_fma _ := nofun

open Binary64 in
instance : OverflowingScalar Float where
  isNaN_add := isNaN_add_eq_false
  isNaN_mul hx hy := (isProduct_unpack hx hy).isNaN
  isNaN_fma := isNaN_fma_zero_eq_false
  isFinite_residual := isFinite_residual
  zero_mul := same_zero_mul
  zero_fma := same_zero_fma
  isNaN_zero_mul := isNaN_zero_mul
  isNaN_zero_fma y hx := isNaN_zero_fma hx y

namespace DoubleDouble

section Values

variable {α : Type u} [Scalar α] {a b : α}

@[simp] theorem value_quickSum (a b : α) : (quickSum a b).value = a + b := by
  unfold quickSum
  dsimp only
  split <;> rfl

@[simp] theorem value_product (a b : α) : (product a b).value = a * b := by
  unfold product
  dsimp only
  split <;> rfl

theorem product_eq (h : Scalar.isFinite (a * b) = true) :
    product a b = ⟨a * b, Scalar.fma a b (-(a * b))⟩ := by
  unfold product
  rw [if_pos h]

/-- A product whose leading part is finite is corrected by the error terms. -/
theorem value_mul (x y : DoubleDouble α) (h : Scalar.isFinite (x.value * y.value) = true) :
    (x * y).value = x.value * y.value + (Scalar.fma x.value y.value (-(x.value * y.value)) +
      Scalar.fma x.value y.error (x.error * y.value)) := by
  show (mul x y).value = _
  unfold mul
  simp only [product_eq h, h, if_true, value_quickSum]

theorem value_mul_of_not_finite (x y : DoubleDouble α)
    (h : Scalar.isFinite (x.value * y.value) = false) : (x * y).value = x.value * y.value := by
  show (mul x y).value = _
  unfold mul
  simp only [value_product, h, Bool.false_eq_true, if_false]

/-- Whether both parts are finite. -/
def isFinite (x : DoubleDouble α) : Bool :=
  Scalar.isFinite x.value && Scalar.isFinite x.error

end Values

section Factors

variable {α : Type u} [Scalar α] [AbsorbingScalar α] {a : α} {factor : DoubleDouble α}

theorem isNaN_of_isFinite (h : Scalar.isFinite a = true) : Scalar.isNaN a = false := by
  cases hnan : Scalar.isNaN a with
  | false => rfl
  | true =>
      rw [AbsorbingScalar.isFinite_of_isNaN hnan] at h
      cases h

variable [LawfulScalar α] [OverflowingScalar α]

/-- A finite scalar times a finite factor is a number, or infinite. -/
theorem isNaN_ofScalar_mul (ha : Scalar.isFinite a = true) (hfactor : factor.isFinite = true) :
    Scalar.isNaN (ofScalar a * factor).value = false := by
  obtain ⟨hvalue, herror⟩ := Bool.and_eq_true_iff.mp hfactor
  cases hproduct : Scalar.isFinite (a * factor.value) with
  | false =>
      rw [value_mul_of_not_finite (ofScalar a) factor hproduct]
      exact OverflowingScalar.isNaN_mul ha hvalue
  | true =>
      have hresidual := OverflowingScalar.isFinite_residual ha hvalue hproduct
      have hcross : Scalar.isNaN (Scalar.fma a factor.error (0 * factor.value)) = false := by
        rw [AbsorbingScalar.isNaN_congr (LawfulScalar.fma_congr (.refl _) (.refl _)
          (OverflowingScalar.zero_mul hvalue))]
        exact OverflowingScalar.isNaN_fma ha herror
      rw [value_mul (ofScalar a) factor hproduct]
      exact OverflowingScalar.isNaN_add hproduct (OverflowingScalar.isNaN_add hresidual hcross)

omit [AbsorbingScalar α] [OverflowingScalar α] in
/-- A scalar that is stored as zero is multiplied as zero is. -/
theorem same_zero_mul_value (ha : Same a 0) :
    Same (ofScalar a * factor).value ((0 : DoubleDouble α) * factor).value :=
  (alike_mul (alike_ofScalar ha) (.refl factor)).value

omit [AbsorbingScalar α] in
/-- Zero times a finite factor is zero. -/
theorem same_ofScalar_mul_zero [PivotScalar α] (ha : Same a 0) (hfactor : factor.isFinite = true) :
    Same (ofScalar a * factor).value 0 := by
  obtain ⟨hvalue, herror⟩ := Bool.and_eq_true_iff.mp hfactor
  have hzero := OverflowingScalar.zero_mul hvalue
  have hproduct : Scalar.isFinite (0 * factor.value) = true :=
    (LawfulScalar.isFinite_congr hzero).trans LawfulScalar.isFinite_zero
  have hresidual : Same (Scalar.fma 0 factor.value (-(0 * factor.value))) 0 :=
    (LawfulScalar.fma_congr (.refl _) (.refl _)
      ((LawfulScalar.neg_congr hzero).trans PivotScalar.same_neg_zero)).trans
      (OverflowingScalar.zero_fma hvalue)
  have hcross : Same (Scalar.fma 0 factor.error (0 * factor.value)) 0 :=
    (LawfulScalar.fma_congr (.refl _) (.refl _) hzero).trans (OverflowingScalar.zero_fma herror)
  refine (same_zero_mul_value ha).trans ?_
  rw [value_mul 0 factor hproduct]
  exact same_add_zeros hzero (same_add_zeros hresidual hcross)

/-- Zero times a factor that is not finite is not determined. -/
theorem isNaN_ofScalar_mul_zero (ha : Same a 0) (hfactor : factor.isFinite = false) :
    Scalar.isNaN (ofScalar a * factor).value = true := by
  rw [AbsorbingScalar.isNaN_congr (same_zero_mul_value ha)]
  cases hvalue : Scalar.isFinite factor.value with
  | false =>
      have hnan := OverflowingScalar.isNaN_zero_mul hvalue
      rw [value_mul_of_not_finite 0 factor (AbsorbingScalar.isFinite_of_isNaN hnan)]
      exact hnan
  | true =>
      have herror : Scalar.isFinite factor.error = false := by
        simpa [isFinite, hvalue] using hfactor
      have hproduct : Scalar.isFinite (0 * factor.value) = true :=
        (LawfulScalar.isFinite_congr (OverflowingScalar.zero_mul hvalue)).trans
          LawfulScalar.isFinite_zero
      rw [value_mul 0 factor hproduct]
      exact AbsorbingScalar.isNaN_add_right _
        (AbsorbingScalar.isNaN_add_right _ (OverflowingScalar.isNaN_zero_fma _ herror))

end Factors

end DoubleDouble
end SeparableTransforms
