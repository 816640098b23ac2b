import SeparableTransforms.Proofs.Binary64.Order

/-!
# Finite results

An operation on finite floats gives a number, or it overflows and gives an infinity.  It
never gives `NaN`, because the result is rounded from an exact number.  The sum stays a
number or an infinity if one summand is finite and the other one is not `NaN`.

Zero annihilates every finite float.  Zero times an infinity is `NaN`, and so a zero
that is multiplied shows whether the other factor is finite.

The rounding error of a product that does not overflow does not overflow either, since
it is no larger than the product.
-/

namespace SeparableTransforms
namespace Binary64

open Float.Model
open Float.Model.UnpackedFloat

section Parts

variable {s : Sign} {u : UnpackedFloat} {x : ℚ} {m m' : Nat}

theorem Rounded.isNaN_unpack_pack (h : Rounded s u x) : (pack u).unpack.isNaN = false := by
  rw [h.unpack_pack]
  split
  · cases h <;> rfl
  · rfl

theorem Rounded.isFinite_unpack_pack (h : Rounded s u x) (hx : x < 2 ^ (1024 : ℤ)) :
    (pack u).unpack.isFinite = true := by
  rw [h.unpack_pack, if_pos hx]
  cases h <;> rfl

/-- The number with the given sign and magnitude. -/
def signed : Sign → ℚ → ℚ
  | .positive, x => x
  | .negative, x => -x

theorem cast_apply (s : Sign) (n : Nat) : ((s.apply n : ℤ) : ℚ) = signed s n := by
  cases s with
  | positive => rfl
  | negative => simp [Sign.apply, signed]

theorem signed_mul (s : Sign) (x y : ℚ) : signed s (x * y) = signed s x * y := by
  cases s with
  | positive => rfl
  | negative => exact (neg_mul x y).symm

theorem signed_neg (s : Sign) (x : ℚ) : signed (-s) x = -signed s x := by
  cases s with
  | positive => rfl
  | negative => exact (neg_neg x).symm

theorem signed_sub (s : Sign) (x y : ℚ) : signed s (x - y) = signed s x - signed s y := by
  cases s with
  | positive => rfl
  | negative => exact neg_sub' x y

theorem abs_signed (s : Sign) (x : ℚ) : |signed s x| = |x| := by
  cases s with
  | positive => rfl
  | negative => exact abs_neg x

/-- Parts that are rounded from a number of either sign. -/
def Rounds (u : UnpackedFloat) (q : ℚ) : Prop :=
  ∃ t, Rounded t u (nearest |q|) ∧ signed t |q| = q

theorem signed_abs_of_pos {q : ℚ} (h : 0 < q) : signed .positive |q| = q :=
  abs_of_pos h

theorem signed_abs_of_neg {q : ℚ} (h : q < 0) : signed .negative |q| = q := by
  rw [abs_of_neg h]
  exact neg_neg q

/-- A sum of digits is rounded by its magnitude and keeps its sign. -/
theorem rounds_normalize (n e : Int) :
    Rounds (UnpackedFloat.normalize .binary64 n e .positive) (n * 2 ^ e) := by
  have hunit := two_zpow_pos e
  unfold Rounds UnpackedFloat.normalize
  rw [abs_mul, abs_of_pos hunit]
  rcases lt_trichotomy n 0 with hn | hn | hn
  · have hdigits : ((-n).toNat : ℚ) = |(n : ℚ)| := by
      rw [abs_of_neg (Int.cast_lt_zero.mpr hn)]
      exact_mod_cast Int.toNat_of_nonneg (by omega : 0 ≤ -n)
    rw [Int.compare_eq_lt.mpr hn, ← hdigits]
    refine ⟨.negative, rounded_round .negative (by omega) e, ?_⟩
    rw [hdigits, signed_mul, signed_abs_of_neg (Int.cast_lt_zero.mpr hn)]
  · subst hn
    rw [Int.cast_zero, abs_zero, zero_mul, nearest_zero]
    exact ⟨.positive, .zero, rfl⟩
  · have hdigits : (n.toNat : ℚ) = |(n : ℚ)| := by
      rw [abs_of_pos (Int.cast_pos.mpr hn)]
      exact_mod_cast Int.toNat_of_nonneg hn.le
    rw [Int.compare_eq_gt.mpr hn, ← hdigits]
    refine ⟨.positive, rounded_round .positive (by omega) e, ?_⟩
    rw [hdigits, signed_mul, signed_abs_of_pos (Int.cast_pos.mpr hn)]

/-- Digits keep their value when the exponent is decreased. -/
theorem cast_decreaseExponent (m : Nat) {e t : Int} (h : t ≤ e) :
    ((decreaseExponent m e t).1 : ℚ) * 2 ^ t = m * 2 ^ e := by
  obtain ⟨k, rfl⟩ := Int.le.dest h
  have hcount : (t + k - t).toNat = k := by omega
  simp only [decreaseExponent, hcount, Nat.shiftLeft_eq, Nat.cast_mul, Nat.cast_pow]
  rw [add_comm t, zpow_add₀ two_ne_zero, zpow_natCast, mul_assoc]
  rfl

/-- The sum of two finite values is rounded from the exact sum, in canonical form or not. -/
theorem rounds_add (s s' : Sign) (e e' : Int) (hm : 0 < m) (hm' : 0 < m') :
    Rounds (UnpackedFloat.add .binary64 (.finite s m e hm) (.finite s' m' e' hm'))
      (signed s (m * 2 ^ e) + signed s' (m' * 2 ^ e')) := by
  have hfirst := cast_decreaseExponent m (min_le_left e e')
  have hsecond := cast_decreaseExponent m' (min_le_right e e')
  have hsum := rounds_normalize
    (s.apply (decreaseExponent m e (min e e')).1 + s'.apply (decreaseExponent m' e' (min e e')).1)
    (min e e')
  rw [Int.cast_add, cast_apply, cast_apply, add_mul, ← signed_mul, ← signed_mul, hfirst,
    hsecond] at hsum
  exact hsum

end Parts

section Operations

variable {u v : UnpackedFloat}

theorem isNaN_unpack_pack (hc : Canonical u) (h : u.isNaN = false) :
    (pack u).unpack.isNaN = false := by
  rw [unpack_pack hc]
  exact h

/-- A sum of zeros is a zero. -/
theorem exists_unpack_add_zeros (s s' : Sign) :
    ∃ t, (pack (UnpackedFloat.add .binary64 (.zero s) (.zero s'))).unpack = .zero t := by
  cases s <;> cases s' <;> exact ⟨_, unpack_pack trivial⟩

/-- What is added to a finite value stays a number. -/
theorem isNaN_add_parts (hcu : Canonical u) (hcv : Canonical v) (hu : u.isFinite = true)
    (hv : v.isNaN = false) : (pack (UnpackedFloat.add .binary64 u v)).unpack.isNaN = false := by
  cases u with
  | infinity s => cases hu
  | notANumber => cases hu
  | zero s =>
      cases v with
      | notANumber => cases hv
      | zero s' =>
          obtain ⟨t, ht⟩ := exists_unpack_add_zeros s s'
          rw [ht]
          rfl
      | infinity s' => exact isNaN_unpack_pack hcv rfl
      | finite s' m' e' hpos' => exact isNaN_unpack_pack hcv rfl
  | finite s m e hpos =>
      cases v with
      | notANumber => cases hv
      | zero s' => exact isNaN_unpack_pack hcu rfl
      | infinity s' => exact isNaN_unpack_pack hcv rfl
      | finite s' m' e' hpos' =>
          obtain ⟨t, ht, -⟩ := rounds_add s s' e e' hpos hpos'
          exact ht.isNaN_unpack_pack

end Operations

section Products

variable {u v w : UnpackedFloat}

/-- The exact product of finite values, and what it is rounded to. -/
inductive IsProduct : UnpackedFloat → UnpackedFloat → Prop
  | zero (s : Sign) : IsProduct (.zero s) (.zero s)
  | finite {s : Sign} {m : Nat} {e : Int} {hpos : 0 < m} {w : UnpackedFloat}
      (h : Rounded s w (nearest (m * 2 ^ e))) : IsProduct (.finite s m e hpos) w

theorem isProduct_mul (hcu : Canonical u) (hcv : Canonical v) (hu : u.isFinite = true)
    (hv : v.isFinite = true) : IsProduct (exactProduct u v) (UnpackedFloat.mul .binary64 u v) := by
  cases u with
  | infinity s => cases hu
  | notANumber => cases hu
  | zero s =>
      cases v with
      | infinity s' => cases hv
      | notANumber => cases hv
      | zero s' => exact .zero _
      | finite s' m' e' hpos' => exact .zero _
  | finite s m e hpos =>
      cases v with
      | infinity s' => cases hv
      | notANumber => cases hv
      | zero s' => exact .zero _
      | finite s' m' e' hpos' =>
          exact .finite (rounded_roundExactly _ (Nat.mul_pos hpos hpos')
            (exponent_le_target hcu hcv))

theorem IsProduct.isNaN (h : IsProduct u w) : (pack w).unpack.isNaN = false := by
  cases h with
  | zero s => exact isNaN_unpack_pack trivial rfl
  | finite h => exact h.isNaN_unpack_pack

/-- An exact product of finite values to which a zero is added. -/
theorem IsProduct.isNaN_addExact (h : IsProduct u w) (s : Sign) :
    (pack (addExact u (.zero s))).unpack.isNaN = false := by
  cases h with
  | zero s' =>
      obtain ⟨t, ht⟩ := exists_unpack_add_zeros s' s
      exact ht ▸ rfl
  | @finite s' m e hpos w h => exact (rounded_round s' hpos e).isNaN_unpack_pack

/-- The rounding error of a number is no larger than the number. -/
theorem abs_sub_nearest_le {x : ℚ} (h : 0 ≤ x) : |x - nearest x| ≤ x := by
  have hnonneg := nearest_nonneg h
  have hdouble := nearest_le_two_mul h
  exact abs_le.mpr ⟨by linarith, by linarith⟩

/-- The rounding error of a product that is finite is rounded to a finite value. -/
theorem IsProduct.isFinite_residual (h : IsProduct u w)
    (hfinite : (pack w).unpack.isFinite = true) :
    (pack (addExact u (pack w).unpack.neg)).unpack.isFinite = true := by
  cases h with
  | zero s =>
      obtain ⟨t, ht⟩ := exists_unpack_add_zeros s (-s)
      rw [unpack_pack (u := .zero s) trivial]
      exact ht ▸ rfl
  | @finite s m e hpos w h =>
      have hx : (0 : ℚ) ≤ m * 2 ^ e := mul_nonneg (Nat.cast_nonneg m) (two_zpow_pos e).le
      have hbound : nearest (m * 2 ^ e) < 2 ^ (1024 : ℤ) := by
        by_contra hlarge
        rw [h.unpack_pack, if_neg hlarge] at hfinite
        cases hfinite
      rw [h.unpack_pack, if_pos hbound]
      generalize hy : nearest (m * 2 ^ e) = y at h hbound
      cases h with
      | zero => exact (rounded_round s hpos e).isFinite_unpack_pack (hy.trans_lt hbound)
      | @finite m' e' hpos' hm he hform =>
          obtain ⟨t, ht, -⟩ := rounds_add s (-s) e e' hpos hpos'
          have hdifference : signed s ((m : ℚ) * 2 ^ e) + signed (-s) (m' * 2 ^ e') =
              signed s (m * 2 ^ e - nearest (m * 2 ^ e)) := by
            rw [hy, signed_neg, ← sub_eq_add_neg, ← signed_sub]
          rw [hdifference, abs_signed] at ht
          refine ht.isFinite_unpack_pack ?_
          calc nearest |(m : ℚ) * 2 ^ e - nearest (m * 2 ^ e)|
              ≤ nearest (m * 2 ^ e) := nearest_mono (abs_nonneg _) (abs_sub_nearest_le hx)
            _ < 2 ^ (1024 : ℤ) := hy.trans_lt hbound

end Products

section Zero

variable {u : UnpackedFloat}

theorem zero_mul_parts (h : u.isFinite = true) :
    Similar (UnpackedFloat.mul .binary64 (.zero .positive) u) (.zero .positive) := by
  cases u with
  | infinity s => cases h
  | notANumber => cases h
  | zero s => exact .zeros _ _
  | finite s m e hpos => exact .zeros _ _

theorem zero_mul_parts_of_not_finite (h : u.isFinite = false) :
    UnpackedFloat.mul .binary64 (.zero .positive) u = .notANumber := by
  cases u with
  | infinity s => rfl
  | notANumber => rfl
  | zero s => cases h
  | finite s m e hpos => cases h

/-- A product with zero is not rounded, so that its exact form is the same. -/
theorem exactProduct_zero (u : UnpackedFloat) :
    exactProduct (.zero .positive) u = UnpackedFloat.mul .binary64 (.zero .positive) u :=
  rfl

theorem notANumber_addExact (w : UnpackedFloat) : addExact .notANumber w = .notANumber := by
  cases w <;> rfl

end Zero

section Floats

variable {x y : Float}

theorem isNaN_add_eq_false (hx : Scalar.isFinite x = true) (hy : Scalar.isNaN y = false) :
    Scalar.isNaN (x + y) = false :=
  isNaN_add_parts (canonical_unpack _) (canonical_unpack _) hx hy

theorem isProduct_unpack (hx : Scalar.isFinite x = true) (hy : Scalar.isFinite y = true) :
    IsProduct (exactProduct x.toModel.unpack y.toModel.unpack)
      (UnpackedFloat.mul .binary64 x.toModel.unpack y.toModel.unpack) :=
  isProduct_mul (canonical_unpack _) (canonical_unpack _) hx hy

/-- The rounding error of a product that does not overflow does not overflow either. -/
theorem isFinite_residual (hx : Scalar.isFinite x = true) (hy : Scalar.isFinite y = true)
    (hproduct : Scalar.isFinite (x * y) = true) :
    Scalar.isFinite (Scalar.fma x y (-(x * y))) = true := by
  have hparts := (isProduct_unpack hx hy).isFinite_residual hproduct
  show (pack (addExact _ (-(x * y)).toModel.unpack)).unpack.isFinite = true
  rw [unpack_neg]
  exact hparts

/-- Adding zero to the exact product of finite floats rounds it. -/
theorem isNaN_fma_zero_eq_false (hx : Scalar.isFinite x = true) (hy : Scalar.isFinite y = true) :
    Scalar.isNaN (Scalar.fma x y 0) = false := by
  have hparts := (isProduct_unpack hx hy).isNaN_addExact .positive
  show (pack (addExact _ (0 : Float).toModel.unpack)).unpack.isNaN = false
  rw [unpack_zero]
  exact hparts

theorem same_zero_mul (hx : Scalar.isFinite x = true) : Same (0 * x) 0 :=
  same_of_parts (by rw [unpack_zero]; exact zero_mul_parts hx)

theorem isNaN_zero_mul (hx : Scalar.isFinite x = false) : Scalar.isNaN (0 * x) = true :=
  isNaN_pack (by rw [unpack_zero]; exact zero_mul_parts_of_not_finite hx)

theorem same_zero_fma (hx : Scalar.isFinite x = true) : Same (Scalar.fma 0 x 0) 0 := by
  refine same_of_parts ?_
  rw [unpack_zero, exactProduct_zero]
  exact ((zero_mul_parts hx).addExact (.refl _)).trans (zero_add_parts (.zero .positive))

theorem isNaN_zero_fma (hx : Scalar.isFinite x = false) (y : Float) :
    Scalar.isNaN (Scalar.fma 0 x y) = true :=
  isNaN_pack (by
    rw [unpack_zero, exactProduct_zero, zero_mul_parts_of_not_finite hx, notANumber_addExact])

end Floats

end Binary64
end SeparableTransforms
