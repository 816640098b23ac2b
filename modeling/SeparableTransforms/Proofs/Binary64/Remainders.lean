import SeparableTransforms.Proofs.Binary64.Numbers
import SeparableTransforms.Proofs.Binary64.RoundingErrors

/-!
# Remainders of rounded quotients

What a rounded quotient leaves over of the dividend is representable: it is a whole number of
the units of the product, and it is less than the dividend by as many digits as the quotient
has.  The product itself is rounded, but it is so close to the dividend that nothing is lost
when they are subtracted, and neither is the rounding error of the product lost.

All of this needs that the quotient has its full number of digits and that the product of the
units is not below the least unit.  It also holds for a dividend of zero.
-/

namespace SeparableTransforms
namespace Binary64

section Remainders

variable {a b q : ℚ} {e : ℤ}

/-- Numbers that are close to each other are subtracted without an error. -/
theorem representable_sub_of_close (ha : Representable a) (hb : Representable b)
    (h : |a - b| ≤ |a|) (h' : |a - b| ≤ |b|) : Representable (a - b) := by
  rcases le_total (unitExponent |a|) (unitExponent |b|) with hunits | hunits
  · exact (OnGrid.sub ha (OnGrid.mono hb hunits)).representable (le_unitExponent _)
      (h.trans (abs_lt_units a).le)
  · exact ((OnGrid.mono ha hunits).sub hb).representable (le_unitExponent _)
      (h'.trans (abs_lt_units b).le)

/-- What is computed on the way to the remainder of `a` by `b` with the quotient `q`: the rounding
error of the product, the difference from the rounded product, and the remainder itself are
representable, and no larger than the dividend. -/
structure RemainderErrors (a b q : ℚ) : Prop where
  product : Representable (b * q - near (b * q))
  difference : Representable (a - near (b * q))
  remainder : Representable (a - b * q)
  abs_product_le : |b * q - near (b * q)| ≤ |a|
  abs_difference_le : |a - near (b * q)| ≤ |a|
  abs_remainder_le : |a - b * q| ≤ |a|

theorem remainderErrors_zero (b : ℚ) : RemainderErrors 0 b 0 := by
  constructor <;> simp [representable_zero]

/-- The quotient has all of its digits, and the units of divisor and quotient are so large that
remainders are exact. -/
structure HasDigits (e : ℤ) (a b : ℚ) : Prop where
  digits : 2 ^ (52 + unitExponent |a / b|) ≤ |a / b|
  units : e ≤ unitExponent |b| + unitExponent |a / b|
  least : e ≤ unitExponent |a / b|

/-- A dividend and a quotient that are not too small. -/
theorem hasDigits_of_le (hne : b ≠ 0) (he : -968 ≤ e) (ha : 2 ^ (e + 105) ≤ |a|)
    (hquotient : 2 ^ (e + 52) ≤ |a / b|) : HasDigits e a b := by
  have hleast : e ≤ unitExponent |a / b| := le_unitExponent_of_le (by rwa [add_comm])
  have hpos : 0 < |a / b| := (two_zpow_pos _).trans_le hquotient
  refine ⟨units_le_abs (abs_pos.mp hpos) (by omega), ?_, hleast⟩
  have hdividend : |a| = |b| * |a / b| := by rw [← abs_mul, mul_div_cancel₀ _ hne]
  have hless : (2 : ℚ) ^ (e + 105) < 2 ^ (53 + unitExponent |b| + (53 + unitExponent |a / b|)) := by
    rw [zpow_add₀ two_ne_zero (53 + unitExponent |b|)]
    refine ha.trans_lt (hdividend.trans_lt ?_)
    exact mul_lt_mul'' (abs_lt_units b) (abs_lt_units (a / b)) (abs_nonneg _) (abs_nonneg _)
  have := (zpow_lt_zpow_iff_right₀ one_lt_two).mp hless
  omega

namespace HasDigits

/-- The dividend is a whole number of the units of the product. -/
theorem onGrid (h : HasDigits e a b) (ha : Representable a) (hb : Representable b) (hne : b ≠ 0) :
    OnGrid (unitExponent |b| + unitExponent |a / b|) a := by
  have hdividend : |a| = |b| * |a / b| := by rw [← abs_mul, mul_div_cancel₀ _ hne]
  refine ha.onGrid ?_
  rw [hdividend, show 52 + (unitExponent |b| + unitExponent |a / b|) =
    unitExponent |b| + (52 + unitExponent |a / b|) by ring, zpow_add₀ two_ne_zero]
  exact mul_le_mul (OnGrid.zpow_le_abs hb hne) h.digits (two_zpow_pos _).le (abs_nonneg b)

theorem onGrid_remainder (h : HasDigits e a b) (ha : Representable a) (hb : Representable b)
    (hne : b ≠ 0) :
    OnGrid (unitExponent |b| + unitExponent |a / b|) (a - b * near (a / b)) :=
  (h.onGrid ha hb hne).sub (OnGrid.mul hb (onGrid_near (a / b)))

/-- The remainder is at most half of a unit of the quotient, times the divisor. -/
theorem abs_remainder_le (hne : b ≠ 0) :
    |a - b * near (a / b)| ≤ |b| * 2 ^ (unitExponent |a / b| - 1) := by
  have hremainder : |a - b * near (a / b)| = |b| * |near (a / b) - a / b| := by
    rw [← abs_mul, mul_sub, mul_div_cancel₀ _ hne, abs_sub_comm]
  rw [hremainder]
  exact mul_le_mul_of_nonneg_left (abs_near_sub_le (a / b)) (abs_nonneg b)

theorem remainderErrors (h : HasDigits e a b) (he : -1074 ≤ e) (ha : Representable a)
    (hb : Representable b) (hne : b ≠ 0) : RemainderErrors a b (near (a / b)) := by
  have hsmall := abs_remainder_le (a := a) hne
  have hgrid := h.onGrid_remainder ha hb hne
  have hlarge : 2 ^ 53 * (|b| * 2 ^ (unitExponent |a / b| - 1)) ≤ |a| := by
    have hdividend : |a| = |b| * |a / b| := by rw [← abs_mul, mul_div_cancel₀ _ hne]
    rw [hdividend, mul_left_comm, ← two_zpow_units]
    exact mul_le_mul_of_nonneg_left h.digits (abs_nonneg b)
  have hpos : 0 ≤ |b| * 2 ^ (unitExponent |a / b| - 1) :=
    mul_nonneg (abs_nonneg b) (two_zpow_pos _).le
  have hproduct : |b * near (a / b) - near (b * near (a / b))| ≤
      |b| * 2 ^ (unitExponent |a / b| - 1) := by
    rw [abs_sub_comm]
    exact ha.abs_near_sub_le.trans hsmall
  have hdifference : |a - near (b * near (a / b))| ≤
      2 * (|b| * 2 ^ (unitExponent |a / b| - 1)) := by
    have := abs_sub_le a (b * near (a / b)) (near (b * near (a / b)))
    linarith
  refine ⟨?_, ?_, ?_, by linarith, by linarith, by linarith⟩
  · exact representable_residual_mul hb (onGrid_near (a / b)) (abs_lt_units b)
      (abs_near_le_units _) (he.trans h.units)
  · refine representable_sub_of_close ha (representable_near _) (by linarith) ?_
    have := abs_sub_abs_le_abs_sub a (near (b * near (a / b)))
    linarith
  · refine hgrid.representable (he.trans h.units) ?_
    calc |a - b * near (a / b)| ≤ |b| * 2 ^ (unitExponent |a / b| - 1) := hsmall
      _ ≤ 2 ^ (53 + unitExponent |b|) * 2 ^ (unitExponent |a / b| - 1) :=
          mul_le_mul_of_nonneg_right (abs_lt_units b).le (two_zpow_pos _).le
      _ ≤ 2 ^ (53 + (unitExponent |b| + unitExponent |a / b|)) := by
          rw [← zpow_add₀ two_ne_zero]
          exact zpow_le_zpow_right₀ one_le_two (by omega)

/-- The remainder has a quotient with digits of its own, unless it is zero. -/
theorem remainder (h : HasDigits e a b) (he : -863 ≤ e) (ha : Representable a)
    (hb : Representable b) (hne : b ≠ 0) (hrest : a - b * near (a / b) ≠ 0) :
    HasDigits (e - 105) (a - b * near (a / b)) b := by
  have hunit := (h.onGrid_remainder ha hb hne).zpow_le_abs hrest
  refine hasDigits_of_le hne (by omega) ?_ ?_
  · exact (zpow_le_zpow_right₀ one_le_two (by have := h.units; omega)).trans hunit
  · rw [abs_div, le_div_iff₀ (abs_pos.mpr hne)]
    calc 2 ^ (e - 105 + 52) * |b|
        ≤ 2 ^ (unitExponent |a / b| - 53) * 2 ^ (53 + unitExponent |b|) :=
          mul_le_mul (zpow_le_zpow_right₀ one_le_two (by have := h.least; omega))
            (abs_lt_units b).le (abs_nonneg b) (two_zpow_pos _).le
      _ = 2 ^ (unitExponent |b| + unitExponent |a / b|) := by
          rw [← zpow_add₀ two_ne_zero]
          congr 1
          omega
      _ ≤ |a - b * near (a / b)| := hunit

end HasDigits

theorem remainder_div (hne : b ≠ 0) (q : ℚ) : (a - b * q) / b = a / b - q := by
  rw [sub_div, mul_div_cancel_left₀ _ hne]

end Remainders

section Gaps

variable {a b : ℚ}

/-- A quotient of representable numbers is not very close to the number from which on it would
overflow, because the divisor has no more than 53 digits. -/
theorem abs_div_le_of_lt (ha : Representable a) (hb : Representable b) (hne : b ≠ 0)
    (h : |a / b| < overflowLimit - halfUnit) :
    |a / b| ≤ overflowLimit - halfUnit - halfUnit / 2 ^ 53 := by
  have hpos := halfUnit_pos
  have hlimit := overflowLimit_eq
  have hb0 := abs_pos.mpr hne
  have hdividend : |a| = |b| * |a / b| := by rw [← abs_mul, mul_div_cancel₀ _ hne]
  generalize |a / b| = c at *
  rcases le_or_gt c (2 ^ (1023 : ℤ)) with hsmall | hlarge
  · have hdouble : overflowLimit = 2 ^ (1023 : ℤ) + 2 ^ (1023 : ℤ) := two_zpow_succ 1023
    generalize (2 : ℚ) ^ (1023 : ℤ) = half at *
    linarith
  have hleast : (2 : ℚ) ^ unitExponent |b| ≤ |b| := OnGrid.zpow_le_abs hb hne
  have hless := abs_lt_units b
  have hgridb : OnGrid (unitExponent |b|) b := hb
  generalize unitExponent |b| = v at *
  have hgrida : OnGrid (970 + v) a := by
    refine (ha.onGrid (e := 971 + v) ?_).mono (by omega)
    rw [hdividend, show 52 + (971 + v) = v + 1023 by ring, zpow_add₀ two_ne_zero]
    exact mul_le_mul hleast hlarge.le (two_zpow_pos _).le hb0.le
  have hgridLimit : OnGrid 970 (overflowLimit - halfUnit) :=
    (OnGrid.zpow (by norm_num)).sub (.zpow le_rfl)
  have hdifference :
      (overflowLimit - halfUnit) * |b| - |a| = |b| * (overflowLimit - halfUnit - c) := by
    rw [hdividend]
    ring
  have hpositive : 0 < |b| * (overflowLimit - halfUnit - c) := mul_pos hb0 (sub_pos.mpr h)
  have hgap := ((hgridLimit.mul hgridb.abs).sub hgrida.abs).zpow_le_abs
    (by rw [hdifference]; exact hpositive.ne')
  rw [hdifference, abs_of_pos hpositive, zpow_add₀ two_ne_zero] at hgap
  have hdigits : |b| * (halfUnit / 2 ^ 53) ≤ 2 ^ (970 : ℤ) * 2 ^ v := by
    rw [zpow_add₀ two_ne_zero] at hless
    have := mul_le_mul_of_nonneg_left hless.le (div_pos hpos (by norm_num : (0 : ℚ) < 2 ^ 53)).le
    rw [← mul_assoc, show (2 : ℚ) ^ (53 : ℤ) = 2 ^ 53 from rfl, div_mul_cancel₀ _ (by norm_num),
      mul_comm] at this
    exact this
  have := le_of_mul_le_mul_left (hdigits.trans hgap) hb0
  linarith

/-- A float that is not the largest one is smaller by a unit. -/
theorem Representable.abs_le_of_lt (ha : Representable a) (h : |a| < largestNumber) :
    |a| ≤ largestNumber - 2 * halfUnit := by
  have hpos := halfUnit_pos
  have hlimit := overflowLimit_eq
  have hlargest : largestNumber = overflowLimit - 2 * halfUnit := rfl
  have hdouble : overflowLimit = 2 ^ (1023 : ℤ) + 2 ^ (1023 : ℤ) := two_zpow_succ 1023
  have hgridLargest : OnGrid 971 largestNumber := ⟨_, largestNumber_eq⟩
  by_contra hgt
  have hgrid : OnGrid 971 |a| := by
    refine (ha.onGrid (e := 971) ?_).abs
    show (2 : ℚ) ^ (1023 : ℤ) ≤ |a|
    generalize (2 : ℚ) ^ (1023 : ℤ) = half at *
    linarith
  have hgap := (hgridLargest.sub hgrid).zpow_le_abs (sub_pos.mpr h).ne'
  have hunit : (2 : ℚ) ^ (971 : ℤ) = halfUnit + halfUnit := two_zpow_succ 970
  rw [abs_of_pos (sub_pos.mpr h), hunit] at hgap
  linarith

/-- A small number is added after it has been rounded, and the sum still does not overflow. -/
theorem abs_add_near_lt (ha : Representable a) (hle : |a| ≤ largestNumber)
    (hb : |b| ≤ halfUnit + halfUnit / 2 ^ 54)
    (h : |a + b| < overflowLimit - halfUnit - halfUnit / 2 ^ 54) :
    |a + near b| < overflowLimit - halfUnit := by
  have hpos := halfUnit_pos
  have hlimit := overflowLimit_eq
  have hlargest : largestNumber = overflowLimit - 2 * halfUnit := rfl
  have hdouble := abs_near_le_two_mul b
  rcases hle.lt_or_eq with hlt | heq
  · have hless := ha.abs_le_of_lt hlt
    have := abs_add_le a (near b)
    linarith
  rcases le_or_gt |b| halfUnit with hsmall | hlarge
  · have hnear : |near b - b| ≤ halfUnit / 2 ^ 54 := by
      have hbound := abs_near_sub_le_of_le (e := 970) (by norm_num) hsmall
      rwa [show (970 : ℤ) - 54 = 970 - (54 : ℕ) by norm_num, zpow_sub₀ two_ne_zero,
        zpow_natCast] at hbound
    have := abs_add_le (a + b) (near b - b)
    rw [show a + b + (near b - b) = a + near b by ring] at this
    linarith
  · -- the largest float and a number of the other sign
    obtain ⟨hlower, hupper⟩ := abs_lt.mp h
    obtain ⟨hnlower, hnupper⟩ := abs_le.mp hdouble
    rw [abs_lt]
    rcases abs_choice a with habs | habs <;> rw [habs] at heq
    · have hneg : b ≤ 0 := by
        by_contra hb0
        rw [abs_of_pos (not_le.mp hb0)] at hlarge
        linarith
      have hnear : near b ≤ 0 := near_le hneg representable_zero
      constructor <;> linarith
    · have hnonneg : 0 ≤ b := by
        by_contra hb0
        rw [abs_of_neg (not_le.mp hb0)] at hlarge
        linarith
      have hnear := near_nonneg hnonneg
      constructor <;> linarith

end Gaps

end Binary64
end SeparableTransforms
