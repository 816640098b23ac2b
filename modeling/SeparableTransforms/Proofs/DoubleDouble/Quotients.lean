import SeparableTransforms.Proofs.Binary64.Infinities
import SeparableTransforms.Proofs.Binary64.Remainders
import SeparableTransforms.Proofs.DoubleDouble.Sizes

/-!
# Quotients of double-double numbers

A quotient of two floats is computed in three digits, each of them a rounded quotient of what
the digits before have left over.  The remainders are exact if the dividend and the quotient
are not too small.  The digits become smaller quickly, and their sum does not overflow,
because a quotient that is rounded to the largest float is smaller than the number from which
on it would overflow by more than the third digit.

If the dividend or the quotient is too small for this, none of the numbers on the way is
large, and rough bounds will do.

What is needed in both cases is that the divisor times the first digit does not overflow.  If
it does, the remainder is infinite, the second one is not determined, and neither is the
quotient.
-/

namespace SeparableTransforms
namespace DoubleDouble

open Binary64
open Float.Model.UnpackedFloat

section Remainders

variable {x : DoubleDouble Float} {b q : Float} {p d c : ℚ}

theorem Holds.neg (h : Holds x p c) : Holds (-x) (-p) (-c) :=
  ⟨h.value.neg, h.error.neg⟩

/-- A quotient times its divisor, and the error of the product. -/
theorem holds_scale (hb : Stands b d) (hq : Stands q c) (hbound : |near (d * c)| < overflowLimit)
    (h : Representable (d * c - near (d * c))) :
    Holds ((ofScalar b).scale q) (near (d * c)) (d * c - near (d * c)) := by
  have hproduct := holds_product hb hq hbound h
  have hvalue := hproduct.value
  rw [value_product] at hvalue
  have herror := hproduct.error.add hq.zero_mul
  rw [add_zero] at herror
  have hquick := holds_quickSum hvalue (herror.exact h hproduct.error.abs_lt)
    (isQuickSum_residual hbound)
  rw [add_sub_cancel_left] at hquick
  rw [scale_ofScalar hvalue.isFinite]
  exact hquick

/-- The remainder of a number without an error is a number without an error. -/
theorem holds_remainder (hx : Holds x p 0) (hb : Stands b d) (hq : Stands q c)
    (hbound : |near (d * c)| < overflowLimit) (h : RemainderErrors p d c) :
    Holds (x - (ofScalar b).scale q) (p - d * c) 0 := by
  have hscale := (holds_scale hb hq hbound h.product).neg
  have hp := hx.value.abs_lt
  have hs : IsSum p (-near (d * c)) (p - near (d * c)) :=
    isSum_exact (sub_eq_add_neg _ _).symm h.difference hscale.value.representable
      (h.abs_difference_le.trans_lt hp) hscale.value.abs_lt
  have ht : IsSum 0 (-(d * c - near (d * c))) (-(d * c - near (d * c))) :=
    isSum_exact (zero_add _) hscale.error.representable hscale.error.representable
      hscale.error.abs_lt hscale.error.abs_lt
  have hremainder : p - near (d * c) + -(d * c - near (d * c)) = p - d * c := by ring
  have h₁ : IsQuickSum (p - near (d * c)) (-(d * c - near (d * c))) (p - d * c) :=
    isQuickSum_exact hremainder h.remainder hscale.error.representable
      (h.abs_remainder_le.trans_lt hp)
  have h₂ : IsQuickSum (p - d * c) 0 (p - d * c) :=
    isQuickSum_exact (add_zero _) h.remainder representable_zero (h.abs_remainder_le.trans_lt hp)
  have hw : near (p + -near (d * c) - (p - near (d * c)) + -(d * c - near (d * c))) =
      -(d * c - near (d * c)) := by
    rw [← sub_eq_add_neg p, sub_self, zero_add]
    exact near_of_representable hscale.error.representable
  have hw₂ : near (p - near (d * c) + -(d * c - near (d * c)) - (p - d * c) +
      (0 + -(d * c - near (d * c)) - -(d * c - near (d * c)))) = 0 := by
    rw [hremainder, sub_self, zero_add, zero_add, sub_self, near_zero]
  have hsum := holds_add hx hscale hs ht hw hscale.error.abs_lt h₁ hw₂ h₂
  rwa [add_zero, sub_self] at hsum

end Remainders

section Digits

variable {q₁ q₂ q₃ : Float} {c₁ c₂ c₃ d : ℚ}

/-- Three digits, each of them much smaller than the one before, whose sum is not too large. -/
structure DigitSizes (d c₁ c₂ c₃ : ℚ) : Prop where
  pos : 0 < d
  le_halfUnit : d ≤ halfUnit
  le_first : 2 ^ 52 * d ≤ |c₁|
  second_le : |c₂| ≤ d
  third_le : |c₃| ≤ d / 2 ^ 54
  sum_second_lt : |c₁ + c₂| < overflowLimit - halfUnit
  sum_third_lt : |c₁ + c₂ + c₃| < overflowLimit - halfUnit - halfUnit / 2 ^ 54

/-- The digits of a number that keeps away from the one from which on it would overflow. -/
theorem digitSizes_near {x : ℚ} (hx : |x| ≤ overflowLimit - halfUnit - halfUnit / 2 ^ 53)
    (h : 2 ^ (52 + unitExponent |x|) ≤ |x|) (hunit : -863 ≤ unitExponent |x|) :
    DigitSizes (2 ^ (unitExponent |x| - 1)) (near x) (near (x - near x))
      (near (x - near x - near (x - near x))) := by
  have hpos := halfUnit_pos
  have hlimit := overflowLimit_eq
  have hmost : unitExponent |x| ≤ 971 := by
    refine unitExponent_le (abs_pos.mp ((two_zpow_pos _).trans_le h)) (by norm_num) ?_
    show |x| < overflowLimit
    linarith
  have hhalf : (2 : ℚ) ^ (unitExponent |x| - 1) ≤ halfUnit :=
    zpow_le_zpow_right₀ one_le_two (by omega)
  have hhalfPos := two_zpow_pos (unitExponent |x| - 1)
  rw [two_zpow_units] at h
  have hpower (e : ℤ) : (2 : ℚ) ^ (e - 54) = 2 ^ e / 2 ^ 54 := zpow_sub₀ two_ne_zero e 54
  have herror₁ : |x - near x| ≤ 2 ^ (unitExponent |x| - 1) := by
    rw [abs_sub_comm]
    exact abs_near_sub_le x
  have hc₂ := abs_near_le herror₁ (representable_zpow (by omega))
  have herror₂ := abs_near_sub_le_of_le (by omega) herror₁
  rw [abs_sub_comm] at herror₂
  have hc₃ := abs_near_le herror₂ (representable_zpow (by omega))
  have herror₃ := abs_near_sub_le_of_le (by omega) herror₂
  rw [hpower, hpower] at herror₃
  rw [hpower] at herror₂ hc₃
  generalize (2 : ℚ) ^ (unitExponent |x| - 1) = half at *
  generalize near x = c₁ at *
  generalize near (x - c₁) = c₂ at *
  generalize near (x - c₁ - c₂) = c₃ at *
  refine ⟨hhalfPos, hhalf, ?_, hc₂, hc₃, ?_, ?_⟩
  · have := abs_sub_abs_le_abs_sub x c₁
    linarith
  · have := abs_sub_abs_le_abs_sub (c₁ + c₂) x
    rw [show c₁ + c₂ - x = -(x - c₁ - c₂) by ring, abs_neg] at this
    linarith
  · have := abs_sub_abs_le_abs_sub (c₁ + c₂ + c₃) x
    rw [show c₁ + c₂ + c₃ - x = c₃ - (x - c₁ - c₂) by ring] at this
    linarith

/-- A number that is much smaller than both parts together is added without overflowing. -/
theorem isFinite_add_ofScalar {x : DoubleDouble Float} {s r : ℚ} (hx : Holds x s r)
    (h₃ : Stands q₃ c₃) (hdh : d ≤ halfUnit) (hs : 2 ^ 50 * d ≤ |s|) (hr : |r| ≤ d)
    (hc₃ : |c₃| ≤ d / 2 ^ 54) (hall : |s + r + c₃| < overflowLimit - halfUnit - halfUnit / 2 ^ 54) :
    Scalar.isFinite (x + ofScalar q₃).value = true := by
  have hpos := halfUnit_pos
  have hlimit := overflowLimit_eq
  have hlargest : largestNumber = overflowLimit - 2 * halfUnit := rfl
  have hs₁ := hx.value.abs_le
  have hd : 0 ≤ d := (abs_nonneg r).trans hr
  have hbound₂ : |near (s + c₃)| < overflowLimit := by
    have := abs_add_le s c₃
    exact abs_near_lt_iff.mpr (by linarith)
  have herror₂ : |s + c₃ - near (s + c₃)| ≤ d / 2 ^ 54 :=
    hx.value.representable.abs_residual_le.trans hc₃
  generalize hs₂ : near (s + c₃) = s₂ at hbound₂ herror₂
  have hvalues : IsSum s c₃ s₂ := by
    refine ⟨hs₂, hbound₂, ?_⟩
    have := abs_near_le_two_mul (s₂ - s)
    have hrest : |s₂ - s| ≤ |c₃| + |s + c₃ - s₂| := by
      rw [show s₂ - s = c₃ - (s + c₃ - s₂) by ring]
      exact abs_sub _ _
    linarith
  have herrors : IsSum r 0 r :=
    isSum_exact (add_zero _) hx.error.representable representable_zero hx.error.abs_lt
      (by rw [abs_zero]; exact two_zpow_pos _)
  have hs₂' := (holds_sum hx.value h₃ hvalues).value
  have hrest := abs_add_le (s + c₃ - s₂) r
  rw [show s + r + c₃ = s₂ + (s + c₃ - s₂ + r) by ring] at hall
  generalize hw : s + c₃ - s₂ + r = w at hrest hall
  have hnear := abs_near_le_two_mul w
  have hlarge : |s| ≤ |s₂| + (|w| + |r| + |c₃|) := by
    rw [show s = s₂ + (w - r - c₃) by linarith]
    have := abs_add_le s₂ (w - r - c₃)
    have := abs_sub (w - r) c₃
    have := abs_sub w r
    linarith
  have hsmall : |w| ≤ halfUnit + halfUnit / 2 ^ 54 := by linarith
  have hthird : |s₂ + near w| < overflowLimit - halfUnit :=
    abs_add_near_lt hs₂'.representable hs₂'.abs_le hsmall hall
  have h₁ := isQuickSum_of_abs_le hs₂'.representable (representable_near w) (by linarith)
    (abs_near_lt_iff.mpr hthird)
  have hresidual := representable_residual hs₂'.representable (representable_near w)
  have hsum : s₂ + near w - near (s₂ + near w) + (r + 0 - r) =
      s₂ + near w - near (s₂ + near w) := by ring
  have hfirst : |near w| < overflowLimit := by linarith
  have hadd := holds_add (y := ofScalar q₃) hx ⟨h₃, stands_zero⟩ hvalues herrors
    (congrArg near hw) hfirst h₁ (by rw [hsum, near_of_representable hresidual])
    (isQuickSum_residual h₁.abs_lt)
  exact hadd.value.isFinite

/-- Three digits are added without overflowing. -/
theorem isFinite_digits (h₁ : Stands q₁ c₁) (h₂ : Stands q₂ c₂) (h₃ : Stands q₃ c₃)
    (h : DigitSizes d c₁ c₂ c₃) :
    Scalar.isFinite (quickSum q₁ q₂ + ofScalar q₃).value = true := by
  obtain ⟨hd, hdh, hc₁, hc₂, hc₃, hfirst, hall⟩ := h
  have hquick := holds_quickSum h₁ h₂ (isQuickSum_of_abs_le h₁.representable h₂.representable
    (by linarith) (abs_near_lt_iff.mpr hfirst))
  have herror : |c₁ + c₂ - near (c₁ + c₂)| ≤ d := h₁.representable.abs_residual_le.trans hc₂
  refine isFinite_add_ofScalar hquick h₃ hdh ?_ herror hc₃ (by rwa [add_sub_cancel])
  have hlower := abs_sub_abs_le_abs_sub c₁ (near (c₁ + c₂))
  have hdifference := abs_sub (c₁ + c₂ - near (c₁ + c₂)) c₂
  rw [show c₁ + c₂ - near (c₁ + c₂) - c₂ = c₁ - near (c₁ + c₂) by ring] at hdifference
  linarith

end Digits

section Division

variable {x : DoubleDouble Float} {a b : Float} {p d : ℚ} {e : ℤ}

/-- What the quotient by a float, rounded to a float, leaves over. -/
def remainder (x : DoubleDouble Float) (b : Float) : DoubleDouble Float :=
  x - (ofScalar b).scale (x.value / b)

theorem div_eq_digits (h : Scalar.isFinite (a / b) = true) :
    ofScalar a / ofScalar b =
      quickSum (a / b) ((remainder (ofScalar a) b).value / b) +
        ofScalar ((remainder (remainder (ofScalar a) b) b).value / b) := by
  show div (ofScalar a) (ofScalar b) = _
  unfold div
  simp only [ofScalar, h, if_true]
  rfl

/-- What the second digit takes away from the remainder does not overflow. -/
theorem abs_second_product_lt (hp : |p| < overflowLimit) (hne : d ≠ 0) (h : HasDigits e p d)
    (herrors : RemainderErrors (p - d * near (p / d)) d (near ((p - d * near (p / d)) / d))) :
    |near (d * near ((p - d * near (p / d)) / d))| < overflowLimit := by
  have hremainder : |p - d * near (p / d)| ≤ |d| * 2 ^ (unitExponent |p / d| - 1) :=
    HasDigits.abs_remainder_le hne
  have hdividend : |p| = |d| * |p / d| := by rw [← abs_mul, mul_div_cancel₀ _ hne]
  have hdigits := (two_zpow_units _).symm.trans_le h.digits
  have hlarge := mul_le_mul_of_nonneg_left hdigits (abs_nonneg d)
  have hclose := herrors.abs_difference_le
  rw [abs_sub_comm] at hclose
  have := abs_sub_abs_le_abs_sub (near (d * near ((p - d * near (p / d)) / d)))
    (p - d * near (p / d))
  have := mul_nonneg (abs_nonneg d) (two_zpow_pos (unitExponent |p / d| - 1)).le
  linarith

/-- A quotient whose remainders are exact does not overflow. -/
theorem isFinite_div_of_hasDigits (ha : Stands a p) (hb : Stands b d) (hne : d ≠ 0)
    (h : HasDigits e p d) (he : -863 ≤ e) (hquotient : Scalar.isFinite (a / b) = true)
    (hproduct : Scalar.isFinite (b * (a / b)) = true) :
    Scalar.isFinite (ofScalar a / ofScalar b).value = true := by
  have hq₁ := (ha.div hb hne).stands hquotient
  have hbound := abs_near_lt_iff.mp ((ha.div hb hne).isFinite_iff.mp hquotient)
  have hsizes := digitSizes_near (abs_div_le_of_lt ha.representable hb.representable hne hbound)
    h.digits (he.trans h.least)
  have hlimit : 2 * halfUnit ≤ largestNumber := by
    have := halfUnit_pos
    have := overflowLimit_eq
    unfold largestNumber
    linarith
  -- the second digit
  have herrors₁ := h.remainderErrors (by omega) ha.representable hb.representable hne
  have hr₁ : Holds (remainder (ofScalar a) b) (p - d * near (p / d)) 0 :=
    holds_remainder (x := ofScalar a) ⟨ha, stands_zero⟩ hb hq₁
      ((hb.mul hq₁).isFinite_iff.mp hproduct) herrors₁
  have herrors₂ : RemainderErrors (p - d * near (p / d)) d (near ((p - d * near (p / d)) / d)) := by
    rcases eq_or_ne (p - d * near (p / d)) 0 with hzero | hne'
    · rw [hzero, zero_div, near_zero]
      exact remainderErrors_zero d
    · exact (h.remainder he ha.representable hb.representable hne hne').remainderErrors (by omega)
        herrors₁.remainder hb.representable hne
  have hproduct₂ := abs_second_product_lt ha.abs_lt hne h herrors₂
  have hrounds₂ := hr₁.value.div hb hne
  have hrest₁ := remainder_div (a := p) hne (near (p / d))
  have hrest₂ := remainder_div (a := p - d * near (p / d)) hne (near ((p - d * near (p / d)) / d))
  rw [hrest₁] at hrest₂ hproduct₂ herrors₂ hrounds₂
  have hq₂ := hrounds₂.stands (hrounds₂.isFinite_iff.mpr (by
    linarith [hsizes.second_le, hsizes.le_halfUnit, largestNumber_lt, halfUnit_pos]))
  -- the third digit
  have hr₂ : Holds (remainder (remainder (ofScalar a) b) b) _ 0 :=
    holds_remainder hr₁ hb hq₂ hproduct₂ herrors₂
  have hrounds₃ := hr₂.value.div hb hne
  rw [hrest₂] at hrounds₃
  have hq₃ := hrounds₃.stands (hrounds₃.isFinite_iff.mpr (by
    linarith [hsizes.third_le, hsizes.pos, hsizes.le_halfUnit, largestNumber_lt, halfUnit_pos]))
  rw [div_eq_digits hquotient]
  exact isFinite_digits hq₁ hq₂ hq₃ hsizes

/-- A remainder, and the digit that comes from it, are bounded by the size of the quotient. -/
theorem partsWithin_remainder {c : ℚ} (hx : PartsWithin x (|d| * c)) (hb : Stands b d) (hne : d ≠ 0)
    (hd : 2 ^ 38 * (|d| * c) ≤ largestNumber) (hc : 2 * c ≤ largestNumber) :
    Within (x.value / b) (2 * c) ∧ PartsWithin (remainder x b) (|d| * (2 ^ 38 * c)) := by
  have hnonneg := hx.value.nonneg
  have hcnonneg : 0 ≤ c := nonneg_of_mul_nonneg_right hnonneg (abs_pos.mpr hne)
  have hquotient := hx.value.div hb hne (by linarith)
  have hscale := partsWithin_scale (hb.within le_rfl) hquotient (by linarith)
  have hdifference := partsWithin_sub (hx.mono (by linarith)) hscale (by linarith)
  exact ⟨hquotient, hdifference.mono (by linarith)⟩

/-- A quotient does not overflow if neither the dividend nor the quotient is large. -/
theorem isFinite_div_of_small (ha : Stands a p) (hb : Stands b d) (hne : d ≠ 0)
    (hp : 2 ^ 103 * |p| ≤ largestNumber) (hquotient : 2 ^ 103 * |p / d| ≤ largestNumber) :
    Scalar.isFinite (ofScalar a / ofScalar b).value = true := by
  have hdividend : |p| = |d| * |p / d| := by rw [← abs_mul, mul_div_cancel₀ _ hne]
  have hnonneg := abs_nonneg (p / d)
  rw [hdividend] at hp
  have hpnonneg := mul_nonneg (abs_nonneg d) hnonneg
  have hx : PartsWithin (ofScalar a) (|d| * |p / d|) := Within.ofScalar (ha.within hdividend.le)
  obtain ⟨hq₁, hr₁⟩ := partsWithin_remainder hx hb hne (by linarith) (by linarith)
  obtain ⟨hq₂, hr₂⟩ := partsWithin_remainder hr₁ hb hne (by linarith) (by linarith)
  have hq₃ := hr₂.value.div hb hne (by linarith)
  have hquick := partsWithin_quickSum (hq₁.mono (d := 2 ^ 39 * |p / d|) (by linarith))
    (hq₂.mono (by linarith)) (by linarith)
  rw [div_eq_digits (a := a) hq₁.isFinite]
  exact (partsWithin_add (hquick.mono (d := 2 ^ 77 * |p / d|) (by linarith))
    (Within.ofScalar (hq₃.mono (by linarith))) (by linarith)).value.isFinite

/-- A quotient by a number other than zero does not overflow, if the leading digit and its product
with the divisor do not. -/
theorem isFinite_div (ha : Stands a p) (hb : Stands b d) (hne : d ≠ 0)
    (hquotient : Scalar.isFinite (a / b) = true) (hproduct : Scalar.isFinite (b * (a / b)) = true) :
    Scalar.isFinite (ofScalar a / ofScalar b).value = true := by
  have hdividend : |p| = |d| * |p / d| := by rw [← abs_mul, mul_div_cancel₀ _ hne]
  have hless : |d| < overflowLimit := hb.abs_lt
  have hleast : (2 : ℚ) ^ (-1074 : ℤ) ≤ |d| := hb.representable.onGrid_least.zpow_le_abs hne
  rcases le_or_gt |p| (2 ^ (920 : ℤ)) with hp | hp
  · rcases le_or_gt |p / d| (2 ^ (920 : ℤ)) with hsmall | hlarge
    · have hlimit : 2 ^ 103 * (2 : ℚ) ^ (920 : ℤ) ≤ largestNumber := by
        have hpower : 2 ^ 103 * (2 : ℚ) ^ (920 : ℤ) = 2 ^ (1023 : ℤ) := by
          rw [← zpow_natCast, ← zpow_add₀ two_ne_zero]
          rfl
        rw [hpower]
        exact zpow_le_largestNumber le_rfl
      exact isFinite_div_of_small ha hb hne
        ((mul_le_mul_of_nonneg_left hp (by norm_num)).trans hlimit)
        ((mul_le_mul_of_nonneg_left hsmall (by norm_num)).trans hlimit)
    · -- the divisor is small, but not smaller than the least float
      have hdividend' : 2 ^ (-300 + 105 : ℤ) ≤ |p| := by
        calc (2 : ℚ) ^ (-300 + 105 : ℤ) ≤ 2 ^ (-1074 + 920 : ℤ) :=
              zpow_le_zpow_right₀ one_le_two (by norm_num)
          _ = 2 ^ (-1074 : ℤ) * 2 ^ (920 : ℤ) := zpow_add₀ two_ne_zero _ _
          _ ≤ |p| := by
              rw [hdividend]
              exact mul_le_mul hleast hlarge.le (two_zpow_pos _).le (abs_nonneg d)
      exact isFinite_div_of_hasDigits ha hb hne (hasDigits_of_le (e := -300) hne (by norm_num)
        hdividend' ((zpow_le_zpow_right₀ one_le_two (by norm_num)).trans hlarge.le)) (by norm_num)
        hquotient hproduct
  · have hquotient' : 2 ^ (-300 + 52 : ℤ) ≤ |p / d| := by
      rw [abs_div, le_div_iff₀ (abs_pos.mpr hne)]
      calc (2 : ℚ) ^ (-300 + 52 : ℤ) * |d| ≤ 2 ^ (-300 + 52 : ℤ) * overflowLimit :=
            mul_le_mul_of_nonneg_left hless.le (two_zpow_pos _).le
        _ = 2 ^ (-300 + 52 + 1024 : ℤ) := (zpow_add₀ two_ne_zero _ _).symm
        _ ≤ 2 ^ (920 : ℤ) := zpow_le_zpow_right₀ one_le_two (by norm_num)
        _ ≤ |p| := hp.le
    exact isFinite_div_of_hasDigits ha hb hne (hasDigits_of_le (e := -300) hne (by norm_num)
      ((zpow_le_zpow_right₀ one_le_two (by norm_num)).trans hp.le) hquotient') (by norm_num)
      hquotient hproduct

end Division

section Overflows

variable {x y : DoubleDouble Float} {a b : Float} {s : Sign}

theorem value_div_of_not_finite (h : Scalar.isFinite (a / b) = false) :
    (ofScalar a / ofScalar b).value = a / b := by
  show (div (ofScalar a) (ofScalar b)).value = _
  unfold div
  simp only [ofScalar, h, Bool.false_eq_true, if_false]

/-- What is left over of something that is not determined, is not determined. -/
theorem isNaN_remainder (h : Scalar.isNaN x.value = true) (b : Float) :
    Scalar.isNaN (remainder x b).value = true :=
  isNaN_add (.inl h)

/-- If the product of divisor and quotient overflows, it is all that is taken away. -/
theorem value_remainder_of_overflow (h : Scalar.isFinite (b * (x.value / b)) = false) :
    (remainder x b).value = x.value + -(b * (x.value / b)) := by
  have hnot : Scalar.isFinite (x.value + -(b * (x.value / b))) = false := by
    rw [← Bool.not_eq_true]
    intro hfinite
    have hproduct := (isFinite_of_add hfinite).2
    rw [isFinite_neg, h] at hproduct
    cases hproduct
  show (x + -(ofScalar b).scale (x.value / b)).value = _
  rw [scale_ofScalar_of_not_finite h]
  exact value_add_of_not_finite hnot

/-- What is left over of an infinity is not determined. -/
theorem isNaN_remainder_of_isInfinity (h : IsInfinity s x.value)
    (hb : Scalar.isFinite b = true) (hne : number b ≠ 0) :
    Scalar.isNaN (remainder x b).value = true := by
  have hproduct := h.mul_div hb hne
  rw [value_remainder_of_overflow hproduct.isFinite]
  exact h.isNaN_add hproduct.neg

/-- If the product of divisor and leading digit overflows, the quotient is not determined. -/
theorem isNaN_div_of_product (hquotient : Scalar.isFinite (a / b) = true)
    (hproduct : Scalar.isFinite (b * (a / b)) = false) :
    Scalar.isNaN (ofScalar a / ofScalar b).value = true := by
  obtain ⟨ha, hb⟩ := isFinite_of_div hquotient
  have hvalue : (remainder (ofScalar a) b).value = a + -(b * (a / b)) :=
    value_remainder_of_overflow hproduct
  have hundetermined : Scalar.isNaN (b * (a / b)) = true →
      Scalar.isNaN (remainder (remainder (ofScalar a) b) b).value = true := by
    intro hnan
    have hsum := AbsorbingScalar.isNaN_add_right a (isNaN_neg hnan)
    exact isNaN_remainder (hvalue ▸ hsum) b
  have hrest : Scalar.isNaN (remainder (remainder (ofScalar a) b) b).value = true := by
    rcases finite_or_infinity_or_nan (b * (a / b)) with hfinite | ⟨s, hinfinity⟩ | hnan
    · exact absurd (hproduct.symm.trans hfinite) Bool.false_ne_true
    · rcases hb with ⟨hb, hne⟩ | ⟨s', hb⟩
      · refine isNaN_remainder_of_isInfinity (s := -s) ?_ hb hne
        rw [hvalue]
        exact hinfinity.neg.finite_add ha
      · exact hundetermined (hb.isNaN_mul_div a)
    · exact hundetermined hnan
  rw [div_eq_digits hquotient]
  exact isNaN_add (.inr (isNaN_div_left hrest b))

end Overflows

end DoubleDouble
end SeparableTransforms
