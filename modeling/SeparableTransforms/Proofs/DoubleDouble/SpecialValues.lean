import SeparableTransforms.Proofs.DoubleDouble.Quotients
import SeparableTransforms.Proofs.DoubleDouble.Roots

/-!
# Special values in double-double arithmetic

An operation on two floats gives a number, an infinity or `NaN`, and the double-double
operation on the same floats should give a value of the same kind.  A leading part that is
not finite is returned as it is, and so the kinds agree wherever the operation on floats
overflows or is undefined.

What is left are the corrections of finite results.  In a product they do no harm.  In a sum
they do if the difference overflows by which an operand is recovered from the sum, which
needs an operand as large as the largest float.  In a quotient they do if the divisor times
the quotient is not finite, as for an infinite divisor.  A root of an infinity is corrected
although it is not finite.  In all of these cases the value is `NaN`.
-/

namespace SeparableTransforms
namespace DoubleDouble

open Binary64
open Float.Model
open Float.Model.UnpackedFloat

section Kinds

variable {x y : Float} {h : Prop}

/-- Both are `NaN`, the same infinity, or finite. -/
structure SameKind (x y : Float) : Prop where
  isNaN_iff : Scalar.isNaN x = true ↔ Scalar.isNaN y = true
  isInfinity_iff (s : Sign) : IsInfinity s x ↔ IsInfinity s y
  isFinite_iff : Scalar.isFinite x = true ↔ Scalar.isFinite y = true

theorem SameKind.refl (x : Float) : SameKind x x :=
  ⟨.rfl, fun _ => .rfl, .rfl⟩

theorem sameKind_of_isFinite (hx : Scalar.isFinite x = true) (hy : Scalar.isFinite y = true) :
    SameKind x y := by
  refine ⟨?_, fun s => ?_, iff_of_true hx hy⟩
  · rw [isNaN_of_isFinite hx, isNaN_of_isFinite hy]
  · exact iff_of_false (fun h => by rw [h.isFinite] at hx; cases hx)
      (fun h => by rw [h.isFinite] at hy; cases hy)

theorem sameKind_of_isNaN (hx : Scalar.isNaN x = true) (hy : Scalar.isNaN y = true) :
    SameKind x y := by
  refine ⟨iff_of_true hx hy, fun s => ?_, ?_⟩
  · unfold IsInfinity
    rw [eq_notANumber hx, eq_notANumber hy]
  · rw [AbsorbingScalar.isFinite_of_isNaN hx, AbsorbingScalar.isFinite_of_isNaN hy]

/-- A value of the same kind as a float if a condition holds, and `NaN` otherwise, although the
float is not. -/
structure SameKindIf (h : Prop) (x y : Float) : Prop where
  sameKind : h → SameKind x y
  undetermined : ¬h → Scalar.isNaN x = true ∧ Scalar.isNaN y = false

end Kinds

section Sums

variable {x y : DoubleDouble Float} {a b : Float} {p q : ℚ}

/-- A sum of numbers without errors does not overflow, if its leading part does not and if the
second operand can be recovered from it. -/
theorem isFinite_add (hx : Holds x p 0) (hy : Holds y q 0)
    (hsum : Scalar.isFinite (x.value + y.value) = true)
    (hrest : Scalar.isFinite (x.value + y.value - x.value) = true) :
    Scalar.isFinite (x + y).value = true := by
  have hs := isSum_of_isFinite hx.value hy.value hsum hrest
  have hvalues := holds_sum hx.value hy.value hs
  have hquick := isQuickSum_residual hs.abs_lt
  have herrors : IsSum 0 0 0 :=
    isSum_exact (add_zero 0) representable_zero representable_zero hx.error.abs_lt hx.error.abs_lt
  have hresidual := near_of_representable hvalues.error.representable
  exact (holds_add hx hy hs herrors (by rw [add_zero, hresidual]) hvalues.error.abs_lt hquick
    (by rw [add_sub_cancel_left, add_zero, sub_zero, add_zero, hresidual]) hquick).value.isFinite

/-- A sum whose error is not determined is not determined. -/
theorem isNaN_corrected {s t : DoubleDouble Float} (h : Scalar.isNaN s.error = true) :
    Scalar.isNaN (corrected s t).value = true := by
  unfold corrected
  rw [value_quickSum, value_quickSum]
  exact AbsorbingScalar.isNaN_add_left _ (AbsorbingScalar.isNaN_add_right _
    (AbsorbingScalar.isNaN_add_left _ h))

/-- The error of a sum is not determined if the difference by which the second operand is recovered
from it overflows. -/
theorem isNaN_error_sum (hsum : Scalar.isFinite (a + b) = true)
    (hrest : Scalar.isFinite (a + b - a) = false) : Scalar.isNaN (sum a b).error = true := by
  obtain ⟨ha, hb⟩ := isFinite_of_add hsum
  have herror : (sum a b).error = (a - (a + b - (a + b - a))) + (b - (a + b - a)) := by
    unfold sum
    rw [if_pos hsum]
  have hinfinity : ∃ s, IsInfinity s (a + b - a) := by
    rcases finite_or_infinity_or_nan (a + b - a) with hfinite | h | hnan
    · exact absurd (hrest.symm.trans hfinite) Bool.false_ne_true
    · exact h
    · exact absurd ((roundsTo_sub hsum ha).isNaN.symm.trans hnan) Bool.false_ne_true
  obtain ⟨s, hs⟩ := hinfinity
  rw [herror]
  simp only [sub_eq_add_neg_float] at hs ⊢
  -- the second operand takes one infinity away, the first one the other
  have hfirst : IsInfinity (- -s) _ := (hs.neg.finite_add hsum).neg.finite_add ha
  have hsecond : IsInfinity (-s) _ := hs.neg.finite_add hb
  rw [show - -s = s by cases s <;> rfl] at hfirst
  exact hfirst.isNaN_add hsecond

/-- A sum is not determined if the difference by which an operand is recovered from it overflows. -/
theorem isNaN_add_of_overflow (hsum : Scalar.isFinite (x.value + y.value) = true)
    (hrest : Scalar.isFinite (x.value + y.value - x.value) = false) :
    Scalar.isNaN (x + y).value = true := by
  rw [add_eq_corrected hsum]
  exact isNaN_corrected (isNaN_error_sum hsum hrest)

/-- The sum is no larger than its operands here, and yet the largest float cannot be recovered. -/
example : Scalar.isNaN (ofScalar (Float.ofBits 0xffd0000000000003) +
    ofScalar (Float.ofBits 0x7fefffffffffffff)).value = true := by
  decide +kernel

/-- The sum of numbers without errors is of the kind of the sum of their values, if an operand can
be recovered from the sum. -/
theorem sameKindIf_add (hx : Stands x.error 0) (hy : Stands y.error 0) :
    SameKindIf (Scalar.isFinite (x.value + y.value) = true →
      Scalar.isFinite (x.value + y.value - x.value) = true) (x + y).value (x.value + y.value) := by
  refine ⟨fun h => ?_, fun h => ?_⟩
  · cases hsum : Scalar.isFinite (x.value + y.value) with
    | false =>
        rw [value_add_of_not_finite hsum]
        exact .refl _
    | true =>
        obtain ⟨hx', hy'⟩ := isFinite_of_add hsum
        exact sameKind_of_isFinite
          (isFinite_add ⟨stands_number hx', hx⟩ ⟨stands_number hy', hy⟩ hsum (h hsum)) hsum
  · obtain ⟨hsum, hrest⟩ := Classical.not_imp.mp h
    exact ⟨isNaN_add_of_overflow hsum (Bool.not_eq_true _ ▸ hrest), isNaN_of_isFinite hsum⟩

end Sums

section Products

variable {a b : Float} {p q : ℚ}

/-- A product and the rounded error of it do not overflow, if the product does not. -/
theorem abs_near_mul_add_lt (hp : Representable p) (hq : Representable q)
    (h : |near (p * q)| < overflowLimit) :
    |near (near (p * q) + near (p * q - near (p * q)))| < overflowLimit := by
  rcases le_or_gt (-1074) (unitExponent |p| + unitExponent |q|) with hunits | hunits
  · rw [near_of_representable (representable_residual_mul hp hq (abs_lt_units p)
      (abs_lt_units q).le hunits), add_sub_cancel]
    exact h
  · -- the factors are so small that the product cannot be large
    have hsmall : |p * q| ≤ 1 := by
      calc |p * q| = |p| * |q| := abs_mul p q
        _ ≤ 2 ^ (53 + unitExponent |p|) * 2 ^ (53 + unitExponent |q|) :=
            mul_le_mul (abs_lt_units p).le (abs_lt_units q).le (abs_nonneg q) (two_zpow_pos _).le
        _ = 2 ^ (53 + unitExponent |p| + (53 + unitExponent |q|)) :=
            (zpow_add₀ two_ne_zero _ _).symm
        _ ≤ 2 ^ (0 : ℤ) := zpow_le_zpow_right₀ one_le_two (by omega)
        _ = 1 := zpow_zero 2
    have hlimit : 2 ^ (4 : ℤ) ≤ largestNumber := zpow_le_largestNumber (by norm_num)
    have hvalue := abs_near_le hsmall representable_one
    have herror := abs_near_le_two_mul (p * q - near (p * q))
    have hdifference := abs_sub (p * q) (near (p * q))
    have hsum := abs_add_le (near (p * q)) (near (p * q - near (p * q)))
    refine (abs_near_le ?_ representable_largestNumber).trans_lt largestNumber_lt
    refine hsum.trans ?_
    norm_num at hlimit
    linarith

/-- A product of two floats in double-double precision overflows only if it does in floats. -/
theorem isFinite_mul (h : Scalar.isFinite (a * b) = true) :
    Scalar.isFinite (ofScalar a * ofScalar b).value = true := by
  obtain ⟨hfinite, hfinite'⟩ := isFinite_of_mul h
  have ha := stands_number hfinite
  have hb := stands_number hfinite'
  have hproduct := (ha.mul hb).stands h
  have hbound := (ha.mul hb).isFinite_iff.mp h
  have hresidual := ha.fma hb hproduct.neg
  rw [← sub_eq_add_neg] at hresidual
  have herror := hresidual.stands (isFinite_residual hfinite hfinite' h)
  have hcross := ha.fma stands_zero hb.zero_mul
  rw [mul_zero, add_zero] at hcross
  have hsum := herror.add hcross.stands_zero
  rw [add_zero] at hsum
  have hsum := hsum.exact herror.representable herror.abs_lt
  rw [value_mul (ofScalar a) (ofScalar b) h]
  exact (hproduct.add hsum).isFinite_iff.mpr
    (abs_near_mul_add_lt ha.representable hb.representable hbound)

/-- A product of two floats in double-double precision is of the kind of the product of floats. -/
theorem sameKind_mul (a b : Float) : SameKind (ofScalar a * ofScalar b).value (a * b) := by
  cases h : Scalar.isFinite (a * b) with
  | false =>
      rw [value_mul_of_not_finite (ofScalar a) (ofScalar b) h]
      exact .refl _
  | true => exact sameKind_of_isFinite (isFinite_mul h) h

end Products

section Quotients

variable {a b : Float}

/-- A quotient of two floats in double-double precision is of the kind of the quotient of floats, if
the divisor times that is finite. -/
theorem sameKindIf_div (a b : Float) :
    SameKindIf (Scalar.isFinite (a / b) = true → Scalar.isFinite (b * (a / b)) = true)
      (ofScalar a / ofScalar b).value (a / b) := by
  refine ⟨fun h => ?_, fun h => ?_⟩
  · cases hquotient : Scalar.isFinite (a / b) with
    | false =>
        rw [value_div_of_not_finite hquotient]
        exact .refl _
    | true =>
        obtain ⟨ha, ⟨hb, hne⟩ | ⟨s, hb⟩⟩ := isFinite_of_div hquotient
        · have hfinite :=
            isFinite_div (stands_number ha) (stands_number hb) hne hquotient (h hquotient)
          exact sameKind_of_isFinite hfinite hquotient
        · have hnan := hb.isNaN_mul_div a
          exact absurd ((AbsorbingScalar.isFinite_of_isNaN hnan).symm.trans (h hquotient))
            Bool.false_ne_true
  · obtain ⟨hquotient, hproduct⟩ := Classical.not_imp.mp h
    exact ⟨isNaN_div_of_product hquotient (Bool.not_eq_true _ ▸ hproduct),
      isNaN_of_isFinite hquotient⟩

end Quotients

section Roots

variable {a : Float}

theorem isNaN_sqrt_eq_false (h : IsInfinity .positive a) :
    Scalar.isNaN (Radical.sqrt a) = false := by
  have hroot : IsInfinity .positive (Radical.sqrt a) := isInfinity_pack (by rw [h]; rfl)
  show (Radical.sqrt a).toModel.unpack.isNaN = false
  rw [hroot]
  rfl

/-- The root of a finite float is of the kind of the rounded root. -/
theorem sameKind_sqrt_of_isFinite (ha : Scalar.isFinite a = true) :
    SameKind (ofScalar a).sqrt.value (Radical.sqrt a) := by
  have hstands := stands_number ha
  rcases lt_trichotomy (number a) 0 with hneg | hzero | hpos
  · have hlt := (hstands.lt_iff stands_zero).mpr hneg
    exact sameKind_of_isNaN (isNaN_sqrt_of_lt (x := ofScalar a) hlt) (Binary64.isNaN_sqrt_of_lt hlt)
  · rw [hzero] at hstands
    rw [sqrt_of_stands_zero (x := ofScalar a) hstands]
    exact sameKind_of_isFinite stands_zero.isFinite hstands.sqrt_zero.isFinite
  · obtain ⟨c, hc, -⟩ := exists_stands_sqrt (x := ofScalar a) ⟨hstands, stands_zero⟩ hpos
      (by rw [abs_zero]; exact div_nonneg hpos.le (by norm_num))
    obtain ⟨r, -, hroot⟩ := hstands.exists_near_root hpos
    exact sameKind_of_isFinite hc.isFinite hroot.isFinite

/-- The root of a float in double-double precision is of the kind of the root of floats, unless
the float is the positive infinity. -/
theorem sameKindIf_sqrt (a : Float) :
    SameKindIf (¬IsInfinity .positive a) (ofScalar a).sqrt.value (Radical.sqrt a) := by
  refine ⟨fun h => ?_, fun h => ?_⟩
  · rcases finite_or_infinity_or_nan a with hfinite | ⟨s, hinfinity⟩ | hnan
    · exact sameKind_sqrt_of_isFinite hfinite
    · cases s with
      | positive => exact absurd hinfinity h
      | negative =>
          have hlt : a < 0 := by
            rw [lt_iff_parts, hinfinity, unpack_zero]
            decide
          exact sameKind_of_isNaN (isNaN_sqrt_of_lt (x := ofScalar a) hlt)
            (Binary64.isNaN_sqrt_of_lt hlt)
    · exact sameKind_of_isNaN (isNaN_sqrt (x := ofScalar a) hnan) (Binary64.isNaN_sqrt hnan)
  · have hinfinity := Classical.not_not.mp h
    exact ⟨isNaN_sqrt_of_isInfinity (x := ofScalar a) hinfinity, isNaN_sqrt_eq_false hinfinity⟩

end Roots

section Operations

variable {a b : Float} {p q : ℚ}

/-- The operations on two floats in double-double precision give values of the kind that the
operations on floats give, apart from the cases that are named. -/
structure SpecialValues (a b : Float) : Prop where
  add : SameKindIf (Scalar.isFinite (a + b) = true → Scalar.isFinite (a + b - a) = true)
    (ofScalar a + ofScalar b).value (a + b)
  sub : SameKindIf (Scalar.isFinite (a - b) = true → Scalar.isFinite (a - b - a) = true)
    (ofScalar a - ofScalar b).value (a - b)
  mul : SameKind (ofScalar a * ofScalar b).value (a * b)
  div : SameKindIf (Scalar.isFinite (a / b) = true → Scalar.isFinite (b * (a / b)) = true)
    (ofScalar a / ofScalar b).value (a / b)
  sqrt : SameKindIf (¬IsInfinity .positive a) (ofScalar a).sqrt.value (Radical.sqrt a)

/-- What the operations give for all pairs of floats. -/
theorem specialValues_ofScalar (a b : Float) : SpecialValues a b where
  add := sameKindIf_add (x := ofScalar a) (y := ofScalar b) stands_zero stands_zero
  sub := by
    have herror : Stands (-(0 : Float)) 0 := neg_zero (G := ℚ) ▸ stands_zero.neg
    rw [sub_eq_add_neg_float]
    exact sameKindIf_add (x := ofScalar a) (y := -ofScalar b) stands_zero herror
  mul := sameKind_mul a b
  div := sameKindIf_div a b
  sqrt := sameKindIf_sqrt a

/-- Values of the same kind for all of the operations. -/
structure SameKinds (a b : Float) : Prop where
  add : SameKind (ofScalar a + ofScalar b).value (a + b)
  sub : SameKind (ofScalar a - ofScalar b).value (a - b)
  mul : SameKind (ofScalar a * ofScalar b).value (a * b)
  div : SameKind (ofScalar a / ofScalar b).value (a / b)
  sqrt : SameKind (ofScalar a).sqrt.value (Radical.sqrt a)

/-- An operand is recovered from a finite sum, if it is not the largest float. -/
theorem isFinite_add_sub (ha : Stands a p) (hb : Stands b q) (hq : |q| < largestNumber)
    (h : Scalar.isFinite (a + b) = true) : Scalar.isFinite (a + b - a) = true := by
  have hsum := ha.add hb
  have herror := hsum.abs_sub_le h
  rw [hsum.number_eq h] at herror
  refine ((hsum.stands h).sub ha).isFinite ?_
  have hless := hb.representable.abs_le_of_lt hq
  have hpos := halfUnit_pos
  have hrest := abs_add_le q (near (p + q) - (p + q))
  rw [show q + (near (p + q) - (p + q)) = near (p + q) - p by ring] at hrest
  linarith

/-- A finite quotient times its divisor is finite, if the dividend is not the largest float. -/
theorem isFinite_mul_div (ha : Stands a p) (hb : Stands b q) (hne : q ≠ 0)
    (hp : |p| < largestNumber) (h : Scalar.isFinite (a / b) = true) :
    Scalar.isFinite (b * (a / b)) = true := by
  have hquotient := (ha.div hb hne).stands h
  refine (hb.mul hquotient).isFinite ?_
  have hless := ha.representable.abs_le_of_lt hp
  have hremainder := HasDigits.abs_remainder_le (a := p) hne
  have hunits : |q| * 2 ^ (52 + unitExponent |p / q|) ≤ overflowLimit := by
    rcases le_or_gt (unitExponent |p / q|) (-52) with hsmall | hlarge
    · rw [← mul_one overflowLimit]
      exact mul_le_mul hb.abs_lt.le (zpow_le_one_of_nonpos₀ one_le_two (by omega))
        (two_zpow_pos _).le (two_zpow_pos _).le
    · have hnonzero : p / q ≠ 0 := by
        intro hzero
        rw [hzero] at hlarge
        simp [unitExponent] at hlarge
      calc |q| * 2 ^ (52 + unitExponent |p / q|) ≤ |q| * |p / q| :=
            mul_le_mul_of_nonneg_left (units_le_abs hnonzero (by omega)) (abs_nonneg q)
        _ = |p| := by rw [← abs_mul, mul_div_cancel₀ _ hne]
        _ ≤ overflowLimit := ha.abs_lt.le
  rw [two_zpow_units] at hunits
  have hlimit := overflowLimit_eq
  have hproduct := abs_sub p (p - q * near (p / q))
  rw [sub_sub_cancel] at hproduct
  linarith

/-- Finite floats other than the largest ones give values of the same kind. -/
theorem sameKinds_of_lt (ha : Stands a p) (hb : Stands b q) (hp : |p| < largestNumber)
    (hq : |q| < largestNumber) : SameKinds a b := by
  have h := specialValues_ofScalar a b
  refine ⟨h.add.sameKind (isFinite_add_sub ha hb hq), h.sub.sameKind ?_, h.mul,
    h.div.sameKind fun hquotient => ?_, h.sqrt.sameKind fun hinfinity => ?_⟩
  · rw [sub_eq_add_neg_float a b]
    exact isFinite_add_sub ha hb.neg (by rwa [abs_neg])
  · obtain ⟨-, ⟨-, hne⟩ | ⟨s, hinfinity⟩⟩ := isFinite_of_div hquotient
    · rw [hb.number_eq] at hne
      exact isFinite_mul_div ha hb hne hp hquotient
    · exact absurd (hinfinity.isFinite.symm.trans hb.isFinite) Bool.false_ne_true
  · exact absurd (hinfinity.isFinite.symm.trans ha.isFinite) Bool.false_ne_true

/-- One divided by an infinity is zero, but it is not determined in double-double precision. -/
theorem not_all_sameKinds : ¬∀ a b : Float, SameKinds a b := by
  intro h
  have hnan : Scalar.isNaN (ofScalar (1 : Float) / ofScalar (1 / 0)).value = true := by
    decide +kernel
  have hzero : Scalar.isNaN ((1 : Float) / (1 / 0)) = false := by
    decide +kernel
  exact absurd ((h 1 (1 / 0)).div.isNaN_iff.mp hnan) (by rw [hzero]; exact Bool.false_ne_true)

end Operations

end DoubleDouble
end SeparableTransforms
