import SeparableTransforms.Proofs.Binary64.Infinities
import SeparableTransforms.Proofs.Binary64.Remainders
import SeparableTransforms.Proofs.Binary64.Roots
import SeparableTransforms.Proofs.DenseMatrix.Dependencies
import SeparableTransforms.Proofs.DoubleDouble.Sizes

/-!
# Roots of double-double numbers

A root is corrected once, by what its square leaves over of the number.  The square does not
overflow, and it is so close to the number that next to nothing is left over.  So the
corrected root of a positive number is a positive number again, if the error of the number is
much smaller than its value.
-/

namespace SeparableTransforms
namespace DoubleDouble

open Binary64
open Float.Model
open Float.Model.UnpackedFloat

section Roots

variable {x : DoubleDouble Float} {root : Float} {p e r : ℚ}

theorem stands_two : Stands (Scalar.ofNat 2) 2 := by
  have h : (Scalar.ofNat 2 : Float) =
      .ofModel (.pack (.finite .positive (2 ^ 52) (-51) (by decide))) := by
    decide +kernel
  have hunpack : (Scalar.ofNat 2 : Float).toModel.unpack =
      .finite .positive (2 ^ 52) (-51) (by decide) := by
    rw [h]
    exact unpack_pack ⟨by decide, by decide, by decide, by decide⟩
  refine ⟨by decide +kernel, ?_⟩
  unfold number
  rw [hunpack]
  norm_num [Binary64.value, signed]

/-- What the square of a rounded root leaves over. -/
theorem within_residual (hx : Holds x p e) (hp : 0 < p) (he : |e| ≤ p / 2 ^ 40) (hr : IsRoot r p)
    (hroot : Stands root (near r)) : Within (x - product root root).value (p / 2 ^ 14) := by
  have hpabs : |p| = p := abs_of_pos hp
  have hle : p ≤ largestNumber := hpabs ▸ hx.value.abs_le
  have hleast : 2 ^ (-1074 : ℤ) ≤ p :=
    hpabs ▸ hx.value.representable.onGrid_least.zpow_le_abs hp.ne'
  have hsquare := hr.abs_square_sub_le hleast
  have hrounds := hroot.mul hroot
  have hfinite := hrounds.isFinite (by
    rw [abs_of_nonneg (mul_self_nonneg _)]
    exact hr.square_le hle)
  have hproduct := hrounds.stands hfinite
  have hclose := hx.value.representable.abs_near_sub_le (x := near r * near r)
  have hflip : |near r * near r + -near (near r * near r)| =
      |near (near r * near r) - near r * near r| := by rw [← sub_eq_add_neg, abs_sub_comm]
  have hresidual := hroot.fma hroot hproduct.neg
  rw [abs_sub_comm] at hsquare
  generalize near r * near r = c at *
  generalize near c = d at *
  have herror : Within (product root root).error (2 * (p / 2 ^ 50)) := by
    rw [product_eq hfinite]
    exact hresidual.within (by linarith) (by linarith)
  have hdifference : |p - d| ≤ p / 2 ^ 49 := by
    have := abs_sub_le p c d
    rw [abs_sub_comm c d] at this
    linarith
  have hd := hproduct.representable
  have hlarge : p - p / 2 ^ 49 ≤ |d| := by
    have := abs_sub_abs_le_abs_sub p d
    linarith
  -- the values are so close that nothing is lost between them
  have hvalues := holds_sum hx.value hproduct.neg (isSum_exact (sub_eq_add_neg p d).symm
    (representable_sub_of_close hx.value.representable hd (by linarith) (by linarith)) hd.neg
    (by linarith [overflowLimit_eq, largestNumber_lt]) (by rw [abs_neg]; exact hproduct.abs_lt))
  rw [← sub_eq_add_neg, sub_self] at hvalues
  have herrors := partsWithin_sum (hx.error.within he) (herror.neg.mono (by linarith)) (by linarith)
  have hparts : PartsWithin (sum x.value (-(root * root))) (p / 2 ^ 30) :=
    ⟨hvalues.value.within (by linarith), hvalues.error.within (by rw [abs_zero]; linarith)⟩
  have hvalue : (-product root root).value = -(root * root) := congrArg Neg.neg (value_product _ _)
  have hsum := hvalues.value.isFinite
  rw [value_sum, ← hvalue] at hsum
  show Within (x + -product root root).value _
  rw [add_eq_corrected hsum, hvalue]
  exact (partsWithin_corrected hparts (herrors.mono (by linarith)) (by linarith)).value.mono
    (by linarith)

/-- The root of zero is zero. -/
theorem sqrt_of_stands_zero (h : Stands x.value 0) : x.sqrt = 0 :=
  if_pos (h.beq_zero_iff.mpr rfl)

theorem value_sqrt (hzero : (x.value == 0) = false) (hneg : ¬x.value < 0) :
    x.sqrt.value = Radical.sqrt x.value +
      (x - product (Radical.sqrt x.value) (Radical.sqrt x.value)).value /
        (Scalar.ofNat 2 * Radical.sqrt x.value) := by
  unfold sqrt
  rw [hzero, if_neg Bool.false_ne_true, if_neg hneg]
  exact value_quickSum _ _

/-- The correction is much smaller than the root. -/
theorem exists_correction {residual : Float} {q s : ℚ} (hroot : Stands root s)
    (hq : Stands residual q) (hs : 0 < s) (hlimit : 2 * s ≤ largestNumber)
    (hsize : |q| ≤ s / 2 ^ 13 * s) :
    ∃ k, Stands (residual / (Scalar.ofNat 2 * root)) k ∧ |k| ≤ s / 2 ^ 12 := by
  have hdouble := stands_two.mul hroot
  have htwice := hdouble.stands (hdouble.isFinite (by rwa [abs_of_pos (by linarith)]))
  -- the divisor is at least as large as the root
  have hdivisor : s ≤ near (2 * s) := le_near (by linarith) hroot.representable
  have hpos := hs.trans_le hdivisor
  have hquotient := hq.div htwice hpos.ne'
  have hbound : |q / near (2 * s)| ≤ s / 2 ^ 13 := by
    rw [abs_div, abs_of_pos hpos, div_le_iff₀ hpos]
    exact hsize.trans (mul_le_mul_of_nonneg_left hdivisor (div_nonneg hs.le (by norm_num)))
  have hcorrection := abs_near_le_two_mul (q / near (2 * s))
  exact ⟨_, hquotient.stands (hquotient.isFinite (by linarith)), by linarith⟩

/-- A root is positive after it has been corrected. -/
theorem exists_stands_add {correction : Float} {k s : ℚ} (hroot : Stands root s)
    (hk : Stands correction k) (hs : 2 ^ (-1022 : ℤ) ≤ s) (hlimit : 2 * s ≤ largestNumber)
    (hsize : |k| ≤ s / 2 ^ 12) : ∃ c, Stands (root + correction) c ∧ 0 < c := by
  have hpos := (two_zpow_pos (-1022)).trans_le hs
  obtain ⟨hbelow, habove⟩ := abs_le.mp hsize
  have hsum := hroot.add hk
  have hfinite := hsum.isFinite (by
    rw [abs_of_pos (by linarith)]
    linarith)
  have hhalf : (2 : ℚ) ^ (-1022 : ℤ) = 2 ^ (-1023 : ℤ) + 2 ^ (-1023 : ℤ) := by
    rw [← two_zpow_succ, show (-1023 + 1 : ℤ) = -1022 by norm_num]
  have hleast : (2 : ℚ) ^ (-1023 : ℤ) ≤ s + k := by
    generalize (2 : ℚ) ^ (-1022 : ℤ) = c at *
    generalize (2 : ℚ) ^ (-1023 : ℤ) = c' at *
    linarith
  exact ⟨_, hsum.stands hfinite,
    (two_zpow_pos _).trans_le (le_near hleast (representable_zpow (by norm_num)))⟩

/-- The corrected root of a positive number is positive, if the error of the number is small. -/
theorem exists_stands_sqrt (hx : Holds x p e) (hp : 0 < p) (he : |e| ≤ p / 2 ^ 40) :
    ∃ c, Stands x.sqrt.value c ∧ 0 < c := by
  have hpabs : |p| = p := abs_of_pos hp
  have hle : p ≤ largestNumber := hpabs ▸ hx.value.abs_le
  have hleast : 2 ^ (-1074 : ℤ) ≤ p :=
    hpabs ▸ hx.value.representable.onGrid_least.zpow_le_abs hp.ne'
  have hzero : (x.value == 0) = false := by
    rw [← Bool.not_eq_true, hx.value.beq_zero_iff]
    exact hp.ne'
  have hneg : ¬x.value < 0 := by
    rw [hx.value.lt_iff stands_zero]
    exact hp.le.not_gt
  obtain ⟨r, hr, hroot⟩ := hx.value.exists_near_root hp
  have hlimit := two_mul_rootLimit_le
  have hunit := rootUnit_pos
  have hlower := hr.zpow_le_near hleast
  have hsquare := (abs_le.mp (hr.abs_square_sub_le hleast)).1
  have hnear := hr.near_le hle
  obtain ⟨q, hq, hqsize⟩ := within_residual hx hp he hr hroot
  obtain ⟨k, hk, hksize⟩ := exists_correction hroot hq ((two_zpow_pos _).trans_le hlower)
    (by linarith) (by linarith)
  rw [value_sqrt hzero hneg]
  exact exists_stands_add hroot hk hlower (by linarith) hksize

end Roots

section Infinities

variable {x : DoubleDouble Float}

/-- An infinity has an infinite square, and what that leaves over is not determined. -/
theorem isNaN_sqrt_of_isInfinity (h : IsInfinity .positive x.value) :
    Scalar.isNaN x.sqrt.value = true := by
  have hzero : (x.value == 0) = false := by
    show x.value.toModel.unpack.beq (0 : Float).toModel.unpack = false
    rw [h, unpack_zero]
    rfl
  have hneg : ¬x.value < 0 := by
    rw [lt_iff_parts, h, unpack_zero]
    decide
  have hroot : IsInfinity .positive (Radical.sqrt x.value) := isInfinity_pack (by rw [h]; rfl)
  have hsquare : IsInfinity .positive (Radical.sqrt x.value * Radical.sqrt x.value) :=
    isInfinity_pack (by rw [hroot]; rfl)
  have hproduct : (-product (Radical.sqrt x.value) (Radical.sqrt x.value)).value =
      -(Radical.sqrt x.value * Radical.sqrt x.value) := congrArg Neg.neg (value_product _ _)
  have hrest := h.isNaN_add hsquare.neg
  rw [← hproduct] at hrest
  have hresidual : Scalar.isNaN
      (x + -product (Radical.sqrt x.value) (Radical.sqrt x.value)).value = true := by
    rw [value_add_of_not_finite (AbsorbingScalar.isFinite_of_isNaN hrest)]
    exact hrest
  rw [value_sqrt hzero hneg]
  exact AbsorbingScalar.isNaN_add_right _ (isNaN_div_left hresidual _)

theorem isNaN_nan : Scalar.isNaN (Scalar.nan : Float) = true := by
  decide +kernel

/-- What is less than zero has no root. -/
theorem isNaN_sqrt_of_lt (h : x.value < 0) : Scalar.isNaN x.sqrt.value = true := by
  have hzero : (x.value == 0) = false := by
    rw [lt_iff_parts, UnpackedFloat.lt] at h
    show x.value.toModel.unpack.beq (0 : Float).toModel.unpack = false
    unfold UnpackedFloat.beq
    cases hcompare : x.value.toModel.unpack.compare (0 : Float).toModel.unpack with
    | none => rfl
    | some o =>
        rw [hcompare] at h
        cases o with
        | lt => rfl
        | eq => cases h
        | gt => cases h
  unfold sqrt
  rw [hzero, if_neg Bool.false_ne_true, if_pos h]
  exact isNaN_nan

end Infinities

end DoubleDouble
end SeparableTransforms
