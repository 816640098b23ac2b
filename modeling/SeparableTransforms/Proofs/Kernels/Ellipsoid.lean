import SeparableTransforms.Kernels.Ellipsoid
import SeparableTransforms.Proofs.Binary64.Quotients
import SeparableTransforms.Proofs.Transform.Concatenation

/-!
# Geodetic conversions

A geodetic conversion is a chain of three steps: the normalization, the kernel for an
ellipsoid of a semi-major axis of one, and the denormalization.  The standard assembler leaves
out identities.  The normalization is none, because it has to do with degrees, but the
denormalization is one for a semi-major axis of one.

The eccentricity is computed from the rounded ratio of the axes.  The ratio is between zero
and one, and so is its square, so that the eccentricity is never negative.  It has to be less
than one, though, and it is rounded to one if the square of the ratio is no larger than half
of the distance from one to the next smaller float.  So very flat ellipsoids are refused.
-/

namespace SeparableTransforms

namespace Binary64

section Eccentricity

/-- What is taken from one shows if it is more than half of the way to the next smaller float. -/
theorem near_one_sub_lt_iff {d : ℚ} (h0 : 0 ≤ d) :
    near (1 - d) < 1 ↔ 2 ^ (-54 : ℤ) < d := by
  constructor
  · intro hless
    by_contra hsmall
    have hle := near_mono (sub_le_sub_left (not_lt.mp hsmall) 1)
    have hmiddle : near (1 - 2 ^ (-54 : ℤ)) = 1 := near_middle (k := 0) (by norm_num)
    rw [hmiddle] at hle
    exact absurd hless (not_lt.mpr hle)
  · intro hlarge
    have hbelow : Representable (1 - 2 ^ (-53 : ℤ)) := by
      refine OnGrid.representable (e := -53) ⟨2 ^ 53 - 1, by norm_num⟩ (by norm_num) ?_
      norm_num [abs_of_pos]
    rcases le_or_gt (2 ^ (-53 : ℤ)) d with hfar | hclose
    · calc near (1 - d) ≤ 1 - 2 ^ (-53 : ℤ) := near_le (by linarith) hbelow
        _ < 1 := sub_lt_self _ (two_zpow_pos _)
    · by_contra hone
      have hone : near (1 - d) = 1 :=
        le_antisymm (near_le (by linarith) representable_one) (not_lt.mp hone)
      have hnear := hbelow.abs_near_sub_le (x := 1 - d)
      have hdouble : (2 : ℚ) ^ (-53 : ℤ) = 2 ^ (-54 : ℤ) + 2 ^ (-54 : ℤ) := by norm_num
      rw [hone, sub_sub_cancel, abs_of_nonneg h0, abs_of_nonpos (by linarith)] at hnear
      linarith

end Eccentricity

end Binary64

namespace Ellipsoid

open Binary64

section Axes

variable {semiMajor semiMinor : Float}

/-- What is asked of the lengths of the axes: both are finite, and the semi-minor axis is positive
and not longer than the semi-major one. -/
def validAxes (semiMajor semiMinor : Float) : Bool :=
  semiMajor.isFinite && semiMinor.isFinite && 0 < semiMinor && semiMinor ≤ semiMajor

/-- The ratio of the axes up to which an ellipsoid is too flat to have an eccentricity less than
one. -/
def flatRatio : Float :=
  Float.ofBits 0x3e40000000000000

theorem stands_flatRatio : Stands flatRatio (2 ^ (-27 : ℤ)) := by
  have h : flatRatio = .ofModel (.pack (.finite .positive (2 ^ 52) (-79) (by decide))) := by
    decide +kernel
  have hunpack : flatRatio.toModel.unpack = .finite .positive (2 ^ 52) (-79) (by decide) := by
    rw [h]
    exact unpack_pack ⟨by decide, by decide, by decide, by decide⟩
  refine ⟨by decide +kernel, ?_⟩
  unfold number
  rw [hunpack]
  norm_num [value, signed]

/-- The ellipsoid of a semi-major axis of one with the given ratio of the axes. -/
def ofAxes (semiMajor semiMinor : Float) (withHeight : Bool) : Ellipsoid :=
  ⟨Binary64.fma (semiMinor / semiMajor) (-(semiMinor / semiMajor)) 1, withHeight⟩

/-- The ratio of the axes is rounded to a number between zero and one. -/
theorem exists_stands_ratio (h : validAxes semiMajor semiMinor = true) :
    ∃ ratio, Stands (semiMinor / semiMajor) ratio ∧ 0 ≤ ratio ∧ ratio ≤ 1 := by
  simp only [validAxes, Bool.and_eq_true, decide_eq_true_eq] at h
  obtain ⟨⟨⟨hmajor, hminor⟩, hpos⟩, hle⟩ := h
  have hmajor := stands_number hmajor
  have hminor := stands_number hminor
  have hpos := (stands_zero.lt_iff hminor).mp hpos
  have hle := (le_iff_number hminor.isFinite hmajor.isFinite).mp hle
  have hmajorPos := hpos.trans_le hle
  have hquotient := hminor.div hmajor hmajorPos.ne'
  have hnonneg := (div_pos hpos hmajorPos).le
  have hone := (div_le_one hmajorPos).mpr hle
  have hbound := (abs_of_nonneg hnonneg).trans_le (hone.trans one_le_largestNumber)
  exact ⟨_, hquotient.stands (hquotient.isFinite hbound), near_nonneg hnonneg,
    near_le hone representable_one⟩

/-- The eccentricity is between zero and one, one excluded, unless the ellipsoid is too flat. -/
theorem make_of_validAxes (h : validAxes semiMajor semiMinor = true) (withHeight : Bool) :
    make (ofAxes semiMajor semiMinor withHeight).eccentricitySquared withHeight =
      if flatRatio < semiMinor / semiMajor then .ok (ofAxes semiMajor semiMinor withHeight)
      else .error (.illegalArgument
        (.eccentricity (ofAxes semiMajor semiMinor withHeight).eccentricitySquared)) := by
  unfold ofAxes
  obtain ⟨ratio, hstands, hnonneg, hle⟩ := exists_stands_ratio h
  generalize semiMinor / semiMajor = r at hstands
  have hsquare : ratio * ratio ≤ 1 := mul_le_one₀ hle hnonneg hle
  have hfma : RoundsTo (Binary64.fma r (-r) 1) (1 - ratio * ratio) := by
    have hrounds := hstands.fma hstands.neg stands_one
    rwa [mul_neg, neg_add_eq_sub] at hrounds
  have hbound : |1 - ratio * ratio| ≤ 1 := by
    rw [abs_of_nonneg (sub_nonneg.mpr hsquare)]
    exact sub_le_self _ (mul_self_nonneg _)
  have heccentricity := hfma.stands (hfma.isFinite (hbound.trans one_le_largestNumber))
  have hlow : (0 : Float) ≤ Binary64.fma r (-r) 1 := by
    rw [le_iff_number stands_zero.isFinite heccentricity.isFinite, stands_zero.number_eq,
      heccentricity.number_eq]
    exact near_nonneg (sub_nonneg.mpr hsquare)
  have hhigh : Binary64.fma r (-r) 1 < 1 ↔ flatRatio < r := by
    rw [heccentricity.lt_iff stands_one, near_one_sub_lt_iff (mul_self_nonneg ratio),
      stands_flatRatio.lt_iff hstands]
    have hpower : (2 : ℚ) ^ (-54 : ℤ) = 2 ^ (-27 : ℤ) * 2 ^ (-27 : ℤ) := by norm_num
    rw [hpower]
    exact (mul_self_lt_mul_self_iff (two_zpow_pos _).le hnonneg).symm
  unfold make
  by_cases hflat : flatRatio < r
  · rw [if_pos hflat, if_pos (by simp [hlow, hhigh.mpr hflat])]
  · have hnot := mt hhigh.mp hflat
    rw [if_neg hflat, if_neg (by simp [hlow, hnot])]

end Axes

end Ellipsoid

namespace Transform

open Ellipsoid

section Conversion

variable {semiMajor semiMinor : Float}

open Outcome

theorem isAffine_normalization (semiMajor : Float) (n : Nat) :
    (normalization semiMajor n).isAffine = true := by
  refine DenseMatrix.isAffine_ofFn fun c _ => ?_
  by_cases hc : c = n
  · simp [hc]
  · simp [hc, Ne.symm hc]

theorem isAffine_denormalization (semiMajor : Float) :
    (denormalization semiMajor).isAffine = true := by
  refine DenseMatrix.isAffine_ofFn fun c _ => ?_
  by_cases hc : c = 3
  · simp [hc]
  · simp [hc, Ne.symm hc]

/-- The normalization is never left out: a degree is not a radian. -/
theorem isIdentity_normalization (semiMajor : Float) {n : Nat} (hn : 0 < n) :
    (normalization semiMajor n).isIdentity = false := by
  by_contra hidentity
  have hsame := DenseMatrix.same_of_isIdentity (Bool.eq_true_of_not_eq_false hidentity)
    (Nat.succ_pos n) (Nat.succ_pos n)
  rw [normalization, DenseMatrix.entry_ofFn _ (Nat.succ_pos n) (Nat.succ_pos n)] at hsame
  simp only [ne_eq, not_true_eq_false, if_false, if_neg hn.ne, if_pos Nat.two_pos, if_true] at hsame
  have hdegree : (DoubleDouble.degreesToRadians.value == (1 : Float)) = false := by
    decide +kernel
  exact absurd (hsame.beq_one.symm.trans hdegree) (by simp)

/-- The denormalization is left out if it multiplies by one. -/
theorem isIdentity_denormalization (semiMajor : Float) :
    (denormalization semiMajor).isIdentity = (semiMajor == 1) := by
  rw [Bool.eq_iff_iff]
  constructor
  · intro hidentity
    have hsame := DenseMatrix.same_of_isIdentity hidentity (Nat.succ_pos 3) (Nat.succ_pos 3)
    rw [denormalization, DenseMatrix.entry_ofFn _ (Nat.succ_pos 3) (Nat.succ_pos 3)] at hsame
    exact hsame.beq_one
  · intro hone
    simp only [DenseMatrix.isIdentity, Bool.and_eq_true, List.all_eq_true, List.mem_range]
    refine ⟨rfl, fun r hr c hc => ?_⟩
    have hentry : (denormalization semiMajor).entry r c =
        if r ≠ c then 0 else if r = 3 then 1 else semiMajor :=
      DenseMatrix.entry_ofFn _ hr hc
    rw [hentry]
    by_cases hrc : r = c
    · by_cases hlast : r = 3
      · simp [← hrc, hlast]
      · simp [← hrc, hlast, hone]
    · simp [hrc]

theorem geodeticDimensions_pos (e : Ellipsoid) : 0 < e.geodeticDimensions := by
  unfold geodeticDimensions
  split <;> decide

/-- The steps of a conversion: the denormalization is left out if it is an identity. -/
def conversionSteps (semiMajor : Float) (e : Ellipsoid) : List (Transform EllipsoidKernel Float) :=
  linear none (normalization semiMajor e.geodeticDimensions) :: kernel none (.toCartesian e) ::
    if semiMajor == 1 then [] else [linear none (denormalization semiMajor)]

theorem spans_normalization (semiMajor : Float) (e : Ellipsoid) :
    Spans e.geodeticDimensions (linear none (normalization semiMajor e.geodeticDimensions) :
      Transform EllipsoidKernel Float) e.geodeticDimensions :=
  ⟨⟨isAffine_normalization semiMajor _, Nat.succ_le_succ (geodeticDimensions_pos e)⟩, rfl, rfl⟩

theorem spans_denormalization (semiMajor : Float) :
    Spans 3 (linear none (denormalization semiMajor) : Transform EllipsoidKernel Float) 3 :=
  ⟨⟨isAffine_denormalization semiMajor, Nat.le_add_left 2 2⟩, rfl, rfl⟩

theorem spans_toCartesian (e : Ellipsoid) :
    Spans e.geodeticDimensions (kernel none (.toCartesian e) : Transform EllipsoidKernel Float) 3 :=
  ⟨trivial, rfl, rfl⟩

/-- The steps of a conversion can always be put together. -/
theorem exists_conversion (semiMajor : Float) (e : Ellipsoid) :
    ∃ head t, concatenateWith {} (linear none (normalization semiMajor e.geodeticDimensions))
        (kernel none (.toCartesian e)) = .ok head ∧
      concatenateWith {} head (linear none (denormalization semiMajor)) = .ok t ∧
      Spans e.geodeticDimensions t 3 ∧ t.steps = conversionSteps semiMajor e := by
  have hkept := isIdentity_normalization semiMajor (geodeticDimensions_pos e)
  obtain ⟨head, hhead, hspans, hmade⟩ := concatenateWith_merged {}
    (spans_normalization semiMajor e) (spans_toCartesian e)
  have hsteps : head.steps = [linear none (normalization semiMajor e.geodeticDimensions),
      kernel none (.toCartesian e)] := by
    rcases hmade with h | ⟨hnil, -⟩
    · rw [h]
      simp [steps, merged, merge, elideSteps, isIdentity, hkept]
    · simp [steps, merged, merge, elideSteps, isIdentity, hkept] at hnil
  obtain ⟨t, ht, hspans', hmade'⟩ := concatenateWith_merged {} hspans
    (spans_denormalization semiMajor)
  refine ⟨head, t, hhead, ht, hspans', ?_⟩
  rw [hsteps] at hmade'
  rcases hmade' with h | ⟨hnil, -⟩
  · rw [h]
    by_cases hone : (semiMajor == 1) = true
    · simp [steps, merged, merge, elideSteps, isIdentity, hkept, isIdentity_denormalization, hone,
        conversionSteps]
    · simp [steps, merged, merge, elideSteps, isIdentity, hkept, isIdentity_denormalization, hone,
        conversionSteps]
  · simp [steps, merged, merge, elideSteps, isIdentity, hkept] at hnil

/-- With axes of the right lengths the ellipsoid is made, and then the steps are put together. -/
theorem geodeticConversion_of_validAxes (h : validAxes semiMajor semiMinor = true)
    (withHeight : Bool) :
    geodeticConversion semiMajor semiMinor withHeight = (do
      let e ← make (ofAxes semiMajor semiMinor withHeight).eccentricitySquared withHeight
      let assembler : Assembler EllipsoidKernel Float := .standard {}
      let head ← assembler.affine (normalization semiMajor e.geodeticDimensions)
      let kernel ← ofKernel (.toCartesian e)
      let normalized ← assembler.concatenate head kernel
      let tail ← assembler.affine (denormalization semiMajor)
      assembler.concatenate normalized tail) := by
  rw [validAxes] at h
  unfold geodeticConversion
  rw [if_pos h]
  rfl

/-- With axes of the right lengths and an ellipsoid that is not too flat the conversion is made. -/
theorem geodeticConversion_eq_ok (hvalid : validAxes semiMajor semiMinor = true)
    (hflat : flatRatio < semiMinor / semiMajor) (withHeight : Bool) :
    ∃ t, geodeticConversion semiMajor semiMinor withHeight = .ok t ∧
      Spans (ofAxes semiMajor semiMinor withHeight).geodeticDimensions t 3 ∧
      t.steps = conversionSteps semiMajor (ofAxes semiMajor semiMinor withHeight) := by
  have hmake := make_of_validAxes hvalid withHeight
  rw [if_pos hflat] at hmake
  generalize hellipsoid : ofAxes semiMajor semiMinor withHeight = e at hmake ⊢
  obtain ⟨head, t, hhead, ht, hspans, hsteps⟩ := exists_conversion semiMajor e
  have hnormalization : ofMatrix (normalization semiMajor e.geodeticDimensions) =
      .ok (linear none _ : Transform EllipsoidKernel Float) :=
    ofMatrix_eq_ok (isAffine_normalization semiMajor _)
      (spans_normalization semiMajor e).coherent.2
  have hdenormalization : ofMatrix (denormalization semiMajor) =
      .ok (linear none _ : Transform EllipsoidKernel Float) :=
    ofMatrix_eq_ok (isAffine_denormalization semiMajor) (spans_denormalization semiMajor).coherent.2
  have hkernel : ofKernel (EllipsoidKernel.toCartesian e) =
      .ok (kernel none (.toCartesian e) : Transform EllipsoidKernel Float) :=
    if_neg (geodeticDimensions_pos e).ne'
  refine ⟨t, ?_, hspans, hsteps⟩
  rw [geodeticConversion_of_validAxes hvalid, hellipsoid, hmake, ok_bind]
  simp only [Assembler.standard, hnormalization, hkernel, hhead, hdenormalization, ht, ok_bind]

/-- Whatever is refused is an argument. -/
theorem geodeticConversion_refused (h : ¬(validAxes semiMajor semiMinor = true ∧
      flatRatio < semiMinor / semiMajor)) (withHeight : Bool) :
    ∃ cause, geodeticConversion semiMajor semiMinor withHeight =
      .error (.illegalArgument cause) := by
  by_cases hvalid : validAxes semiMajor semiMinor = true
  · have hmake := make_of_validAxes hvalid withHeight
    rw [if_neg (not_and.mp h hvalid)] at hmake
    rw [geodeticConversion_of_validAxes hvalid, hmake]
    exact ⟨_, rfl⟩
  · rw [validAxes] at hvalid
    unfold geodeticConversion
    rw [if_neg hvalid]
    exact ⟨_, rfl⟩

/-- A conversion is made exactly if the lengths of the axes are right and the ellipsoid is not too
flat; otherwise an argument is refused.  It takes a longitude, a latitude and perhaps a height to
three coordinates.  Its steps are the normalization, the kernel and the denormalization, which is
left out for a semi-major axis of one. -/
theorem geodeticConversion_steps (semiMajor semiMinor : Float) (withHeight : Bool) :
    ((∃ t, geodeticConversion semiMajor semiMinor withHeight = .ok t) ↔
      validAxes semiMajor semiMinor = true ∧ flatRatio < semiMinor / semiMajor) ∧
    (∀ t, geodeticConversion semiMajor semiMinor withHeight = .ok t →
      t.sourceDimensions = (if withHeight then 3 else 2) ∧ t.targetDimensions = 3 ∧
      t.steps = conversionSteps semiMajor (ofAxes semiMajor semiMinor withHeight)) ∧
    ∀ e, geodeticConversion semiMajor semiMinor withHeight = .error e →
      ∃ cause, e = .illegalArgument cause := by
  by_cases h : validAxes semiMajor semiMinor = true ∧ flatRatio < semiMinor / semiMajor
  · obtain ⟨t, ht, ⟨-, hsource, htarget⟩, hsteps⟩ := geodeticConversion_eq_ok h.1 h.2 withHeight
    refine ⟨iff_of_true ⟨t, ht⟩ h, fun t' ht' => ?_, fun e he => ?_⟩
    · obtain rfl : t = t' := Except.ok.inj (ht.symm.trans ht')
      exact ⟨hsource, htarget, hsteps⟩
    · cases ht.symm.trans he
  · obtain ⟨cause, hrefused⟩ := geodeticConversion_refused h withHeight
    refine ⟨iff_of_false ?_ h, fun t ht => ?_, fun e he => ?_⟩
    · rintro ⟨t, ht⟩
      cases hrefused.symm.trans ht
    · cases hrefused.symm.trans ht
    · exact ⟨cause, Except.error.inj (he.symm.trans hrefused)⟩

/-- The conversion for a sphere of radius one has two steps only, and the axes of an ellipsoid may
be right although it is too flat. -/
theorem not_all_validAxes_threeSteps :
    (validAxes 1 1 = true ∧ ∃ t, geodeticConversion 1 1 true = .ok t ∧ t.steps.length = 2) ∧
    validAxes 1e300 1e-300 = true ∧ ¬∃ t, geodeticConversion 1e300 1e-300 false = .ok t := by
  constructor
  · have hvalid : validAxes 1 1 = true := by decide +kernel
    obtain ⟨t, ht, -, hsteps⟩ := geodeticConversion_eq_ok hvalid (by decide +kernel) true
    exact ⟨hvalid, t, ht, by simp [hsteps, conversionSteps]⟩
  · refine ⟨by decide +kernel, ?_⟩
    rintro ⟨t, ht⟩
    have hflat : ¬flatRatio < (1e-300 : Float) / 1e300 := by decide +kernel
    obtain ⟨cause, hrefused⟩ := geodeticConversion_refused (fun h => hflat h.2) false
    cases hrefused.symm.trans ht

end Conversion

end Transform
end SeparableTransforms
