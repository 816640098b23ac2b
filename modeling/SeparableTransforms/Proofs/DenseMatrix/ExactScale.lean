import Mathlib.Algebra.Order.BigOperators.Group.Finset
import SeparableTransforms.Proofs.DenseMatrix.Dependencies
import SeparableTransforms.Proofs.DenseMatrix.Exact
import SeparableTransforms.Proofs.Scalar.Real
import SeparableTransforms.Proofs.Transform.Affine

/-!
# Uniform scale in exact arithmetic

Over the real numbers the scale of an output axis is the Euclidean norm of its row.  A row
that has a norm is multiplied by the quotient of the common scale and its norm, also where
the two agree and nothing is done, and so it has the common scale afterwards.  The common
scale is positive, because it lies between the smallest and the largest of the positive
norms.

The offset of such an axis moves so that every coordinate `y` of an image becomes
`(y - a) * k + a`, with the anchor `a` and the factor `k`.  A coordinate that was the anchor
stays where it is.
-/

namespace SeparableTransforms

namespace DoubleDouble

section Norms

theorem sqrt_real {x : ℝ} (hx : 0 ≤ x) : (ofScalar x).sqrt = ofScalar (Real.sqrt x) := by
  show (if (x == 0) = true then (0 : DoubleDouble ℝ)
    else if x < 0 then ofScalar 0
    else quickSum (Real.sqrt x)
      ((ofScalar x - product (Real.sqrt x) (Real.sqrt x)).value /
        (((2 : ℕ) : ℝ) * Real.sqrt x))) = _
  split_ifs with hzero hneg
  · rw [ExactScalar.beq_iff.mp hzero, Real.sqrt_zero]
    rfl
  · exact absurd hneg (not_lt.mpr hx)
  · have hresidual : ofScalar x - product (Real.sqrt x) (Real.sqrt x) = ofScalar 0 := by
      rw [product_exact, sub_exact]
      exact congrArg ofScalar (sub_eq_zero.mpr (Real.mul_self_sqrt hx).symm)
    rw [hresidual]
    show quickSum (Real.sqrt x) (0 / (((2 : ℕ) : ℝ) * Real.sqrt x)) = _
    rw [zero_div, quickSum_exact, add_zero]

/-- Without rounding, the norm is the square root of the sum of squares. -/
theorem norm_real (n : Nat) (f : Nat → ℝ) :
    norm ((List.range n).map f) = Real.sqrt (∑ c ∈ Finset.range n, f c ^ 2) := by
  have hsum : ((List.range n).map f).foldl (fun sum v => sum + product v v) (ofScalar 0) =
      ofScalar (∑ c ∈ Finset.range n, f c ^ 2) := by
    have hterm : ∀ s c, ofScalar s + product (f c) (f c) = ofScalar (s + f c * f c) := by
      intro s c
      rw [product_exact, add_exact]
    rw [List.foldl_map, foldl_exact hterm]
    refine congrArg ofScalar ((foldl_range_add (fun c => f c * f c) n 0).trans ?_)
    simp only [zero_add, pow_two]
  show (((List.range n).map f).foldl (fun sum v => sum + product v v) (ofScalar 0)).sqrt.value = _
  rw [hsum, sqrt_real (Finset.sum_nonneg fun c _ => sq_nonneg (f c))]
  rfl

end Norms

end DoubleDouble

namespace DenseMatrix

open DoubleDouble Transform

section Choice

variable {scales : List ℝ} {selector common : ℝ}

theorem smaller_real (a b : ℝ) : Scalar.smaller a b = min a b := by
  unfold Scalar.smaller
  split_ifs with h
  · exact (min_eq_right h.le).symm
  · exact (min_eq_left (not_lt.mp h)).symm

theorem larger_real (a b : ℝ) : Scalar.larger a b = max a b := by
  unfold Scalar.larger
  split_ifs with h
  · exact (max_eq_right h.le).symm
  · exact (max_eq_left (not_lt.mp h)).symm

/-- The least element of a list that is not empty. -/
theorem isLeast_foldl_min {M : Type} [LinearOrder M] (first : M) (rest : List M) :
    IsLeast {x | x ∈ first :: rest} (rest.foldl min first) := by
  induction rest generalizing first with
  | nil => simp [IsLeast, lowerBounds]
  | cons x rest ih =>
      obtain ⟨hmem, hle⟩ := ih (min first x)
      have hfirst : rest.foldl min (min first x) ≤ min first x := hle List.mem_cons_self
      refine ⟨?_, fun y hy => ?_⟩
      · rcases List.mem_cons.mp hmem with h | h
        · rw [List.foldl_cons, h]
          rcases min_choice first x with h' | h' <;> simp [h']
        · simp [h]
      · rcases List.mem_cons.mp hy with rfl | hy
        · exact hfirst.trans (min_le_left _ _)
        · rcases List.mem_cons.mp hy with rfl | hy
          · exact hfirst.trans (min_le_right _ _)
          · exact hle (List.mem_cons_of_mem _ hy)

theorem isLeast_foldl_smaller (first : ℝ) (rest : List ℝ) :
    IsLeast {x | x ∈ first :: rest} (rest.foldl Scalar.smaller first) := by
  rw [show (Scalar.smaller : ℝ → ℝ → ℝ) = min from funext₂ smaller_real]
  exact isLeast_foldl_min first rest

theorem isGreatest_foldl_larger (first : ℝ) (rest : List ℝ) :
    IsGreatest {x | x ∈ first :: rest} (rest.foldl Scalar.larger first) := by
  rw [show (Scalar.larger : ℝ → ℝ → ℝ) = max from funext₂ larger_real]
  exact isLeast_foldl_min (M := ℝᵒᵈ) first rest

/-- The selector is forced into the interval from zero to one. -/
theorem clampSelector_real (selector : ℝ) : clampSelector selector = max 0 (min selector 1) := by
  unfold clampSelector
  dsimp only
  split_ifs <;> grind

/-- The common scale lies between the smallest and the largest of the positive scales, where the
selector says. -/
theorem commonScale?_real (h : commonScale? selector scales = some common) :
    ∃ least greatest, IsLeast {x | x ∈ scales ∧ 0 < x} least ∧
      IsGreatest {x | x ∈ scales ∧ 0 < x} greatest ∧
      common = (1 - max 0 (min selector 1)) * least + max 0 (min selector 1) * greatest := by
  have hmem : ∀ x, x ∈ scales.filter (fun s => decide (0 < s)) ↔ x ∈ scales ∧ 0 < x := by
    intro x
    simp
  unfold commonScale? at h
  split at h
  · cases h
  · rename_i first rest hpositive
    simp only [← hmem, hpositive]
    refine ⟨_, _, isLeast_foldl_smaller first rest, isGreatest_foldl_larger first rest, ?_⟩
    rw [← clampSelector_real]
    exact (Option.some.inj h).symm

theorem commonScale?_eq_none (h : commonScale? selector scales = none) :
    ∀ x ∈ scales, ¬0 < x := by
  intro x hx hpos
  unfold commonScale? at h
  split at h
  · rename_i hpositive
    have : x ∈ scales.filter (fun s => decide (0 < s)) := by simpa using ⟨hx, hpos⟩
    rw [hpositive] at this
    cases this
  · cases h

end Choice

section Rows

variable {m after : DenseMatrix ℝ} {selector common : ℝ} {anchor p : List ℝ} {r : Nat}

/-- The Euclidean norm of the row of an output axis in the linear part. -/
noncomputable def rowNorm (m : DenseMatrix ℝ) (r : Nat) : ℝ :=
  Real.sqrt (∑ c ∈ Finset.range (m.cols - 1), m.entry r c ^ 2)

/-- The norms of those output axes that have one. -/
def rowNorms (m : DenseMatrix ℝ) : Set ℝ :=
  {x | x ≠ 0 ∧ ∃ r, r + 1 < m.rows ∧ m.rowNorm r = x}

theorem axisScale_real (m : DenseMatrix ℝ) (r : Nat) : m.axisScale r = m.rowNorm r :=
  norm_real _ _

theorem rowNorm_nonneg (m : DenseMatrix ℝ) (r : Nat) : 0 ≤ m.rowNorm r :=
  Real.sqrt_nonneg _

theorem mem_axisScales_iff {x : ℝ} :
    x ∈ m.axisScales ∧ 0 < x ↔ x ∈ m.rowNorms := by
  simp only [axisScales, List.mem_map, List.mem_range, axisScale_real, rowNorms, Set.mem_ofPred_eq]
  constructor
  · rintro ⟨⟨r, hr, rfl⟩, hpos⟩
    exact ⟨hpos.ne', r, by omega, rfl⟩
  · rintro ⟨hne, r, hr, rfl⟩
    exact ⟨⟨r, by omega, rfl⟩, (m.rowNorm_nonneg r).lt_of_ne' hne⟩

theorem affineCoordinate_real (hlen : p.length = m.cols - 1) (r : Nat) :
    affineCoordinate m p r =
      m.entry r (m.cols - 1) + ∑ c ∈ Finset.range (m.cols - 1), m.entry r c * p.getD c 0 := by
  have hterm : ∀ s c, addTerm (ofScalar s) (m.entry r c) (p.getD c 0) =
      ofScalar (s + m.entry r c * p.getD c 0) := fun s c => addTerm_exact s _ _
  rw [Transform.affineCoordinate_eq hlen, weightedSum, foldl_exact hterm]
  exact foldl_range_add (fun c => m.entry r c * p.getD c 0) _ _

theorem getElem?_applyAffine (m : DenseMatrix ℝ) (p : List ℝ) (r : Nat) :
    (applyAffine m p)[r]? =
      if r < m.rows - 1 then some (affineCoordinate m p r) else none := by
  unfold applyAffine
  split_ifs with hr <;> simp [hr]

/-- The row of an output axis after it has been scaled by a factor, with the anchor kept where it
is. -/
structure ScaledRow (m after : DenseMatrix ℝ) (r : Nat) (factor anchor : ℝ) : Prop where
  cols_eq : after.cols = m.cols
  coefficient : ∀ c, c + 1 < m.cols → after.entry r c = m.entry r c * factor
  offset : after.entry r (m.cols - 1) = (m.entry r (m.cols - 1) - anchor) * factor + anchor

namespace ScaledRow

variable {factor a : ℝ}

theorem entry_eq (h : ScaledRow m after r 1 a) {c : Nat} (hc : c < m.cols) :
    after.entry r c = m.entry r c := by
  by_cases hlast : c + 1 < m.cols
  · rw [h.coefficient c hlast, mul_one]
  · obtain rfl : c = m.cols - 1 := by omega
    rw [h.offset, mul_one, sub_add_cancel]

theorem rowNorm_eq (h : ScaledRow m after r factor a) :
    after.rowNorm r = |factor| * m.rowNorm r := by
  have hsquares : ∑ c ∈ Finset.range (m.cols - 1), after.entry r c ^ 2 =
      factor ^ 2 * ∑ c ∈ Finset.range (m.cols - 1), m.entry r c ^ 2 := by
    rw [Finset.mul_sum]
    refine Finset.sum_congr rfl fun c hc => ?_
    have hc := Finset.mem_range.mp hc
    rw [h.coefficient c (by omega), mul_pow, mul_comm]
  rw [rowNorm, h.cols_eq, hsquares, Real.sqrt_mul (sq_nonneg factor), Real.sqrt_sq_eq_abs, rowNorm]

/-- Every coordinate moves along with the distance from the anchor. -/
theorem affineCoordinate_eq (h : ScaledRow m after r factor a) (hlen : p.length = m.cols - 1) :
    affineCoordinate after p r =
      (affineCoordinate m p r - a) * factor + a := by
  have hterms : ∑ c ∈ Finset.range (m.cols - 1), after.entry r c * p.getD c 0 =
      (∑ c ∈ Finset.range (m.cols - 1), m.entry r c * p.getD c 0) * factor := by
    rw [Finset.sum_mul]
    refine Finset.sum_congr rfl fun c hc => ?_
    have hc := Finset.mem_range.mp hc
    rw [h.coefficient c (by omega)]
    ring
  rw [affineCoordinate_real (h.cols_eq ▸ hlen), affineCoordinate_real hlen, h.cols_eq, h.offset,
    hterms]
  ring

end ScaledRow

theorem needsRescale_real {scale : ℝ} :
    needsRescale common scale = true ↔ scale ≠ 0 ∧ scale ≠ common := by
  simp only [needsRescale, Bool.and_eq_true, Bool.not_eq_true', Bool.eq_false_iff, ne_eq,
    ExactScalar.beq_iff]

theorem rescaledCoefficient_real (common scale x : ℝ) :
    rescaledCoefficient (rescaleFactor common scale) x = x * (common / scale) := by
  rw [rescaledCoefficient, rescaleFactor, div_exact, mul_exact]
  rfl

theorem rescaledOffset_real (common scale a x : ℝ) :
    rescaledOffset (rescaleFactor common scale) a x = (x - a) * (common / scale) + a := by
  rw [rescaledOffset, rescaleFactor, div_exact, sub_exact, mul_exact, add_exact]
  rfl

/-- An axis that is left alone because it has the common scale has been scaled by one. -/
theorem scaledRow_rescaleAxes (hr : r + 1 < m.rows) (hcols : 0 < m.cols) :
    ScaledRow m (m.rescaleAxes common m.axisScales anchor) r
      (if m.rowNorm r = 0 then 1 else common / m.rowNorm r) (anchor.getD r 0) := by
  have hentry : ∀ c, c < m.cols → (m.rescaleAxes common m.axisScales anchor).entry r c =
      rescaledAt common anchor m.cols r c (m.entry r c) (some (m.rowNorm r)) := by
    intro c hc
    rw [rescaleAxes_eq_mapEntries, entry_mapEntries (by omega) hc, axisScales_getElem? hr,
      axisScale_real]
  by_cases hneeds : needsRescale common (m.rowNorm r) = true
  · rw [if_neg (needsRescale_real.mp hneeds).1]
    refine ⟨rfl, fun c hc => ?_, ?_⟩
    · rw [hentry c (by omega)]
      simp only [rescaledAt, if_pos hneeds, if_neg (show ¬c + 1 = m.cols by omega),
        rescaledCoefficient_real]
    · rw [hentry _ (by omega)]
      simp only [rescaledAt, if_pos hneeds, if_pos (show m.cols - 1 + 1 = m.cols by omega),
        rescaledOffset_real]
  · have hfactor : (if m.rowNorm r = 0 then 1 else common / m.rowNorm r) = 1 := by
      by_cases hzero : m.rowNorm r = 0
      · rw [if_pos hzero]
      · have hcommon : m.rowNorm r = common := by
          by_contra hne
          exact hneeds (needsRescale_real.mpr ⟨hzero, hne⟩)
        rw [if_neg hzero, hcommon, div_self (hcommon ▸ hzero)]
    have hsame : ∀ c, c < m.cols →
        (m.rescaleAxes common m.axisScales anchor).entry r c = m.entry r c := by
      intro c hc
      rw [hentry c hc]
      simp only [rescaledAt, if_neg hneeds]
    rw [hfactor]
    refine ⟨rfl, fun c hc => ?_, ?_⟩
    · rw [hsame c (by omega), mul_one]
    · rw [hsame _ (by omega), mul_one, sub_add_cancel]

/-- Either no axis has a norm and nothing is done, or all that have one are brought to the common
scale. -/
theorem uniformScale_cases (selector : ℝ) (haffine : m.isAffine = true)
    (hanchor : anchor.length = m.rows - 1) :
    (m.uniformScale selector anchor = .ok (m, false) ∧ ∀ r, r + 1 < m.rows → m.rowNorm r = 0) ∨
      ∃ common changed, commonScale? selector m.axisScales = some common ∧
        m.uniformScale selector anchor =
          .ok (m.rescaleAxes common m.axisScales anchor, changed) := by
  unfold uniformScale
  rw [haffine, Bool.not_true, if_neg Bool.false_ne_true, if_neg (not_not.mpr hanchor)]
  cases hcommon : commonScale? selector m.axisScales with
  | none =>
      refine .inl ⟨by simp only [hcommon], fun r hr => ?_⟩
      by_contra hnorm
      have hmem : m.rowNorm r ∈ m.axisScales ∧ 0 < m.rowNorm r :=
        mem_axisScales_iff.mpr ⟨hnorm, r, hr, rfl⟩
      exact commonScale?_eq_none hcommon _ hmem.1 hmem.2
  | some common =>
      cases hany : m.axisScales.any (needsRescale common) with
      | true => exact .inr ⟨common, true, rfl, by simp only [hcommon, hany, if_true]⟩
      | false =>
          refine .inr ⟨common, false, rfl, ?_⟩
          simp only [hcommon, hany, Bool.false_eq_true, if_false, rescaleAxes_eq_self hany]

/-- The common scale of the axes that have one lies between their smallest and largest norm, and is
positive. -/
theorem commonScale?_rowNorms (h : commonScale? selector m.axisScales = some common) :
    ∃ least greatest, IsLeast m.rowNorms least ∧ IsGreatest m.rowNorms greatest ∧
      common = (1 - max 0 (min selector 1)) * least + max 0 (min selector 1) * greatest ∧
      0 < common := by
  obtain ⟨least, greatest, hleast, hgreatest, hcommon⟩ := commonScale?_real h
  have hnorms : {x | x ∈ m.axisScales ∧ 0 < x} = m.rowNorms :=
    Set.ext fun x => mem_axisScales_iff
  have hpos : 0 < least := hleast.1.2
  have hle : least ≤ greatest := hgreatest.2 hleast.1
  rw [hnorms] at hleast hgreatest
  refine ⟨least, greatest, hleast, hgreatest, hcommon, ?_⟩
  have hselector : max 0 (min selector 1) ≤ 1 := max_le zero_le_one (min_le_right _ _)
  have hclamped : 0 ≤ max 0 (min selector 1) := le_max_left _ _
  calc 0 < least := hpos
    _ = (1 - max 0 (min selector 1)) * least + max 0 (min selector 1) * least := by ring
    _ ≤ (1 - max 0 (min selector 1)) * least + max 0 (min selector 1) * greatest := by gcongr
    _ = common := hcommon.symm

/-- Without rounding, all output axes that had a norm have the same one afterwards: the selector,
forced into the interval from zero to one, chooses it between the smallest and the largest of their
norms.  The other axes are left alone, and every coordinate of an image that was the one of the
anchor still is. -/
theorem uniformScale_exact (m : DenseMatrix ℝ) (selector : ℝ) (anchor : List ℝ)
    (haffine : m.isAffine = true) (hanchor : anchor.length = m.rows - 1) :
    ∃ after changed, m.uniformScale selector anchor = .ok (after, changed) ∧
      (writeUniformScale selector anchor).run.run m = (.ok changed, after) ∧
      after.rows = m.rows ∧ after.cols = m.cols ∧ after.isAffine = true ∧
      (∀ r, r + 1 < m.rows → m.rowNorm r ≠ 0 → ∃ least greatest,
        IsLeast m.rowNorms least ∧ IsGreatest m.rowNorms greatest ∧
        after.rowNorm r =
          (1 - max 0 (min selector 1)) * least + max 0 (min selector 1) * greatest) ∧
      (∀ r, r + 1 < m.rows → m.rowNorm r = 0 →
        ∀ c, c < m.cols → after.entry r c = m.entry r c) ∧
      ∀ (p : List ℝ) (r : Nat), p.length = m.cols - 1 →
        (applyAffine m p)[r]? = anchor[r]? → (applyAffine after p)[r]? = anchor[r]? := by
  have hcols := isAffine_cols_pos haffine
  have hrun := run_writeUniformScale m selector anchor
  rcases uniformScale_cases selector haffine hanchor with
    ⟨hunchanged, hzero⟩ | ⟨common, changed, hcommon, hchanged⟩
  · rw [hunchanged] at hrun
    exact ⟨m, false, hunchanged, hrun, rfl, rfl, haffine,
      fun r hr hnorm => absurd (hzero r hr) hnorm, fun _ _ _ _ _ => rfl, fun _ _ _ h => h⟩
  · rw [hchanged] at hrun
    have hscaled : ∀ r, r + 1 < m.rows → ScaledRow m (m.rescaleAxes common m.axisScales anchor) r
        (if m.rowNorm r = 0 then 1 else common / m.rowNorm r) (anchor.getD r 0) :=
      fun r hr => scaledRow_rescaleAxes hr hcols
    refine ⟨_, changed, hchanged, hrun, rfl, rfl, isAffine_rescaleAxes haffine,
      fun r hr hnorm => ?_, fun r hr hnorm c hc => ?_, fun p r hlen hfixed => ?_⟩
    · obtain ⟨least, greatest, hleast, hgreatest, hvalue, hpos⟩ := commonScale?_rowNorms hcommon
      refine ⟨least, greatest, hleast, hgreatest, hvalue ▸ ?_⟩
      rw [(hscaled r hr).rowNorm_eq, if_neg hnorm, abs_div, abs_of_pos hpos,
        abs_of_nonneg (m.rowNorm_nonneg r), div_mul_cancel₀ _ hnorm]
    · have hrow := hscaled r hr
      rw [if_pos hnorm] at hrow
      exact hrow.entry_eq hc
    · have hrows : (m.rescaleAxes common m.axisScales anchor).rows = m.rows := rfl
      rw [getElem?_applyAffine] at hfixed ⊢
      rw [hrows]
      by_cases hr : r < m.rows - 1
      · obtain ⟨a, ha⟩ : ∃ a, anchor[r]? = some a := ⟨_, List.getElem?_eq_getElem (by omega)⟩
        rw [if_pos hr, ha, Option.some.injEq] at hfixed
        rw [if_pos hr, ha, (hscaled r (by omega)).affineCoordinate_eq hlen, hfixed,
          List.getD_eq_getElem?_getD, ha, Option.getD_some, sub_self, zero_mul, zero_add]
      · rwa [if_neg hr] at hfixed ⊢

/-- Two axes, with the scales two and four. -/
noncomputable def unevenRows : DenseMatrix ℝ :=
  ofFn 3 3 fun r c => ([[2, 0, 10], [0, 4, 20], [0, 0, 1]].getD r []).getD c 0

theorem entry_unevenRows {r c : Nat} (hr : r < 3) (hc : c < 3) :
    unevenRows.entry r c = ([[2, 0, 10], [0, 4, 20], [0, 0, 1]].getD r []).getD c 0 :=
  entry_ofFn _ hr hc

theorem isAffine_unevenRows : unevenRows.isAffine = true := by
  refine isAffine_iff.mpr ⟨by decide, by decide, fun c hc => same_real_iff.mpr ?_⟩
  have hc : c < 3 := hc
  refine (entry_unevenRows (by decide) hc).trans ?_
  interval_cases c <;> norm_num [lastRow, unevenRows]

theorem rowNorm_unevenRows : unevenRows.rowNorm 0 = 2 ∧ unevenRows.rowNorm 1 = 4 := by
  have hsum : ∀ r, r < 3 → unevenRows.rowNorm r =
      Real.sqrt (unevenRows.entry r 0 ^ 2 + unevenRows.entry r 1 ^ 2) := by
    intro r _
    show Real.sqrt (∑ c ∈ Finset.range 2, unevenRows.entry r c ^ 2) = _
    rw [Finset.sum_range_succ, Finset.sum_range_one]
  constructor <;> rw [hsum _ (by decide), entry_unevenRows (by decide) (by decide),
    entry_unevenRows (by decide) (by decide), Real.sqrt_eq_iff_mul_self_eq] <;> norm_num

/-- The larger scale is taken, and the image of the origin is the anchor before and after. -/
theorem uniformScale_unevenRows :
    ∃ after changed, unevenRows.uniformScale 1 [10, 20] = .ok (after, changed) ∧
      after.rowNorm 0 = 4 ∧ (applyAffine after [0, 0])[0]? = some 10 := by
  obtain ⟨after, changed, hresult, -, -, -, -, hnorms, -, hfixed⟩ :=
    uniformScale_exact unevenRows 1 [10, 20] isAffine_unevenRows rfl
  obtain ⟨least, greatest, -, ⟨⟨-, r, hr, hgreatest⟩, hupper⟩, hnorm⟩ :=
    hnorms 0 (by decide) (by rw [rowNorm_unevenRows.1]; norm_num)
  refine ⟨after, changed, hresult, ?_, ?_⟩
  · have hle : 4 ≤ greatest := hupper ⟨by norm_num, 1, by decide, rowNorm_unevenRows.2⟩
    have hr : r < 2 := Nat.lt_of_succ_lt_succ hr
    have hfour : greatest = 4 := by
      interval_cases r
      · rw [← hgreatest, rowNorm_unevenRows.1] at hle
        norm_num at hle
      · exact hgreatest.symm.trans rowNorm_unevenRows.2
    rw [hnorm, hfour]
    norm_num
  · have hbefore : (applyAffine unevenRows [0, 0])[0]? = some 10 := by
      have hoffset : unevenRows.entry 0 (unevenRows.cols - 1) = 10 :=
        entry_unevenRows (by decide) (by decide)
      have horigin : ∀ c, ([0, 0] : List ℝ).getD c 0 = 0 := by
        rintro (_ | _ | c) <;> rfl
      rw [getElem?_applyAffine, if_pos (by decide), affineCoordinate_real rfl, hoffset]
      simp only [horigin, mul_zero, Finset.sum_const_zero, add_zero]
    exact hfixed [0, 0] 0 rfl hbefore

end Rows
end DenseMatrix
end SeparableTransforms
