import SeparableTransforms.DenseMatrix.Coefficient
import SeparableTransforms.Proofs.DenseMatrix.Rescaling
import SeparableTransforms.Proofs.DoubleDouble.Finiteness

/-!
# Dependencies under a uniform scale

Rescaling an axis multiplies its row by a factor, the zeros included.  So the zeros, which
tell that an output does not depend on an input, stay if the factor is finite in both parts,
and none of them stays if it is not.

The factor is the quotient of two norms.  The norm of a row with an undetermined coefficient
is not determined, and neither is the factor then: such a row becomes undetermined as a
whole, also where it was zero.  The norm of a row of large but finite coefficients may be
undetermined too, if their squares overflow.
-/

namespace SeparableTransforms

universe u

namespace Binary64

section Roots

open Float.Model

variable {x : Float}

theorem not_lt_of_isNaN (h : Scalar.isNaN x = true) (y : Float) : ¬x < y := by
  rw [lt_iff_parts, eq_notANumber h]
  cases y.toModel.unpack <;> nofun

theorem beq_eq_false_of_isNaN (h : Scalar.isNaN x = true) (y : Float) : (x == y) = false := by
  show (x.toModel.unpack.compare y.toModel.unpack == some .eq) = false
  rw [eq_notANumber h]
  cases y.toModel.unpack <;> rfl

theorem isNaN_sqrt (h : Scalar.isNaN x = true) : Scalar.isNaN (Radical.sqrt x) = true :=
  isNaN_pack (by rw [eq_notANumber h]; rfl)

end Roots

end Binary64

namespace DoubleDouble

section Products

variable {α : Type u} [Scalar α] [AbsorbingScalar α] {x y : DoubleDouble α}

theorem isNaN_mul (h : Scalar.isNaN x.value = true ∨ Scalar.isNaN y.value = true) :
    Scalar.isNaN (x * y).value = true := by
  have hvalue : Scalar.isNaN (x.value * y.value) = true :=
    h.elim (AbsorbingScalar.isNaN_mul_left _) (AbsorbingScalar.isNaN_mul_right _)
  rw [value_mul_of_not_finite x y (AbsorbingScalar.isFinite_of_isNaN hvalue)]
  exact hvalue

end Products

section Norms

variable {values : List Float} {x : DoubleDouble Float} {v : Float}

/-- What is not determined has no root. -/
theorem isNaN_sqrt (h : Scalar.isNaN x.value = true) : Scalar.isNaN x.sqrt.value = true := by
  have hroot := Binary64.isNaN_sqrt h
  unfold sqrt
  rw [Binary64.beq_eq_false_of_isNaN h, if_neg Bool.false_ne_true,
    if_neg (Binary64.not_lt_of_isNaN h 0)]
  dsimp only
  rw [value_quickSum]
  exact AbsorbingScalar.isNaN_add_left _ hroot

/-- A sum of squares that is not determined stays so, whatever is added. -/
theorem isNaN_foldl_squares (values : List Float) (h : Scalar.isNaN x.value = true) :
    Scalar.isNaN (values.foldl (fun sum v => sum + product v v) x).value = true := by
  induction values generalizing x with
  | nil => exact h
  | cons v rest ih => exact ih (isNaN_add (.inl h))

/-- A norm is not determined if one of the values is not. -/
theorem isNaN_norm (hv : v ∈ values) (h : Scalar.isNaN v = true) :
    Scalar.isNaN (norm values) = true := by
  obtain ⟨before, after, rfl⟩ := List.append_of_mem hv
  refine isNaN_sqrt ?_
  rw [List.foldl_append, List.foldl_cons]
  exact isNaN_foldl_squares after (isNaN_add (.inr (isNaN_product (.inl h))))

end Norms

end DoubleDouble

namespace DenseMatrix

section Axes

variable {α : Type} [Radical α] {m : DenseMatrix α} {common : α} {anchor : List α} {r c : Nat}

theorem axisScales_getElem? (hr : r + 1 < m.rows) : m.axisScales[r]? = some (m.axisScale r) := by
  rw [axisScales, List.getElem?_map, List.getElem?_range (by omega)]
  rfl

/-- A coefficient of the linear part after all axes have been brought to the common scale. -/
theorem entry_rescaleAxes (hr : r + 1 < m.rows) (hc : c + 1 < m.cols) :
    (m.rescaleAxes common m.axisScales anchor).entry r c =
      if needsRescale common (m.axisScale r) then
        rescaledCoefficient (rescaleFactor common (m.axisScale r)) (m.entry r c)
      else m.entry r c := by
  rw [rescaleAxes_eq_mapEntries, entry_mapEntries (by omega) (by omega), axisScales_getElem? hr]
  simp only [rescaledAt, if_neg (show ¬c + 1 = m.cols by omega)]

/-- The last row is not rescaled. -/
theorem entry_rescaleAxes_last (hrows : 0 < m.rows) (hc : c < m.cols) :
    (m.rescaleAxes common m.axisScales anchor).entry (m.rows - 1) c = m.entry (m.rows - 1) c := by
  have hnone : m.axisScales[m.rows - 1]? = none := by
    rw [List.getElem?_eq_none_iff, axisScales, List.length_map, List.length_range]
  rw [rescaleAxes_eq_mapEntries, entry_mapEntries (by omega) hc, hnone]
  rfl

theorem isAffine_rescaleAxes [LawfulScalar α] (h : m.isAffine = true) :
    (m.rescaleAxes common m.axisScales anchor).isAffine = true := by
  have hrows := isAffine_rows_pos h
  have hcols := isAffine_cols_pos h
  refine isAffine_iff.mpr ⟨hrows, hcols, fun c hc => ?_⟩
  have hlast : (m.rescaleAxes common m.axisScales anchor).entry (m.rows - 1) c =
      m.entry (m.rows - 1) c := entry_rescaleAxes_last hrows hc
  exact hlast ▸ isAffine_lastRow h hc

variable {selector : α} {next : DenseMatrix α}

/-- A matrix is changed only if it is affine and an axis has a positive scale. -/
theorem uniformScale_eq_changed (h : m.uniformScale selector anchor = .ok (next, true)) :
    m.isAffine = true ∧ ∃ common, commonScale? selector m.axisScales = some common ∧
      next = m.rescaleAxes common m.axisScales anchor := by
  unfold uniformScale at h
  split at h
  · cases h
  · rename_i haffine
    refine ⟨by simpa using haffine, ?_⟩
    split at h
    · cases h
    · cases hcommon : commonScale? selector m.axisScales with
      | none => simp [hcommon] at h
      | some common =>
          simp only [hcommon] at h
          split at h
          · cases h
            exact ⟨common, rfl, rfl⟩
          · cases h

theorem uniformScale_eq_unchanged (h : m.uniformScale selector anchor = .ok (next, false)) :
    next = m := by
  unfold uniformScale at h
  split at h
  · cases h
  · split at h
    · cases h
    · dsimp only at h
      split at h
      · cases h
        rfl
      · split at h <;> cases h
        rfl

end Axes

section Binary64

variable {m : DenseMatrix Float} {common : Float} {anchor : List Float} {r c : Nat}

/-- Whether an axis is left alone, or else is rescaled by a finite factor. -/
def keepsZeros (common scale : Float) : Bool :=
  !needsRescale common scale || (rescaleFactor common scale).isFinite

theorem isNaN_of_same_zero {x : Float} (h : Same x 0) : Scalar.isNaN x = false :=
  isNaN_of_beq_zero h.beq_zero

theorem isZero_coefficient_iff : (m.coefficient r c).isZero = true ↔ Same (m.entry r c) 0 := by
  unfold coefficient Coefficient.ofScalar
  cases hnan : Scalar.isNaN (m.entry r c) with
  | false => exact ⟨Same.of_beq, Same.beq_zero⟩
  | true => exact iff_of_false nofun fun hzero => by simp [isNaN_of_same_zero hzero] at hnan

theorem needsRescale_of_isNaN {scale : Float} (h : Scalar.isNaN scale = true) :
    needsRescale common scale = true := by
  unfold needsRescale
  rw [Binary64.beq_eq_false_of_isNaN h, Binary64.beq_eq_false_of_isNaN h]
  rfl

/-- A zero in a row stays exactly if the axis keeps its zeros. -/
theorem isZero_rescaleAxes_iff (hr : r + 1 < m.rows) (hc : c + 1 < m.cols)
    (hzero : (m.coefficient r c).isZero = true) :
    ((m.rescaleAxes common m.axisScales anchor).coefficient r c).isZero = true ↔
      keepsZeros common (m.axisScale r) = true := by
  rw [isZero_coefficient_iff] at hzero ⊢
  rw [entry_rescaleAxes hr hc]
  unfold keepsZeros
  cases needsRescale common (m.axisScale r) with
  | false => simpa using hzero
  | true =>
      simp only [if_true, Bool.not_true, Bool.false_or]
      cases hfactor : (rescaleFactor common (m.axisScale r)).isFinite with
      | true => exact iff_of_true (DoubleDouble.same_ofScalar_mul_zero hzero hfactor) rfl
      | false =>
          have hnan := DoubleDouble.isNaN_ofScalar_mul_zero hzero hfactor
          refine iff_of_false (fun hstays => ?_) nofun
          exact Bool.false_ne_true ((isNaN_of_same_zero hstays).symm.trans hnan)

/-- No finite coefficient becomes `NaN` in a row that keeps its zeros. -/
theorem isNaN_rescaleAxes_eq_false (hr : r + 1 < m.rows) (hc : c + 1 < m.cols)
    (hkeeps : keepsZeros common (m.axisScale r) = true)
    (hfinite : Scalar.isFinite (m.entry r c) = true) :
    Scalar.isNaN ((m.rescaleAxes common m.axisScales anchor).entry r c) = false := by
  rw [entry_rescaleAxes hr hc]
  unfold keepsZeros at hkeeps
  cases hneeds : needsRescale common (m.axisScale r) with
  | false => exact DoubleDouble.isNaN_of_isFinite hfinite
  | true =>
      rw [hneeds] at hkeeps
      exact DoubleDouble.isNaN_ofScalar_mul hfinite hkeeps

/-- If the scale of an axis is not determined, no coefficient of its row is afterwards. -/
theorem isNaN_rescaleAxes (hr : r + 1 < m.rows) (hc : c + 1 < m.cols)
    (hscale : Scalar.isNaN (m.axisScale r) = true) :
    Scalar.isNaN ((m.rescaleAxes common m.axisScales anchor).entry r c) = true := by
  have hfactor : Scalar.isNaN (rescaleFactor common (m.axisScale r)).value = true :=
    DoubleDouble.isNaN_div _ hscale
  rw [entry_rescaleAxes hr hc, if_pos (needsRescale_of_isNaN hscale)]
  exact DoubleDouble.isNaN_mul (.inr hfactor)

/-- An undetermined coefficient leaves the scale of the axis undetermined. -/
theorem isNaN_axisScale (hc : c + 1 < m.cols) (h : Scalar.isNaN (m.entry r c) = true) :
    Scalar.isNaN (m.axisScale r) = true := by
  refine DoubleDouble.isNaN_norm (List.mem_map.mpr ⟨c, ?_, rfl⟩) h
  rw [List.mem_range]
  omega

/-- Rescaling leaves a matrix as it is if it fails or if there is nothing to rescale.  Otherwise the
matrix keeps its shape and is still affine.  Then a zero of the linear part stays exactly if its axis
is left alone or rescaled by a finite factor, and no finite coefficient of such an axis becomes
`NaN`.  All coefficients of an axis whose scale is not determined, as it is not with an undetermined
coefficient, become `NaN`. -/
theorem writeUniformScale_dependencies (m : DenseMatrix Float) (selector : Float)
    (anchor : List Float) :
    ∃ outcome after, (writeUniformScale selector anchor).run.run m = (outcome, after) ∧
      (outcome ≠ .ok true → after = m) ∧
      (outcome = .ok true →
        after.rows = m.rows ∧ after.cols = m.cols ∧ after.isAffine = true ∧
        ∃ common, commonScale? selector m.axisScales = some common ∧
          ∀ r c, r + 1 < m.rows → c + 1 < m.cols →
            ((m.coefficient r c).isZero = true →
              ((after.coefficient r c).isZero = true ↔
                keepsZeros common (m.axisScale r) = true)) ∧
            (keepsZeros common (m.axisScale r) = true → Scalar.isFinite (m.entry r c) = true →
              Scalar.isNaN (after.entry r c) = false) ∧
            (Scalar.isNaN (m.entry r c) = true → Scalar.isNaN (m.axisScale r) = true) ∧
            (Scalar.isNaN (m.axisScale r) = true → Scalar.isNaN (after.entry r c) = true)) := by
  have hrun := run_writeUniformScale m selector anchor
  cases hresult : m.uniformScale selector anchor with
  | error e =>
      rw [hresult] at hrun
      exact ⟨_, _, hrun, fun _ => rfl, nofun⟩
  | ok result =>
      obtain ⟨next, changed⟩ := result
      rw [hresult] at hrun
      refine ⟨_, _, hrun, fun hunchanged => ?_, fun hchanged => ?_⟩
      · cases changed with
        | false => exact uniformScale_eq_unchanged hresult
        | true => exact absurd rfl hunchanged
      · obtain rfl : changed = true := Except.ok.inj hchanged
        obtain ⟨haffine, common, hcommon, rfl⟩ := uniformScale_eq_changed hresult
        refine ⟨rfl, rfl, isAffine_rescaleAxes haffine, common, hcommon, fun r c hr hc => ?_⟩
        exact ⟨isZero_rescaleAxes_iff hr hc, isNaN_rescaleAxes_eq_false hr hc,
          isNaN_axisScale hc, isNaN_rescaleAxes hr hc⟩

theorem exists_run_changed (m : DenseMatrix Float) (selector : Float) (anchor : List Float)
    (h : (m.uniformScale selector anchor).toOption.map Prod.snd = some true) :
    ∃ common, (writeUniformScale selector anchor).run.run m =
      (.ok true, m.rescaleAxes common m.axisScales anchor) := by
  have hrun := run_writeUniformScale m selector anchor
  cases hresult : m.uniformScale selector anchor with
  | error e => simp [hresult, Except.toOption] at h
  | ok result =>
      obtain ⟨next, changed⟩ := result
      obtain rfl : changed = true := by simpa [hresult, Except.toOption] using h
      obtain ⟨-, common, -, rfl⟩ := uniformScale_eq_changed hresult
      rw [hresult] at hrun
      exact ⟨common, hrun⟩

/-- Three axes: the scale of the first one is doubled, the second one has the common scale already,
and the scale of the third one is not determined. -/
def mixedRows : DenseMatrix Float :=
  ofFn 4 4 fun r c =>
    ([[3, 0, 0, 5], [0, 6, 0, -2], [Binary64.nan, 0, 4, 0], [0, 0, 0, 1]].getD r []).getD c 0

theorem writeUniformScale_mixedRows :
    ∃ after, (writeUniformScale 1 [0, 0, 0]).run.run mixedRows = (.ok true, after) ∧
      after.isAffine = true ∧ (after.coefficient 0 1).isZero = true ∧
      (after.coefficient 1 0).isZero = true ∧ Scalar.isNaN (after.entry 0 0) = false ∧
      Scalar.isNaN (after.entry 2 1) = true := by
  obtain ⟨outcome, after, hrun, -, hchanged⟩ :=
    writeUniformScale_dependencies mixedRows 1 [0, 0, 0]
  obtain ⟨_, hrun'⟩ := exists_run_changed mixedRows 1 [0, 0, 0] (by decide +kernel)
  obtain ⟨-, -, haffine, common, hcommon, hrows⟩ :=
    hchanged (Prod.mk.inj (hrun.symm.trans hrun')).1
  obtain rfl : (6 : Float) = common :=
    Option.some.inj ((show commonScale? 1 mixedRows.axisScales = some 6 by decide +kernel).symm.trans
      hcommon)
  refine ⟨after, ?_, haffine, ?_, ?_, ?_, ?_⟩
  · rw [hrun, (Prod.mk.inj (hrun.symm.trans hrun')).1]
  · exact ((hrows 0 1 (by decide) (by decide)).1 (by decide +kernel)).mpr (by decide +kernel)
  · exact ((hrows 1 0 (by decide) (by decide)).1 (by decide +kernel)).mpr (by decide +kernel)
  · exact (hrows 0 0 (by decide) (by decide)).2.1 (by decide +kernel) (by decide +kernel)
  · exact (hrows 2 1 (by decide) (by decide)).2.2.2
      ((hrows 2 0 (by decide) (by decide)).2.2.1 (by decide +kernel))

/-- Two axes, of which the first one has a coefficient of about `1e200`. -/
def largeRow : DenseMatrix Float :=
  ofFn 3 3 fun r c =>
    ([[Float.ofBits 0x6974e718d7d7625a, 0, 0], [0, 2, 0], [0, 0, 1]].getD r []).getD c 0

/-- The square of the large coefficient is infinite and the norm of its row is not determined.  All
coefficients of the row were finite and one of them was zero, and afterwards they are `NaN`. -/
theorem not_keeps_dependencies :
    ¬∀ (m after : DenseMatrix Float) (selector : Float) (anchor : List Float),
      Scalar.isNaN selector = false → ¬selector < 0 → ¬1 < selector →
      (∀ x ∈ anchor, Scalar.isFinite x = true) →
      (writeUniformScale selector anchor).run.run m = (.ok true, after) →
      ∀ r, r + 1 < m.rows →
        (∀ c, c + 1 < m.cols → (m.coefficient r c).isZero = true →
          (after.coefficient r c).isZero = true) ∧
        ((∀ c, c + 1 < m.cols → Scalar.isFinite (m.entry r c) = true) →
          ∀ c, c + 1 < m.cols → Scalar.isNaN (after.entry r c) = false) := by
  intro hall
  obtain ⟨common, hrun⟩ := exists_run_changed largeRow 1 [0, 0] (by decide +kernel)
  have hfinite : ∀ c, c + 1 < largeRow.cols → Scalar.isFinite (largeRow.entry 0 c) = true := by
    intro c hc
    have hc : c < 2 := Nat.lt_of_succ_lt_succ hc
    interval_cases c <;> decide +kernel
  have hdetermined := (hall largeRow _ 1 [0, 0] (by decide +kernel) (by decide +kernel)
    (by decide +kernel) (by decide +kernel) hrun 0 (by decide)).2 hfinite 0 (by decide)
  have hundetermined :
      Scalar.isNaN ((largeRow.rescaleAxes common largeRow.axisScales [0, 0]).entry 0 0) = true :=
    isNaN_rescaleAxes (by decide) (by decide) (by decide +kernel)
  exact Bool.false_ne_true (hdetermined.symm.trans hundetermined)

end Binary64

end DenseMatrix
end SeparableTransforms
