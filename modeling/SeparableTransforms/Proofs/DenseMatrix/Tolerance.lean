import SeparableTransforms.Proofs.Binary64.Order
import SeparableTransforms.Proofs.DenseMatrix.Blocks
import SeparableTransforms.Proofs.DenseMatrix.Undetermined

/-!
# Tolerances of pivots

An elimination that succeeds with some tolerance has taken every pivot for its
magnitude, or else has taken one that is not determined.  In the second case the row
of the inverse table is divided by `NaN`, one of its cells becomes `NaN` and stays so.
So if no cell of the result is `NaN`, all pivots exceed the tolerance, and the
elimination takes the same steps with any smaller one.

Over floats the tolerance of a matrix is rounded.  It still grows with the matrix: if
every coefficient of one is among those of another that is no smaller, then so are the
tolerances ordered.
-/

namespace SeparableTransforms

universe u

namespace DoubleDouble

section Division

variable {α : Type u} [Scalar α] [AbsorbingScalar α] [PivotScalar α] {x y : DoubleDouble α}

theorem isNaN_div (x : DoubleDouble α) (h : Scalar.isNaN y.value = true) :
    Scalar.isNaN (x / y).value = true := by
  have hvalue : Scalar.isNaN (x.value / y.value) = true := PivotScalar.isNaN_div x.value h
  show Scalar.isNaN (div x y).value = true
  unfold div
  simp only [AbsorbingScalar.isFinite_of_isNaN hvalue, Bool.false_eq_true, if_false]
  exact hvalue

omit [PivotScalar α] in
theorem isNaN_sub (h : Scalar.isNaN x.value = true) (y : DoubleDouble α) :
    Scalar.isNaN (x - y).value = true :=
  isNaN_add (y := -y) (.inl h)

end Division

end DoubleDouble

namespace DenseMatrix

section Spreading

variable {α : Type u} [Scalar α] [LawfulScalar α] {s s' : Elimination α} {tolerance : α}
  {c j k n row : Nat}

/-- Every row that is still to be used has a non-zero cell in the inverse table where the other such
rows have zeros. -/
def Elimination.Independent (s : Elimination α) (k n : Nat) : Prop :=
  ∀ r, k ≤ r → r < n → ∃ c, (s.inverse.entry r c).isZero = false ∧
    ∀ r', k ≤ r' → r' < n → r' ≠ r → (s.inverse.entry r' c).isZero = true

theorem Elimination.independent_start (m : DenseMatrix α) (n : Nat) :
    (Elimination.start m n).Independent 0 n := by
  intro r _ hr
  refine ⟨r, ?_, fun r' _ hr' hne => ?_⟩
  · rw [Elimination.entry_start_inverse m hr hr, if_pos rfl]
    exact DoubleDouble.isZero_one
  · rw [Elimination.entry_start_inverse m hr' hr, if_neg hne]
    exact DoubleDouble.isZero_zero

/-- A cell of the pivot row after the division. -/
def divided (cell divisor : DoubleDouble α) : DoubleDouble α :=
  if cell.isZero = false then cell / divisor else cell

/-- The inverse table after a step, cell by cell. -/
theorem Elimination.exists_entry_inverse_pivot (hs : s.IsSquare n) (hk : k < n) (hrow : row < n) :
    ∃ factor : Nat → DoubleDouble α, ∀ r, r < n → ∀ c, (s.pivot k row).inverse.entry r c =
      (let source := divided (s.inverse.entry row c) (s.work.entry row k)
      if r = k then source
      else if (factor r).isZero = true ∨ source.isZero = true then
        s.inverse.entry (exchanged k row r) c
      else s.inverse.entry (exchanged k row r) c - factor r * source) := by
  obtain ⟨hp, -, hp', -⟩ := hs
  have hdivisor : (s.work.swapRows k row).entry k k = s.work.entry row k := by
    rw [entry_swapRows (hp.symm ▸ hk) (hp.symm ▸ hrow), exchanged_left]
  have hrows : ∀ r c, ((s.inverse.swapRows k row).divideRow k (s.work.entry row k)).entry r c =
      if r = k then divided (s.inverse.entry row c) (s.work.entry row k)
      else s.inverse.entry (exchanged k row r) c := by
    intro r c
    rw [entry_divideRow, entry_swapRows (hp'.symm ▸ hk) (hp'.symm ▸ hrow)]
    by_cases hr : r = k
    · subst hr
      simp [divided]
    · rw [if_neg hr, if_neg (by simp [hr])]
  refine ⟨fun r => ((s.work.swapRows k row).divideRow k (s.work.entry row k)).entry r k,
    fun r hr c => ?_⟩
  unfold Elimination.pivot
  simp only [hdivisor]
  rw [entry_eliminateRows (by rw [rows_divideRow, rows_swapRows, hp']; exact hr), hrows, hrows,
    if_pos rfl]
  by_cases hrk : r = k
  · rw [if_pos (.inl hrk), if_pos hrk, if_pos hrk]
  · simp only [hrk, false_or, if_false]

theorem exchanged_ne (hne : j ≠ k) (hne' : j ≠ row) : exchanged k row j = j := by
  unfold exchanged
  rw [if_neg hne, if_neg hne']

theorem exchanged_inj {r r' : Nat} (h : exchanged k row r = exchanged k row r') : r = r' := by
  rw [← exchanged_exchanged k row r, h, exchanged_exchanged]

theorem le_exchanged {r : Nat} (hrow : k ≤ row) (hr : k ≤ r) : k ≤ exchanged k row r := by
  unfold exchanged
  split_ifs <;> omega

/-- The rows that are left after a step are still independent. -/
theorem Elimination.Independent.pivot (h : s.Independent k n) (hs : s.IsSquare n) (hle : k ≤ row)
    (hrow : row < n) : (s.pivot k row).Independent (k + 1) n := by
  have hk : k < n := Nat.lt_of_le_of_lt hle hrow
  obtain ⟨factor, hentry⟩ := Elimination.exists_entry_inverse_pivot hs hk hrow
  intro r hr hrn
  obtain ⟨c, hc, hothers⟩ := h (exchanged k row r) (le_exchanged hle (by omega))
    (exchanged_lt hk hrow hrn)
  -- the pivot row has a zero in this column, so that the column does not change
  have hsource : (s.inverse.entry row c).isZero = true := by
    refine hothers row hle hrow fun heq => ?_
    have := exchanged_inj ((exchanged_left k row).trans heq)
    omega
  have hdivided : divided (s.inverse.entry row c) (s.work.entry row k) = s.inverse.entry row c := by
    unfold divided
    rw [if_neg (by simp [hsource])]
  have hcolumn : ∀ r', k + 1 ≤ r' → r' < n →
      (s.pivot k row).inverse.entry r' c = s.inverse.entry (exchanged k row r') c := by
    intro r' hr' hrn'
    rw [hentry r' hrn' c]
    simp only [hdivided]
    rw [if_neg (by omega), if_pos (.inr hsource)]
  refine ⟨c, ?_, fun r' hr' hrn' hne => ?_⟩
  · rw [hcolumn r hr hrn]
    exact hc
  · rw [hcolumn r' hr' hrn']
    exact hothers _ (le_exchanged hle (by omega)) (exchanged_lt hk hrow hrn') fun heq =>
      hne (exchanged_inj heq)

variable [AbsorbingScalar α]

/-- A cell that is not determined stays so in the rows that have been used. -/
theorem Elimination.isNaN_pivot (hs : s.IsSquare n) (hj : j < k) (hle : k ≤ row) (hrow : row < n)
    (h : Scalar.isNaN (s.inverse.entry j c).value = true) :
    Scalar.isNaN ((s.pivot k row).inverse.entry j c).value = true := by
  have hk : k < n := Nat.lt_of_le_of_lt hle hrow
  obtain ⟨factor, hentry⟩ := Elimination.exists_entry_inverse_pivot hs hk hrow
  rw [hentry j (by omega) c, exchanged_ne (by omega) (by omega)]
  dsimp only
  rw [if_neg (by omega)]
  split_ifs
  · exact h
  · exact DoubleDouble.isNaN_sub h _

theorem Elimination.isNaN_through (hs : s.IsSquare n) (hj : j < k) {m : Nat}
    (hrun : Elimination.through tolerance (List.range' k m) s = .ok s')
    (h : Scalar.isNaN (s.inverse.entry j c).value = true) :
    Scalar.isNaN (s'.inverse.entry j c).value = true := by
  refine (Elimination.invariant_through (I := fun k s => s.IsSquare n ∧ j < k ∧
    Scalar.isNaN (s.inverse.entry j c).value = true) (fun k s row hmark hsearch => ?_)
    ⟨hs, hj, h⟩ hrun).2.2
  obtain ⟨hs, hj, h⟩ := hmark
  have hpivot := isPivot_of_pivotRow? hsearch
  exact ⟨hs.pivot k row, Nat.lt_succ_of_lt hj,
    Elimination.isNaN_pivot hs hj hpivot.unused (hs.rows_work ▸ hpivot.inside) h⟩

variable [PivotScalar α]

/-- A pivot that is not determined leaves a mark in its row. -/
theorem Elimination.exists_isNaN_pivot (h : s.Independent k n) (hs : s.IsSquare n) (hle : k ≤ row)
    (hrow : row < n) (hnan : Scalar.isNaN (s.work.entry row k).value = true) :
    ∃ c, Scalar.isNaN ((s.pivot k row).inverse.entry k c).value = true := by
  have hk : k < n := Nat.lt_of_le_of_lt hle hrow
  obtain ⟨factor, hentry⟩ := Elimination.exists_entry_inverse_pivot hs hk hrow
  obtain ⟨c, hc, -⟩ := h row hle hrow
  refine ⟨c, ?_⟩
  rw [hentry k hk c]
  dsimp only
  rw [if_pos rfl, divided, if_pos hc]
  exact DoubleDouble.isNaN_div _ hnan

end Spreading

section Smaller

variable {α : Type u} [Scalar α] {s s' : Elimination α} {tolerance smaller : α} {k n row : Nat}

/-- A pivot that is large enough is also found with a smaller tolerance. -/
theorem pivotRow?_of_smaller {work : DenseMatrix (DoubleDouble α)}
    (hsmaller : ∀ x, tolerance < x → smaller < x)
    (h : pivotRow? work tolerance k = some row)
    (hdetermined : Scalar.isNaN (work.entry row k).value = false) :
    pivotRow? work smaller k = some row := by
  have hamong : ((PivotSearch.through work k ((List.range work.rows).drop k)
      (⟨none, none⟩ : PivotSearch α)).Among work k ((List.range work.rows).drop k)) :=
    PivotSearch.among_through ⟨nofun, nofun⟩ fun _ hr => hr
  rw [pivotRow?_eq] at h ⊢
  generalize PivotSearch.through work k _ _ = search at h hamong ⊢
  have hnot : search.undetermined ≠ some row := fun hu => by
    rw [(hamong.undetermined row hu).2] at hdetermined
    cases hdetermined
  unfold PivotSearch.chosen at h ⊢
  split at h
  · split at h
    · rename_i hlarge
      rw [if_pos (hsmaller _ hlarge)]
      exact h
    · exact absurd h hnot
  · exact absurd h hnot

variable [LawfulScalar α] [AbsorbingScalar α] [PivotScalar α]

theorem Elimination.through_of_smaller (hsmaller : ∀ x, tolerance < x → smaller < x)
    (h : s.Independent k n) (hs : s.IsSquare n) {m : Nat}
    (hrun : Elimination.through tolerance (List.range' k m) s = .ok s')
    (hdetermined : ∀ r c, Scalar.isNaN (s'.inverse.entry r c).value = false) :
    Elimination.through smaller (List.range' k m) s = .ok s' := by
  induction m generalizing k s with
  | zero => exact hrun
  | succ m ih =>
      rw [List.range'_succ] at hrun ⊢
      obtain ⟨row, hsearch, hrun⟩ := Elimination.through_cons_eq_ok_iff.mp hrun
      have hpivot := isPivot_of_pivotRow? hsearch
      have hrow : row < n := hs.rows_work ▸ hpivot.inside
      cases hnan : Scalar.isNaN (s.work.entry row k).value with
      | true =>
          obtain ⟨c, hc⟩ := Elimination.exists_isNaN_pivot h hs hpivot.unused hrow hnan
          have hmark := Elimination.isNaN_through (hs.pivot k row) (Nat.lt_succ_self k) hrun hc
          rw [hdetermined] at hmark
          cases hmark
      | false =>
          exact Elimination.through_cons_eq_ok_iff.mpr
            ⟨row, pivotRow?_of_smaller hsmaller hsearch hnan,
              ih (h.pivot hs hpivot.unused hrow) (hs.pivot k row) hrun⟩

/-- A determined result is the same for every smaller tolerance. -/
theorem gaussJordan_of_smaller {m : DenseMatrix α} {w : DenseMatrix (DoubleDouble α)}
    (hsmaller : ∀ x, tolerance < x → smaller < x) (h : gaussJordan tolerance m n = .ok w)
    (hdetermined : ∀ r c, Scalar.isNaN (w.entry r c).value = false) :
    gaussJordan smaller m n = .ok w := by
  obtain ⟨s', hrun, rfl⟩ := gaussJordan_eq_ok_iff.mp h
  refine gaussJordan_eq_ok_iff.mpr ⟨s', ?_, rfl⟩
  unfold Elimination.run at hrun ⊢
  rw [List.range_eq_range'] at hrun ⊢
  exact Elimination.through_of_smaller hsmaller (Elimination.independent_start m n)
    (Elimination.isSquare_start m n) hrun hdetermined

omit [LawfulScalar α] [AbsorbingScalar α] [PivotScalar α] in
theorem isNaN_entry_of_hasUnconstrained {m : DenseMatrix α} (h : m.hasUnconstrained = false)
    {r c : Nat} (hr : r < m.rows) (hc : c < m.cols) : Scalar.isNaN (m.entry r c) = false := by
  have hcell : r * m.cols + c < m.cells.size := m.size_cells ▸ cell_lt hr hc
  unfold hasUnconstrained at h
  rw [Array.any_eq_false] at h
  rw [← cell_eq_entry m hr hc hcell]
  simpa using h _ hcell

end Smaller

section Binary64

open Binary64

variable {a b : DenseMatrix Float} {m n : Nat}

theorem div_notANumber (u : Float.Model.UnpackedFloat) :
    Float.Model.UnpackedFloat.div .binary64 u .notANumber = .notANumber := by
  cases u <;> rfl

instance : PivotScalar Rat where
  same_neg_zero := Same.of_beq (by decide +kernel)
  not_abs_lt a := by
    show ¬(if a < 0 then -a else a) < (if (0 : Rat) < 0 then -0 else 0)
    split_ifs <;> grind
  one_div_one := DoubleDouble.eq_of_parts (by decide +kernel) (by decide +kernel)
  isNaN_div _ := nofun

theorem abs_zero_float : Scalar.abs (0 : Float) = 0 := by
  decide +kernel

theorem abs_of_beq_zero {v : Float} (h : (v == 0) = true) : Scalar.abs v = 0 := by
  have hparts : Similar v.toModel.unpack (.zero .positive) := unpack_zero ▸ same_iff.mp (.of_beq h)
  have hzero : (0 : Float) = .ofModel (Float.Model.pack (.zero .positive)) := by decide +kernel
  rw [hzero]
  show Float.ofModel (Float.Model.pack v.toModel.unpack.abs) = _
  cases hv : v.toModel.unpack <;> rw [hv] at hparts <;> cases hparts <;> rfl

theorem isNaN_of_beq_zero {v : Float} (h : (v == 0) = true) : Scalar.isNaN v = false := by
  have hparts : Similar v.toModel.unpack (0 : Float).toModel.unpack := same_iff.mp (.of_beq h)
  have hzero : Scalar.isNaN (0 : Float) = false := LawfulScalar.isNaN_zero
  exact hparts.isNaN_eq.trans hzero

theorem beq_zero_of_isZero {v : DoubleDouble Float} (h : v.isZero = true) :
    (v.value == 0) = true :=
  (Bool.and_eq_true_iff.mp h).1

theorem isZero_ofScalar (v : Float) : (DoubleDouble.ofScalar v).isZero = (v == 0) := by
  show (v == 0 && (0 : Float) == 0) = (v == 0)
  rw [zero_beq_zero, Bool.and_true]

instance : PivotScalar Float where
  same_neg_zero := Same.of_beq (by decide +kernel)
  not_abs_lt a := by
    rw [abs_zero_float]
    exact (upTo_abs a).not_lt_zero
  one_div_one := DoubleDouble.eq_of_parts (by decide +kernel) (by decide +kernel)
  isNaN_div a h := isNaN_pack (by rw [eq_notANumber h, div_notANumber])

/-- The finite magnitudes of the leading block of a matrix. -/
def finiteMagnitudes (a : DenseMatrix Float) (n : Nat) : List Float :=
  ((List.range n).flatMap fun r => (List.range n).map fun c => Scalar.abs (a.entry r c)).filter
    Scalar.isFinite

theorem mem_finiteMagnitudes {x : Float} :
    x ∈ finiteMagnitudes a n ↔
      (∃ r c, r < n ∧ c < n ∧ Scalar.abs (a.entry r c) = x) ∧ Scalar.isFinite x = true := by
  simp [finiteMagnitudes]

theorem measures_of_mem_finiteMagnitudes {x : Float} (h : x ∈ finiteMagnitudes a n) :
    ∃ p, Measures x.toModel.unpack p := by
  obtain ⟨⟨r, c, -, -, rfl⟩, hfinite⟩ := mem_finiteMagnitudes.mp h
  exact measures_of_upTo (upTo_abs _) hfinite

/-- A matrix that holds all coefficients of another one has no smaller largest magnitude. -/
theorem upTo_largestMagnitude
    (h : ∀ r c, r < m → c < m → ∃ r' c', r' < n ∧ c' < n ∧ b.entry r' c' = a.entry r c) :
    UpTo (a.largestMagnitude m) (b.largestMagnitude n) := by
  show UpTo ((finiteMagnitudes a m).foldl Scalar.larger 0)
    ((finiteMagnitudes b n).foldl Scalar.larger 0)
  refine upTo_foldl_larger (fun _ => measures_of_mem_finiteMagnitudes)
    (fun _ => measures_of_mem_finiteMagnitudes) fun x hx => ?_
  obtain ⟨⟨r, c, hr, hc, rfl⟩, hfinite⟩ := mem_finiteMagnitudes.mp hx
  obtain ⟨r', c', hr', hc', heq⟩ := h r c hr hc
  exact mem_finiteMagnitudes.mpr ⟨⟨r', c', hr', hc', by rw [heq]⟩, hfinite⟩

/-- A larger matrix that holds all coefficients of another one has no smaller tolerance. -/
theorem upTo_pivotTolerance (hmn : m ≤ n)
    (h : ∀ r c, r < m → c < m → ∃ r' c', r' < n ∧ c' < n ∧ b.entry r' c' = a.entry r c) :
    UpTo (a.pivotTolerance m) (b.pivotTolerance n) :=
  ((upTo_largestMagnitude h).mul (upTo_ofNat hmn)).mul upTo_epsilon

theorem upTo_pivotTolerance_self (a : DenseMatrix Float) (n : Nat) :
    UpTo (a.pivotTolerance n) (a.pivotTolerance n) :=
  upTo_pivotTolerance (le_refl n) fun r c hr hc => ⟨r, c, hr, hc, rfl⟩

end Binary64

end DenseMatrix
end SeparableTransforms
