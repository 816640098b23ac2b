import SeparableTransforms.Proofs.Separation.Sources
import SeparableTransforms.Proofs.Separation.Targets

/-!
# Used columns and determined rows

The columns that a matrix uses and the rows that some columns determine are two
views of its zeros.  The columns that some rows use determine these rows, and more
columns determine more rows.

Selection matrices and matrices expanded by copied coordinates use exactly the
columns that one expects.
-/

namespace SeparableTransforms
namespace Transform

section Coefficients

variable {α : Type} [Scalar α] {matrix : DenseMatrix α} {c : Nat}

theorem mem_usedColumns_iff :
    c ∈ usedColumns matrix ↔ c < matrix.cols - 1 ∧
      ∃ r, r < matrix.rows - 1 ∧ (matrix.coefficient r c).isZero = false := by
  simp [usedColumns]

theorem isIgnorable_of_isZero {a : Coefficient α} (h : a.isZero = true) :
    a.isIgnorable = true := by
  cases a with
  | known value => exact h
  | unconstrained => cases h

/-- Every row is determined by the columns that are used. -/
theorem determinedRows_usedColumns (matrix : DenseMatrix α) :
    determinedRows matrix (usedColumns matrix) = List.range (matrix.rows - 1) := by
  refine (increasing_filter_range _ _).eq_of_mem_iff (increasing_range _) fun r => ?_
  rw [List.mem_range]
  refine ⟨fun hr => (mem_determinedRows_iff.mp hr).1, fun hr =>
    mem_determinedRows_iff.mpr ⟨hr, fun c hc hout => isIgnorable_of_isZero ?_⟩⟩
  by_contra hzero
  exact hout (mem_usedColumns_iff.mpr ⟨hc, r, hr, Bool.eq_false_iff.mpr hzero⟩)

theorem coefficient_keepRows {R : List Nat} {i : Nat} (hi : i < R.length) (hc : c < matrix.cols) :
    (matrix.keepRows R).coefficient i c = matrix.coefficient R[i] c := by
  rw [DenseMatrix.coefficient, DenseMatrix.entry_keepRows hi hc]
  rfl

/-- The columns that some rows use determine these rows. -/
theorem mem_determinedRows_of_used {R S : List Nat} {r : Nat} (hr : r ∈ R)
    (hbound : r < matrix.rows - 1) (hused : ∀ c ∈ usedColumns (matrix.keepRows R), c ∈ S) :
    r ∈ determinedRows matrix S := by
  obtain ⟨i, hi, rfl⟩ := List.mem_iff_getElem.mp hr
  refine mem_determinedRows_iff.mpr ⟨hbound, fun c hc hout => isIgnorable_of_isZero ?_⟩
  by_contra hzero
  refine hout (hused c (mem_usedColumns_iff.mpr ⟨hc, i, by simpa using hi, ?_⟩))
  rw [coefficient_keepRows hi (by omega)]
  exact Bool.eq_false_iff.mpr hzero

variable [LawfulScalar α]

theorem isZero_ofScalar_zero : (Coefficient.ofScalar (0 : α)).isZero = true := by
  simp [Coefficient.ofScalar, LawfulScalar.isNaN_zero, Coefficient.isZero]

theorem isZero_ofScalar_one : (Coefficient.ofScalar (1 : α)).isZero = false := by
  simp [Coefficient.ofScalar, LawfulScalar.isNaN_one, Coefficient.isZero]

theorem isZero_ofScalar_ite {q : Prop} [Decidable q] :
    (Coefficient.ofScalar (if q then (1 : α) else 0)).isZero = !decide q := by
  by_cases hq : q
  · simp [hq, isZero_ofScalar_one]
  · simp [hq, isZero_ofScalar_zero]

/-- A selection uses what is picked. -/
theorem mem_usedColumns_selectionMatrix {picked : List Nat} {n : Nat}
    (h : ∀ d ∈ picked, d < n) :
    c ∈ usedColumns (selectionMatrix picked n : DenseMatrix α) ↔ c ∈ picked := by
  have hentry : ∀ i (hi : i < picked.length), c < n →
      ((selectionMatrix picked n : DenseMatrix α).coefficient i c).isZero =
        !decide (c = picked[i]) := by
    intro i hi hc
    unfold DenseMatrix.coefficient selectionMatrix
    rw [DenseMatrix.entry_ofFn _ (by omega) (by omega), isZero_ofScalar_ite]
    simp [hi]
  rw [mem_usedColumns_iff]
  constructor
  · rintro ⟨hc, i, hi, hzero⟩
    have hi : i < picked.length := hi
    rw [hentry i hi hc] at hzero
    simp only [Bool.not_eq_false', decide_eq_true_eq] at hzero
    exact hzero ▸ List.getElem_mem hi
  · intro hc
    obtain ⟨i, hi, rfl⟩ := List.mem_iff_getElem.mp hc
    exact ⟨h _ hc, i, hi, by rw [hentry i hi (h _ hc)]; simp⟩

/-- Where the coefficients of an expanded matrix are zero. -/
theorem isZero_coefficient_expand {k n r : Nat} (hr : r < k + (matrix.rows - 1) + n)
    (hc : c < k + (matrix.cols - 1) + n) :
    ((expand k matrix n).coefficient r c).isZero =
      if r < k then !decide (c = r)
      else if r < k + (matrix.rows - 1) then
        if k ≤ c ∧ c < k + (matrix.cols - 1) then (matrix.coefficient (r - k) (c - k)).isZero
        else true
      else !decide (c + (matrix.rows - 1) = r + (matrix.cols - 1)) := by
  unfold DenseMatrix.coefficient
  split
  · rw [entry_expand_leading (by omega) (by omega), isZero_ofScalar_ite]
  · split
    · rw [entry_expand_inner (by omega) (by omega) (by omega), if_neg (by omega)]
      split
      · rfl
      · exact isZero_ofScalar_zero
    · rw [entry_expand_trailing (by omega) (by omega) (by omega), isZero_ofScalar_ite]

/-- An expanded matrix uses all copied coordinates and those that the matrix uses. -/
theorem mem_usedColumns_expand {k n : Nat} :
    c ∈ usedColumns (expand k matrix n) ↔
      c < k ∨ (k ≤ c ∧ c - k ∈ usedColumns matrix) ∨
        (k + (matrix.cols - 1) ≤ c ∧ c < k + (matrix.cols - 1) + n) := by
  rw [mem_usedColumns_iff, rows_expand, cols_expand, Nat.add_sub_cancel, Nat.add_sub_cancel]
  constructor
  · rintro ⟨hc, r, hr, hnot⟩
    rw [isZero_coefficient_expand hr hc] at hnot
    split at hnot
    · rename_i hlead
      simp only [Bool.not_eq_false', decide_eq_true_eq] at hnot
      exact .inl (by omega)
    · split at hnot
      · split at hnot
        · rename_i hinner
          exact .inr (.inl ⟨hinner.1, mem_usedColumns_iff.mpr ⟨by omega, r - k, by omega, hnot⟩⟩)
        · cases hnot
      · simp only [Bool.not_eq_false', decide_eq_true_eq] at hnot
        exact .inr (.inr ⟨by omega, hc⟩)
  · rintro (hlead | ⟨hk, hinner⟩ | ⟨hlow, hhigh⟩)
    · refine ⟨by omega, c, by omega, ?_⟩
      rw [isZero_coefficient_expand (by omega) (by omega), if_pos hlead]
      simp
    · obtain ⟨hc, r, hr, hnot⟩ := mem_usedColumns_iff.mp hinner
      refine ⟨by omega, k + r, by omega, ?_⟩
      rw [isZero_coefficient_expand (by omega) (by omega), if_neg (by omega), if_pos (by omega),
        if_pos (by omega), Nat.add_sub_cancel_left]
      exact hnot
    · refine ⟨hhigh, c - (matrix.cols - 1) + (matrix.rows - 1), by omega, ?_⟩
      rw [isZero_coefficient_expand (by omega) hhigh, if_neg (by omega), if_neg (by omega)]
      simp
      omega

/-- Inside the copied coordinates an expanded matrix uses what the matrix uses. -/
theorem inside_usedColumns_expand {k n : Nat} :
    inside k (matrix.cols - 1) (usedColumns (expand k matrix n)) = usedColumns matrix := by
  refine (increasing_inside (increasing_usedColumns _)).eq_of_mem_iff
    (increasing_usedColumns matrix) fun d => ?_
  rw [mem_inside_iff, mem_usedColumns_expand, Nat.add_sub_cancel_left]
  constructor
  · rintro ⟨_, hlead | ⟨_, hd⟩ | ⟨hlow, _⟩⟩
    · omega
    · exact hd
    · omega
  · intro hd
    have hbound := (increasing_usedColumns matrix).bounded d hd
    exact ⟨hbound, .inr (.inl ⟨Nat.le_add_right k d, hd⟩)⟩

theorem usedColumns_expand_ne_nil {k n : Nat} (h : usedColumns matrix ≠ []) :
    usedColumns (expand k matrix n) ≠ [] := by
  obtain ⟨d, hd⟩ := List.exists_mem_of_ne_nil _ h
  have hcopied : k + d ∈ usedColumns (expand k matrix n) := by
    rw [mem_usedColumns_expand, Nat.add_sub_cancel_left]
    exact .inr (.inl ⟨Nat.le_add_right k d, hd⟩)
  exact List.ne_nil_of_mem hcopied

end Coefficients

end Transform
end SeparableTransforms
