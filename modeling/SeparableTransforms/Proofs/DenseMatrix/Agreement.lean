import SeparableTransforms.Proofs.DenseMatrix.Narrowing
import SeparableTransforms.Proofs.Outcome

/-!
# Matrices that are stored as equal

Equality of matrices does not see the sign of a zero, nor which `NaN` stands for a
coefficient that is not determined.  No operation on matrices sees more than that:
matrices that are stored as equal are affine or identities together, the same rows
and columns may be selected from them, and what is made of them is stored as equal
again.

Where an operation refuses its arguments it refuses them alike, with the same error,
because an error names no entry but only places and sizes.
-/

namespace SeparableTransforms
namespace DenseMatrix

open Outcome

section Entries

variable {α : Type} [Scalar α] {m m' : DenseMatrix α}

theorem rows_congr (h : (m == m') = true) : m.rows = m'.rows :=
  (beq_iff.mp h).1

theorem cols_congr (h : (m == m') = true) : m.cols = m'.cols :=
  (beq_iff.mp h).2.1

theorem beq_ofFn {rows cols : Nat} {f g : Nat → Nat → α}
    (h : ∀ r c, r < rows → c < cols → Same (f r c) (g r c)) :
    (ofFn rows cols f == ofFn rows cols g) = true := by
  refine beq_iff.mpr ⟨rfl, rfl, fun r c hr hc => ?_⟩
  rw [rows_ofFn] at hr
  rw [cols_ofFn] at hc
  rw [entry_ofFn f hr hc, entry_ofFn g hr hc]
  exact h r c hr hc

variable [LawfulScalar α]

/-- The entries are the same, also those outside of the matrices. -/
theorem entry_congr (h : (m == m') = true) (r c : Nat) : Same (m.entry r c) (m'.entry r c) := by
  by_cases hplace : r < m.rows ∧ c < m.cols
  · exact (beq_iff.mp h).2.2 r c hplace.1 hplace.2
  · rw [entry_eq_zero hplace, entry_eq_zero (rows_congr h ▸ cols_congr h ▸ hplace)]

end Entries

section Tests

variable {α : Type} [Scalar α] [LawfulScalar α] {m m' : DenseMatrix α}

theorem isAffine_of_beq (h : (m == m') = true) (hm : m.isAffine = true) : m'.isAffine = true := by
  rw [isAffine_iff, rows_congr h, cols_congr h] at hm
  obtain ⟨hrows, hcols, hlast⟩ := hm
  exact isAffine_iff.mpr ⟨hrows, hcols, fun c hc => (entry_congr h _ c).symm.trans (hlast c hc)⟩

theorem isAffine_congr (h : (m == m') = true) : m.isAffine = m'.isAffine :=
  Bool.eq_iff_iff.mpr ⟨isAffine_of_beq h, isAffine_of_beq (beq_symm h)⟩

/-- A matrix is an identity matrix if it is stored as equal to the one that is made. -/
theorem isIdentity_iff_beq : m.isIdentity = true ↔ (identity m.cols == m) = true := by
  refine ⟨beq_identity_of_isIdentity, fun h => ?_⟩
  have hsquare : m.cols = m.rows := rows_congr h
  simp only [isIdentity, isSquare, Bool.and_eq_true, beq_iff_eq, List.all_eq_true, List.mem_range]
  refine ⟨hsquare.symm, fun r hr c hc => ?_⟩
  have hentry : (identity m.cols : DenseMatrix α).entry r c = if r = c then 1 else 0 :=
    entry_ofFn _ (hsquare ▸ hr) hc
  have hsame := (entry_congr h r c).symm
  rw [hentry] at hsame
  split
  · rw [if_pos ‹_›] at hsame
    exact hsame.beq_one
  · rw [if_neg ‹_›] at hsame
    exact hsame.beq_zero

theorem isIdentity_congr (h : (m == m') = true) : m.isIdentity = m'.isIdentity := by
  apply Bool.eq_iff_iff.mpr
  rw [isIdentity_iff_beq, isIdentity_iff_beq, cols_congr h]
  exact ⟨fun hm => beq_trans hm h, fun hm => beq_trans hm (beq_symm h)⟩

end Tests

section Operations

variable {α : Type} [Scalar α] [LawfulScalar α] {a a' b b' m m' : DenseMatrix α}

theorem takeRows_congr (h : (m == m') = true) (indices : List Nat) :
    (m.takeRows indices == m'.takeRows indices) = true := by
  unfold takeRows
  rw [rows_congr h, cols_congr h]
  exact beq_ofFn fun r c _ _ => entry_congr h _ c

theorem takeColumns_congr (h : (m == m') = true) (indices : List Nat) :
    (m.takeColumns indices == m'.takeColumns indices) = true := by
  unfold takeColumns
  rw [rows_congr h, cols_congr h]
  exact beq_ofFn fun r c _ _ => entry_congr h r _

theorem removeColumns_congr (h : (m == m') = true) (removed : List Nat) :
    (m.removeColumns removed == m'.removeColumns removed) = true := by
  unfold removeColumns
  rw [cols_congr h]
  exact takeColumns_congr h _

theorem selectRows_congr (h : (m == m') = true) (indices : List Nat) :
    Matches (fun j j' => j == j') (m.selectRows indices) (m'.selectRows indices) := by
  unfold selectRows
  rw [rows_congr h]
  split
  · exact .error _
  · exact .ok (takeRows_congr h indices)

theorem selectColumns_congr (h : (m == m') = true) (indices : List Nat) :
    Matches (fun j j' => j == j') (m.selectColumns indices) (m'.selectColumns indices) := by
  unfold selectColumns
  rw [cols_congr h]
  split
  · exact .error _
  · exact .ok (takeColumns_congr h indices)

omit [LawfulScalar α] in
theorem submatrix_eq_bind (m : DenseMatrix α) (rows cols : List Nat) :
    m.submatrix rows cols = m.selectRows rows >>= fun selected => selected.selectColumns cols := by
  unfold submatrix
  cases m.selectRows rows with
  | error e => rfl
  | ok selected => rfl

theorem submatrix_congr (h : (m == m') = true) (rows cols : List Nat) :
    Matches (fun j j' => j == j') (m.submatrix rows cols) (m'.submatrix rows cols) := by
  rw [submatrix_eq_bind, submatrix_eq_bind]
  exact (selectRows_congr h rows).bind fun _ _ hselected => selectColumns_congr hselected cols

theorem multiply_congr (ha : (a == a') = true) (hb : (b == b') = true) :
    Matches (fun j j' => j == j') (a.multiply b) (a'.multiply b') := by
  by_cases hfit : a.cols = b.rows
  · rw [multiply_eq_product hfit, multiply_eq_product (cols_congr ha ▸ rows_congr hb ▸ hfit)]
    exact .ok (product_congr hfit ha hb)
  · unfold multiply
    rw [if_neg hfit, if_neg (cols_congr ha ▸ rows_congr hb ▸ hfit), cols_congr ha, rows_congr hb]
    exact .error _

end Operations

end DenseMatrix
end SeparableTransforms
