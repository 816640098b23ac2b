import SeparableTransforms.Proofs.DenseMatrix.Neutral
import SeparableTransforms.Proofs.Outcome

/-!
# Selections and transposes of products

Whatever is selected from a product can be selected from its factors: an entry is a sum
over one row of the first factor and one column of the second, and it does not matter
where in the product it stands.  A selection that names a row or a column out of bounds
fails with the same error on either way.

The sum leaves out every term with a zero factor.  So columns of zeros of the first factor
may be removed together with the rows that they meet, whatever these hold.

Transposing exchanges the factors of every term and keeps the order of the terms, and the
product of two scalars with its rounding error does not depend on the order of the two.

All of these are equalities of matrices entry by entry, rounding, infinities and
undetermined coefficients included.
-/

namespace SeparableTransforms
namespace DenseMatrix

open Outcome

section Selecting

variable {α : Type} [Scalar α] {a b : DenseMatrix α}

/-- Rows of a product are selected from its first factor, with the same error if there is one. -/
theorem selectRows_product (h : a.cols = b.rows) (R : List Nat) :
    (product a b).selectRows R = (a.selectRows R >>= fun a' => a'.multiply b) := by
  unfold selectRows
  rw [rows_product]
  cases hfind : R.find? fun r => decide (a.rows ≤ r) with
  | some r => rfl
  | none =>
      have hR : ∀ r ∈ R, r < a.rows := by simpa [List.find?_eq_none] using hfind
      rw [ok_bind, multiply_eq_product (a := a.takeRows R) h, product_takeRows hR]

/-- Columns of a product are selected from its second factor, with the same error if there is
one. -/
theorem selectColumns_product (h : a.cols = b.rows) (S : List Nat) :
    (product a b).selectColumns S = (b.selectColumns S >>= fun b' => a.multiply b') := by
  unfold selectColumns
  rw [cols_product]
  cases hfind : S.find? fun c => decide (b.cols ≤ c) with
  | some c => rfl
  | none =>
      have hS : ∀ c ∈ S, c < b.cols := by simpa [List.find?_eq_none] using hfind
      rw [ok_bind, multiply_eq_product (b := b.takeColumns S) h, product_takeColumns h hS]

end Selecting

section Removing

variable {α : Type} [Scalar α] {a b : DenseMatrix α}

/-- A column whose coefficients are zeros, of either sign. -/
def IsZeroColumn (m : DenseMatrix α) (c : Nat) : Prop :=
  ∀ r, r < m.rows → (m.entry r c == 0) = true

instance (m : DenseMatrix α) (c : Nat) : Decidable (m.IsZeroColumn c) :=
  inferInstanceAs (Decidable (∀ r, r < m.rows → (m.entry r c == 0) = true))

/-- The places below a limit that are left when some are removed. -/
def remaining (limit : Nat) (removed : List Nat) : List Nat :=
  (List.range limit).filter fun k => !removed.contains k

/-- Columns of zeros are removed together with the rows that they meet. -/
theorem multiply_removeColumns (h : a.cols = b.rows) {removed : List Nat}
    (hzero : ∀ c ∈ removed, c < a.cols → a.IsZeroColumn c) :
    (b.selectRows (remaining b.rows removed) >>= fun b' => (a.removeColumns removed).multiply b') =
      .ok (product a b) := by
  have hkept : Increasing (remaining b.rows removed) b.rows := increasing_filter_range _ _
  have hcolumns : a.removeColumns removed = a.takeColumns (remaining b.rows removed) := by
    unfold remaining
    rw [← h]
    rfl
  rw [selectRows_eq_ok_iff.mpr hkept.bounded, ok_bind, hcolumns]
  rw [multiply_eq_product (a := a.takeColumns _) (b := b.takeRows _) rfl]
  refine congrArg Except.ok (product_takeColumns_takeRows (h ▸ hkept) fun r hr k hk hout => ?_)
  refine hzero k ?_ hk r hr
  by_contra hnot
  exact hout (List.mem_filter.mpr ⟨List.mem_range.mpr (h ▸ hk), by simpa using hnot⟩)

end Removing

section Transposing

variable {α : Type} [Scalar α] [CommutativeScalar α] {a b : DenseMatrix α}

theorem dot_transpose (h : a.cols = b.rows) {r c : Nat} (hr : r < a.rows) (hc : c < b.cols) :
    dot a b r c = dot b.transpose a.transpose c r := by
  refine dot_eq_of_terms h.symm fun k hk sum => ?_
  rw [entry_transpose hc (h ▸ hk), entry_transpose hk hr, accumulate_comm]

theorem transpose_product (h : a.cols = b.rows) :
    (product a b).transpose = product b.transpose a.transpose := by
  refine ext_entry rfl rfl fun c r hc hr => ?_
  have hc : c < b.cols := hc
  have hr : r < a.rows := hr
  rw [entry_transpose (m := product a b) hc hr, entry_product hr hc,
    entry_product (a := b.transpose) (b := a.transpose) hc hr, dot_transpose h hr hc]

end Transposing

section Binary64

/-- What is selected from a product, left out of it or transposed in it can be selected from its
factors, left out of them or transposed in them. -/
structure ReducesToFactors (a b p : DenseMatrix Float) : Prop where
  rows : ∀ R, p.selectRows R = (a.selectRows R >>= fun a' => a'.multiply b)
  rows_isOk : ∀ R, (∀ r ∈ R, r < a.rows) → (p.selectRows R).isOk = true
  columns : ∀ S, p.selectColumns S = (b.selectColumns S >>= fun b' => a.multiply b')
  columns_isOk : ∀ S, (∀ c ∈ S, c < b.cols) → (p.selectColumns S).isOk = true
  removal : ∀ removed, (∀ c ∈ removed, c < a.cols → a.IsZeroColumn c) →
    (b.selectRows (remaining b.rows removed) >>= fun b' => (a.removeColumns removed).multiply b') =
      .ok p
  transposition : b.transpose.multiply a.transpose = .ok p.transpose

/-- Products of matrices of floats go together with selections, with the removal of columns of zeros
and with transposition, exactly and for all coefficients. -/
theorem multiply_reducesToFactors {a b : DenseMatrix Float} (h : a.cols = b.rows) :
    ∃ p, a.multiply b = .ok p ∧ ReducesToFactors a b p := by
  refine ⟨product a b, multiply_eq_product h, ?_⟩
  refine ⟨selectRows_product h, fun R hR => ?_, selectColumns_product h, fun S hS => ?_,
    fun _ => multiply_removeColumns h, ?_⟩
  · rw [selectRows_eq_ok_iff (m := product a b).mpr hR]
    rfl
  · rw [selectColumns_eq_ok_iff (m := product a b).mpr hS]
    rfl
  · rw [transpose_product h]
    exact multiply_eq_product h.symm

/-- A matrix of two rows with a column of zeros of both signs. -/
def middleZeros : DenseMatrix Float :=
  ofFn 2 3 fun r c => ([[Binary64.infinity, 0, 0.5], [3, -0, Binary64.nan]].getD r []).getD c 0

/-- A matrix whose second row meets only zeros. -/
def meetingZeros : DenseMatrix Float :=
  ofFn 3 2 fun r c => ([[0, 1], [Binary64.nan, Binary64.infinity], [-0, 7]].getD r []).getD c 0

/-- The column of zeros is removed with an undetermined and an infinite coefficient, and rows are
selected twice. -/
theorem multiply_meetingZeros :
    middleZeros.cols = meetingZeros.rows ∧
      ∃ p, middleZeros.multiply meetingZeros = .ok p ∧
        (p.selectRows [1, 0, 1]).isOk = true ∧
        p.selectRows [1, 0, 1] =
          (middleZeros.selectRows [1, 0, 1] >>= fun a => a.multiply meetingZeros) ∧
        (p.selectColumns [1, 1]).isOk = true ∧
        (meetingZeros.selectRows [0, 2] >>= fun b => (middleZeros.removeColumns [1]).multiply b) =
          .ok p ∧
        meetingZeros.transpose.multiply middleZeros.transpose = .ok p.transpose := by
  obtain ⟨p, hp, hreduces⟩ := multiply_reducesToFactors (a := middleZeros) (b := meetingZeros) rfl
  exact ⟨rfl, p, hp, hreduces.rows_isOk _ (by decide), hreduces.rows _,
    hreduces.columns_isOk _ (by decide), hreduces.removal [1] (by decide +kernel),
    hreduces.transposition⟩

end Binary64

end DenseMatrix
end SeparableTransforms
