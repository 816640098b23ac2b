import SeparableTransforms.Proofs.DenseMatrix.Undetermined
import SeparableTransforms.Proofs.Separation.Outcomes
import SeparableTransforms.Proofs.Separation.Separability

/-!
# Undetermined coefficients never block a request for sources

A transform is settled by putting zero in the place of every coefficient that is not
determined.  Wherever an output is asked whether it can do without an input, the two
coefficients give the same answer.  So both transforms determine the same outputs of
every node from the same inputs, and by induction the same outputs of the whole tree.

Settling leaves the last row of an affine matrix alone, because its entries compare
equal to zero or one.
-/

namespace SeparableTransforms

universe u

section Scalars

variable {α : Type u} [Scalar α]

/-- The scalar itself, or zero if it is not determined. -/
def settle (a : α) : α :=
  if Scalar.isNaN a then 0 else a

theorem settle_zero : settle (0 : α) = 0 :=
  ite_self 0

/-- An output can do without an input whose coefficient is not determined as well as without one
whose coefficient is zero. -/
theorem isIgnorable_settle [LawfulScalar α] (a : α) :
    (Coefficient.ofScalar (settle a)).isIgnorable = (Coefficient.ofScalar a).isIgnorable := by
  unfold settle
  cases h : Scalar.isNaN a with
  | true =>
      rw [if_pos rfl, DenseMatrix.isIgnorable_ofScalar_iff.mpr (.inl h)]
      exact DenseMatrix.isIgnorable_ofScalar_iff.mpr (.inr zero_beq_zero)
  | false => rfl

theorem settle_eq_self [AbsorbingScalar α] {a b : α} (h : Same a b)
    (hb : Scalar.isNaN b = false) : settle a = a :=
  if_neg (by rw [AbsorbingScalar.isNaN_congr h, hb]; exact Bool.false_ne_true)

end Scalars

namespace DenseMatrix

section Settled

variable {α : Type u} [Scalar α] {m : DenseMatrix α}

/-- The matrix with zeros for the entries that are not determined. -/
def settled (m : DenseMatrix α) : DenseMatrix α :=
  m.map settle

@[simp] theorem rows_settled : m.settled.rows = m.rows :=
  rfl

@[simp] theorem cols_settled : m.settled.cols = m.cols :=
  rfl

theorem entry_settled (r c : Nat) : m.settled.entry r c = settle (m.entry r c) := by
  have hget : m.settled.get? r c = (m.get? r c).map settle := by
    simp only [settled, get?, map, Array.getElem?_map]
    split
    · rfl
    · rfl
  unfold entry
  rw [hget]
  cases m.get? r c with
  | none => exact settle_zero.symm
  | some a => rfl

variable [LawfulScalar α]

theorem isIgnorable_coefficient_settled (r c : Nat) :
    (m.settled.coefficient r c).isIgnorable = (m.coefficient r c).isIgnorable := by
  unfold coefficient
  rw [entry_settled, isIgnorable_settle]

theorem isNaN_lastRow (cols c : Nat) : Scalar.isNaN (lastRow cols c : α) = false := by
  unfold lastRow
  split
  · exact LawfulScalar.isNaN_one
  · exact LawfulScalar.isNaN_zero

/-- The last row of an affine matrix is settled. -/
theorem isAffine_settled [AbsorbingScalar α] (h : m.isAffine = true) :
    m.settled.isAffine = true := by
  obtain ⟨hrows, hcols, hlast⟩ := isAffine_iff.mp h
  refine isAffine_iff.mpr ⟨hrows, hcols, fun c hc => ?_⟩
  simp only [rows_settled, cols_settled, entry_settled]
  rw [settle_eq_self (hlast c hc) (isNaN_lastRow _ _)]
  exact hlast c hc

end Settled

end DenseMatrix

namespace Transform

section Settled

variable {κ α : Type} [Kernel κ α] [Scalar α]

/-- The same tree with zeros for the coefficients that are not determined. -/
def settled : Transform κ α → Transform κ α
  | linear id m => linear id m.settled
  | chain id a b => chain id a.settled b.settled
  | passThrough id k t n => passThrough id k t.settled n
  | kernel id k => kernel id k

@[simp] theorem sourceDimensions_settled (t : Transform κ α) :
    t.settled.sourceDimensions = t.sourceDimensions := by
  induction t with
  | linear id m => rfl
  | chain id a b iha ihb => exact iha
  | passThrough id k t n ih => simp only [settled, sourceDimensions, ih]
  | kernel id k => rfl

@[simp] theorem targetDimensions_settled (t : Transform κ α) :
    t.settled.targetDimensions = t.targetDimensions := by
  induction t with
  | linear id m => rfl
  | chain id a b iha ihb => exact ihb
  | passThrough id k t n ih => simp only [settled, targetDimensions, ih]
  | kernel id k => rfl

variable [LawfulScalar α]

theorem WellFormed.settled [AbsorbingScalar α] {t : Transform κ α} (h : t.WellFormed) :
    t.settled.WellFormed := by
  induction t with
  | linear id m => exact ⟨DenseMatrix.isAffine_settled h.1, h.2⟩
  | chain id a b iha ihb =>
      refine ⟨iha h.1, ihb h.2.1, ?_⟩
      rw [targetDimensions_settled, sourceDimensions_settled]
      exact h.2.2
  | passThrough id k t n ih => exact ih h
  | kernel id k => exact h

omit [Kernel κ α] in
theorem determinedRows_settled (m : DenseMatrix α) (S : List Nat) :
    determinedRows m.settled S = determinedRows m S := by
  simp only [determinedRows, DenseMatrix.rows_settled, DenseMatrix.cols_settled,
    DenseMatrix.isIgnorable_coefficient_settled]

/-- Settling changes nothing in what the outputs depend on. -/
theorem determined_settled (t : Transform κ α) (S : List Nat) :
    t.settled.determined S = t.determined S := by
  induction t generalizing S with
  | linear id m => exact congrArg some (determinedRows_settled m S)
  | chain id a b iha ihb => simp only [settled, determined, iha, ihb]
  | passThrough id k t n ih =>
      simp only [settled, determined, sourceDimensions_settled, targetDimensions_settled, ih]
  | kernel id k => rfl

end Settled

end Transform

namespace Separation

open Transform

section Binary64

variable {κ : Type} [Kernel κ Float] {t : Transform κ Float} {S : List Nat}

/-- A transform and the settled one give the same outcome for a request for some of the sources:
both separations fail, or both report the same dimensions. -/
theorem reported_settled (ht : t.WellFormed) (hne : S ≠ []) (hproper : S.length < t.sourceDimensions)
    {targets : Option (List Nat)} (htargets : ∀ R ∈ targets, R = []) (options : AssemblyOptions)
    (extra : SeparationOptions) :
    reported (separate (.standard options) t.settled (some S) targets extra) =
      reported (separate (.standard options) t (some S) targets extra) := by
  have hnone : nonempty targets = none := by
    rw [nonempty, Option.filter_eq_none_iff]
    intro R hR
    simp [htargets R hR]
  have hR : Increasing (targets.getD []) t.targetDimensions := by
    rw [← getD_nonempty, hnone]
    exact increasing_nil _
  have hproper' : properSources t.sourceDimensions (some S) = some S :=
    properSources_eq_some_iff.mpr ⟨rfl, hne, hproper⟩
  by_cases hS : Increasing S t.sourceDimensions
  · have hsources : Increasing (Option.getD (some S) []) t.sourceDimensions := hS
    have hseparable : separableSources t.settled S none = separableSources t S none := by
      rw [separableSources, separableSources, determined_settled]
    rw [separate_eq (t := t) hsources hR, separate_eq (t := t.settled) (by simpa using hsources)
      (by simpa using hR), sourceDimensions_settled, hproper', hnone]
    show reported (bySources _ t.settled S none) = reported (bySources _ t S none)
    rw [reported_bySources_none ht.admissible hS hne, reported_bySources_none
      ht.settled.admissible (by simpa using hS) hne, hseparable]
  · have hrefused : ¬(Increasing (Option.getD (some S) []) t.sourceDimensions ∧
        Increasing (targets.getD []) t.targetDimensions) := fun h => hS h.1
    have hrefused' : ¬(Increasing (Option.getD (some S) []) t.settled.sourceDimensions ∧
        Increasing (targets.getD []) t.settled.targetDimensions) := by simpa using hrefused
    obtain ⟨argument, herror⟩ := separate_refused hrefused
    obtain ⟨argument', herror'⟩ := separate_refused hrefused'
    rw [herror, herror', reported_error, reported_error]

/-- Two of four coordinates mixed inside a pass-through, and then all of them, with coefficients
that are not determined at both places. -/
def incomplete : Transform SyntheticKernel Float :=
  chain none
    (passThrough none 1
      (linear none ⟨3, 3, #[2, Binary64.nan, 0, 1, 3, 0, 0, 0, 1], by decide +kernel⟩) 1)
    (linear none
      ⟨4, 5, #[Binary64.nan, 5, 0, Binary64.nan, 7, 0, 1, 1, 0, 0, 0, Binary64.nan, 0, 0, 1,
        0, 0, 0, 0, 1], by decide +kernel⟩)

/-- From the second coordinate the same two targets can be computed whether the transform is
settled or not, and from the third none. -/
theorem reported_incomplete :
    reported (separate (.standard {}) incomplete.settled (some [1]) none ⟨false⟩) =
        some ([1], [0, 2]) ∧
      reported (separate (.standard {}) incomplete (some [1]) none ⟨false⟩) =
        some ([1], [0, 2]) ∧
      reported (separate (.standard .verbatim) incomplete.settled (some [2]) (some []) ⟨true⟩) =
        none ∧
      reported (separate (.standard .verbatim) incomplete (some [2]) (some []) ⟨true⟩) = none := by
  have hwell : incomplete.WellFormed := by decide +kernel
  have hdims : incomplete.sourceDimensions = 4 := by decide +kernel
  have hfirst : reported (separate (.standard {}) incomplete (some [1]) none ⟨false⟩) =
      some ([1], [0, 2]) := by decide +kernel
  have hsecond : reported (separate (.standard .verbatim) incomplete (some [2]) (some []) ⟨true⟩) =
      none := by decide +kernel
  have hnone : ∀ R ∈ (none : Option (List Nat)), R = [] := fun R hR => by cases hR
  have hempty : ∀ R ∈ (some [] : Option (List Nat)), R = [] := fun R hR => by
    cases hR
    rfl
  have hsame := reported_settled hwell (List.cons_ne_nil 1 []) (by rw [hdims]; decide) hnone {}
    ⟨false⟩
  have hsame' := reported_settled hwell (List.cons_ne_nil 2 []) (by rw [hdims]; decide) hempty
    .verbatim ⟨true⟩
  exact ⟨hsame.trans hfirst, hfirst, hsame'.trans hsecond, hsecond⟩

end Binary64

end Separation
end SeparableTransforms
