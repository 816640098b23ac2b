import SeparableTransforms.Proofs.Binary64.Agreement
import SeparableTransforms.Proofs.DenseMatrix.Narrowing
import SeparableTransforms.Proofs.Transform.Simulation

/-!
# Collapsed pass-throughs

The standard assembler never wraps a transform more than once, and it does not wrap
a linear one at all: nested wrappers are merged, and a matrix is expanded by the
coordinates that are copied.  What it builds has the dimensions of the wrapper, and
it is evaluated with the same outcome at every point.

The derivative of a wrapper is the derivative inside with a block of ones and zeros
on either side.  Around a linear part this is the linear part of the expanded
matrix, and around such blocks it is one larger block, entry for entry.  Only the
copied coordinates are computed in another way: an expanded matrix multiplies them
by one and adds zeros, which keeps them up to the sign of zero.
-/

namespace SeparableTransforms

section Outcomes

variable {α : Type} [Scalar α]

/-- Evaluations with the same point, and with equal derivatives or none. -/
structure SameEvaluation (e e' : Evaluation α) : Prop where
  point : SamePoint e.point e'.point
  jacobian : Option.Rel (fun j j' => (j == j') = true) e.jacobian e'.jacobian

/-- Either the same error, or the same evaluation. -/
inductive SameOutcome :
    Except TransformError (Evaluation α) → Except TransformError (Evaluation α) → Prop
  | error (e : TransformError) : SameOutcome (.error e) (.error e)
  | ok {e e' : Evaluation α} (h : SameEvaluation e e') : SameOutcome (.ok e) (.ok e')

variable [LawfulScalar α]

theorem SameEvaluation.refl (e : Evaluation α) : SameEvaluation e e := by
  refine ⟨SamePoint.refl _, ?_⟩
  cases e.jacobian with
  | none => exact .none
  | some j => exact .some (DenseMatrix.beq_refl j)

theorem SameOutcome.of_eq {x y : Except TransformError (Evaluation α)} (h : x = y) :
    SameOutcome x y := by
  subst h
  cases x with
  | error e => exact .error e
  | ok e => exact .ok (SameEvaluation.refl e)

end Outcomes

namespace Transform

open Outcome

section Derivatives

variable {α : Type} [Scalar α] {j m : DenseMatrix α} {k k' n n' s t : Nat}

/-- The coefficients of an affine matrix without the offsets. -/
def coefficients (m : DenseMatrix α) : DenseMatrix α :=
  DenseMatrix.ofFn (m.rows - 1) (m.cols - 1) m.entry

theorem entry_coefficients {r c : Nat} (hr : r < m.rows - 1) (hc : c < m.cols - 1) :
    (coefficients m).entry r c = m.entry r c :=
  DenseMatrix.entry_ofFn _ hr hc

theorem linearPart_eq_ok (m : DenseMatrix α) : linearPart m = .ok (coefficients m) := by
  have hrows : m.selectRows (List.range (m.rows - 1)) =
      .ok (m.takeRows (List.range (m.rows - 1))) := by
    refine DenseMatrix.selectRows_eq_ok_iff.mpr fun r hr => ?_
    have hr := List.mem_range.mp hr
    omega
  have hcols : (m.takeRows (List.range (m.rows - 1))).selectColumns (List.range (m.cols - 1)) =
      .ok ((m.takeRows (List.range (m.rows - 1))).takeColumns (List.range (m.cols - 1))) := by
    refine DenseMatrix.selectColumns_eq_ok_iff.mpr fun c hc => ?_
    have hc := List.mem_range.mp hc
    show c < m.cols
    omega
  unfold linearPart DenseMatrix.submatrix
  simp only [hrows, hcols, Except.ok.injEq]
  refine DenseMatrix.ext_entry (List.length_range) (List.length_range) fun r c hr hc => ?_
  have hr : r < (List.range (m.rows - 1)).length := hr
  have hc : c < (List.range (m.cols - 1)).length := hc
  have hr' := List.length_range ▸ hr
  have hc' := List.length_range ▸ hc
  rw [DenseMatrix.entry_takeColumns hr hc, DenseMatrix.entry_takeRows hr (by simp; omega),
    entry_coefficients hr' hc', List.getElem_range, List.getElem_range]

@[simp] theorem rows_surround : (surround k j n t s).rows = k + t + n :=
  rfl

@[simp] theorem cols_surround : (surround k j n t s).cols = k + s + n :=
  rfl

theorem entry_surround {r c : Nat} (hr : r < k + t + n) (hc : c < k + s + n) :
    (surround k j n t s).entry r c =
      if r < k then if c = r then 1 else 0
      else if r < k + t then if k ≤ c ∧ c < k + s then j.entry (r - k) (c - k) else 0
      else if c + t = r + s then 1 else 0 :=
  DenseMatrix.entry_ofFn _ hr hc

/-- A derivative with nothing copied around it. -/
theorem surround_none (hrows : j.rows = t) (hcols : j.cols = s) : surround 0 j 0 t s = j := by
  subst hrows hcols
  refine DenseMatrix.ext_entry (by simp) (by simp) fun r c hr hc => ?_
  rw [rows_surround] at hr
  rw [cols_surround] at hc
  rw [entry_surround hr hc, if_neg (by omega), if_pos (by omega), if_pos (by omega), Nat.sub_zero,
    Nat.sub_zero]

/-- Copies around copies are copies. -/
theorem surround_surround :
    surround k (surround k' j n' t s) n (k' + t + n') (k' + s + n') =
      surround (k + k') j (n + n') t s := by
  refine DenseMatrix.ext_entry (by simp only [rows_surround]; omega)
    (by simp only [cols_surround]; omega) fun r c hr hc => ?_
  rw [rows_surround] at hr
  rw [cols_surround] at hc
  have hr' : r < k + k' + t + (n + n') := by omega
  have hc' : c < k + k' + s + (n + n') := by omega
  rw [entry_surround hr hc, entry_surround hr' hc']
  by_cases hmid : (k ≤ r ∧ r < k + (k' + t + n')) ∧ k ≤ c ∧ c < k + (k' + s + n')
  · -- the coordinates that either wrapper copies are told apart by the inner one
    obtain ⟨⟨hr₁, hr₂⟩, hc₁, hc₂⟩ := hmid
    have hr'' : r - k < k' + t + n' := by omega
    have hc'' : c - k < k' + s + n' := by omega
    rw [if_neg (by omega), if_pos hr₂, if_pos ⟨hc₁, hc₂⟩, entry_surround hr'' hc'', Nat.sub_sub,
      Nat.sub_sub]
    split_ifs <;> first | rfl | omega
  · split_ifs <;> first | rfl | omega

/-- The coefficients of an expanded matrix are those of the matrix with copies around them. -/
theorem coefficients_expand :
    coefficients (expand k m n) = surround k (coefficients m) n (m.rows - 1) (m.cols - 1) := by
  refine DenseMatrix.ext_entry rfl rfl fun r c hr hc => ?_
  have hr : r < k + (m.rows - 1) + n := hr
  have hc : c < k + (m.cols - 1) + n := hc
  rw [entry_coefficients (m := expand k m n) hr hc, entry_surround hr hc]
  rcases Nat.lt_or_ge r k with hlead | hlead
  · rw [if_pos hlead, entry_expand_leading hlead (by omega)]
  rw [if_neg (by omega)]
  rcases Nat.lt_or_ge r (k + (m.rows - 1)) with hinner | htrail
  · rw [if_pos hinner, entry_expand_inner hlead hinner (by omega), if_neg (by omega)]
    by_cases hcol : k ≤ c ∧ c < k + (m.cols - 1)
    · rw [if_pos hcol, if_pos hcol, entry_coefficients (by omega) (by omega)]
    · rw [if_neg hcol, if_neg hcol]
  · rw [if_neg (by omega), entry_expand_trailing htrail (by omega) (by omega)]

/-- The linear part of a product is the product of the linear parts: the last row of an affine
matrix is zero but for the offset, and so the term with it is left out. -/
theorem coefficients_product [LawfulScalar α] {m₁ m₂ : DenseMatrix α} (h₁ : m₁.isAffine = true)
    (hfit : m₂.cols = m₁.rows) :
    coefficients (m₂.product m₁) = (coefficients m₂).product (coefficients m₁) := by
  refine DenseMatrix.ext_entry rfl rfl fun r c hr hc => ?_
  have hr : r < m₂.rows - 1 := hr
  have hc : c < m₁.cols - 1 := hc
  obtain ⟨n, hn⟩ : ∃ n, m₂.cols = n + 1 :=
    ⟨m₂.cols - 1, by have := DenseMatrix.isAffine_rows_pos h₁; omega⟩
  have hlast := DenseMatrix.isAffine_lastRow_beq_zero h₁ hc
  rw [show m₁.rows - 1 = n by omega] at hlast
  have hterms : ∀ sum : DoubleDouble α, ∀ k ∈ List.range n,
      DenseMatrix.accumulate sum (m₂.entry r k) (m₁.entry k c) =
        DenseMatrix.accumulate sum ((coefficients m₂).entry r k)
          ((coefficients m₁).entry k c) := by
    intro sum k hk
    have hk := List.mem_range.mp hk
    rw [entry_coefficients hr (by omega), entry_coefficients (by omega) hc]
  have hcols : (coefficients m₂).cols = n := by
    show m₂.cols - 1 = n
    omega
  calc (coefficients (m₂.product m₁)).entry r c
      = DenseMatrix.dot m₂ m₁ r c := by
        rw [entry_coefficients (m := m₂.product m₁) hr hc,
          DenseMatrix.entry_product (by omega) (by omega)]
    _ = DenseMatrix.dot (coefficients m₂) (coefficients m₁) r c := by
        unfold DenseMatrix.dot
        rw [hn, hcols, List.range_succ, List.foldl_append, List.foldl_cons, List.foldl_nil,
          DenseMatrix.accumulate_of_isZero_right hlast, List.foldl_ext _ _ _ hterms]
    _ = ((coefficients m₂).product (coefficients m₁)).entry r c :=
        (DenseMatrix.entry_product (a := coefficients m₂) hr hc).symm

end Derivatives

section Evaluating

variable {κ α : Type} [Kernel κ α] [Scalar α] {id id' : NodeId} {k k' n n' : Nat}
  {t : Transform κ α} {m : DenseMatrix α} {p : List α} {derivative : Bool}

/-- The evaluation of a linear node never fails on a point of the right length. -/
theorem evaluate_linear_eq_ok (hlen : p.length = m.cols - 1) :
    (linear id m : Transform κ α).evaluate p derivative = .ok ⟨applyAffine m p,
      if derivative then some (coefficients m) else none⟩ := by
  rw [evaluate_linear hlen]
  cases derivative with
  | false => rfl
  | true =>
      rw [linearPart_eq_ok]
      rfl

/-- A wrapper that copies nothing is evaluated as what it wraps. -/
theorem evaluate_passThrough_none :
    (passThrough id 0 t 0).evaluate p derivative = t.evaluate p derivative := by
  by_cases hlen : p.length = t.sourceDimensions
  · rw [evaluate_passThrough (by omega), List.drop_zero, List.take_of_length_le (by omega)]
    cases he : t.evaluate p derivative with
    | error e => rfl
    | ok e =>
        have hshape := shaped_of_evaluate he
        simp only [ok_bind, pure_eq_ok, List.take_zero, List.nil_append, Nat.zero_add,
          List.drop_of_length_le (Nat.le_of_eq hlen), List.append_nil]
        cases hj : e.jacobian with
        | none => rw [Option.map_none, ← hj]
        | some j =>
            rw [Option.map_some, surround_none (hshape.rows j hj) (hshape.cols j hj), ← hj]
  · rw [evaluate_of_length_ne hlen, evaluate_of_length_ne (by simpa [sourceDimensions] using hlen)]
    simp [sourceDimensions]

/-- A wrapper around a wrapper is evaluated as one that copies what both copy. -/
theorem evaluate_passThrough_nested :
    (passThrough id k (passThrough id' k' t n') n).evaluate p derivative =
      (passThrough id (k + k') t (n + n')).evaluate p derivative := by
  have hdims : (passThrough id k (passThrough id' k' t n') n).sourceDimensions =
      (passThrough id (k + k') t (n + n')).sourceDimensions := by
    simp only [sourceDimensions]
    omega
  by_cases hlen : p.length = k + (k' + t.sourceDimensions + n') + n
  · have hlen' : p.length = k + k' + t.sourceDimensions + (n + n') := by omega
    have hmid : ((p.drop k).take (k' + t.sourceDimensions + n')).length =
        k' + t.sourceDimensions + n' := by simp; omega
    have hfirst := take_take_drop p k (i := k') (s := k' + t.sourceDimensions + n') (by omega)
    have hlast := drop_take_append p k (i := k' + t.sourceDimensions)
      (s := k' + t.sourceDimensions + n') (by omega)
    rw [evaluate_passThrough hlen, evaluate_passThrough hlen']
    simp only [sourceDimensions, targetDimensions]
    rw [evaluate_passThrough hmid, drop_take_drop p k (by omega)]
    cases t.evaluate ((p.drop (k + k')).take t.sourceDimensions) derivative with
    | error e => rfl
    | ok e =>
        simp only [ok_bind, pure_eq_ok, Except.ok.injEq, Evaluation.mk.injEq]
        refine ⟨?_, ?_⟩
        · rw [← hfirst, Nat.add_assoc k k', ← hlast]
          simp only [List.append_assoc]
        · rw [Option.map_map]
          exact congrArg (e.jacobian.map ·) (funext fun j => surround_surround)
  · rw [evaluate_of_length_ne hlen, evaluate_of_length_ne (hdims ▸ hlen), hdims]

variable [LawfulScalar α]

/-- An expanded matrix is evaluated as a wrapper around the matrix. -/
theorem sameOutcome_expand :
    SameOutcome ((linear none (expand k m n) : Transform κ α).evaluate p derivative)
      ((passThrough id k (linear id' m) n : Transform κ α).evaluate p derivative) := by
  by_cases hlen : p.length = k + (m.cols - 1) + n
  · have hmid : ((p.drop k).take (m.cols - 1)).length = m.cols - 1 := by simp; omega
    rw [evaluate_linear_eq_ok (by simpa using hlen), evaluate_passThrough hlen, sourceDimensions,
      evaluate_linear_eq_ok hmid]
    refine .ok ⟨samePoint_expand hlen, ?_⟩
    cases derivative with
    | false => exact .none
    | true =>
        rw [if_pos rfl, if_pos rfl, coefficients_expand]
        exact .some (DenseMatrix.beq_refl _)
  · rw [evaluate_of_length_ne (by simpa [sourceDimensions] using hlen), evaluate_of_length_ne hlen]
    simp only [sourceDimensions, cols_expand, Nat.add_sub_cancel]
    exact .error _

end Evaluating

section Collapsing

variable {κ α : Type} [Kernel κ α] [Scalar α] [LawfulScalar α] {t : Transform κ α} {k n : Nat}

/-- What the simplest form of a wrapper has in common with the wrapper. -/
structure Collapsed (wrapper t : Transform κ α) : Prop where
  source : t.sourceDimensions = wrapper.sourceDimensions
  target : t.targetDimensions = wrapper.targetDimensions
  outcome : ∀ p derivative, SameOutcome (t.evaluate p derivative) (wrapper.evaluate p derivative)

theorem passThroughSimplified_collapsed (id : NodeId) (k : Nat) (t : Transform κ α) (n : Nat) :
    ∃ t', passThroughSimplified k t n = .ok t' ∧ Collapsed (passThrough id k t n) t' := by
  fun_induction passThroughSimplified k t n with
  | case1 t k n hnone =>
      obtain ⟨rfl, rfl⟩ := hnone
      refine ⟨t, rfl, by simp [sourceDimensions], by simp [targetDimensions],
        fun p derivative => ?_⟩
      exact .of_eq evaluate_passThrough_none.symm
  | case2 k n hsome id' matrix =>
      have hcols : 2 ≤ (expand k matrix n).cols := by rw [cols_expand]; omega
      exact ⟨_, ofMatrix_eq_ok isAffine_expand hcols, rfl, rfl, fun p derivative =>
        sameOutcome_expand⟩
  | case3 k n hsome id' k' inner n' ih =>
      obtain ⟨t', ht', hsource, htarget, houtcome⟩ := ih
      refine ⟨t', ht', hsource.trans ?_, htarget.trans ?_, fun p derivative => ?_⟩
      · simp only [sourceDimensions]
        omega
      · simp only [targetDimensions]
        omega
      · rw [evaluate_passThrough_nested]
        exact houtcome p derivative
  | case4 k n hsome t => exact ⟨_, rfl, rfl, rfl, fun p derivative => .of_eq rfl⟩

end Collapsing

section Binary64

variable {κ : Type} [Kernel κ Float]

end Binary64

end Transform
end SeparableTransforms
