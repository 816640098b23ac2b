import SeparableTransforms.Proofs.Kernels.Synthetic
import SeparableTransforms.Proofs.Transform.Collapsing
import SeparableTransforms.Proofs.Transform.Resemblance

/-!
# Equal descriptors and equal functions

A descriptor does not say what a kernel computes.  But if two transforms have equal
descriptors, and the kernels in corresponding places give the same outcome at the same
points, then so do the transforms, up to the sign of zero and with the same derivatives
or the same errors.

The outcome of every node is made out of the outcomes inside it by operations that
respect this relation: weighted sums, copies of coordinates, and for the derivatives
products and blocks of ones and zeros around a matrix.
-/

namespace SeparableTransforms

open Outcome

section Outcomes

variable {α : Type} [Scalar α]

theorem sameOutcome_iff_matches {x y : Except TransformError (Evaluation α)} :
    SameOutcome x y ↔ Matches SameEvaluation x y := by
  constructor
  · intro h
    cases h with
    | error e => exact .error e
    | ok he => exact .ok he
  · intro h
    cases h with
    | error e => exact .error e
    | ok he => exact .ok he

end Outcomes

namespace Transform

section Derivatives

variable {α : Type} [Scalar α] [LawfulScalar α] {j j' m m' : DenseMatrix α}

theorem coefficients_congr (h : (m == m') = true) : (coefficients m == coefficients m') = true := by
  unfold coefficients
  rw [DenseMatrix.rows_congr h, DenseMatrix.cols_congr h]
  exact DenseMatrix.beq_ofFn fun r c _ _ => DenseMatrix.entry_congr h r c

theorem surround_congr (h : (j == j') = true) (k n targets sources : Nat) :
    (surround k j n targets sources == surround k j' n targets sources) = true := by
  refine DenseMatrix.beq_ofFn fun r c _ _ => ?_
  split_ifs <;> first | exact Same.refl _ | exact DenseMatrix.entry_congr h _ _

/-- What the chain rule makes of the same evaluations. -/
theorem matches_chainRule {middle middle' final final' : Evaluation α}
    (hmiddle : SameEvaluation middle middle') (hfinal : SameEvaluation final final') :
    Matches (ε := TransformError) SameEvaluation
      (match final.jacobian, middle.jacobian with
        | some j₂, some j₁ => do
            let j ← TransformError.ofMatrix (j₂.multiply j₁)
            return ⟨final.point, some j⟩
        | _, _ => return ⟨final.point, none⟩)
      (match final'.jacobian, middle'.jacobian with
        | some j₂, some j₁ => do
            let j ← TransformError.ofMatrix (j₂.multiply j₁)
            return ⟨final'.point, some j⟩
        | _, _ => return ⟨final'.point, none⟩) := by
  obtain ⟨point, jacobian⟩ := final
  obtain ⟨point', jacobian'⟩ := final'
  obtain ⟨hpoint, hjacobian⟩ := hfinal
  obtain ⟨_, first⟩ := middle
  obtain ⟨_, first'⟩ := middle'
  cases hjacobian with
  | none => exact .ok ⟨hpoint, .none⟩
  | some hj₂ =>
      cases hmiddle.jacobian with
      | none => exact .ok ⟨hpoint, .none⟩
      | some hj₁ =>
          exact (DenseMatrix.multiply_congr hj₂ hj₁).ofMatrix.bind fun _ _ hj =>
            .ok ⟨hpoint, .some hj⟩

end Derivatives

section Kernels

variable {κ κ' α : Type} [Kernel κ α] [Kernel κ' α] [Scalar α] {id id' : NodeId} {k : κ} {k' : κ'}
  {p q : List α} {derivative : Bool}

theorem checkJacobian_congr {j j' : DenseMatrix α}
    (hsource : Kernel.sourceDimensions k = Kernel.sourceDimensions k')
    (htarget : Kernel.targetDimensions k = Kernel.targetDimensions k') (hj : (j == j') = true) :
    Kernel.checkJacobian k j = Kernel.checkJacobian k' j' := by
  unfold Kernel.checkJacobian
  rw [DenseMatrix.rows_congr hj, DenseMatrix.cols_congr hj, hsource, htarget]

/-- An evaluation of two transforms that take as many coordinates may be compared at points of the
right length only. -/
theorem sameOutcome_of_length {t : Transform κ α} {t' : Transform κ' α}
    (hsource : t.sourceDimensions = t'.sourceDimensions) (hpq : SamePoint p q)
    (h : p.length = t.sourceDimensions → q.length = t'.sourceDimensions →
      SameOutcome (t.evaluate p derivative) (t'.evaluate q derivative)) :
    SameOutcome (t.evaluate p derivative) (t'.evaluate q derivative) := by
  by_cases hlen : p.length = t.sourceDimensions
  · exact h hlen (hpq.length_eq ▸ hsource ▸ hlen)
  · have hlen' : q.length ≠ t'.sourceDimensions := hpq.length_eq ▸ hsource ▸ hlen
    rw [evaluate_of_length_ne hlen, evaluate_of_length_ne hlen', hsource, hpq.length_eq]
    exact .error _

/-- Kernel nodes give the same outcome if the kernels declare the same sizes and compute the
same. -/
theorem sameOutcome_kernel (hsource : Kernel.sourceDimensions k = Kernel.sourceDimensions k')
    (htarget : Kernel.targetDimensions k = Kernel.targetDimensions k') (hpq : SamePoint p q)
    (h : Matches SameEvaluation (Kernel.evaluate k p derivative)
      (Kernel.evaluate k' q derivative)) :
    SameOutcome ((kernel id k : Transform κ α).evaluate p derivative)
      ((kernel id' k' : Transform κ' α).evaluate q derivative) := by
  refine sameOutcome_of_length hsource hpq fun hlen hlen' => ?_
  rw [sameOutcome_iff_matches, evaluate_kernel hlen, evaluate_kernel hlen']
  unfold Kernel.evaluateChecked
  refine h.bind fun e e' he => ?_
  obtain ⟨point, jacobian⟩ := e
  obtain ⟨point', jacobian'⟩ := e'
  obtain ⟨hpoint, hjacobian⟩ := he
  simp only [hpoint.length_eq, htarget]
  split
  · exact .error _
  · cases hjacobian with
    | none => exact .ok ⟨hpoint, .none⟩
    | @some j j' hj =>
        show Matches SameEvaluation (Kernel.checkJacobian k j >>= fun _ => .ok ⟨point, some j⟩)
          (Kernel.checkJacobian k' j' >>= fun _ => .ok ⟨point', some j'⟩)
        rw [checkJacobian_congr hsource htarget hj]
        cases Kernel.checkJacobian k' j' with
        | error e => exact .error e
        | ok _ => exact .ok ⟨hpoint, .some hj⟩

/-- The kernels of two transforms correspond one to one and give the same outcomes at the same
points. -/
def KernelsAgree (t : Transform κ α) (t' : Transform κ' α) : Prop :=
  List.Forall₂ (fun node node' => ∀ p q derivative, SamePoint p q →
    SameOutcome ((kernel node.1 node.2 : Transform κ α).evaluate p derivative)
      ((kernel node'.1 node'.2 : Transform κ' α).evaluate q derivative)) t.kernels t'.kernels

theorem Resembles.length_kernels {t : Transform κ α} {t' : Transform κ' α} (h : t.Resembles t') :
    t.kernels.length = t'.kernels.length := by
  induction h with
  | chain _ _ iha ihb => simp only [kernels, List.length_append, iha, ihb]
  | passThrough _ ih => exact ih
  | _ => rfl

theorem KernelsAgree.chain {a b : Transform κ α} {a' b' : Transform κ' α}
    (hlen : a.kernels.length = a'.kernels.length)
    (h : KernelsAgree (.chain id a b) (.chain id' a' b')) :
    KernelsAgree a a' ∧ KernelsAgree b b' := by
  have hfirst := List.forall₂_take_append _ a'.kernels b'.kernels h
  have hsecond := List.forall₂_drop_append _ a'.kernels b'.kernels h
  simp only [kernels, ← hlen, List.take_left, List.drop_left] at hfirst hsecond
  exact ⟨hfirst, hsecond⟩

end Kernels

section Evaluating

variable {κ κ' α : Type} [Kernel κ α] [Kernel κ' α] [Scalar α] [LawfulScalar α]
  {t : Transform κ α} {t' : Transform κ' α} {p q : List α}

/-- Transforms that resemble each other and whose kernels agree give the same outcome at the same
points. -/
theorem Resembles.sameOutcome (h : t.Resembles t') (hk : KernelsAgree t t') (hpq : SamePoint p q)
    (derivative : Bool) : SameOutcome (t.evaluate p derivative) (t'.evaluate q derivative) := by
  induction h generalizing p q with
  | linear matrix =>
      refine sameOutcome_of_length (Resembles.linear matrix).source hpq fun hlen hlen' => ?_
      rw [evaluate_linear_eq_ok hlen, evaluate_linear_eq_ok hlen']
      refine .ok ⟨applyAffine_congr matrix hpq hlen, ?_⟩
      cases derivative with
      | false => exact .none
      | true => exact .some (coefficients_congr matrix)
  | @chain id id' a b a' b' first second iha ihb =>
      obtain ⟨hka, hkb⟩ := hk.chain first.length_kernels
      refine sameOutcome_of_length (Resembles.chain first second).source hpq fun hlen hlen' => ?_
      have hlen : p.length = a.sourceDimensions := hlen
      have hlen' : q.length = a'.sourceDimensions := hlen'
      rw [sameOutcome_iff_matches, evaluate_chain hlen, evaluate_chain hlen']
      refine (sameOutcome_iff_matches.mp (iha hka hpq)).bind fun middle middle' hmiddle => ?_
      refine (sameOutcome_iff_matches.mp (ihb hkb hmiddle.point)).bind fun final final' hfinal => ?_
      exact matches_chainRule hmiddle hfinal
  | @passThrough id id' k n t t' inner ih =>
      refine sameOutcome_of_length (Resembles.passThrough inner).source hpq fun hlen hlen' => ?_
      rw [sameOutcome_iff_matches, evaluate_passThrough hlen, evaluate_passThrough hlen',
        ← inner.source, ← inner.target]
      have hinner := ih hk ((hpq.drop k).take t.sourceDimensions)
      refine (sameOutcome_iff_matches.mp hinner).bind fun e e' he => .ok ⟨?_, ?_⟩
      · exact ((hpq.take k).append he.point).append (hpq.drop _)
      · obtain ⟨_, jacobian⟩ := e
        obtain ⟨_, jacobian'⟩ := e'
        cases he.jacobian with
        | none => exact .none
        | some hj => exact .some (surround_congr hj _ _ _ _)
  | kernel name source target => exact (List.forall₂_cons.mp hk).1 p q derivative hpq

/-- The images and the derivatives of transforms that resemble each other. -/
theorem Resembles.matches_apply (h : t.Resembles t') (hk : KernelsAgree t t')
    (hpq : SamePoint p q) : Matches SamePoint (t.apply p) (t'.apply q) :=
  (sameOutcome_iff_matches.mp (h.sameOutcome hk hpq false)).map fun _ _ he => he.point

theorem Resembles.matches_derivative (h : t.Resembles t') (hk : KernelsAgree t t')
    (hpq : SamePoint p q) :
    Matches (fun j j' => (j == j') = true) (t.derivative p) (t'.derivative q) := by
  have hfull : Matches (fun r r' => (r.2 == r'.2) = true) (t.applyWithDerivative p)
      (t'.applyWithDerivative q) := by
    refine (sameOutcome_iff_matches.mp (h.sameOutcome hk hpq true)).bind fun e e' he => ?_
    obtain ⟨_, jacobian⟩ := e
    obtain ⟨_, jacobian'⟩ := e'
    cases he.jacobian with
    | none => exact .error _
    | some hj => exact .ok hj
  exact hfull.map fun _ _ => id

end Evaluating

section Binary64

variable {κ κ' : Type} [Kernel κ Float] [Kernel κ' Float] {t : Transform κ Float}
  {t' : Transform κ' Float}

/-- Transforms with equal descriptors whose kernels agree give the same image of every point, or the
same error, and the same derivative. -/
theorem matches_of_describe (h : (t.describe == t'.describe) = true) (hk : KernelsAgree t t')
    (p : List Float) :
    Matches SamePoint (t.apply p) (t'.apply p) ∧
      Matches (fun j j' => (j == j') = true) (t.derivative p) (t'.derivative p) := by
  have hsame := resembles_iff_describe.mpr h
  exact ⟨hsame.matches_apply hk (SamePoint.refl p), hsame.matches_derivative hk (SamePoint.refl p)⟩

/-- Scales two of three coordinates, leaves the last one undetermined and curves the first two. -/
def flattened (zero : Float) : Transform SyntheticKernel Float :=
  chain none
    (linear none ⟨4, 4, #[2, zero, zero, 1, 0, 3, zero, 0, 0, zero, Binary64.nan, 0, 0, 0, 0, 1],
      rfl⟩)
    (passThrough none 0 (kernel none (.make "flat" 2 2 zero 2 .declared none none)) 1)

/-- Zeros of either sign in a matrix and in a kernel make no difference. -/
theorem matches_flattened :
    ((flattened 0).derivative [1, -0, Binary64.nan]).isOk = true ∧
    Matches SamePoint ((flattened 0).apply [1, -0, Binary64.nan])
      ((flattened (-0)).apply [1, -0, Binary64.nan]) ∧
    Matches (fun j j' => (j == j') = true) ((flattened 0).derivative [1, -0, Binary64.nan])
      ((flattened (-0)).derivative [1, -0, Binary64.nan]) := by
  have hzero : Same (0 : Float) (-0) := .of_beq (by decide +kernel)
  have hkernel : ∀ p q derivative, SamePoint p q →
      SameOutcome
        ((kernel none (.make "flat" 2 2 0 2 .declared none none) :
          Transform SyntheticKernel Float).evaluate p derivative)
        ((kernel none (.make "flat" 2 2 (-0) 2 .declared none none) :
          Transform SyntheticKernel Float).evaluate q derivative) :=
    fun p q derivative hpq =>
      sameOutcome_kernel rfl rfl hpq (SyntheticKernel.matches_evaluate hzero hpq derivative)
  have hdescribe : ((flattened 0).describe == (flattened (-0)).describe) = true := by
    decide +kernel
  exact ⟨by decide +kernel,
    matches_of_describe hdescribe (.cons hkernel .nil) [1, -0, Binary64.nan]⟩

end Binary64

end Transform
end SeparableTransforms
