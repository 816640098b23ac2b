import SeparableTransforms.Proofs.Transform.Descriptors
import SeparableTransforms.Proofs.Transform.LinearFolding
import SeparableTransforms.Proofs.Transform.Spanning

/-!
# Derivatives of linear chains

A chain of linear transforms can be kept as it is, or the transforms can be folded into
one.  The derivative of the chain is a product of linear parts, and the derivative of
what has been folded is the linear part of a product of matrices that have one more row
and one more column.  Both are computed with the same roundings: the last row of an
affine matrix is zero but for the offset, and a term with a zero factor is left out and
not added.  So the two derivatives are equal whatever the coefficients are, undetermined
and infinitely large ones included.
-/

namespace SeparableTransforms
namespace Transform

open Outcome

section LinearChains

variable {κ α : Type}

/-- One linear transform, or a chain to which linear transforms have been joined one by one. -/
inductive LinearChain : Transform κ α → Prop
  | single (id : NodeId) (matrix : DenseMatrix α) : LinearChain (linear id matrix)
  | snoc (id id' : NodeId) {t : Transform κ α} (h : LinearChain t) (matrix : DenseMatrix α) :
      LinearChain (chain id t (linear id' matrix))

variable [Kernel κ α] {s t : Transform κ α} {steps : List (Transform κ α)}

theorem LinearChain.foldlM_join (h : s.LinearChain)
    (hlinear : ∀ s ∈ steps, s.isLinear = true) (ht : steps.foldlM join s = .ok t) :
    t.LinearChain ∧ t.steps = s.steps ++ steps := by
  induction steps generalizing s with
  | nil =>
      obtain rfl : s = t := Except.ok.inj ht
      exact ⟨h, (List.append_nil _).symm⟩
  | cons next steps ih =>
      obtain ⟨id, matrix, rfl⟩ := isLinear_iff.mp (hlinear next List.mem_cons_self)
      rw [List.foldlM_cons] at ht
      obtain ⟨both, hboth, ht⟩ := bind_eq_ok_iff.mp ht
      unfold join at hboth
      split at hboth
      · cases hboth
      · obtain rfl : chain none s (linear id matrix) = both := Except.ok.inj hboth
        obtain ⟨hchain, hsteps⟩ := ih (.snoc none id h matrix)
          (fun s hs => hlinear s (List.mem_cons_of_mem _ hs)) ht
        exact ⟨hchain, by rw [hsteps, Transform.steps, List.append_assoc]; rfl⟩

/-- What linear transforms are joined to is such a chain. -/
theorem linearChain_of_joinAll (hlinear : ∀ s ∈ steps, s.isLinear = true)
    (h : joinAll steps = .ok (some t)) : t.LinearChain ∧ t.steps = steps := by
  cases steps with
  | nil => cases h
  | cons first rest =>
      obtain ⟨id, matrix, rfl⟩ := isLinear_iff.mp (hlinear first List.mem_cons_self)
      obtain ⟨t', ht', hsome⟩ := map_eq_ok_iff.mp h
      obtain rfl : t' = t := Option.some.inj hsome
      exact (LinearChain.single id matrix).foldlM_join
        (fun s hs => hlinear s (List.mem_cons_of_mem _ hs)) ht'

end LinearChains

section Derivatives

variable {κ α : Type} [Kernel κ α] [Scalar α] {id : NodeId} {matrix : DenseMatrix α}
  {t : Transform κ α} {p : List α}

/-- Whatever is asked of kernels, a linear transform has none. -/
theorem Coherent.fits_linear (h : (linear id matrix : Transform κ α).Coherent) :
    Fits (fun _ => True) (matrix.cols - 1) (linear id matrix : Transform κ α) (matrix.rows - 1) :=
  ⟨h, rfl, rfl⟩

/-- The chain rule for one more matrix. -/
theorem evaluate_snoc {id id' : NodeId} {next j : DenseMatrix α} {q : List α}
    (hfit : t.targetDimensions = next.cols - 1) (h : t.evaluate p true = .ok ⟨q, some j⟩) :
    (chain id t (linear id' next)).evaluate p true =
      .ok ⟨applyAffine next q, some ((coefficients next).product j)⟩ := by
  have hlen : q.length = next.cols - 1 := (shaped_of_evaluate h).point.trans hfit
  have hlast : (linear id' next : Transform κ α).evaluate q true =
      .ok ⟨applyAffine next q, some (coefficients next)⟩ := evaluate_linear_eq_ok hlen
  rw [evaluate_chain_of_fit hfit, h, ok_bind, hlast]
  rfl

end Derivatives

section Folded

variable {κ α : Type} [Kernel κ α] [Scalar α] [LawfulScalar α] {options : AssemblyOptions}
  {t : Transform κ α}

/-- The product with one more linear part is the linear part of what is folded. -/
theorem coefficients_folded {first next both j : DenseMatrix α} (hfirst : first.isAffine = true)
    (hfit : next.cols = first.rows) (hboth : (both == next.product first) = true)
    (hj : (j == coefficients first) = true) :
    ((coefficients next).product j == coefficients both) = true := by
  have hshape : (coefficients next).cols = j.rows := by
    rw [DenseMatrix.rows_congr hj]
    exact congrArg (· - 1) hfit
  have hchain : ((coefficients next).product j ==
      (coefficients next).product (coefficients first)) = true :=
    DenseMatrix.product_congr hshape (DenseMatrix.beq_refl _) hj
  have hfolded : (coefficients (next.product first) == coefficients both) = true :=
    coefficients_congr (DenseMatrix.beq_symm hboth)
  rw [coefficients_product hfirst hfit] at hfolded
  exact DenseMatrix.beq_trans hchain hfolded

/-- The derivative of a linear chain is the linear part of the matrix it folds into. -/
theorem LinearChain.evaluate_compose (h : t.LinearChain) (ht : t.Coherent)
    (hfold : options.foldLinear = true) :
    ∃ id matrix, (Assembler.standard options).compose t.steps = .ok (linear id matrix) ∧
      Fits (fun _ => True) t.sourceDimensions (linear id matrix : Transform κ α)
        t.targetDimensions ∧
      ∀ p, p.length = t.sourceDimensions → ∃ q j, t.evaluate p true = .ok ⟨q, some j⟩ ∧
        (j == coefficients matrix) = true := by
  induction h with
  | single id matrix =>
      refine ⟨id, matrix, rfl, ht.fits_linear, fun p hp => ?_⟩
      exact ⟨_, _, evaluate_linear_eq_ok hp, DenseMatrix.beq_refl _⟩
  | @snoc id id' t h next ih =>
      obtain ⟨ht, hnext, hfit⟩ := ht
      obtain ⟨id₁, first, hcompose, hfirst, hderivative⟩ := ih ht
      have hsteps : (chain id t (linear id' next)).steps = t.steps ++ [linear id' next] := rfl
      have hnext := hnext.fits_linear
      obtain ⟨haffine, hrows, -, -⟩ := hfirst.linear
      obtain ⟨-, -, hcols, -⟩ := hnext.linear
      have hcols : next.cols = first.rows := by
        simp only [sourceDimensions] at hfit
        omega
      rw [hfit] at hfirst
      obtain ⟨both, hboth, hsame, hfits⟩ := concatenateWith_linear hfold hfirst hnext
      refine ⟨none, both, ?_, hfits, fun p hp => ?_⟩
      · rw [hsteps, compose_snoc t.steps_ne_nil, hcompose]
        exact hboth
      · obtain ⟨q, j, hq, hj⟩ := hderivative p hp
        exact ⟨_, _, evaluate_snoc hfit hq, coefficients_folded haffine hcols hsame hj⟩

end Folded

section Binary64

variable {κ : Type} [Kernel κ Float] {options : AssemblyOptions} {t : Transform κ Float}

/-- A linear chain has a derivative at every point, and it is equal to the derivative of the linear
transform that its steps are folded into.  Points of another length are refused alike. -/
theorem standard_compose_derivative (h : t.LinearChain) (ht : t.Coherent)
    (hfold : options.foldLinear = true) :
    ∃ id matrix, (Assembler.standard options).compose t.steps = .ok (linear id matrix) ∧ ∀ p,
      (p.length = t.sourceDimensions → (t.derivative p).isOk = true) ∧
      Matches (fun j j' => (j == j') = true) (t.derivative p)
        ((linear id matrix : Transform κ Float).derivative p) := by
  obtain ⟨id, matrix, hcompose, hfits, hderivative⟩ := h.evaluate_compose ht hfold
  refine ⟨id, matrix, hcompose, fun p => ?_⟩
  by_cases hp : p.length = t.sourceDimensions
  · obtain ⟨q, j, hq, hj⟩ := hderivative p hp
    have hlinear : (linear id matrix : Transform κ Float).evaluate p true =
        .ok ⟨applyAffine matrix p, some (coefficients matrix)⟩ :=
      evaluate_linear_eq_ok (hp.trans hfits.source.symm)
    rw [derivative_of_evaluate hq, derivative_of_evaluate hlinear]
    exact ⟨fun _ => rfl, .ok hj⟩
  · have hp' : p.length ≠ (linear id matrix : Transform κ Float).sourceDimensions :=
      hfits.source ▸ hp
    rw [derivative_of_length_ne hp, derivative_of_length_ne hp', hfits.source]
    exact ⟨fun hlen => absurd hlen hp, .error _⟩

/-- Three matrices with an undetermined and an infinitely large coefficient, joined one after the
other. -/
def undeterminedChain : Transform SyntheticKernel Float :=
  chain none
    (chain none (linear (some 1) ⟨3, 3, #[Binary64.nan, 0, 1, 0.1, 3, 0, 0, 0, 1], rfl⟩)
      (linear (some 2) ⟨3, 3, #[0, 1 / 0, 2, 0.7, 0, 0, 0, 0, 1], rfl⟩))
    (linear (some 3) ⟨2, 3, #[0.3, 1, -1 / 0, 0, 0, 1], rfl⟩)

/-- The undetermined coefficient and the infinitely large ones are in the derivative as well. -/
theorem derivative_undeterminedChain :
    ∃ id matrix, (Assembler.standard {}).compose undeterminedChain.steps =
        .ok (linear id matrix) ∧
      (undeterminedChain.derivative [1, 2]).isOk = true ∧
      Matches (fun j j' => (j == j') = true) (undeterminedChain.derivative [1, 2])
        ((linear id matrix : Transform SyntheticKernel Float).derivative [1, 2]) := by
  have hjoined : joinAll undeterminedChain.steps = .ok (some undeterminedChain) := rfl
  obtain ⟨hchain, -⟩ := linearChain_of_joinAll (by decide) hjoined
  obtain ⟨id, matrix, hcompose, hderivative⟩ :=
    standard_compose_derivative hchain (by decide +kernel)
      (show ({} : AssemblyOptions).foldLinear = true from rfl)
  exact ⟨id, matrix, hcompose, (hderivative [1, 2]).1 rfl, (hderivative [1, 2]).2⟩

end Binary64

end Transform
end SeparableTransforms
