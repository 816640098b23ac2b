import SeparableTransforms.Kernels.Synthetic
import SeparableTransforms.Proofs.Binary64.Agreement
import SeparableTransforms.Proofs.Transform.Collapsing
import SeparableTransforms.Proofs.Transform.Evaluation

/-!
# Synthetic kernels are stable

The image of a point under a synthetic kernel is made of sums and products, which
are the same for the same coordinates, and whether it is refused depends on its length
only.  Its derivative is made in the same way.
-/

namespace SeparableTransforms
namespace SyntheticKernel

open Outcome

section Values

variable {curvature curvature' : Float} {p q : List Float}

theorem same_foldl_add (h : SamePoint p q) :
    Same (p.foldl (fun s x => s + x) 0) (q.foldl (fun s x => s + x) 0) := by
  have hfold : ∀ {a b : Float}, Same a b →
      Same (p.foldl (fun s x => s + x) a) (q.foldl (fun s x => s + x) b) := by
    induction h with
    | nil => exact id
    | cons hx _ ih => exact fun hab => ih (LawfulScalar.add_congr hab hx)
  exact hfold (Same.refl 0)

/-- Synthetic kernels of the same curvature map the same points to the same points. -/
theorem image_congr (sources outputs : Nat) (hcurvature : Same curvature curvature')
    (h : SamePoint p q) :
    SamePoint (image sources curvature outputs p) (image sources curvature' outputs q) := by
  have hsum := same_foldl_add h
  refine samePoint_of_getD (by simp [image]) fun i hi => ?_
  have hi : i < outputs := by simpa [image] using hi
  simp only [image, List.getD_eq_getElem?_getD, List.getElem?_map, List.getElem?_range hi,
    Option.map_some, Option.getD_some]
  refine LawfulScalar.add_congr (LawfulScalar.mul_congr ?_ (Same.refl _))
    (LawfulScalar.mul_congr (LawfulScalar.mul_congr hcurvature hsum) hsum)
  simpa using h.getD (i % sources)

theorem derivative_congr (sources rows cols : Nat) (hcurvature : Same curvature curvature')
    (h : SamePoint p q) :
    (derivative sources curvature p rows cols == derivative sources curvature' q rows cols) =
      true :=
  DenseMatrix.beq_ofFn fun _ _ _ _ =>
    LawfulScalar.add_congr (Same.refl _)
      (LawfulScalar.mul_congr (LawfulScalar.mul_congr (Same.refl _) hcurvature)
        (same_foldl_add h))

end Values

/-- Synthetic kernels of the same curvature, alike in everything else, give the same outcome. -/
theorem matches_evaluate {name : String} {sources targets outputs : Nat}
    {curvature curvature' : Float} {jacobian : SyntheticJacobian} {failure : Option String}
    {inverse : Option SyntheticKernel} (hcurvature : Same curvature curvature') {p q : List Float}
    (h : SamePoint p q) (derivative : Bool) :
    Matches SameEvaluation
      (Kernel.evaluate (make name sources targets curvature outputs jacobian failure inverse) p
        derivative)
      (Kernel.evaluate (make name sources targets curvature' outputs jacobian failure inverse) q
        derivative) := by
  cases failure with
  | some message => exact .error _
  | none =>
      refine .ok ⟨image_congr sources outputs hcurvature h, ?_⟩
      cases derivative with
      | false =>
          cases jacobian with
          | _ => exact .none
      | true =>
          cases jacobian with
          | missing => exact .none
          | declared => exact .some (derivative_congr sources targets sources hcurvature h)
          | shaped rows cols => exact .some (derivative_congr sources rows cols hcurvature h)

/-- A synthetic kernel that does not fail gives its image, and no derivative unless asked to. -/
theorem evaluate_eq_ok {name : String} {sources targets outputs : Nat} {curvature : Float}
    {jacobian : SyntheticJacobian} {inverse : Option SyntheticKernel} (p : List Float) :
    Kernel.evaluate (make name sources targets curvature outputs jacobian none inverse) p false =
      .ok ⟨image sources curvature outputs p, none⟩ := by
  cases jacobian with
  | _ => rfl

/-- A synthetic kernel fails, or refuses its own image, alike at the same points. -/
theorem stable (id : NodeId) (k : SyntheticKernel) :
    (Transform.kernel id k : Transform SyntheticKernel Float).Stable := by
  obtain ⟨name, sources, targets, curvature, outputs, jacobian, failure, inverse⟩ := k
  refine Transform.stable_of_length fun p q hp hq hpq => ?_
  rw [Transform.apply_eq_map, Transform.apply_eq_map, Transform.evaluate_kernel hp,
    Transform.evaluate_kernel hq]
  cases failure with
  | some message => exact .error _
  | none =>
      have hsame := image_congr sources outputs (Same.refl curvature) hpq
      rw [Transform.evaluateChecked_eq (evaluate_eq_ok p),
        Transform.evaluateChecked_eq (evaluate_eq_ok q), hsame.length_eq]
      split
      · exact .ok hsame
      · exact .error _

/-- A synthetic kernel maps the same points to the same points. -/
theorem extensional (id : NodeId) (k : SyntheticKernel) :
    (Transform.kernel id k : Transform SyntheticKernel Float).Extensional :=
  (stable id k).extensional

end SyntheticKernel
end SeparableTransforms
