import SeparableTransforms.Proofs.Kernels.Synthetic
import SeparableTransforms.Proofs.Separation.Results

/-!
# Soundness

A separation computes what it says: from the coordinates of a point at its source
dimensions it computes the coordinates of the image at its target dimensions.

This holds as long as the assembler folds nothing, for a product of matrices is
rounded where the matrices one after the other are rounded otherwise, and as long
as no coefficient stands for "not determined", for such a coefficient is dropped
together with the source it belongs to.
-/

namespace SeparableTransforms
namespace Separation

open Transform Outcome

section Soundness

variable {κ α : Type} [Kernel κ α] [Scalar α] {t : Transform κ α}

/-- A transform whose kernels are extensional, whatever the identities of the nodes. -/
theorem admissible_of_extensional (ht : t.WellFormed)
    (hk : ∀ node ∈ t.kernels, (kernel node.1 node.2 : Transform κ α).Extensional) :
    t.Admissible fun k => ∀ id, (kernel id k : Transform κ α).Extensional := by
  refine admissible_iff.mpr ⟨ht, fun node hnode id p q v hpq hv => ?_⟩
  rw [apply_kernel_eq id node.1] at hv
  rw [apply_kernel_eq id node.1]
  exact hk node hnode p q v hpq hv

variable [LawfulScalar α] {options : AssemblyOptions} {P : κ → Prop} {s : Separation κ α}
  {sources targets : Option (List Nat)} {extra : SeparationOptions}

/-- Every separation computes the targets that it reports from the sources that it reports. -/
theorem separates_of_separate (h : t.Admissible P)
    (hs : separate (.standard options) t sources targets extra = .ok s) :
    Separates options P t s := by
  obtain ⟨hsources, htargets⟩ := increasing_of_separate hs
  rw [separate_eq hsources htargets] at hs
  cases hproper : properSources t.sourceDimensions sources with
  | none =>
      rw [hproper] at hs
      exact (separates_of_byTargets h (increasing_requestedTargets htargets) hs).1
  | some S =>
      rw [hproper] at hs
      obtain ⟨rfl, hne, _⟩ := properSources_eq_some_iff.mp hproper
      have hR := increasing_of_mem_nonempty htargets
      exact (separates_of_bySources h hsources hne hR hs).1

end Soundness

section Binary64

variable {κ : Type} [Kernel κ Float] {t : Transform κ Float}

/-- What a separation computes from a part of the coordinates of a point is the part of the image
that it reports. -/
theorem separate_sound (ht : t.WellFormed) (hknown : t.Known)
    (hkernels : ∀ node ∈ t.kernels, (kernel node.1 node.2 : Transform κ Float).Extensional)
    {options : AssemblyOptions} (hunfolded : options.foldLinear = false)
    {sources targets : Option (List Nat)} {extra : SeparationOptions} {s : Separation κ Float}
    (hs : separate (.standard options) t sources targets extra = .ok s) {p v : List Float}
    (hv : t.apply p = .ok v) :
    ∃ w, s.transform.apply (pick p s.sourceDimensions) = .ok w ∧
      SamePoint w (pick v s.targetDimensions) := by
  have hadmissible := admissible_of_extensional ht hkernels
  have hseparates := separates_of_separate hadmissible hs
  exact hseparates.computes ⟨hunfolded, fun _ hk => hk⟩ hknown p v hv

/-- Three coordinates: the first and the last are scaled, and the one between goes through a
kernel that makes two of it.  The first target mixes the outer coordinates only. -/
def mixedTransform : Transform SyntheticKernel Float :=
  chain none
    (linear none ⟨4, 4, #[2, 0, 0, 1, 0, 1, 0, 0, 0, 0, 3, 0, 0, 0, 0, 1], by decide +kernel⟩)
    (chain none
      (passThrough none 1 (kernel none (.make "curve" 1 2 0.5 2 .declared none none)) 1)
      (linear none ⟨3, 5, #[1, 0, 0, 2, 0, 0, 1, 1, 0, 0, 0, 0, 0, 0, 1], by decide +kernel⟩))

/-- The first target of the mixed transform is computed from the outer coordinates. -/
theorem separate_mixedTransform :
    ∃ s v w, separate (.standard ⟨false, true⟩) mixedTransform none (some [0]) ⟨true⟩ = .ok s ∧
      mixedTransform.apply [1, 2, 3] = .ok v ∧
      s.transform.apply (pick [1, 2, 3] s.sourceDimensions) = .ok w ∧
      SamePoint w (pick v s.targetDimensions) := by
  have hwell : mixedTransform.WellFormed := by decide +kernel
  have hknown : mixedTransform.Known := by
    unfold Known
    decide +kernel
  obtain ⟨s, hs⟩ := exists_ok_of_isOk
    (x := separate (.standard ⟨false, true⟩) mixedTransform none (some [0]) ⟨true⟩)
    (by decide +kernel)
  obtain ⟨v, hv⟩ := exists_ok_of_isOk (x := mixedTransform.apply [1, 2, 3]) (by decide +kernel)
  obtain ⟨w, hw, hsame⟩ := separate_sound hwell hknown
    (fun node _ => SyntheticKernel.extensional node.1 node.2) rfl hs hv
  exact ⟨s, v, w, hs, hv, hw, hsame⟩

end Binary64

end Separation
end SeparableTransforms
