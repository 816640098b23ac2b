import SeparableTransforms.Proofs.Separation.Soundness
import SeparableTransforms.Proofs.Transform.Bounds
import SeparableTransforms.Proofs.Transform.Inverse

/-!
# Packed points

A list of coordinates is cut into points of as many coordinates as a transform takes,
and these are mapped one after the other.  A list that cannot be cut evenly is refused,
and the first point that fails decides the error.

All this needs a transform that takes a coordinate.  Every operation of the library
makes such transforms out of such transforms, with one exception: the inverse of a
kernel is taken as it is, and nothing keeps a kernel without a target from having an
inverse, which then has no source.
-/

namespace SeparableTransforms
namespace Transform

open Outcome

section Cutting

variable {α : Type} {dim n : Nat} {coordinates p : List α}

end Cutting

section Packing

variable {κ α : Type} [Kernel κ α] [Scalar α] {t : Transform κ α} {coordinates : List α}

end Packing

section Obtaining

variable {κ α : Type} [Kernel κ α] [Scalar α] {P : κ → Prop} {a b t : Transform κ α}

/-- What the operations of the library make out of kernels that satisfy a predicate. -/
inductive Obtained (P : κ → Prop) : Transform κ α → Prop
  | affine {m : DenseMatrix α} {t : Transform κ α} (h : ofMatrix m = .ok t) : Obtained P t
  | identity {n : Nat} {t : Transform κ α} (h : identity n = .ok t) : Obtained P t
  | kernel {k : κ} {t : Transform κ α} (hk : P k) (h : ofKernel k = .ok t) : Obtained P t
  | concatenate {a b t : Transform κ α} (ha : Obtained P a) (hb : Obtained P b)
      (options : AssemblyOptions) (h : (Assembler.standard options).concatenate a b = .ok t) :
      Obtained P t
  | passThrough {a t : Transform κ α} (ha : Obtained P a) (options : AssemblyOptions) {k n : Nat}
      (h : (Assembler.standard options).passThrough k a n = .ok t) : Obtained P t
  | join {a b t : Transform κ α} (ha : Obtained P a) (hb : Obtained P b) (h : join a b = .ok t) :
      Obtained P t
  | wrap {a : Transform κ α} (ha : Obtained P a) (k n : Nat) : Obtained P (passThrough none k a n)
  | inverse {a t : Transform κ α} (ha : Obtained P a) (h : a.inverse = .ok t) : Obtained P t
  | separate {a : Transform κ α} {s : Separation κ α} (ha : Obtained P a)
      (options : AssemblyOptions) {sources targets : Option (List Nat)}
      {extra : SeparationOptions}
      (h : Separation.separate (.standard options) a sources targets extra = .ok s) :
      Obtained P s.transform
  | named {a : Transform κ α} (ha : Obtained P a) (id : NodeId) : Obtained P (a.withNodeId id)

theorem Admissible.withNodeId (h : t.Admissible P) (id : NodeId) :
    (t.withNodeId id).Admissible P := by
  cases t with
  | _ => exact h

variable [LawfulScalar α]

theorem Admissible.concatenate {options : AssemblyOptions} (ha : a.Admissible P)
    (hb : b.Admissible P) (h : concatenateWith options a b = .ok t) : t.Admissible P := by
  by_cases hfit : a.targetDimensions = b.sourceDimensions
  · obtain ⟨t', ht', hfits, -⟩ := concatenateWith_eq_ok options ha.fits ⟨hb, hfit.symm, rfl⟩
    obtain rfl : t' = t := Except.ok.inj (ht'.symm.trans h)
    exact hfits.admissible
  · rw [concatenateWith, if_pos hfit] at h
    cases h

/-- Every operation keeps transforms admissible, as long as an inverse kernel takes a
coordinate. -/
theorem Obtained.admissible
    (hP : ∀ k k' : κ, P k → Kernel.inverse? k = some k' → 0 < Kernel.sourceDimensions k' ∧ P k')
    (h : Obtained P t) : t.Admissible P := by
  induction h with
  | affine h | identity h =>
      have hwell := wellFormed_of_ofMatrix h
      obtain rfl := eq_of_ofMatrix h
      exact hwell
  | kernel hk h =>
      have hwell := wellFormed_of_ofKernel h
      unfold ofKernel at h
      split at h
      · cases h
      · cases h
        exact ⟨hwell, hk⟩
  | concatenate _ _ options h iha ihb => exact iha.concatenate ihb h
  | passThrough _ options h ih =>
      obtain ⟨t', ht', hfits, -⟩ := passThroughSimplified_eq_ok ih.fits _ _
      obtain rfl := Except.ok.inj (ht'.symm.trans h)
      exact hfits.admissible
  | join _ _ h iha ihb =>
      rw [← concatenateWith_verbatim] at h
      exact iha.concatenate ihb h
  | wrap _ k n ih => exact ih
  | inverse _ h ih => exact ih.inverse hP h
  | separate _ options h ih => exact (Separation.separates_of_separate ih h).fits.admissible
  | named _ id ih => exact ih.withNodeId id

end Obtaining

section Binary64

variable {κ : Type} [Kernel κ Float] {P : κ → Prop} {t : Transform κ Float}

section Example

variable {k k' : SyntheticKernel}

end Example

end Binary64

end Transform
end SeparableTransforms
