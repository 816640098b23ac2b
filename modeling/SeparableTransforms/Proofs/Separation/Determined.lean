import SeparableTransforms.Proofs.Transform.Assembly
import SeparableTransforms.Separation.Sources

/-!
# Which outputs depend on nothing else

`determined` finds the outputs that can be computed from some inputs without
building anything.  It follows the tree: a chain hands the outputs of its first
part to the second, and stops if there are none.

`endsAfter` says whether the transform that is built for these outputs ends in a
kernel, as long as no identity is left out.
-/

namespace SeparableTransforms
namespace Transform

section Determined

variable {κ α : Type} [Kernel κ α] [Scalar α]

/-- The outputs that depend on no input outside the given ones, if no part stands in the way. -/
def determined : Transform κ α → List Nat → Option (List Nat)
  | linear _ m, S => some (determinedRows m S)
  | chain _ a b, S =>
      (a.determined S).bind fun T => if T.isEmpty then none else b.determined T
  | passThrough _ k t _, S =>
      if (inside k t.sourceDimensions S).isEmpty then
        some (copyAround k t.sourceDimensions t.targetDimensions S [])
      else
        (t.determined (inside k t.sourceDimensions S)).map
          (copyAround k t.sourceDimensions t.targetDimensions S)
  | kernel _ k, S =>
      if isFull S (Kernel.sourceDimensions k) then some (List.range (Kernel.targetDimensions k))
      else none

/-- Whether what is left of a transform with the given inputs ends in a kernel. -/
def endsAfter : Transform κ α → List Nat → Bool
  | linear _ _, _ => false
  | chain _ a b, S =>
      match a.determined S with
      | some T => b.endsAfter T
      | none => false
  | passThrough _ k t n, S =>
      !isFull S (k + t.sourceDimensions + n) && !(inside k t.sourceDimensions S).isEmpty &&
        (S.filter fun d => d < k).isEmpty &&
        (S.filter fun d => k + t.sourceDimensions ≤ d).isEmpty &&
        t.endsAfter (inside k t.sourceDimensions S)
  | kernel _ _, _ => true

variable {t : Transform κ α} {S R : List Nat}

theorem increasing_determined (ht : t.WellFormed) (hS : Increasing S t.sourceDimensions)
    (h : t.determined S = some R) : Increasing R t.targetDimensions := by
  induction t generalizing S R with
  | linear id m =>
      cases h
      exact increasing_filter_range _ _
  | chain id a b iha ihb =>
      obtain ⟨T, hT, h⟩ := Option.bind_eq_some_iff.mp h
      split at h
      · cases h
      · have hincreasing := iha ht.1 hS hT
        rw [ht.2.2] at hincreasing
        exact ihb ht.2.1 hincreasing h
  | passThrough id k t n ih =>
      unfold determined at h
      split at h
      · cases h
        exact increasing_copyAround hS (increasing_nil _)
      · obtain ⟨T, hT, rfl⟩ := Option.map_eq_some_iff.mp h
        exact increasing_copyAround hS (ih ht (increasing_inside hS) hT)
  | kernel id k =>
      unfold determined at h
      split at h
      · cases h
        exact increasing_range _
      · cases h

omit [Kernel κ α] in
theorem determinedRows_range (m : DenseMatrix α) :
    determinedRows m (List.range (m.cols - 1)) = List.range (m.rows - 1) := by
  have hnone : ((List.range (m.cols - 1)).filter fun c =>
      !(List.range (m.cols - 1)).contains c) = [] := by
    refine List.filter_eq_nil_iff.mpr fun c hc => ?_
    rw [List.contains_iff_mem.mpr hc]
    exact Bool.false_ne_true
  rw [determinedRows, hnone]
  exact List.filter_eq_self.mpr fun _ _ => rfl

/-- From all inputs all outputs can be computed. -/
theorem determined_range (ht : t.WellFormed) :
    t.determined (List.range t.sourceDimensions) = some (List.range t.targetDimensions) := by
  induction t with
  | linear id m => exact congrArg some (determinedRows_range m)
  | chain id a b iha ihb =>
      have hpos := ht.2.1.sourceDimensions_pos
      have hne : (List.range a.targetDimensions).isEmpty = false := by
        rw [ht.2.2]
        simpa using Nat.ne_of_gt hpos
      show ((a.determined (List.range a.sourceDimensions)).bind _) = _
      rw [iha ht.1, Option.bind_some, hne, if_neg Bool.false_ne_true, ht.2.2]
      exact ihb ht.2.1
  | passThrough id k t n ih =>
      have hpos := WellFormed.sourceDimensions_pos (t := t) ht
      have hne : (List.range t.sourceDimensions).isEmpty = false := by
        simpa using Nat.ne_of_gt hpos
      simp only [determined, sourceDimensions, targetDimensions, inside_range, hne, ih ht,
        Bool.false_eq_true, if_false, Option.map_some, copyAround_range]
  | kernel id k => simp [determined, sourceDimensions, targetDimensions, isFull_range]

/-- With all inputs the last step stays as it is. -/
theorem endsAfter_range (ht : t.WellFormed) :
    t.endsAfter (List.range t.sourceDimensions) = endsInKernel t.steps := by
  induction t with
  | linear id m => rfl
  | chain id a b iha ihb =>
      rw [steps, endsInKernel_append _ b.steps_ne_nil, ← ihb ht.2.1, ← ht.2.2]
      simp only [endsAfter, sourceDimensions, determined_range ht.1]
  | passThrough id k t n ih =>
      simp [endsAfter, sourceDimensions, isFull_range, steps, endsInKernel]
  | kernel id k => rfl

end Determined

end Transform
end SeparableTransforms
