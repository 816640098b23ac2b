import SeparableTransforms.Proofs.Separation.Outcomes

/-!
# When a request for targets can be met

Among the steps of a transform only the last one decides.  A kernel there computes
all of its outputs or none, so a request that leaves some of them out cannot be met.
A linear step selects its rows, and a pass-through selects coordinates of what it
wraps.  Whatever cannot be narrowed below that, at any depth, is kept as it is, so
that a kernel anywhere else is never in the way.
-/

namespace SeparableTransforms

open Transform

theorem Increasing.isFull_iff_forall_mem {dims : List Nat} {limit : Nat}
    (h : Increasing dims limit) : isFull dims limit = true ↔ ∀ d < limit, d ∈ dims := by
  rw [isFull_iff]
  constructor
  · rintro rfl d hd
    exact List.mem_range.mpr hd
  · intro hall
    exact h.eq_of_mem_iff (increasing_range limit) fun d =>
      ⟨fun hd => List.mem_range.mpr (h.bounded d hd), fun hd => hall d (List.mem_range.mp hd)⟩

namespace Separation

section Requests

variable {κ α : Type} [Kernel κ α] [Scalar α] {t : Transform κ α} {sources : Option (List Nat)}
  {R : List Nat}

/-- A request that leaves no source out is one for its targets. -/
theorem separate_eq_byTargets {assembler : Assembler κ α} {extra : SeparationOptions}
    (hsources : AsksForAll t.sourceDimensions sources) (hR : Increasing R t.targetDimensions)
    (hne : R ≠ []) :
    separate assembler t sources (some R) extra = byTargets assembler t R extra := by
  have hrequest : requestedTargets t.targetDimensions (some R) = R := by
    rw [requestedTargets, nonempty_eq_some_iff.mpr ⟨rfl, hne⟩, Option.getD_some]
  have htargets : Increasing (Option.getD (some R) []) t.targetDimensions := hR
  rw [separate_eq hsources.increasing htargets, hsources.properSources_eq_none, hrequest]

variable [LawfulScalar α] {P : κ → Prop}

/-- The targets are computed, or a kernel at the end stands in the way. -/
theorem byTargets_ok_or_error (h : t.Admissible P) (hR : Increasing R t.targetDimensions)
    (options : AssemblyOptions) (extra : SeparationOptions) :
    (endsInKernel t.steps = false ∨ isFull R t.targetDimensions = true) ∧
        (∃ s, byTargets (.standard options) t R extra = .ok s) ∨
      (endsInKernel t.steps = true ∧ isFull R t.targetDimensions = false) ∧
        ∃ name, byTargets (.standard options) t R extra =
          .error (.cannotSeparate (.kernelTargets name R)) := by
  cases hend : endsInKernel t.steps with
  | false =>
      obtain ⟨t', hkeep, hpart⟩ := keepTargets_eq_ok options h.fits hR (by simp [hend])
      obtain ⟨s, hs, _⟩ := byTargets_eq_ok extra h hR hkeep hpart
      exact .inl ⟨.inl rfl, s, hs⟩
  | true =>
      cases hfull : isFull R t.targetDimensions with
      | false => exact .inr ⟨⟨rfl, rfl⟩, byTargets_eq_error options extra h hend hfull⟩
      | true =>
          obtain ⟨t', hkeep, hpart⟩ := keepTargets_eq_ok options h.fits hR fun _ => hfull
          obtain ⟨s, hs, _⟩ := byTargets_eq_ok extra h hR hkeep hpart
          exact .inl ⟨.inr rfl, s, hs⟩

end Requests

section Binary64

variable {κ : Type} [Kernel κ Float] {t : Transform κ Float} {sources : Option (List Nat)}
  {R : List Nat}

/-- A request for targets succeeds exactly if it is for all of them or the last step is not a
kernel, and otherwise it is found to be infeasible. -/
theorem separate_targets_outcome (ht : t.WellFormed)
    (hsources : AsksForAll t.sourceDimensions sources) (hR : Increasing R t.targetDimensions)
    (hne : R ≠ []) (options : AssemblyOptions) (extra : SeparationOptions) :
    ((∃ s, separate (.standard options) t sources (some R) extra = .ok s) ↔
        (∀ d < t.targetDimensions, d ∈ R) ∨ ∀ id k, t.steps.getLast? ≠ some (kernel id k)) ∧
      ((∃ s, separate (.standard options) t sources (some R) extra = .ok s) ∨
        ∃ name, separate (.standard options) t sources (some R) extra =
          .error (.cannotSeparate (.kernelTargets name R))) := by
  rw [separate_eq_byTargets hsources hR hne, ← hR.isFull_iff_forall_mem,
    ← endsInKernel_eq_false_iff]
  rcases byTargets_ok_or_error ht.admissible hR options extra with
    ⟨hmet, hok⟩ | ⟨⟨hend, hfull⟩, name, herror⟩
  · exact ⟨⟨fun _ => hmet.symm, fun _ => hok⟩, .inl hok⟩
  · refine ⟨⟨?_, ?_⟩, .inr ⟨name, herror⟩⟩
    · rintro ⟨s, hs⟩
      rw [herror] at hs
      cases hs
    · rintro (hall | hlast)
      · rw [hfull] at hall
        cases hall
      · rw [hend] at hlast
        cases hlast

/-- A kernel inside a pass-through, and then a kernel on its own. -/
def endingInKernel : Transform SyntheticKernel Float :=
  chain none copyingAround (kernel none (.make "merge" 5 2 0.5 2 .declared none none))

/-- Two of five targets around a kernel are met, and one of two that a kernel computes is not,
while both of them are. -/
theorem separate_targets_copyingAround :
    (∃ s, separate (.standard {}) copyingAround none (some [1, 4]) ⟨true⟩ = .ok s) ∧
      (∃ name, separate (.standard .verbatim) endingInKernel (some []) (some [1]) ⟨true⟩ =
        .error (.cannotSeparate (.kernelTargets name [1]))) ∧
      ∃ s, separate (.standard {}) endingInKernel none (some [0, 1]) ⟨false⟩ = .ok s := by
  have hwell : copyingAround.WellFormed := by decide +kernel
  have hwell' : endingInKernel.WellFormed := by decide +kernel
  have hnone : AsksForAll endingInKernel.sourceDimensions none := fun S hS => by cases hS
  have hempty : AsksForAll endingInKernel.sourceDimensions (some []) := fun S hS => by
    cases hS
    exact .inl rfl
  have hdims : copyingAround.targetDimensions = 5 := by decide +kernel
  have hdims' : endingInKernel.targetDimensions = 2 := rfl
  refine ⟨?_, ?_, ?_⟩
  · refine (separate_targets_outcome hwell (fun S hS => by cases hS)
      ⟨by decide, by rw [hdims]; decide⟩ (List.cons_ne_nil _ _) {} ⟨true⟩).1.mpr (.inr ?_)
    intro id k hlast
    cases hlast
  · have houtcome := separate_targets_outcome hwell' hempty (R := [1])
      ⟨by decide, by rw [hdims']; decide⟩ (List.cons_ne_nil _ _) .verbatim ⟨true⟩
    refine houtcome.2.resolve_left fun hs => ?_
    rcases houtcome.1.mp hs with hall | hlast
    · exact absurd (hall 0 (by rw [hdims']; decide)) (by decide)
    · exact hlast _ _ rfl
  · refine (separate_targets_outcome hwell' hnone ⟨by decide, by rw [hdims']; decide⟩
      (List.cons_ne_nil _ _) {} ⟨false⟩).1.mpr (.inl ?_)
    rw [hdims']
    decide

end Binary64

end Separation
end SeparableTransforms
