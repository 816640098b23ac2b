import SeparableTransforms.Proofs.Separation.Soundness

/-!
# Outcomes of a separation

A request is refused if one of its lists is not increasing or goes beyond the
dimensions of the transform.  Every other request either succeeds or is found to be
infeasible: the matrices that are built on the way are affine and take a coordinate,
and the parts that are put together fit, whatever the assembler simplifies.

A result has as many inputs and outputs as the dimensions that it reports.  These are
the requested ones wherever some are requested, and a request that leaves nothing out
gives the transform itself.
-/

namespace SeparableTransforms
namespace Separation

open Transform Outcome

section Refusal

variable {κ α : Type} [Kernel κ α] [Scalar α] {assembler : Assembler κ α} {t : Transform κ α}
  {sources targets : Option (List Nat)} {extra : SeparationOptions} {limit : Nat}

/-- A list of dimensions in a request that is neither empty nor acceptable. -/
def Refused (limit : Nat) (request : Option (List Nat)) : Prop :=
  ∃ dims ∈ request, dims ≠ [] ∧ ¬Increasing dims limit

theorem refused_iff {request : Option (List Nat)} :
    Refused limit request ↔ ¬Increasing (request.getD []) limit := by
  cases request with
  | none => simp [Refused, increasing_nil]
  | some dims =>
      constructor
      · rintro ⟨_, hdims, _, hnot⟩
        exact Option.some.inj hdims ▸ hnot
      · intro hnot
        refine ⟨dims, rfl, ?_, hnot⟩
        rintro rfl
        exact hnot (increasing_nil limit)

omit [Scalar α] in
theorem not_refused_iff :
    ¬(Refused t.sourceDimensions sources ∨ Refused t.targetDimensions targets) ↔
      Increasing (sources.getD []) t.sourceDimensions ∧
        Increasing (targets.getD []) t.targetDimensions := by
  rw [refused_iff, refused_iff, not_or, not_not, not_not]

end Refusal

section Feasibility

variable {κ α : Type} [Kernel κ α] [Scalar α] [LawfulScalar α] {P : κ → Prop}
  {t : Transform κ α} {sources targets : Option (List Nat)}

/-- An accepted request succeeds or is infeasible. -/
theorem separate_ok_or_cannotSeparate (h : t.Admissible P)
    (hsources : Increasing (sources.getD []) t.sourceDimensions)
    (htargets : Increasing (targets.getD []) t.targetDimensions)
    (options : AssemblyOptions) (extra : SeparationOptions) :
    (∃ s, separate (.standard options) t sources targets extra = .ok s) ∨
      ∃ obstacle, separate (.standard options) t sources targets extra =
        .error (.cannotSeparate obstacle) := by
  rw [separate_eq hsources htargets]
  cases hproper : properSources t.sourceDimensions sources with
  | some S =>
      obtain ⟨rfl, hne, _⟩ := properSources_eq_some_iff.mp hproper
      have hR := increasing_of_mem_nonempty htargets
      exact bySources_cases h hsources hne options hR
  | none =>
      have hR := increasing_requestedTargets htargets
      by_cases hend : endsInKernel t.steps = true →
          isFull (requestedTargets t.targetDimensions targets) t.targetDimensions = true
      · obtain ⟨t', hkeep, hpart⟩ := keepTargets_eq_ok options h.fits hR hend
        obtain ⟨s, hs, _⟩ := byTargets_eq_ok extra h hR hkeep hpart
        exact .inl ⟨s, hs⟩
      · obtain ⟨hkernel, hproper⟩ := Classical.not_imp.mp hend
        obtain ⟨name, herror⟩ :=
          byTargets_eq_error options extra h hkernel (Bool.eq_false_iff.mpr hproper)
        exact .inr ⟨_, herror⟩

end Feasibility

section Whole

variable {κ α : Type} [Kernel κ α] [Scalar α] {assembler : Assembler κ α} {t : Transform κ α}
  {sources targets : Option (List Nat)} {limit : Nat}

/-- A request that leaves nothing out: there is none, it is empty, or it names all dimensions. -/
def AsksForAll (limit : Nat) (request : Option (List Nat)) : Prop :=
  ∀ dims ∈ request, dims = [] ∨ dims = List.range limit

theorem AsksForAll.increasing {request : Option (List Nat)} (h : AsksForAll limit request) :
    Increasing (request.getD []) limit := by
  cases request with
  | none => exact increasing_nil limit
  | some dims =>
      rcases h dims rfl with rfl | rfl
      · exact increasing_nil limit
      · exact increasing_range limit

theorem AsksForAll.properSources_eq_none (h : AsksForAll limit sources) :
    properSources limit sources = none := by
  by_contra hsome
  obtain ⟨S, hS⟩ := Option.ne_none_iff_exists'.mp hsome
  obtain ⟨rfl, hne, _⟩ := properSources_eq_some_iff.mp hS
  exact (h S rfl).elim hne (ne_range_of_properSources hS)

theorem AsksForAll.requestedTargets_eq (h : AsksForAll limit targets) :
    requestedTargets limit targets = List.range limit := by
  unfold requestedTargets
  cases hR : nonempty targets with
  | none => rfl
  | some R =>
      obtain ⟨rfl, hne⟩ := nonempty_eq_some_iff.mp hR
      exact (h R rfl).resolve_left hne

/-- If nothing is left out and nothing trimmed, the result is the transform itself. -/
theorem separate_asksForAll (hsources : AsksForAll t.sourceDimensions sources)
    (htargets : AsksForAll t.targetDimensions targets) :
    separate assembler t sources targets ⟨false⟩ =
      .ok ⟨t, List.range t.sourceDimensions, List.range t.targetDimensions⟩ := by
  have hkeep : t.keepTargets assembler (List.range t.targetDimensions) = .ok t :=
    keepTargets_whole (isFull_range _)
  rw [separate_eq hsources.increasing htargets.increasing, hsources.properSources_eq_none,
    htargets.requestedTargets_eq]
  simp only [byTargets, hkeep, ok_bind, Bool.false_eq_true, if_false, pure_eq_ok]

end Whole

section Shape

variable {κ α : Type} [Kernel κ α] [Scalar α]

/-- The transform and the dimensions of a result are in step with each other, with the whole
transform and with the request. -/
structure Shape (t : Transform κ α) (sources targets : Option (List Nat))
    (extra : SeparationOptions) (s : Separation κ α) : Prop where
  inputs : s.transform.sourceDimensions = s.sourceDimensions.length
  outputs : s.transform.targetDimensions = s.targetDimensions.length
  sortedSources : Increasing s.sourceDimensions t.sourceDimensions
  sortedTargets : Increasing s.targetDimensions t.targetDimensions
  askedTargets : ∀ R ∈ targets, R ≠ [] → s.targetDimensions = R
  askedSources : ∀ S ∈ sources, S ≠ [] → S.length < t.sourceDimensions → s.sourceDimensions = S
  allSources : sources.getD [] = [] → extra.trimSources = false →
    s.sourceDimensions = List.range t.sourceDimensions
  same : AsksForAll t.sourceDimensions sources → AsksForAll t.targetDimensions targets →
    extra.trimSources = false → s.transform = t

variable [LawfulScalar α] {options : AssemblyOptions} {P : κ → Prop} {t : Transform κ α}
  {sources targets : Option (List Nat)} {extra : SeparationOptions} {s : Separation κ α}

/-- Requested targets are the reported ones. -/
theorem targetDimensions_of_separate (h : t.Admissible P)
    (hs : separate (.standard options) t sources targets extra = .ok s) {R : List Nat}
    (hrequest : nonempty targets = some R) : s.targetDimensions = R := by
  obtain ⟨hsources, htargets⟩ := increasing_of_separate hs
  have hR := increasing_of_mem_nonempty htargets R hrequest
  rw [separate_eq hsources htargets] at hs
  cases hproper : properSources t.sourceDimensions sources with
  | some S =>
      rw [hproper, hrequest] at hs
      obtain ⟨rfl, hne, _⟩ := properSources_eq_some_iff.mp hproper
      obtain ⟨_, _, _, _, _, htarget⟩ :=
        separates_of_bySources h hsources hne (fun _ hsome => Option.some.inj hsome ▸ hR) hs
      exact htarget
  | none =>
      have hrequested : requestedTargets t.targetDimensions targets = R := by
        rw [requestedTargets, hrequest, Option.getD_some]
      rw [hproper, hrequested] at hs
      exact (separates_of_byTargets h hR hs).2.1

/-- Proper sources are the reported ones. -/
theorem sourceDimensions_of_proper (h : t.Admissible P)
    (hs : separate (.standard options) t sources targets extra = .ok s) {S : List Nat}
    (hproper : properSources t.sourceDimensions sources = some S) : s.sourceDimensions = S := by
  obtain ⟨hsources, htargets⟩ := increasing_of_separate hs
  rw [separate_eq hsources htargets, hproper] at hs
  obtain ⟨rfl, hne, _⟩ := properSources_eq_some_iff.mp hproper
  have hR := increasing_of_mem_nonempty htargets
  exact (separates_of_bySources h hsources hne hR hs).2.1

/-- Without proper sources all are reported, if they are not trimmed. -/
theorem sourceDimensions_of_untrimmed (h : t.Admissible P)
    (hs : separate (.standard options) t sources targets extra = .ok s)
    (hproper : properSources t.sourceDimensions sources = none)
    (htrim : extra.trimSources = false) :
    s.sourceDimensions = List.range t.sourceDimensions := by
  obtain ⟨hsources, htargets⟩ := increasing_of_separate hs
  rw [separate_eq hsources htargets, hproper] at hs
  obtain ⟨_, _, _, _, _, hsource⟩ :=
    separates_of_byTargets h (increasing_requestedTargets htargets) hs
  rwa [htrim, if_neg Bool.false_ne_true] at hsource

theorem shape_of_separate (h : t.Admissible P)
    (hs : separate (.standard options) t sources targets extra = .ok s) :
    Shape t sources targets extra s := by
  have hseparates := separates_of_separate h hs
  refine ⟨hseparates.fits.source, hseparates.fits.target, hseparates.sources,
    hseparates.targets, ?_, ?_, ?_, ?_⟩
  · intro R hR hne
    exact targetDimensions_of_separate h hs (nonempty_eq_some_iff.mpr ⟨hR, hne⟩)
  · intro S hS hne hlt
    exact sourceDimensions_of_proper h hs (properSources_eq_some_iff.mpr ⟨hS, hne, hlt⟩)
  · intro hnone htrim
    have hall : AsksForAll t.sourceDimensions sources := fun dims hdims => by
      rw [hdims] at hnone
      exact .inl hnone
    exact sourceDimensions_of_untrimmed h hs hall.properSources_eq_none htrim
  · intro hsources htargets htrim
    obtain ⟨trim⟩ := extra
    obtain rfl : trim = false := htrim
    rw [separate_asksForAll hsources htargets] at hs
    cases hs
    rfl

end Shape

section Binary64

variable {κ : Type} [Kernel κ Float] {t : Transform κ Float}

/-- A request is refused exactly if one of its lists is not increasing or goes beyond the
dimensions, and any other request succeeds or is infeasible. -/
theorem separate_outcomes (ht : t.WellFormed) (options : AssemblyOptions)
    (sources targets : Option (List Nat)) (extra : SeparationOptions) :
    ((∃ argument, separate (.standard options) t sources targets extra =
          .error (.illegalArgument argument)) ↔
        Refused t.sourceDimensions sources ∨ Refused t.targetDimensions targets) ∧
      (¬(Refused t.sourceDimensions sources ∨ Refused t.targetDimensions targets) →
        (∃ s, separate (.standard options) t sources targets extra = .ok s) ∨
          ∃ obstacle, separate (.standard options) t sources targets extra =
            .error (.cannotSeparate obstacle)) := by
  have hfeasible (haccepted : ¬(Refused t.sourceDimensions sources ∨
      Refused t.targetDimensions targets)) :
      (∃ s, separate (.standard options) t sources targets extra = .ok s) ∨
        ∃ obstacle, separate (.standard options) t sources targets extra =
          .error (.cannotSeparate obstacle) := by
    obtain ⟨hsources, htargets⟩ := not_refused_iff.mp haccepted
    exact separate_ok_or_cannotSeparate ht.admissible hsources htargets options extra
  refine ⟨⟨?_, ?_⟩, hfeasible⟩
  · rintro ⟨argument, hrefused⟩
    by_contra haccepted
    rcases hfeasible haccepted with ⟨s, hs⟩ | ⟨obstacle, herror⟩
    · rw [hrefused] at hs
      cases hs
    · rw [hrefused] at herror
      cases herror
  · intro hrefused
    obtain ⟨argument, hargument⟩ := separate_refused fun haccepted =>
      not_refused_iff.mpr haccepted hrefused
    exact ⟨argument, hargument _ _⟩

/-- Two coordinates copied around a kernel, with a linear step before them that has a constant
output. -/
def copyingAround : Transform SyntheticKernel Float :=
  chain none
    (linear none ⟨4, 3, #[1, 2, 0, 0, 0, 5, 0, 1, 0, 0, 0, 1], by decide +kernel⟩)
    (passThrough none 1 (kernel none (.make "bend" 1 3 0.5 3 .declared none none)) 1)

/-- The outcomes of four requests: refused for the order, refused for the limit, succeeding and
infeasible. -/
theorem separate_copyingAround :
    (∃ argument, separate (.standard {}) copyingAround (some [1, 0]) none ⟨false⟩ =
        .error (.illegalArgument argument)) ∧
      (∃ argument, separate (.standard .verbatim) copyingAround none (some [2, 5]) ⟨true⟩ =
        .error (.illegalArgument argument)) ∧
      (∃ s, separate (.standard {}) copyingAround none (some [0, 2]) ⟨true⟩ = .ok s) ∧
      ∃ obstacle, separate (.standard .verbatim) copyingAround (some [0]) (some [0]) ⟨false⟩ =
        .error (.cannotSeparate obstacle) := by
  have hwell : copyingAround.WellFormed := by decide +kernel
  have hsources : copyingAround.sourceDimensions = 2 := by decide +kernel
  have htargets : copyingAround.targetDimensions = 5 := by decide +kernel
  refine ⟨?_, ?_, ?_, ?_⟩
  · refine (separate_outcomes hwell {} (some [1, 0]) none ⟨false⟩).1.mpr (.inl ?_)
    refine ⟨[1, 0], rfl, List.cons_ne_nil _ _, fun hincreasing => ?_⟩
    exact absurd hincreasing.sorted (by decide)
  · refine (separate_outcomes hwell .verbatim none (some [2, 5]) ⟨true⟩).1.mpr (.inr ?_)
    refine ⟨[2, 5], rfl, List.cons_ne_nil _ _, fun hincreasing => ?_⟩
    exact absurd (hincreasing.bounded 5 (by decide)) (by rw [htargets]; decide)
  · have haccepted : ¬(Refused copyingAround.sourceDimensions none ∨
        Refused copyingAround.targetDimensions (some [0, 2])) :=
      not_refused_iff.mpr ⟨increasing_nil _, by decide, by rw [htargets]; decide⟩
    refine ((separate_outcomes hwell {} none (some [0, 2]) ⟨true⟩).2 haccepted).resolve_right ?_
    rintro ⟨obstacle, herror⟩
    obtain ⟨s, hs⟩ := exists_ok_of_isOk
      (x := separate (.standard {}) copyingAround none (some [0, 2]) ⟨true⟩) (by decide +kernel)
    rw [herror] at hs
    cases hs
  · have haccepted : ¬(Refused copyingAround.sourceDimensions (some [0]) ∨
        Refused copyingAround.targetDimensions (some [0])) :=
      not_refused_iff.mpr
        ⟨⟨by decide, by rw [hsources]; decide⟩, by decide, by rw [htargets]; decide⟩
    refine ((separate_outcomes hwell .verbatim (some [0]) (some [0]) ⟨false⟩).2
      haccepted).resolve_left ?_
    rintro ⟨s, hs⟩
    have hnone : (separate (.standard .verbatim) copyingAround (some [0]) (some [0])
        ⟨false⟩).isOk = false := by
      decide +kernel
    rw [hs] at hnone
    cases hnone

/-- The result of a separation has the shape that the request asks for. -/
theorem separate_shape (ht : t.WellFormed) {options : AssemblyOptions}
    {sources targets : Option (List Nat)} {extra : SeparationOptions} {s : Separation κ Float}
    (hs : separate (.standard options) t sources targets extra = .ok s) :
    Shape t sources targets extra s :=
  shape_of_separate ht.admissible hs

/-- The shape of the two outer targets, of which the first needs both coordinates, and of the
targets of the constant coordinate, which are found from the sources. -/
theorem shape_copyingAround :
    (∃ s, separate (.standard {}) copyingAround none (some [0, 4]) ⟨true⟩ = .ok s ∧
        Shape copyingAround none (some [0, 4]) ⟨true⟩ s) ∧
      ∃ s, separate (.standard .verbatim) copyingAround (some [0]) none ⟨false⟩ = .ok s ∧
        Shape copyingAround (some [0]) none ⟨false⟩ s := by
  have hwell : copyingAround.WellFormed := by decide +kernel
  obtain ⟨s, hs⟩ := exists_ok_of_isOk
    (x := separate (.standard {}) copyingAround none (some [0, 4]) ⟨true⟩) (by decide +kernel)
  obtain ⟨s', hs'⟩ := exists_ok_of_isOk
    (x := separate (.standard .verbatim) copyingAround (some [0]) none ⟨false⟩) (by decide +kernel)
  exact ⟨⟨s, hs, separate_shape hwell hs⟩, s', hs', separate_shape hwell hs'⟩

end Binary64

end Separation
end SeparableTransforms
