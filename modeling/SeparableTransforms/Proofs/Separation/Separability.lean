import SeparableTransforms.Kernels.Synthetic
import SeparableTransforms.Proofs.Binary64.Agreement
import SeparableTransforms.Proofs.Separation.Kernels
import SeparableTransforms.Proofs.Separation.Results

/-!
# Which requests can be separated

`separable` tells from the transform alone whether a request can be separated, and
which dimensions the result reports.  Every assembler that leaves no identity out
gives this answer, whether it folds or not.

An assembler that leaves identities out may find that the transform which it has
reduced to the requested sources ends in a kernel where the original one went on
with an identity.  The kernel has been laid bare: if not all of what it computes is
requested, the separation fails although others succeed.  This is the only
difference, and `LaysBare` says when it arises.
-/

namespace SeparableTransforms
namespace Separation

open Transform Outcome

section Reports

variable {κ α : Type}

/-- The dimensions that a separation reports, if it succeeds. -/
def reported (result : Except TransformError (Separation κ α)) : Option (List Nat × List Nat) :=
  match result with
  | .ok s => some (s.sourceDimensions, s.targetDimensions)
  | .error _ => none

theorem reported_error {e : TransformError} :
    reported (.error e : Except TransformError (Separation κ α)) = none :=
  rfl

theorem exists_ok_of_reported {result : Except TransformError (Separation κ α)}
    (h : (reported result).isSome) : ∃ s, result = .ok s := by
  cases result with
  | error e => cases h
  | ok s => exact ⟨s, rfl⟩

end Reports

section Separability

variable {κ α : Type} [Kernel κ α] [Scalar α]

/-- The dimensions that are reported for proper sources. -/
def separableSources (t : Transform κ α) (S : List Nat) (targets : Option (List Nat)) :
    Option (List Nat × List Nat) :=
  (t.determined S).bind fun D =>
    if D.isEmpty then none
    else
      match targets with
      | none => some (S, D)
      | some R =>
          if R.all D.contains && (!t.endsAfter S || R == D) then some (S, R) else none

/-- The dimensions that are reported for targets. -/
def separableTargets (t : Transform κ α) (R : List Nat) : Option (List Nat × List Nat) :=
  if endsInKernel t.steps && !isFull R t.targetDimensions then none
  else some (List.range t.sourceDimensions, R)

/-- The dimensions that are reported for an accepted request, with trimming off. -/
def separable (t : Transform κ α) (sources targets : Option (List Nat)) :
    Option (List Nat × List Nat) :=
  match properSources t.sourceDimensions sources with
  | some S => separableSources t S (nonempty targets)
  | none => separableTargets t (requestedTargets t.targetDimensions targets)

variable [LawfulScalar α] {options : AssemblyOptions} {P : κ → Prop} {t : Transform κ α}
  {S R : List Nat} {sources targets : Option (List Nat)}

theorem reported_byTargets (h : t.Admissible P) (hR : Increasing R t.targetDimensions) :
    reported (byTargets (.standard options) t R ⟨false⟩) = separableTargets t R := by
  unfold separableTargets
  by_cases hend : endsInKernel t.steps = true ∧ isFull R t.targetDimensions = false
  · obtain ⟨name, herror⟩ :=
      byTargets_eq_error options ⟨false⟩ h hend.1 hend.2
    rw [herror, hend.1, hend.2]
    rfl
  · have hfull : endsInKernel t.steps = true → isFull R t.targetDimensions = true := by
      intro hkernel
      by_contra hnot
      exact hend ⟨hkernel, Bool.eq_false_iff.mpr hnot⟩
    obtain ⟨t', hkeep, hpart⟩ := keepTargets_eq_ok options h.fits hR hfull
    obtain ⟨s, hs, hsource, htarget, _⟩ := byTargets_eq_ok ⟨false⟩ h hR hkeep hpart
    rw [hs, if_neg (by simpa using hfull)]
    show some (s.sourceDimensions, s.targetDimensions) = _
    rw [hsource, htarget]
    rfl

section BySources

variable (h : t.Admissible P) (hS : Increasing S t.sourceDimensions) (hne : S ≠ [])

include h hS hne

theorem reported_bySources_undetermined
    (hD : t.determined S = none ∨ t.determined S = some []) :
    reported (bySources (.standard options) t S targets) = separableSources t S targets := by
  obtain ⟨obstacle, herror⟩ :=
    bySources_undetermined options targets h hS hne hD
  rw [herror, reported_error]
  unfold separableSources
  rcases hD with hD | hD
  · rw [hD]
    rfl
  · rw [hD]
    rfl

/-- Without a request for targets the sources alone decide. -/
theorem reported_bySources_none :
    reported (bySources (.standard options) t S none) = separableSources t S none := by
  cases hD : t.determined S with
  | none => exact reported_bySources_undetermined h hS hne (.inl hD)
  | some D =>
      by_cases hDne : D = []
      · exact reported_bySources_undetermined h hS hne (.inr (hDne ▸ hD))
      · obtain ⟨s, hs, hsource, htarget, _⟩ :=
          bySources_derived options h hS hne hD hDne
        rw [hs]
        show some (s.sourceDimensions, s.targetDimensions) = _
        simp [separableSources, hD, hDne, hsource, htarget]

variable (options) in
/-- The outcomes of a separation for requested sources and targets. -/
theorem reported_bySources_some (hR : Increasing R t.targetDimensions) :
    reported (bySources (.standard options) t S (some R)) = separableSources t S (some R) ∨
      options.elideIdentity = true ∧ separableSources t S (some R) = some (S, R) ∧
        ∃ s id k, bySources (.standard options) t S none = .ok s ∧
          s.transform.steps.getLast? = some (kernel id k) ∧ R ≠ s.targetDimensions := by
  cases hD : t.determined S with
  | none => exact .inl (reported_bySources_undetermined h hS hne (.inl hD))
  | some D =>
      by_cases hDne : D = []
      · exact .inl (reported_bySources_undetermined h hS hne (.inr (hDne ▸ hD)))
      · have hseparable : separableSources t S (some R) =
            if R.all D.contains && (!t.endsAfter S || R == D) then some (S, R) else none := by
          simp [separableSources, hD, hDne]
        rw [hseparable]
        by_cases hsub : ∀ d ∈ R, d ∈ D
        · obtain ⟨reduced, hnone, hpart, hok, herror⟩ :=
            bySources_requested options h hS hne hD hDne hR hsub
          have hall : R.all D.contains = true := by simpa using hsub
          by_cases hend : endsInKernel reduced.steps = true ∧ R ≠ D
          · obtain ⟨id, k, hlast, herror⟩ := herror hend.1 hend.2
            have hproper : (R == D) = false := by simpa using hend.2
            cases hafter : t.endsAfter S with
            | true => exact .inl (by rw [herror, hproper, Bool.and_comm]; rfl)
            | false =>
                exact .inr ⟨hpart.elides hend.1 hafter, by simp [hall], _, id, k, hnone, hlast,
                  hend.2⟩
          · have hwhole : endsInKernel reduced.steps = true → R = D := fun hkernel =>
              not_not.mp fun hproper => hend ⟨hkernel, hproper⟩
            obtain ⟨s, hs, hsource, htarget, _⟩ := hok hwhole
            have hfound : (!t.endsAfter S || R == D) = true := by
              cases hafter : t.endsAfter S with
              | true => simp [hwhole (hpart.ends.1 hafter)]
              | false => rfl
            left
            rw [hs, hall, hfound]
            show some (s.sourceDimensions, s.targetDimensions) = _
            rw [hsource, htarget]
            rfl
        · obtain ⟨d, hd, hout⟩ : ∃ d ∈ R, d ∉ D := by simpa using hsub
          obtain ⟨e, _, herror⟩ :=
            bySources_missing options h hS hne hD hDne hd hout
          have hall : R.all D.contains = false := by
            simpa using ⟨d, hd, hout⟩
          exact .inl (by rw [herror, hall]; rfl)

/-- A request fails if the reduction to its sources ends in a kernel and only some of the kernel's
outputs are requested.  If an assembler that simplifies nothing meets it nevertheless, an identity
behind the kernel has been left out. -/
theorem bySources_bare {s whole : Separation κ α} {id : NodeId} {k : κ}
    (hR : Increasing R t.targetDimensions)
    (hs : bySources (.standard options) t S none = .ok s)
    (hlast : s.transform.steps.getLast? = some (kernel id k)) (hproper : R ≠ s.targetDimensions)
    (hwhole : bySources (.standard .verbatim) t S (some R) = .ok whole) :
    options.elideIdentity = true ∧
      (∃ s', bySources (.standard .verbatim) t S none = .ok s' ∧
        s'.targetDimensions = s.targetDimensions ∧
        ∀ id k, s'.transform.steps.getLast? ≠ some (kernel id k)) ∧
      bySources (.standard options) t S (some R) = .error (.cannotSeparate
        (.kernelTargets (Kernel.name k) (R.map s.targetDimensions.idxOf))) := by
  obtain ⟨D, hD, hDne, hsub⟩ := determined_of_bySources h hS hne hwhole
  obtain ⟨reduced, hnone, hpart, _, herror⟩ :=
    bySources_requested options h hS hne hD hDne hR (hsub R rfl)
  obtain rfl : s = ⟨reduced, S, D⟩ := Except.ok.inj (hs.symm.trans hnone)
  obtain ⟨reduced', hnone', hpart', _, herror'⟩ :=
    bySources_requested .verbatim h hS hne hD hDne hR (hsub R rfl)
  have hend : endsInKernel reduced.steps = true := endsInKernel_iff_getLast.mpr ⟨id, k, hlast⟩
  have hopen : endsInKernel reduced'.steps = false := by
    by_contra hkernel
    obtain ⟨_, _, -, herror'⟩ := herror' (Bool.eq_true_of_not_eq_false hkernel) hproper
    rw [herror'] at hwhole
    cases hwhole
  refine ⟨hpart.elides hend ((hpart'.ends.2 rfl).symm.trans hopen),
    ⟨_, hnone', rfl, endsInKernel_eq_false_iff.mp hopen⟩, ?_⟩
  obtain ⟨id', k', hlast', herror⟩ := herror hend hproper
  obtain ⟨rfl, rfl⟩ : id = id' ∧ k = k' := by
    rw [hlast] at hlast'
    simpa using hlast'
  exact herror

end BySources

/-- The reduction to the requested sources alone ends in the kernel `k`.  Not all of the targets `D`
that it computes are requested, although an assembler that simplifies nothing computes the
requested ones. -/
structure LaysBare (options : AssemblyOptions) (t : Transform κ α)
    (sources targets : Option (List Nat)) (id : NodeId) (k : κ) (D R : List Nat) : Prop where
  proper : (properSources t.sourceDimensions sources).isSome
  requested : nonempty targets = some R
  bare : ∃ s, separate (.standard options) t sources none ⟨false⟩ = .ok s ∧
    s.targetDimensions = D ∧ s.transform.steps.getLast? = some (kernel id k)
  narrower : R ≠ D
  verbatim : ∃ s, separate (.standard .verbatim) t sources targets ⟨false⟩ = .ok s

section LaysBare

variable {id : NodeId} {k : κ} {D : List Nat}

omit [LawfulScalar α] in
/-- Proper sources and no targets are a request by sources. -/
theorem separate_none_of_proper {assembler : Assembler κ α}
    (hproper : properSources t.sourceDimensions sources = some S)
    (hS : Increasing S t.sourceDimensions) :
    separate assembler t sources none ⟨false⟩ = bySources assembler t S none := by
  obtain ⟨rfl, _⟩ := properSources_eq_some_iff.mp hproper
  have hsource : Increasing (Option.getD (some S) []) t.sourceDimensions := hS
  have htarget : Increasing (Option.getD none []) t.targetDimensions := increasing_nil _
  rw [separate_eq hsource htarget, hproper]
  rfl

/-- Where a kernel is laid bare, the separation fails. -/
theorem LaysBare.fails (hbare : LaysBare options t sources targets id k D R)
    (h : t.Admissible P) :
    options.elideIdentity = true ∧ (id, k) ∈ t.kernels ∧
      (∃ s, separate (.standard .verbatim) t sources none ⟨false⟩ = .ok s ∧
        s.targetDimensions = D ∧ ∀ id k, s.transform.steps.getLast? ≠ some (kernel id k)) ∧
      separate (.standard options) t sources targets ⟨false⟩ =
        .error (.cannotSeparate (.kernelTargets (Kernel.name k) (R.map D.idxOf))) := by
  obtain ⟨hsources, hrequest, ⟨s, hs, rfl, hlast⟩, hproper, whole, hwhole⟩ := hbare
  obtain ⟨hS, htargets⟩ := increasing_of_separate hwhole
  obtain ⟨S, hsources⟩ := Option.isSome_iff_exists.mp hsources
  obtain ⟨rfl, hne, _⟩ := properSources_eq_some_iff.mp hsources
  have hkernels :=
    kernels_separate (Assembler.standard_keepsKernels options) t (some S) none ⟨false⟩
  rw [hs] at hkernels
  rw [separate_none_of_proper hsources hS] at hs ⊢
  rw [separate_eq hS htargets, hsources, hrequest] at hwhole ⊢
  obtain ⟨helide, hopen, herror⟩ := bySources_bare h hS hne
    (increasing_of_mem_nonempty htargets R hrequest) hs hlast hproper hwhole
  exact ⟨helide, hkernels.subset (mem_kernels_of_getLast hlast), hopen, herror⟩

variable (options) in
/-- What an assembler reports differs from `separable` only where leaving out an identity has
made a kernel the last step. -/
theorem reported_separate (h : t.Admissible P)
    (hsources : Increasing (sources.getD []) t.sourceDimensions)
    (htargets : Increasing (targets.getD []) t.targetDimensions) :
    reported (separate (.standard options) t sources targets ⟨false⟩) =
        separable t sources targets ∨
      options.elideIdentity = true ∧ (separable t sources targets).isSome ∧
        (properSources t.sourceDimensions sources).isSome ∧ ∃ s id k R,
          nonempty targets = some R ∧
          separate (.standard options) t sources none ⟨false⟩ = .ok s ∧
          s.transform.steps.getLast? = some (kernel id k) ∧ R ≠ s.targetDimensions := by
  rw [separate_eq hsources htargets, separable]
  cases hproper : properSources t.sourceDimensions sources with
  | none => exact .inl (reported_byTargets h (increasing_requestedTargets htargets))
  | some S =>
      obtain ⟨rfl, hne, _⟩ := properSources_eq_some_iff.mp hproper
      cases hrequest : nonempty targets with
      | none => exact .inl (reported_bySources_none h hsources hne)
      | some R =>
          have hR := increasing_of_mem_nonempty htargets R hrequest
          rcases reported_bySources_some options h hsources hne hR with
            hsame | ⟨helide, hfound, s, id, k, hs, hbare⟩
          · exact .inl hsame
          · refine .inr ⟨helide, Option.isSome_iff_exists.mpr ⟨_, hfound⟩, rfl, s, id, k, R, rfl,
              ?_, hbare⟩
            rw [separate_none_of_proper hproper hsources]
            exact hs

variable (options) in
/-- The options of the assembler matter only if they lay a kernel bare. -/
theorem reported_eq_or_laysBare (h : t.Admissible P)
    (hsources : Increasing (sources.getD []) t.sourceDimensions)
    (htargets : Increasing (targets.getD []) t.targetDimensions) :
    reported (separate (.standard options) t sources targets ⟨false⟩) =
        reported (separate (.standard .verbatim) t sources targets ⟨false⟩) ∨
      ∃ id k D R, LaysBare options t sources targets id k D R := by
  have hverbatim : reported (separate (.standard .verbatim) t sources targets ⟨false⟩) =
      separable t sources targets :=
    (reported_separate .verbatim h hsources htargets).resolve_right fun hbare =>
      absurd hbare.1 Bool.false_ne_true
  rw [hverbatim]
  rcases reported_separate options h hsources htargets with
    hsame | ⟨_, hfound, hproper, s, id, k, R, hrequest, hs, hlast, hnarrower⟩
  · exact .inl hsame
  · exact .inr ⟨id, k, s.targetDimensions, R, hproper, hrequest, ⟨s, hs, rfl, hlast⟩, hnarrower,
      exists_ok_of_reported (hverbatim ▸ hfound)⟩

end LaysBare

end Separability

section Options

variable {κ : Type} [Kernel κ Float] {t : Transform κ Float}

/-- The options of the assembler do not matter for whether a request can be separated and what is
reported, as long as they do not lay a kernel bare.  Where they do, an identity has been left out
behind this kernel, and the separation fails because only some of its outputs are requested. -/
theorem reported_options (ht : t.WellFormed) (options : AssemblyOptions)
    (sources targets : Option (List Nat)) :
    ((∀ id k D R, ¬LaysBare options t sources targets id k D R) →
        reported (separate (.standard options) t sources targets ⟨false⟩) =
          reported (separate (.standard .verbatim) t sources targets ⟨false⟩)) ∧
      ∀ id k D R, LaysBare options t sources targets id k D R →
        options.elideIdentity = true ∧ (id, k) ∈ t.kernels ∧
          (∃ s, separate (.standard .verbatim) t sources none ⟨false⟩ = .ok s ∧
            s.targetDimensions = D ∧ ∀ id k, s.transform.steps.getLast? ≠ some (kernel id k)) ∧
          separate (.standard options) t sources targets ⟨false⟩ =
            .error (.cannotSeparate (.kernelTargets (Kernel.name k) (R.map D.idxOf))) := by
  refine ⟨fun hnone => ?_, fun id k D R hbare => hbare.fails ht.admissible⟩
  by_cases hvalid : Increasing (sources.getD []) t.sourceDimensions ∧
      Increasing (targets.getD []) t.targetDimensions
  · refine (reported_eq_or_laysBare options ht.admissible hvalid.1 hvalid.2).resolve_right ?_
    rintro ⟨id, k, D, R, hbare⟩
    exact hnone id k D R hbare
  · obtain ⟨argument, hrefused⟩ := separate_refused hvalid
    rw [hrefused, hrefused]

/-- A kernel that makes two coordinates of the first of two, and a linear step that changes only the
last one. -/
def endingInIdentity : Transform SyntheticKernel Float :=
  chain none
    (passThrough none 0 (kernel none (.make "split" 1 2 0 2 .declared none none)) 1)
    (linear none
      ⟨4, 4, #[1, 0, 0, 0, 0, 1, 0, 0, 0, 1, 1, 0, 0, 0, 0, 1], by decide +kernel⟩)

/-- Leaving out the identity lays the kernel bare and makes the separation fail, and folding alone
changes nothing. -/
theorem separate_endingInIdentity :
    separate (.standard ⟨true, true⟩) endingInIdentity (some [0]) (some [0]) ⟨false⟩ =
        .error (.cannotSeparate (.kernelTargets "split" [0])) ∧
      reported (separate (.standard ⟨true, false⟩) endingInIdentity (some [0]) (some [0]) ⟨false⟩) =
        reported (separate (.standard .verbatim) endingInIdentity (some [0]) (some [0])
          ⟨false⟩) := by
  have hwell : endingInIdentity.WellFormed := by decide +kernel
  have hbare : LaysBare ⟨true, true⟩ endingInIdentity (some [0]) (some [0]) none
      (.make "split" 1 2 0 2 .declared none none) [0, 1] [0] :=
    { proper := by decide +kernel
      requested := rfl
      bare := ⟨_, rfl, rfl, rfl⟩
      narrower := by decide
      verbatim := exists_ok_of_isOk (by decide +kernel) }
  constructor
  · exact ((reported_options hwell ⟨true, true⟩ (some [0]) (some [0])).2 _ _ _ _ hbare).2.2.2
  · refine (reported_options hwell ⟨true, false⟩ (some [0]) (some [0])).1 fun id k D R h => ?_
    obtain ⟨helide, _⟩ := (reported_options hwell ⟨true, false⟩ (some [0]) (some [0])).2 _ _ _ _ h
    cases helide

/-- The options of the assembler may decide whether a request can be separated. -/
theorem not_reported_eq_of_options :
    ¬∀ t : Transform SyntheticKernel Float, t.WellFormed →
      ∀ (sources targets : Option (List Nat)) (options options' : AssemblyOptions),
        reported (separate (.standard options) t sources targets ⟨false⟩) =
          reported (separate (.standard options') t sources targets ⟨false⟩) := by
  intro hall
  have hverbatim : reported (separate (.standard .verbatim) endingInIdentity (some [0]) (some [0])
      ⟨false⟩) = some ([0], [0]) := by decide +kernel
  have helided : reported (separate (.standard ⟨true, true⟩) endingInIdentity (some [0]) (some [0])
      ⟨false⟩) = none := by decide +kernel
  have hsame := hall endingInIdentity (by decide +kernel) (some [0]) (some [0]) .verbatim ⟨true, true⟩
  rw [hverbatim, helided] at hsame
  cases hsame

end Options

end Separation
end SeparableTransforms
