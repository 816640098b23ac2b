import SeparableTransforms.Kernels.Synthetic
import SeparableTransforms.Proofs.Binary64.Agreement
import SeparableTransforms.Proofs.Separation.Separability
import SeparableTransforms.Proofs.Separation.Soundness
import SeparableTransforms.Proofs.Separation.Tracing
import SeparableTransforms.Separation.Session

/-!
# Repeated separations

A separation reports the dimensions that it uses.  When it is repeated with these it
either gives the same dimensions again or finds that the transform cannot be
separated; it never gives others.

It is repeated in the same way as before, except that sources left after trimming
have become a request for sources.  They are now followed forwards through the
transform as it was given, while trimming looked at what was left of it after
reduction.  So the repetition succeeds exactly if the sources that are left suffice
for the targets.

For an assembler that simplifies nothing they do, unless a pass-through holds a
constant (`determined_keepTargets`).  For the others it is enough that they report
the same as that one and do not lay a kernel bare in the repetition.
-/

namespace SeparableTransforms
namespace Separation

open Transform Outcome

section Repetition

variable {κ α : Type} [Kernel κ α] [Scalar α]

/-- The separation with the dimensions that another one has reported. -/
def repeated (assembler : Assembler κ α) (t : Transform κ α) (s : Separation κ α)
    (extra : SeparationOptions) : Except TransformError (Separation κ α) :=
  separate assembler t (some s.sourceDimensions) (some s.targetDimensions) extra

/-- Both separations report the same dimensions. -/
def Agree (s s' : Separation κ α) : Prop :=
  s'.sourceDimensions = s.sourceDimensions ∧ s'.targetDimensions = s.targetDimensions

/-- From the sources alone the targets are computed, and no others if a kernel stands at the end. -/
def Suffices (options : AssemblyOptions) (t : Transform κ α)
    (sources targets : Option (List Nat)) : Prop :=
  ∃ s, separate (.standard options) t sources none ⟨false⟩ = .ok s ∧
    (∀ d ∈ targets.getD [], d ∈ s.targetDimensions) ∧
    ∀ id k, s.transform.steps.getLast? = some (kernel id k) → targets = some s.targetDimensions

variable [LawfulScalar α] {options : AssemblyOptions} {P : κ → Prop} {t : Transform κ α}
  {S : List Nat} {s : Separation κ α} {sources targets : Option (List Nat)}
  {extra : SeparationOptions} {limit : Nat}

theorem requestedTargets_ne_nil (h : 0 < limit) : requestedTargets limit targets ≠ [] := by
  rw [requestedTargets]
  cases hrequest : nonempty targets with
  | none => exact range_ne_nil h
  | some R => exact (nonempty_eq_some_iff.mp hrequest).2

theorem requestedTargets_requestedTargets :
    requestedTargets limit (some (requestedTargets limit targets)) =
      requestedTargets limit targets := by
  by_cases hne : requestedTargets limit targets = []
  · rw [hne]
    unfold requestedTargets at hne
    cases htargets : nonempty targets with
    | none => rwa [htargets] at hne
    | some R =>
        rw [htargets] at hne
        exact absurd hne (nonempty_eq_some_iff.mp htargets).2
  · rw [requestedTargets, nonempty_eq_some_iff.mpr ⟨rfl, hne⟩, Option.getD_some]

omit [LawfulScalar α] in
/-- Reported dimensions are accepted as a request. -/
theorem repeated_eq {assembler : Assembler κ α} (hseparates : Separates options P t s) :
    repeated assembler t s extra =
      match properSources t.sourceDimensions (some s.sourceDimensions) with
      | some S => bySources assembler t S (nonempty (some s.targetDimensions))
      | none => byTargets assembler t
          (requestedTargets t.targetDimensions (some s.targetDimensions)) extra :=
  separate_eq hseparates.sources hseparates.targets

omit [LawfulScalar α] in
/-- All sources are used or only some of them. -/
theorem Separates.sources_cases (hseparates : Separates options P t s) :
    s.sourceDimensions = List.range t.sourceDimensions ∨
      properSources t.sourceDimensions (some s.sourceDimensions) = some s.sourceDimensions := by
  have hne : s.sourceDimensions ≠ [] := List.length_pos_iff.mp hseparates.fits.source_pos
  rcases Nat.lt_or_ge s.sourceDimensions.length t.sourceDimensions with hlt | hge
  · exact .inr (properSources_eq_some_iff.mpr ⟨rfl, hne, hlt⟩)
  · exact .inl (hseparates.sources.eq_range hge)

section Sources

variable (h : t.Admissible P)
  (hs : separate (.standard options) t sources targets extra = .ok s)
  (hproper : properSources t.sourceDimensions sources = some S)

include h hs hproper

/-- What a separation by sources has reported. -/
theorem separates_of_sources :
    Separates options P t s ∧ s.sourceDimensions = S ∧
      bySources (.standard options) t S (nonempty targets) = .ok s ∧
      ∃ D, t.determined S = some D ∧ D ≠ [] ∧ s.targetDimensions = (nonempty targets).getD D := by
  obtain ⟨hsources, htargets⟩ := increasing_of_separate hs
  rw [separate_eq hsources htargets, hproper] at hs
  obtain ⟨rfl, hne, _⟩ := properSources_eq_some_iff.mp hproper
  obtain ⟨hseparates, hsource, hreported⟩ :=
    separates_of_bySources h hsources hne (increasing_of_mem_nonempty htargets) hs
  exact ⟨hseparates, hsource, hs, hreported⟩

/-- Proper sources are kept again. -/
theorem repeated_of_sources :
    ∃ s', repeated (.standard options) t s extra = .ok s' ∧ Agree s s' := by
  obtain ⟨hseparates, hsource, hbySources, D, hD, hDne, htarget⟩ :=
    separates_of_sources h hs hproper
  obtain ⟨rfl, hne, _⟩ := properSources_eq_some_iff.mp hproper
  have hS : Increasing S t.sourceDimensions := hsource ▸ hseparates.sources
  rw [repeated_eq hseparates, hsource, hproper, htarget]
  cases hrequest : nonempty targets with
  | none =>
      -- all that is determined becomes the request
      have hincreasing := increasing_determined h.wellFormed hS hD
      obtain ⟨_, _, _, hok, _⟩ :=
        bySources_requested options h hS hne hD hDne hincreasing fun _ hd => hd
      obtain ⟨s', hs', hsource', htarget', _⟩ := hok fun _ => rfl
      refine ⟨s', ?_, hsource'.trans hsource.symm, ?_⟩
      · rw [Option.getD_none, nonempty_eq_some_iff.mpr ⟨rfl, hDne⟩]
        exact hs'
      · rw [htarget', htarget, hrequest, Option.getD_none]
  | some R =>
      rw [Option.getD_some, nonempty_eq_some_iff.mpr ⟨rfl, (nonempty_eq_some_iff.mp hrequest).2⟩]
      rw [hrequest] at hbySources
      exact ⟨s, hbySources, rfl, rfl⟩

end Sources

section Targets

variable (h : t.Admissible P)
  (hs : separate (.standard options) t sources targets extra = .ok s)
  (hproper : properSources t.sourceDimensions sources = none)

include h hs hproper

/-- What a separation by targets has reported. -/
theorem separates_of_targets :
    Separates options P t s ∧ s.targetDimensions = requestedTargets t.targetDimensions targets ∧
      byTargets (.standard options) t s.targetDimensions extra = .ok s ∧
      ∃ t', t.keepTargets (.standard options) s.targetDimensions = .ok t' ∧
        s.sourceDimensions = (if extra.trimSources then t'.usedSources
          else List.range t.sourceDimensions) := by
  obtain ⟨hsources, htargets⟩ := increasing_of_separate hs
  rw [separate_eq hsources htargets, hproper] at hs
  obtain ⟨hseparates, htarget, t', hkeep, _, hsource⟩ :=
    separates_of_byTargets h (increasing_requestedTargets htargets) hs
  exact ⟨hseparates, htarget, htarget ▸ hs, t', htarget ▸ hkeep, hsource⟩

/-- With all sources the targets are kept again. -/
theorem repeated_of_targets (hall : s.sourceDimensions = List.range t.sourceDimensions) :
    repeated (.standard options) t s extra = .ok s := by
  obtain ⟨hseparates, htarget, hbyTargets, _⟩ := separates_of_targets h hs hproper
  have hnone : properSources t.sourceDimensions (some s.sourceDimensions) = none := by
    cases hsome : properSources t.sourceDimensions (some s.sourceDimensions) with
    | none => rfl
    | some S =>
        obtain ⟨hsame, _⟩ := properSources_eq_some_iff.mp hsome
        exact absurd ((Option.some.inj hsame).symm.trans hall) (ne_range_of_properSources hsome)
  rw [repeated_eq hseparates, hnone, htarget, requestedTargets_requestedTargets, ← htarget]
  exact hbyTargets

end Targets

/-- A separation of a transform with targets computes some of them. -/
theorem targets_ne_nil (h : t.Admissible P)
    (hs : separate (.standard options) t sources targets extra = .ok s)
    (hpos : 0 < t.targetDimensions) : s.targetDimensions ≠ [] := by
  cases hproper : properSources t.sourceDimensions sources with
  | none =>
      obtain ⟨_, htarget, _⟩ := separates_of_targets h hs hproper
      exact htarget ▸ requestedTargets_ne_nil hpos
  | some S =>
      obtain ⟨_, _, _, D, _, hDne, htarget⟩ := separates_of_sources h hs hproper
      rw [htarget]
      cases hrequest : nonempty targets with
      | none => exact hDne
      | some R => exact (nonempty_eq_some_iff.mp hrequest).2

section Trimmed

variable (h : t.Admissible P)
  (hs : separate (.standard options) t sources targets extra = .ok s)
  (hpart : properSources t.sourceDimensions (some s.sourceDimensions) = some s.sourceDimensions)

omit [LawfulScalar α] in
include hpart in
/-- What is left after trimming is kept by its sources. -/
theorem repeated_of_trimmed {assembler : Assembler κ α} (hseparates : Separates options P t s) :
    repeated assembler t s extra =
      bySources assembler t s.sourceDimensions (nonempty (some s.targetDimensions)) := by
  rw [repeated_eq hseparates, hpart]

include h hs hpart

/-- The repeated separation may fail, but does not report other dimensions. -/
theorem agree_of_trimmed :
    (∃ s', repeated (.standard options) t s extra = .ok s' ∧ Agree s s') ∨
      ∃ obstacle, repeated (.standard options) t s extra =
        .error (.cannotSeparate obstacle) := by
  have hseparates := separates_of_separate h hs
  obtain ⟨_, hne, _⟩ := properSources_eq_some_iff.mp hpart
  have hR : ∀ R ∈ nonempty (some s.targetDimensions), Increasing R t.targetDimensions := by
    intro R hR
    obtain rfl := Option.some.inj (nonempty_eq_some_iff.mp hR).1
    exact hseparates.targets
  rw [repeated_of_trimmed hpart hseparates]
  rcases bySources_cases h hseparates.sources hne options hR with ⟨s', hs'⟩ | hfails
  · obtain ⟨_, hsource, D, hD, hDne, htarget⟩ :=
      separates_of_bySources h hseparates.sources hne hR hs'
    refine .inl ⟨s', hs', hsource, ?_⟩
    obtain ⟨d, hd⟩ := List.exists_mem_of_ne_nil _ hDne
    have hlt := (increasing_determined h.wellFormed hseparates.sources hD).bounded d hd
    have htargetne := targets_ne_nil h hs (Nat.zero_lt_of_lt hlt)
    rw [htarget, nonempty_eq_some_iff.mpr ⟨rfl, htargetne⟩, Option.getD_some]
  · exact .inr hfails

/-- What trimming has left is kept again exactly if it suffices for the targets. -/
theorem exists_repeated_iff_suffices :
    (∃ s', repeated (.standard options) t s extra = .ok s') ↔
      Suffices options t (some s.sourceDimensions) (some s.targetDimensions) := by
  have hseparates := separates_of_separate h hs
  obtain ⟨_, hne, _⟩ := properSources_eq_some_iff.mp hpart
  unfold Suffices
  rw [repeated_of_trimmed hpart hseparates, separate_none_of_proper hpart hseparates.sources]
  by_cases hRne : s.targetDimensions = []
  · -- a transform without targets has nothing that its sources could determine
    have hnone : ¬∃ s', bySources (.standard options) t s.sourceDimensions none = .ok s' := by
      rintro ⟨s', hs'⟩
      obtain ⟨D, hD, hDne, _⟩ := determined_of_bySources h hseparates.sources hne hs'
      obtain ⟨d, hd⟩ := List.exists_mem_of_ne_nil _ hDne
      have hlt := (increasing_determined h.wellFormed hseparates.sources hD).bounded d hd
      exact targets_ne_nil h hs (Nat.zero_lt_of_lt hlt) hRne
    rw [hRne]
    exact iff_of_false hnone fun ⟨s', hs', _⟩ => hnone ⟨s', hs'⟩
  · rw [nonempty_eq_some_iff.mpr ⟨rfl, hRne⟩,
      exists_bySources_some_iff h hseparates.sources hne hseparates.targets]
    simp only [Option.getD_some, Option.some.injEq]

/-- What an assembler that simplifies nothing keeps again is kept by others as well, unless they lay
a kernel bare. -/
theorem exists_repeated_of_verbatim
    (hverbatim : ∃ s', repeated (.standard .verbatim) t s extra = .ok s')
    (hbare : ∀ id k D R, ¬LaysBare options t (some s.sourceDimensions) (some s.targetDimensions)
      id k D R) : ∃ s', repeated (.standard options) t s extra = .ok s' := by
  have hseparates := separates_of_separate h hs
  -- trimming plays no part in a request for proper sources
  have hplain : ∀ options', repeated (.standard options') t s extra =
      separate (.standard options') t (some s.sourceDimensions) (some s.targetDimensions)
        ⟨false⟩ := fun options' =>
    (repeated_of_trimmed hpart hseparates).trans (repeated_of_trimmed hpart hseparates).symm
  have hsources : Increasing (Option.getD (some s.sourceDimensions) []) t.sourceDimensions :=
    hseparates.sources
  have htargets : Increasing (Option.getD (some s.targetDimensions) []) t.targetDimensions :=
    hseparates.targets
  have hsame := (reported_eq_or_laysBare options h hsources htargets).resolve_right
    fun ⟨id, k, D, R, hlays⟩ => hbare id k D R hlays
  obtain ⟨s', hs'⟩ := hverbatim
  rw [hplain] at hs' ⊢
  refine exists_ok_of_reported ?_
  rw [hsame, hs']
  rfl

end Trimmed

/-- Without simplifications what trimming has left determines the targets. -/
theorem exists_repeated_of_varies (h : t.Admissible P)
    (hs : separate (.standard .verbatim) t sources targets extra = .ok s)
    (hproper : properSources t.sourceDimensions sources = none)
    (hpart : properSources t.sourceDimensions (some s.sourceDimensions) = some s.sourceDimensions)
    (hvary : t.BlocksVary) (hpos : 0 < t.targetDimensions) :
    ∃ s', repeated (.standard .verbatim) t s extra = .ok s' := by
  obtain ⟨hseparates, _, _, t', hkeep, hsource⟩ := separates_of_targets h hs hproper
  obtain ⟨_, hne, _⟩ := properSources_eq_some_iff.mp hpart
  have hR := hseparates.targets
  have hRne := targets_ne_nil h hs hpos
  have hused : s.sourceDimensions = t'.usedSources := by
    rw [hsource]
    split
    · rfl
    · rename_i htrim
      exact absurd (hsource.trans (if_neg htrim)) (ne_range_of_properSources hpart)
  rw [repeated_of_trimmed hpart hseparates, nonempty_eq_some_iff.mpr ⟨rfl, hRne⟩]
  obtain ⟨D, hD, hsub, hends⟩ := determined_keepTargets hvary h.fits hR hRne hkeep
  rw [← hused] at hD hends
  have hDne : D ≠ [] := ne_nil_of_forall_mem hRne hsub
  obtain ⟨reduced, _, hreduced, hok, _⟩ :=
    bySources_requested .verbatim h hseparates.sources hne hD hDne hR hsub
  obtain ⟨s', hs', _⟩ :=
    hok fun hkernel => hends ((hreduced.ends.2 rfl).symm.trans hkernel)
  exact ⟨s', hs'⟩

section Repeating

variable (h : t.Admissible P)
  (hs : separate (.standard options) t sources targets extra = .ok s)

include h hs

/-- Only a request without proper sources uses all sources. -/
theorem properSources_eq_none_of_all (hall : s.sourceDimensions = List.range t.sourceDimensions) :
    properSources t.sourceDimensions sources = none := by
  cases hproper : properSources t.sourceDimensions sources with
  | none => rfl
  | some S =>
      obtain ⟨_, hsource, _⟩ := separates_of_sources h hs hproper
      exact absurd (hsource.symm.trans hall) (ne_range_of_properSources hproper)

/-- A separation that uses all sources is repeated as it was. -/
theorem repeated_of_all (hall : s.sourceDimensions = List.range t.sourceDimensions) :
    repeated (.standard options) t s extra = .ok s :=
  repeated_of_targets h hs (properSources_eq_none_of_all h hs hall) hall

/-- A separation can be repeated or fails, and in no case reports other dimensions. -/
theorem agree_or_fails :
    (∃ s', repeated (.standard options) t s extra = .ok s' ∧ Agree s s') ∨
      ∃ obstacle, repeated (.standard options) t s extra =
        .error (.cannotSeparate obstacle) := by
  rcases (separates_of_separate h hs).sources_cases with hall | hpart
  · exact .inl ⟨s, repeated_of_all h hs hall, rfl, rfl⟩
  · exact agree_of_trimmed h hs hpart

/-- A separation can be repeated exactly if it uses all sources, or if those that it uses suffice for
the targets. -/
theorem exists_repeated_iff :
    (∃ s', repeated (.standard options) t s extra = .ok s') ↔
      s.sourceDimensions = List.range t.sourceDimensions ∨
        Suffices options t (some s.sourceDimensions) (some s.targetDimensions) := by
  rcases (separates_of_separate h hs).sources_cases with hall | hpart
  · exact iff_of_true ⟨s, repeated_of_all h hs hall⟩ (.inl hall)
  · rw [exists_repeated_iff_suffices h hs hpart, or_iff_right (ne_range_of_properSources hpart)]

/-- Without trimming, and for proper sources, nothing has been dropped. -/
theorem exists_repeated_of_request
    (hrequest : extra.trimSources = false ∨ (properSources t.sourceDimensions sources).isSome) :
    ∃ s', repeated (.standard options) t s extra = .ok s' := by
  cases hproper : properSources t.sourceDimensions sources with
  | some S =>
      obtain ⟨s', hs', _⟩ := repeated_of_sources h hs hproper
      exact ⟨s', hs'⟩
  | none =>
      have htrim : extra.trimSources = false := hrequest.resolve_right (by simp [hproper])
      obtain ⟨_, _, _, _, _, hsource⟩ := separates_of_targets h hs hproper
      rw [htrim, if_neg Bool.false_ne_true] at hsource
      exact ⟨s, repeated_of_all h hs hsource⟩

/-- A separation can be repeated if an assembler that simplifies nothing reports the same, and no
kernel is laid bare. -/
theorem exists_repeated_of_agree {s₀ : Separation κ α} (hvary : t.BlocksVary)
    (hpos : 0 < t.targetDimensions)
    (hs₀ : separate (.standard .verbatim) t sources targets extra = .ok s₀) (hagree : Agree s s₀)
    (hbare : ∀ id k D R, ¬LaysBare options t (some s.sourceDimensions) (some s.targetDimensions)
      id k D R) : ∃ s', repeated (.standard options) t s extra = .ok s' := by
  cases hproper : properSources t.sourceDimensions sources with
  | some S => exact exists_repeated_of_request h hs (.inr (by simp [hproper]))
  | none =>
      rcases (separates_of_separate h hs).sources_cases with hall | hpart
      · exact ⟨s, repeated_of_all h hs hall⟩
      · obtain ⟨s', hs'⟩ := exists_repeated_of_varies h hs₀ hproper (by rwa [hagree.1]) hvary hpos
        unfold repeated at hs'
        rw [hagree.1, hagree.2] at hs'
        exact exists_repeated_of_verbatim h hs hpart ⟨s', hs'⟩ hbare

end Repeating

end Repetition

end Separation

namespace Session

open Separation Transform Outcome

section Sessions

variable {κ α : Type} [Kernel κ α] [Scalar α] {session next : Session κ α} {part : Transform κ α}
  {assembler : Assembler κ α}

/-- The session with the dimensions that a separation has reported. -/
def withReport (session : Session κ α) (s : Separation κ α) : Session κ α :=
  { session with
    sources := some s.sourceDimensions
    targets := some s.targetDimensions }

/-- A session goes on with what its separation has reported. -/
theorem separate_eq_ok_iff : session.separate assembler = .ok (next, part) ↔
    ∃ s, Separation.separate assembler session.transform session.sources session.targets
        session.options = .ok s ∧ next = session.withReport s ∧ part = s.transform := by
  unfold Session.separate
  rw [bind_eq_ok_iff]
  constructor
  · rintro ⟨s, hs, hnext⟩
    cases hnext
    exact ⟨s, hs, rfl, rfl⟩
  · rintro ⟨s, hs, rfl, rfl⟩
    exact ⟨s, hs, rfl⟩

theorem separate_withReport {s s' : Separation κ α}
    (hs' : repeated assembler session.transform s session.options = .ok s')
    (hagree : Agree s s') :
    (session.withReport s).separate assembler = .ok (session.withReport s, s'.transform) := by
  refine separate_eq_ok_iff.mpr ⟨s', hs', ?_, rfl⟩
  simp only [withReport, hagree.1, hagree.2]

theorem separate_withReport_error {s : Separation κ α} {e : TransformError}
    (h : repeated assembler session.transform s session.options = .error e) :
    (session.withReport s).separate assembler = .error e := by
  have hs : Separation.separate assembler (session.withReport s).transform
      (session.withReport s).sources (session.withReport s).targets
      (session.withReport s).options = .error e := h
  rw [Session.separate, hs]
  rfl

/-- The session is separated once more exactly if the separation is. -/
theorem exists_separate_withReport_iff [LawfulScalar α] {options : AssemblyOptions} {P : κ → Prop}
    {s : Separation κ α} (h : session.transform.Admissible P)
    (hs : Separation.separate (.standard options) session.transform session.sources session.targets
      session.options = .ok s) :
    (∃ part', (session.withReport s).separate (.standard options) =
        .ok (session.withReport s, part')) ↔
      ∃ s', repeated (.standard options) session.transform s session.options = .ok s' := by
  constructor
  · rintro ⟨part', hpart⟩
    obtain ⟨s', hs', _⟩ := separate_eq_ok_iff.mp hpart
    exact ⟨s', hs'⟩
  · rintro ⟨s', hs'⟩
    rcases agree_or_fails h hs with ⟨s₁, hs₁, hagree⟩ | ⟨obstacle, herror⟩
    · exact ⟨_, separate_withReport hs₁ hagree⟩
    · rw [herror] at hs'
      cases hs'

theorem perform_separate_of_ok (h : session.separate assembler = .ok (session, part)) :
    (session.perform assembler .separate).1 = session := by
  simp [perform, attempt, h]

theorem perform_separate_of_error {e : TransformError} (h : session.separate assembler = .error e) :
    (session.perform assembler .separate).1 = session := by
  simp [perform, attempt, h]

end Sessions

section Binary64

variable {κ : Type} [Kernel κ Float] {session next : Session κ Float} {part : Transform κ Float}

/-- Simplifications do not affect what the session reports: an assembler without them reports the
same, and no kernel is laid bare when the separation is repeated.  Besides, no pass-through holds a
constant. -/
structure Unaffected (options : AssemblyOptions) (session next : Session κ Float) : Prop where
  varies : session.transform.BlocksVary
  targets_pos : 0 < session.transform.targetDimensions
  verbatim : ∃ part, session.separate (.standard .verbatim) = .ok (next, part)
  covered : ∀ id k D R,
    ¬LaysBare options session.transform next.sources next.targets id k D R

/-- A separation that is repeated at once leaves the session as it is.  It succeeds exactly if all
sources are used or those that are used suffice for the targets, which is so for every request
without trimming, for every request for proper sources, and wherever simplifications do not affect
what is reported. -/
theorem separate_again (ht : session.transform.WellFormed) {options : AssemblyOptions}
    (hfirst : session.separate (.standard options) = .ok (next, part)) :
    (next.perform (.standard options) .separate).1 = next ∧
      ((∃ part', next.separate (.standard options) = .ok (next, part')) ∨
        ∃ obstacle, next.separate (.standard options) = .error (.cannotSeparate obstacle)) ∧
      ((∃ part', next.separate (.standard options) = .ok (next, part')) ↔
        next.sources = some (List.range session.transform.sourceDimensions) ∨
          Suffices options session.transform next.sources next.targets) ∧
      (session.options.trimSources = false ∨
          (properSources session.transform.sourceDimensions session.sources).isSome ∨
          Unaffected options session next →
        ∃ part', next.separate (.standard options) = .ok (next, part')) := by
  obtain ⟨s, hs, rfl, rfl⟩ := separate_eq_ok_iff.mp hfirst
  have hiff := exists_separate_withReport_iff ht.admissible hs
  have hagain : (∃ part', (session.withReport s).separate (.standard options) =
        .ok (session.withReport s, part')) ∨
      ∃ obstacle, (session.withReport s).separate (.standard options) =
        .error (.cannotSeparate obstacle) := by
    rcases agree_or_fails ht.admissible hs with ⟨s', hs', _⟩ | ⟨obstacle, herror⟩
    · exact .inl (hiff.mpr ⟨s', hs'⟩)
    · exact .inr ⟨obstacle, separate_withReport_error herror⟩
  refine ⟨?_, hagain, ?_, ?_⟩
  · rcases hagain with ⟨part', hok⟩ | ⟨obstacle, herror⟩
    · exact perform_separate_of_ok hok
    · exact perform_separate_of_error herror
  · rw [hiff, exists_repeated_iff ht.admissible hs]
    exact or_congr_left Option.some_inj.symm
  · rw [hiff]
    rintro (htrim | hsome | ⟨hvary, hpos, ⟨_, hverbatim⟩, hbare⟩)
    · exact exists_repeated_of_request ht.admissible hs (.inl htrim)
    · exact exists_repeated_of_request ht.admissible hs (.inr hsome)
    · obtain ⟨s₀, hs₀, hnext, _⟩ := separate_eq_ok_iff.mp hverbatim
      obtain ⟨hsource, htarget⟩ : s.sourceDimensions = s₀.sourceDimensions ∧
          s.targetDimensions = s₀.targetDimensions := by
        simpa [withReport] using hnext
      exact exists_repeated_of_agree ht.admissible hs hvary hpos hs₀ ⟨hsource.symm, htarget.symm⟩
        hbare

/-- The first and the last of three coordinates are added behind a pass-through that scales the one
between. -/
def addingOuter : Session SyntheticKernel Float :=
  ⟨chain none
    (passThrough none 1 (linear none ⟨2, 2, #[2, 0, 0, 1], by decide +kernel⟩) 1)
    (linear none ⟨3, 4, #[1, 0, 1, 0, 0, 1, 0, 0, 0, 0, 0, 1], by decide +kernel⟩),
    none, some [0], ⟨true⟩⟩

theorem separate_addingOuter {n : Nat} (options : AssemblyOptions)
    (h : (addingOuter.separate (.standard options)).toOption.map
      (fun result => (result.1.sources, result.1.targets, result.2.steps.length)) =
        some (some [0, 2], some [0], n)) :
    ∃ part, addingOuter.separate (.standard options) =
      .ok ({ addingOuter with sources := some [0, 2], targets := some [0] }, part) ∧
        part.steps.length = n := by
  cases hresult : addingOuter.separate (.standard options) with
  | error e =>
      rw [hresult] at h
      cases h
  | ok result =>
      obtain ⟨next, part⟩ := result
      obtain ⟨s, _, rfl, _⟩ := separate_eq_ok_iff.mp hresult
      rw [hresult] at h
      obtain ⟨hsources, htargets, hsteps⟩ :
          some s.sourceDimensions = some [0, 2] ∧ some s.targetDimensions = some [0] ∧
            part.steps.length = n := by
        simpa [Except.toOption, withReport] using h
      refine ⟨part, ?_, hsteps⟩
      rw [withReport, hsources, htargets]

/-- Trimming drops the scaled coordinate, and the other two are kept although both steps are folded
into one. -/
theorem separate_again_addingOuter :
    ∃ next part part', addingOuter.separate (.standard {}) = .ok (next, part) ∧
      next.sources = some [0, 2] ∧ next.targets = some [0] ∧ part.steps.length = 1 ∧
      next.separate (.standard {}) = .ok (next, part') := by
  have hwell : addingOuter.transform.WellFormed := by decide +kernel
  have hvary : addingOuter.transform.BlocksVary := by
    refine ⟨⟨trivial, fun matrix hmatrix r hr => ?_⟩, trivial⟩
    obtain rfl := Option.some.inj hmatrix
    obtain rfl : r = 0 := Nat.lt_one_iff.mp hr
    exact ⟨0, by decide +kernel, by decide +kernel⟩
  obtain ⟨part, hfirst, hsteps⟩ := separate_addingOuter (n := 1) {} (by decide +kernel)
  obtain ⟨whole, hwhole, _⟩ := separate_addingOuter (n := 2) .verbatim (by decide +kernel)
  have hunaffected : Unaffected {} addingOuter
      { addingOuter with sources := some [0, 2], targets := some [0] } :=
    { varies := hvary
      targets_pos := by decide +kernel
      verbatim := ⟨whole, hwhole⟩
      covered := fun id k D R hbare => by cases (hbare.fails hwell.admissible).2.1 }
  obtain ⟨_, _, _, hrepeat⟩ := separate_again hwell hfirst
  obtain ⟨part', hsecond⟩ := hrepeat (.inr (.inr hunaffected))
  exact ⟨_, part, part', hfirst, rfl, rfl, hsteps, hsecond⟩

/-- A session whose separations can be repeated. -/
def Repeats (options : AssemblyOptions) (session : Session κ Float) : Prop :=
  ∀ next part, session.separate (.standard options) = .ok (next, part) →
    ∃ part', next.separate (.standard options) = .ok (next, part')

theorem not_repeats_of {options : AssemblyOptions}
    (hfirst : (session.separate (.standard options)).isOk = true)
    (hsecond : (session.separate (.standard options) >>= fun result =>
      result.1.separate (.standard options)).isOk = false) : ¬Repeats options session := by
  intro hrepeats
  obtain ⟨⟨next, part⟩, hfirst⟩ := exists_ok_of_isOk hfirst
  obtain ⟨part', hagain⟩ := hrepeats next part hfirst
  rw [hfirst, ok_bind, hagain] at hsecond
  cases hsecond

/-- Two matrices in which the first coordinate cancels. -/
def cancelling : Session SyntheticKernel Float :=
  ⟨chain none (linear none ⟨3, 3, #[1, 1, 0, 1, 0, 0, 0, 0, 1], by decide +kernel⟩)
    (linear none ⟨3, 3, #[1, -1, 0, 1, 0, 0, 0, 0, 1], by decide +kernel⟩),
    none, some [0], ⟨true⟩⟩

/-- A kernel with an identity behind it. -/
def closedByIdentity : Session SyntheticKernel Float :=
  ⟨chain none
    (linear none ⟨3, 4, #[1, 0, 0, 0, 0, 1, 0, 0, 0, 0, 0, 1], by decide +kernel⟩)
    (chain none (kernel none (.make "swirl" 2 2 0 2 .declared none none))
      (linear none (DenseMatrix.identity 3))),
    none, some [0], ⟨true⟩⟩

/-- A pass-through around a constant. -/
def holdingConstant : Session SyntheticKernel Float :=
  ⟨passThrough none 1 (linear none ⟨3, 2, #[0, 5, 2, 0, 0, 1], by decide +kernel⟩) 0,
    none, some [0, 1], ⟨true⟩⟩

/-- Folding, leaving out an identity or a constant in a pass-through can make the repetition of a
separation fail. -/
theorem not_repeats :
    (cancelling.transform.WellFormed ∧ ¬Repeats {} cancelling) ∧
      (closedByIdentity.transform.WellFormed ∧ ¬Repeats ⟨false, true⟩ closedByIdentity) ∧
      (holdingConstant.transform.WellFormed ∧ ¬Repeats .verbatim holdingConstant) := by
  refine ⟨⟨?_, ?_⟩, ⟨?_, ?_⟩, ?_, ?_⟩
  · decide +kernel
  · exact not_repeats_of (by decide +kernel) (by decide +kernel)
  · decide +kernel
  · exact not_repeats_of (by decide +kernel) (by decide +kernel)
  · decide +kernel
  · exact not_repeats_of (by decide +kernel) (by decide +kernel)

end Binary64

end Session
end SeparableTransforms
