import SeparableTransforms.Proofs.Separation.Requests
import SeparableTransforms.Proofs.Separation.Sources
import SeparableTransforms.Proofs.Separation.Targets

/-!
# Results of a separation

A separation by targets fails only if the transform ends in a kernel and not all
targets are requested.  A separation by sources fails where `determined` finds no
outputs or not the requested ones, or if the transform reduced to the sources ends
in a kernel and not all of its outputs are requested.

All other requests succeed, and as long as nothing is folded and every coefficient
is known, the result computes the targets it reports from the sources it reports.
-/

namespace SeparableTransforms

open Outcome

namespace Transform

section Trimming

variable {κ α : Type} [Kernel κ α] [Scalar α]

/-- The sources that remain if the others are dropped as far as the first step shows. -/
def usedSources (t : Transform κ α) : List Nat :=
  match t.steps with
  | linear _ m :: _ =>
      if (usedColumns m).isEmpty then List.range t.sourceDimensions else usedColumns m
  | _ => List.range t.sourceDimensions

/-- A transform without the sources that its first step does not use. -/
structure TrimPart (options : AssemblyOptions) (P : κ → Prop) (t : Transform κ α) (m : Nat)
    (t' : Transform κ α) : Prop where
  fits : Fits P t.usedSources.length t' m
  computes : Faithful (α := α) options P → ∀ p v, t.apply p = .ok v →
    ∃ w, t'.apply (pick p t.usedSources) = .ok w ∧ SamePoint w v

variable [LawfulScalar α] {options : AssemblyOptions} {P : κ → Prop} {n m : Nat}
  {t : Transform κ α} {matrix : DenseMatrix α}

theorem Fits.trimPart_whole (h : Fits P n t m) (hused : t.usedSources = List.range n) :
    TrimPart options P t m t := by
  refine ⟨by simpa [hused] using h, fun _ p v hv => ?_⟩
  rw [hused, pick_range ((length_of_apply hv).trans h.source)]
  exact ⟨v, hv, SamePoint.refl v⟩

theorem increasing_usedSources (h : Fits P n t m) : Increasing t.usedSources n := by
  have hall : Increasing (List.range t.sourceDimensions) n := h.source ▸ increasing_range _
  have hlinked := h.linked_steps
  unfold usedSources
  split
  · rename_i id matrix rest hsteps
    split
    · exact hall
    · rw [hsteps] at hlinked
      obtain ⟨l, hfirst, _⟩ := hlinked
      obtain ⟨_, _, hcols, _⟩ := hfirst.linear
      have := increasing_usedColumns matrix
      rwa [hcols, Nat.add_sub_cancel] at this
  · exact hall

/-- The first step narrowed to the columns it uses, if these are some but not all. -/
theorem trimMatrix_eq_ok (h : matrix.isAffine = true) :
    trimMatrix matrix = .ok
      (if usedColumns matrix = [] ∨ (usedColumns matrix).length = matrix.cols - 1 then none
        else some (matrix.keepColumns (usedColumns matrix), usedColumns matrix)) := by
  have hselect := DenseMatrix.selectColumns_last (DenseMatrix.isAffine_cols_pos h)
    (increasing_usedColumns matrix).bounded
  unfold trimMatrix
  simp only [hselect, ofMatrix_ok, ok_bind, pure_eq_ok, Bool.or_eq_true, List.isEmpty_iff,
    beq_iff_eq]
  split
  · rfl
  · rfl

section Narrowing

variable {id : NodeId} {rest : List (Transform κ α)} (hsteps : t.steps = linear id matrix :: rest)

include hsteps

omit [LawfulScalar α] in
theorem usedSources_linear (hne : usedColumns matrix ≠ []) :
    t.usedSources = usedColumns matrix := by
  unfold usedSources
  rw [hsteps]
  simp [hne]

/-- All sources remain if the first step uses none or all of them. -/
theorem usedSources_whole (h : Fits P n t m)
    (hkeep : usedColumns matrix = [] ∨ (usedColumns matrix).length = matrix.cols - 1) :
    t.usedSources = List.range n := by
  have hlinked := h.linked_steps
  rw [hsteps] at hlinked
  obtain ⟨l, hfirst, _⟩ := hlinked
  obtain ⟨_, _, hcols, _⟩ := hfirst.linear
  unfold usedSources
  rw [hsteps, h.source]
  rcases hkeep with hnil | hlen
  · simp [hnil]
  · have hrange := (increasing_usedColumns matrix).eq_range (by omega)
    rw [hcols, Nat.add_sub_cancel] at hrange
    simp [hrange]

/-- The first step may be narrowed to the columns it uses. -/
theorem linked_narrowed (h : Fits P n t m) (hne : usedColumns matrix ≠ []) :
    Linked P (usedColumns matrix).length
      (linear none (matrix.keepColumns (usedColumns matrix)) :: rest) m := by
  have hlinked := h.linked_steps
  rw [hsteps] at hlinked
  obtain ⟨l, hfirst, hrest⟩ := hlinked
  obtain ⟨haffine, hrows, _⟩ := hfirst.linear
  have hnarrow := DenseMatrix.isAffine_keepColumns haffine (increasing_usedColumns matrix).bounded
  exact ⟨l, fits_linear hnarrow hrows DenseMatrix.cols_keepColumns (List.length_pos_iff.mpr hne),
    hrest⟩

variable (options) in
/-- The steps with the first one narrowed to the columns it uses. -/
theorem trimPart_narrowed (h : Fits P n t m) (hne : usedColumns matrix ≠ []) :
    ofMatrix (matrix.keepColumns (usedColumns matrix)) =
        .ok (linear none (matrix.keepColumns (usedColumns matrix)) : Transform κ α) ∧
      ∃ t', (Assembler.standard options).compose
          (linear none (matrix.keepColumns (usedColumns matrix)) :: rest) = .ok t' ∧
        TrimPart options P t m t' := by
  have hlinked := linked_narrowed hsteps h hne
  have hlinked' := hlinked
  obtain ⟨_, ⟨⟨hnarrow, hcols⟩, _, _⟩, _⟩ := hlinked'
  obtain ⟨t', ht', hfits, _⟩ := compose_eq_ok options hlinked (List.cons_ne_nil _ _)
  have hused := usedSources_linear hsteps hne
  refine ⟨ofMatrix_eq_ok hnarrow hcols, t', ht', by rwa [hused], fun hP p v hv => ?_⟩
  have hv := (apply_iff_runs h.admissible.wellFormed).mp hv
  rw [hsteps] at hv
  obtain ⟨u, hu, hv⟩ := hv
  obtain ⟨hlen, rfl⟩ := apply_linear_iff.mp hu
  have hhead : (linear none (matrix.keepColumns (usedColumns matrix)) : Transform κ α).apply
      (pick p (usedColumns matrix)) = .ok (applyAffine matrix p) :=
    apply_linear_iff.mpr ⟨by simp, (applyAffine_usedColumns _ hlen).symm⟩
  obtain ⟨w, hw, hsame⟩ := runs_compose hlinked hP ht' (hlinked.runs_flatMap.mpr ⟨_, hhead, hv⟩)
  rw [hused]
  exact ⟨w, (apply_iff_runs hfits.admissible.wellFormed).mpr hw, hsame.symm⟩

end Narrowing

variable (options) in
/-- The sources can be trimmed. -/
theorem trimSources_eq_ok (h : Fits P n t m) :
    ∃ t', t.trimSources (.standard options) = .ok (t', t.usedSources) ∧
      TrimPart options P t m t' := by
  unfold trimSources
  cases hsteps : t.steps with
  | nil => exact absurd hsteps t.steps_ne_nil
  | cons first rest =>
      cases first with
      | linear id matrix =>
          have hlinked := h.linked_steps
          rw [hsteps] at hlinked
          obtain ⟨l, hfirst, _⟩ := hlinked
          simp only [trimMatrix_eq_ok hfirst.linear.1, ok_bind]
          by_cases hkeep : usedColumns matrix = [] ∨ (usedColumns matrix).length = matrix.cols - 1
          · have hused := usedSources_whole hsteps h hkeep
            simp only [hkeep, if_true, pure_eq_ok]
            exact ⟨t, by rw [hused, h.source], h.trimPart_whole hused⟩
          · obtain ⟨hne, _⟩ := not_or.mp hkeep
            obtain ⟨hmade, t', ht', hpart⟩ := trimPart_narrowed options hsteps h hne
            have hmade : (Assembler.standard options).affine
                (matrix.keepColumns (usedColumns matrix)) =
                .ok (linear none (matrix.keepColumns (usedColumns matrix)) : Transform κ α) := hmade
            simp only [hkeep, if_false, hmade, ht', ok_bind, pure_eq_ok]
            exact ⟨t', by rw [usedSources_linear hsteps hne], hpart⟩
      | _ =>
          have hused : t.usedSources = List.range t.sourceDimensions := by
            unfold usedSources
            rw [hsteps]
          exact ⟨t, by rw [hused], h.trimPart_whole (by rw [hused, h.source])⟩

end Trimming

end Transform

namespace Separation

open Transform

section Results

variable {κ α : Type} [Kernel κ α] [Scalar α]

/-- A separation computes the targets that it reports from the sources that it reports. -/
structure Separates (options : AssemblyOptions) (P : κ → Prop) (t : Transform κ α)
    (s : Separation κ α) : Prop where
  sources : Increasing s.sourceDimensions t.sourceDimensions
  targets : Increasing s.targetDimensions t.targetDimensions
  fits : Fits P s.sourceDimensions.length s.transform s.targetDimensions.length
  computes : Faithful (α := α) options P → t.Known → ∀ p v, t.apply p = .ok v →
    ∃ w, s.transform.apply (pick p s.sourceDimensions) = .ok w ∧
      SamePoint w (pick v s.targetDimensions)

variable [LawfulScalar α] {options : AssemblyOptions} {P : κ → Prop} {t t' : Transform κ α}
  {S R D : List Nat} {assembler : Assembler κ α}

section ByTargets

variable {extra : SeparationOptions}

variable (extra) in
/-- All sources, or those that the reduced transform uses. -/
theorem byTargets_eq_ok (h : t.Admissible P) (hR : Increasing R t.targetDimensions)
    (hkeep : t.keepTargets (.standard options) R = .ok t')
    (hpart : TargetPart options P t.sourceDimensions t.steps R t') :
    ∃ s, byTargets (.standard options) t R extra = .ok s ∧
      s.sourceDimensions = (if extra.trimSources then t'.usedSources
        else List.range t.sourceDimensions) ∧
      s.targetDimensions = R ∧ Separates options P t s := by
  have hruns : ∀ {p v : List α}, t.apply p = .ok v → Runs t.steps p v :=
    (apply_iff_runs h.wellFormed).mp
  unfold byTargets
  rw [hkeep, ok_bind]
  split
  · obtain ⟨trimmed, htrim, hused⟩ := trimSources_eq_ok options hpart.fits
    simp only [htrim, ok_bind, pure_eq_ok]
    refine ⟨_, rfl, rfl, rfl, increasing_usedSources hpart.fits, hR, hused.fits,
      fun hP _ p v hv => ?_⟩
    obtain ⟨w, hw, hsame⟩ := hpart.computes hP p v (hruns hv)
    obtain ⟨w', hw', hsame'⟩ := hused.computes hP p w hw
    exact ⟨w', hw', hsame'.trans hsame⟩
  · refine ⟨_, rfl, rfl, rfl, increasing_range _, hR, by simpa using hpart.fits,
      fun hP _ p v hv => ?_⟩
    show ∃ w, t'.apply (pick p (List.range t.sourceDimensions)) = .ok w ∧ SamePoint w (pick v R)
    rw [pick_range (length_of_apply hv)]
    exact hpart.computes hP p v (hruns hv)

variable (options extra) in
/-- Not all targets are requested of a transform that ends in a kernel. -/
theorem byTargets_eq_error (h : t.Admissible P) (hend : endsInKernel t.steps = true)
    (hfull : isFull R t.targetDimensions = false) :
    ∃ name, byTargets (.standard options) t R extra =
      .error (.cannotSeparate (.kernelTargets name R)) := by
  obtain ⟨_, k, -, herror⟩ := keepTargets_eq_error options h.fits hend hfull
  exact ⟨Kernel.name k, by rw [byTargets, herror]; rfl⟩

/-- What a separation by targets that succeeds has done. -/
theorem separates_of_byTargets {s : Separation κ α} (h : t.Admissible P)
    (hR : Increasing R t.targetDimensions)
    (hs : byTargets (.standard options) t R extra = .ok s) :
    Separates options P t s ∧ s.targetDimensions = R ∧
      ∃ t', t.keepTargets (.standard options) R = .ok t' ∧
        (endsInKernel t.steps = true → isFull R t.targetDimensions = true) ∧
        s.sourceDimensions = (if extra.trimSources then t'.usedSources
          else List.range t.sourceDimensions) := by
  have hend : endsInKernel t.steps = true → isFull R t.targetDimensions = true := by
    intro hend
    by_contra hfull
    obtain ⟨name, herror⟩ := byTargets_eq_error options extra h hend
      (Bool.eq_false_iff.mpr hfull)
    rw [herror] at hs
    cases hs
  obtain ⟨t', hkeep, hpart⟩ := keepTargets_eq_ok options h.fits hR hend
  obtain ⟨s', hs', hsource, htarget, hseparates⟩ := byTargets_eq_ok extra h hR hkeep hpart
  obtain rfl : s' = s := Except.ok.inj (hs'.symm.trans hs)
  exact ⟨hseparates, htarget, t', hkeep, hend, hsource⟩

end ByTargets

section BySources

variable {targets : Option (List Nat)} (h : t.Admissible P)
  (hS : Increasing S t.sourceDimensions) (hne : S ≠ [])

include h hS hne

variable (options targets) in
/-- A part of the transform stands in the way, or no target can be computed. -/
theorem bySources_undetermined (hD : t.determined S = none ∨ t.determined S = some []) :
    ∃ obstacle, bySources (.standard options) t S targets =
      .error (.cannotSeparate obstacle) := by
  have hreduces := reduces_keepSources options h.fits hS hne
  unfold bySources
  rcases hD with hnone | hempty
  · obtain ⟨obstacle, herror⟩ := hreduces.stuck hnone
    exact ⟨obstacle, by rw [herror]; rfl⟩
  · obtain ⟨reduced, hreduced, _⟩ := hreduces.found [] hempty
    exact ⟨_, by rw [hreduced]; rfl⟩

variable (options) in
/-- Without a request for targets all are computed that can be. -/
theorem bySources_derived (hD : t.determined S = some D) (hDne : D ≠ []) :
    ∃ s, bySources (.standard options) t S none = .ok s ∧ s.sourceDimensions = S ∧
      s.targetDimensions = D ∧ Separates options P t s := by
  obtain ⟨reduced, hreduced, hpart⟩ :=
    (reduces_keepSources options h.fits hS hne).found D hD
  have hDempty : D.isEmpty = false := by simpa using hDne
  unfold bySources
  simp only [hreduced, hDempty, ok_bind, Bool.false_eq_true, if_false, pure_eq_ok]
  exact ⟨_, rfl, rfl, rfl, hS, increasing_determined h.wellFormed hS hD, hpart.fits,
    hpart.computes⟩

variable (options) in
/-- A requested target cannot be computed. -/
theorem bySources_missing (hD : t.determined S = some D) (hDne : D ≠ []) {d : Nat} (hd : d ∈ R)
    (hout : d ∉ D) :
    ∃ e ∈ R, bySources (.standard options) t S (some R) =
      .error (.cannotSeparate (.undeterminedTarget e)) := by
  obtain ⟨reduced, hreduced, _⟩ :=
    (reduces_keepSources options h.fits hS hne).found D hD
  have hDempty : D.isEmpty = false := by simpa using hDne
  obtain ⟨e, he, herror⟩ := positionsAmong_eq_error hd hout
  refine ⟨e, he, ?_⟩
  unfold bySources
  simp only [hreduced, hDempty, herror, ok_bind, error_bind, Bool.false_eq_true, if_false,
    pure_eq_ok]

variable (options) in
/-- The requested targets can be computed, and are kept of what the sources alone give. -/
theorem bySources_requested (hD : t.determined S = some D) (hDne : D ≠ [])
    (hR : Increasing R t.targetDimensions) (hsub : ∀ d ∈ R, d ∈ D) :
    ∃ reduced, bySources (.standard options) t S none = .ok ⟨reduced, S, D⟩ ∧
      SourcePart options P t S D reduced ∧
      ((endsInKernel reduced.steps = true → R = D) →
        ∃ s, bySources (.standard options) t S (some R) = .ok s ∧ s.sourceDimensions = S ∧
          s.targetDimensions = R ∧ Separates options P t s) ∧
      (endsInKernel reduced.steps = true → R ≠ D → ∃ id k,
        reduced.steps.getLast? = some (kernel id k) ∧
        bySources (.standard options) t S (some R) =
          .error (.cannotSeparate (.kernelTargets (Kernel.name k) (R.map D.idxOf)))) := by
  obtain ⟨reduced, hreduced, hpart⟩ :=
    (reduces_keepSources options h.fits hS hne).found D hD
  have hDempty : D.isEmpty = false := by simpa using hDne
  have hincreasing := increasing_determined h.wellFormed hS hD
  have hpositions := increasing_positions hincreasing hR hsub
  have hfull := isFull_positions_iff hincreasing hR hsub
  refine ⟨reduced, ?_, hpart, fun hend => ?_, fun hend hproper => ?_⟩
  · unfold bySources
    simp only [hreduced, hDempty, ok_bind, Bool.false_eq_true, if_false, pure_eq_ok]
  · obtain ⟨t', hkeep, htarget⟩ := keepTargets_eq_ok options hpart.fits hpositions
      fun hkernel => hfull.mpr (hend hkernel)
    have hfits := htarget.fits
    rw [List.length_map] at hfits
    unfold bySources
    simp only [hreduced, hDempty, positionsAmong_eq_ok hsub, hkeep, ok_bind, Bool.false_eq_true,
      if_false, pure_eq_ok]
    refine ⟨_, rfl, rfl, rfl, hS, hR, hfits, fun hP hknown p v hv => ?_⟩
    obtain ⟨u, hu, hsame⟩ := hpart.computes hP hknown p v hv
    obtain ⟨w, hw, hsame'⟩ := htarget.computes hP (pick p S) u
      ((apply_iff_runs hpart.fits.admissible.wellFormed).mp hu)
    refine ⟨w, hw, hsame'.trans ?_⟩
    rw [← pick_map_idxOf hsub]
    exact hsame.pick _
  · have hnot : isFull (R.map D.idxOf) D.length = false :=
      Bool.eq_false_iff.mpr fun hall => hproper (hfull.mp hall)
    obtain ⟨id, k, hlast, herror⟩ := keepTargets_eq_error options hpart.fits hend hnot
    refine ⟨id, k, hlast, ?_⟩
    unfold bySources
    simp only [hreduced, hDempty, positionsAmong_eq_ok hsub, herror, ok_bind, error_bind,
      Bool.false_eq_true, if_false, pure_eq_ok]

/-- A separation by sources succeeds or finds that the transform cannot be separated. -/
theorem bySources_cases (options : AssemblyOptions)
    (hR : ∀ R ∈ targets, Increasing R t.targetDimensions) :
    (∃ s, bySources (.standard options) t S targets = .ok s) ∨
      ∃ obstacle, bySources (.standard options) t S targets =
        .error (.cannotSeparate obstacle) := by
  cases hD : t.determined S with
  | none => exact .inr (bySources_undetermined options targets h hS hne (.inl hD))
  | some D =>
      by_cases hDne : D = []
      · exact .inr (bySources_undetermined options targets h hS hne (.inr (hDne ▸ hD)))
      · cases targets with
        | none =>
            obtain ⟨s, hs, _⟩ := bySources_derived options h hS hne hD hDne
            exact .inl ⟨s, hs⟩
        | some R =>
            by_cases hsub : ∀ d ∈ R, d ∈ D
            · obtain ⟨reduced, _, _, hok, herror⟩ :=
                bySources_requested options h hS hne hD hDne (hR R rfl) hsub
              by_cases hend : endsInKernel reduced.steps = true → R = D
              · obtain ⟨s, hs, _⟩ := hok hend
                exact .inl ⟨s, hs⟩
              · obtain ⟨hkernel, hproper⟩ := Classical.not_imp.mp hend
                obtain ⟨_, _, -, herror⟩ := herror hkernel hproper
                exact .inr ⟨_, herror⟩
            · obtain ⟨d, hd, hout⟩ : ∃ d ∈ R, d ∉ D := by simpa using hsub
              obtain ⟨e, _, herror⟩ := bySources_missing options h hS hne hD hDne hd hout
              exact .inr ⟨_, herror⟩

/-- A separation by sources that succeeds has found the requested targets among those that can be
computed. -/
theorem determined_of_bySources {s : Separation κ α}
    (hs : bySources (.standard options) t S targets = .ok s) :
    ∃ D, t.determined S = some D ∧ D ≠ [] ∧ ∀ R ∈ targets, ∀ d ∈ R, d ∈ D := by
  have hdetermined : ∃ D, t.determined S = some D ∧ D ≠ [] := by
    by_contra hnot
    have hD : t.determined S = none ∨ t.determined S = some [] := by
      cases hD : t.determined S with
      | none => exact .inl rfl
      | some D =>
          by_cases hDne : D = []
          · exact .inr (congrArg some hDne)
          · exact absurd ⟨D, hD, hDne⟩ hnot
    obtain ⟨obstacle, herror⟩ := bySources_undetermined options targets h hS hne hD
    rw [herror] at hs
    cases hs
  obtain ⟨D, hD, hDne⟩ := hdetermined
  refine ⟨D, hD, hDne, fun R hR d hd => ?_⟩
  obtain rfl : targets = some R := hR
  by_contra hout
  obtain ⟨e, _, herror⟩ := bySources_missing options h hS hne hD hDne hd hout
  rw [herror] at hs
  cases hs

/-- What a separation by sources that succeeds has done. -/
theorem separates_of_bySources {s : Separation κ α}
    (hR : ∀ R ∈ targets, Increasing R t.targetDimensions)
    (hs : bySources (.standard options) t S targets = .ok s) :
    Separates options P t s ∧ s.sourceDimensions = S ∧
      ∃ D, t.determined S = some D ∧ D ≠ [] ∧ s.targetDimensions = targets.getD D := by
  obtain ⟨D, hD, hDne, hsub⟩ := determined_of_bySources h hS hne hs
  cases targets with
  | none =>
      obtain ⟨s', hs', hsource, htarget, hseparates⟩ :=
        bySources_derived options h hS hne hD hDne
      obtain rfl : s' = s := Except.ok.inj (hs'.symm.trans hs)
      exact ⟨hseparates, hsource, D, hD, hDne, htarget⟩
  | some R =>
      obtain ⟨reduced, _, _, hok, herror⟩ :=
        bySources_requested options h hS hne hD hDne (hR R rfl) (hsub R rfl)
      have hend : endsInKernel reduced.steps = true → R = D := by
        intro hend
        by_contra hproper
        obtain ⟨_, _, -, herror⟩ := herror hend hproper
        rw [herror] at hs
        cases hs
      obtain ⟨s', hs', hsource, htarget, hseparates⟩ := hok hend
      obtain rfl : s' = s := Except.ok.inj (hs'.symm.trans hs)
      exact ⟨hseparates, hsource, D, hD, hDne, htarget⟩

/-- Targets are computed from the sources exactly if the sources alone give them, and no others if a
kernel stands at the end. -/
theorem exists_bySources_some_iff (hR : Increasing R t.targetDimensions) :
    (∃ s, bySources (.standard options) t S (some R) = .ok s) ↔
      ∃ s, bySources (.standard options) t S none = .ok s ∧
        (∀ d ∈ R, d ∈ s.targetDimensions) ∧
        ∀ id k, s.transform.steps.getLast? = some (kernel id k) → R = s.targetDimensions := by
  constructor
  · rintro ⟨s, hs⟩
    obtain ⟨D, hD, hDne, hsub⟩ := determined_of_bySources h hS hne hs
    obtain ⟨reduced, hnone, _, _, herror⟩ :=
      bySources_requested options h hS hne hD hDne hR (hsub R rfl)
    refine ⟨_, hnone, hsub R rfl, fun id k hlast => ?_⟩
    by_contra hproper
    obtain ⟨_, _, -, herror⟩ := herror (endsInKernel_iff_getLast.mpr ⟨id, k, hlast⟩) hproper
    rw [herror] at hs
    cases hs
  · rintro ⟨s, hs, hsub, hwhole⟩
    have hfree : ∀ R ∈ (none : Option (List Nat)), Increasing R t.targetDimensions := nofun
    obtain ⟨_, _, D, hD, hDne, htarget⟩ := separates_of_bySources h hS hne hfree hs
    rw [htarget, Option.getD_none] at hsub hwhole
    obtain ⟨reduced, hnone, _, hok, _⟩ := bySources_requested options h hS hne hD hDne hR hsub
    obtain rfl : s = ⟨reduced, S, D⟩ := Except.ok.inj (hs.symm.trans hnone)
    have hend : endsInKernel reduced.steps = true → R = D := by
      intro hkernel
      obtain ⟨id, k, hlast⟩ := endsInKernel_iff_getLast.mp hkernel
      exact hwhole id k hlast
    obtain ⟨s', hs', _⟩ := hok hend
    exact ⟨s', hs'⟩

end BySources

end Results

end Separation
end SeparableTransforms
