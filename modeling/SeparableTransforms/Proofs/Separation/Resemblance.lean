import SeparableTransforms.Kernels.Synthetic
import SeparableTransforms.Proofs.Separation.FoldedSources
import SeparableTransforms.Proofs.Separation.Stages
import SeparableTransforms.Proofs.Transform.Resemblance

/-!
# Separation and descriptors

What is separated is decided by descriptors.  A separation asks which coefficients are
zero or not determined, which matrices are identities, which dimensions there are and
whether a step is a kernel, and it catches errors of one kind.  All of this is the same
for transforms that resemble each other, whatever their kernels compute and however
their nodes are shared.

The proof runs both separations side by side.  Either both go on with parts that
resemble each other, or both end with the same error, so that an error which one of them
catches is caught by the other.
-/

namespace SeparableTransforms
namespace Transform

open Outcome

section Matrices

variable {α : Type} [Scalar α] [LawfulScalar α] [AbsorbingScalar α] {m m' : DenseMatrix α}

theorem isZero_ofScalar_congr {a b : α} (h : Same a b) :
    (Coefficient.ofScalar a).isZero = (Coefficient.ofScalar b).isZero := by
  unfold Coefficient.ofScalar
  rw [AbsorbingScalar.isNaN_congr h]
  split
  · rfl
  · exact h.isZero_eq

/-- The same columns are used by matrices that are stored as equal. -/
theorem usedColumns_congr (h : (m == m') = true) : usedColumns m = usedColumns m' := by
  unfold usedColumns DenseMatrix.coefficient
  rw [DenseMatrix.rows_congr h, DenseMatrix.cols_congr h]
  simp only [isZero_ofScalar_congr (DenseMatrix.entry_congr h _ _)]

omit [AbsorbingScalar α] in
theorem targetRows_congr (h : (m == m') = true) (targets : List Nat) :
    Matches (fun rows rows' => (rows == rows') = true) (targetRows m targets)
      (targetRows m' targets) := by
  unfold targetRows
  rw [DenseMatrix.rows_congr h]
  exact (DenseMatrix.selectRows_congr h _).ofMatrix

theorem trimMatrix_congr (h : (m == m') = true) :
    Matches (Option.Rel fun r r' => (r.1 == r'.1) = true ∧ r.2 = r'.2) (trimMatrix m)
      (trimMatrix m') := by
  unfold trimMatrix
  rw [usedColumns_congr h, DenseMatrix.cols_congr h]
  dsimp only
  split
  · exact .ok .none
  · exact (DenseMatrix.selectColumns_congr h _).ofMatrix.bind fun _ _ htrimmed =>
      .ok (.some ⟨htrimmed, rfl⟩)

omit [AbsorbingScalar α] in
theorem selectCoordinates_matches (picked : List Nat) (sources : Nat) :
    Matches (fun a b => (a == b) = true)
      (selectCoordinates picked sources : Except TransformError (DenseMatrix α))
      (selectCoordinates picked sources) :=
  .refl DenseMatrix.beq_refl _

end Matrices

section Targets

variable {κ κ' α : Type} [Kernel κ α] [Kernel κ' α] [Scalar α] {assembler : Assembler κ α}
  {assembler' : Assembler κ' α}

/-- Two parts that resemble each other, with the same dimensions. -/
def SamePart (part : Reduced κ α) (part' : Reduced κ' α) : Prop :=
  part.1.Resembles part'.1 ∧ part.2 = part'.2

/-- Two steps that resemble each other and are reduced to transforms that do. -/
structure TargetStep.Resembles (s : TargetStep κ α) (s' : TargetStep κ' α) : Prop where
  step : s.step.Resembles s'.step
  reduce (targets : List Nat) :
    Matches Transform.Resembles (s.reduce targets) (s'.reduce targets)

theorem TargetStep.Resembles.keep {s : TargetStep κ α} {s' : TargetStep κ' α}
    (h : s.Resembles s') (targets : List Nat) :
    Matches Transform.Resembles (s.keep targets) (s'.keep targets) := by
  unfold TargetStep.keep
  rw [h.step.target]
  split
  · exact .ok h.step
  · exact h.reduce targets

theorem whole_resembles {steps : List (TargetStep κ α)} {steps' : List (TargetStep κ' α)}
    (h : List.Forall₂ TargetStep.Resembles steps steps') :
    List.Forall₂ Resembles (steps.map TargetStep.step).reverse
      (steps'.map TargetStep.step).reverse :=
  List.rel_reverse (List.rel_map (fun _ _ hs => hs.step) h)

variable [LawfulScalar α] [AbsorbingScalar α] (hassembler : assembler.Resembles assembler')

include hassembler in
theorem keepChain_resembles {steps : List (TargetStep κ α)} {steps' : List (TargetStep κ' α)}
    (h : List.Forall₂ TargetStep.Resembles steps steps') (targets : List Nat) :
    Matches (List.Forall₂ Resembles) (keepChain assembler steps targets)
      (keepChain assembler' steps' targets) := by
  induction h generalizing targets with
  | nil => exact .ok .nil
  | @cons last last' earlier earlier' hlast hearlier ih =>
      cases hearlier with
      | nil => exact (hlast.keep targets).bind fun _ _ hreduced => .ok (.cons hreduced .nil)
      | @cons previous previous' rest rest' hprevious hrest =>
          have hwhole := whole_resembles (.cons hprevious hrest)
          have hkept := (hlast.keep targets).bind (S := List.Forall₂ Resembles) fun _ _ hfinal =>
            .ok (List.rel_append hwhole (.cons hfinal .nil))
          obtain ⟨step, reduce⟩ := last
          obtain ⟨step', reduce'⟩ := last'
          have hstep : step.Resembles step' := hlast.step
          cases hstep with
          | linear matrix =>
              refine (targetRows_congr matrix targets).bind fun rows rows' hrows => ?_
              have hfinal := (hassembler.affine hrows).bind (S := List.Forall₂ Resembles)
                fun _ _ hfinal => .ok (List.rel_append hwhole (.cons hfinal .nil))
              dsimp only
              rw [usedColumns_congr hrows, DenseMatrix.cols_congr matrix]
              split
              · -- both walks go on with the earlier steps, or both keep them whole
                have hbefore := ih (usedColumns rows')
                generalize keepChain assembler (previous :: rest) (usedColumns rows') = before
                  at hbefore ⊢
                generalize keepChain assembler' (previous' :: rest') (usedColumns rows') = before'
                  at hbefore ⊢
                cases hbefore with
                | ok hreduced =>
                    exact (hassembler.affine (DenseMatrix.removeColumns_congr hrows _)).bind
                      fun _ _ hnarrowed => .ok (List.rel_append hreduced (.cons hnarrowed .nil))
                | error e =>
                    cases e with
                    | cannotSeparate obstacle => exact hfinal
                    | _ => exact .error _
              · exact hfinal
          | _ => exact hkept

include hassembler in
theorem keepSteps_resembles {whole : Transform κ α} {whole' : Transform κ' α}
    (hwhole : whole.Resembles whole') {steps : List (TargetStep κ α)}
    {steps' : List (TargetStep κ' α)} (h : List.Forall₂ TargetStep.Resembles steps steps')
    (targets : List Nat) :
    Matches Resembles (keepSteps assembler whole steps targets)
      (keepSteps assembler' whole' steps' targets) := by
  have hchain := (keepChain_resembles hassembler (List.rel_reverse h) targets).bind
    fun _ _ => hassembler.compose
  unfold keepSteps
  rw [hwhole.target]
  split
  · exact .ok hwhole
  · cases h with
    | nil => exact hchain
    | cons hfirst hrest =>
        cases hrest with
        | nil => exact hfirst.reduce targets
        | cons _ _ => exact hchain

include hassembler in
omit [AbsorbingScalar α] in
theorem selectPart_resembles {part : Reduced κ α} {part' : Reduced κ' α} (h : SamePart part part')
    (k c n : Nat) (targets : List Nat) :
    Matches Resembles (selectPart assembler k c n targets part)
      (selectPart assembler' k c n targets part') := by
  obtain ⟨wrapper, kept⟩ := part
  obtain ⟨wrapper', _⟩ := part'
  obtain ⟨hwrapper, rfl⟩ := h
  unfold selectPart
  dsimp only
  split
  · exact .ok hwrapper
  · refine (selectCoordinates_matches _ _).bind fun _ _ hmatrix => ?_
    exact (hassembler.affine hmatrix).bind fun _ _ => hassembler.concatenate hwrapper

section PassThroughs

variable {whole inner : Transform κ α} {whole' inner' : Transform κ' α}
  (hwhole : whole.Resembles whole') (hinner : inner.Resembles inner') (k n : Nat)
  {keep : List Nat → Except TransformError (Transform κ α)}
  {keep' : List Nat → Except TransformError (Transform κ' α)}
  (hkeep : ∀ targets, Matches Resembles (keep targets) (keep' targets))

include hassembler hwhole hinner hkeep
omit [LawfulScalar α] [AbsorbingScalar α] in
theorem wrapPart_resembles (targets : List Nat) :
    Matches SamePart (wrapPart assembler whole k inner n keep targets)
      (wrapPart assembler' whole' k inner' n keep' targets) := by
  unfold wrapPart
  rw [hinner.target]
  dsimp only
  split
  · exact .ok ⟨hwhole, rfl⟩
  · have hreduced := hkeep (inside k inner'.targetDimensions targets)
    generalize keep (inside k inner'.targetDimensions targets) = reduced at hreduced ⊢
    generalize keep' (inside k inner'.targetDimensions targets) = reduced' at hreduced ⊢
    cases hreduced with
    | ok hreduced =>
        exact (hassembler.passThrough hreduced k n).map fun _ _ hwrapper => ⟨hwrapper, rfl⟩
    | error e =>
        cases e with
        | cannotSeparate obstacle => exact .ok ⟨hwhole, rfl⟩
        | _ => exact .error _

omit [AbsorbingScalar α] in
/-- Pass-throughs that resemble each other are reduced to transforms that do. -/
theorem keepPassThrough_resembles (targets : List Nat) :
    Matches Resembles (keepPassThrough assembler whole k inner n keep targets)
      (keepPassThrough assembler' whole' k inner' n keep' targets) := by
  cases hcopied : (inside k inner.targetDimensions targets).isEmpty with
  | true =>
      rw [keepPassThrough_eq_copied hcopied,
        keepPassThrough_eq_copied (hinner.target ▸ hcopied), hinner.source, hinner.target]
      exact (selectCoordinates_matches _ _).bind fun _ _ => hassembler.affine
  | false =>
      rw [keepPassThrough_eq_stages hcopied, keepPassThrough_eq_stages (hinner.target ▸ hcopied),
        ← hinner.target]
      exact (wrapPart_resembles hassembler hwhole hinner k n hkeep targets).bind fun _ _ hpart =>
        selectPart_resembles hassembler hpart _ _ _ _

end PassThroughs

include hassembler in
theorem targetSteps_resembles {t : Transform κ α} {t' : Transform κ' α} (h : t.Resembles t') :
    List.Forall₂ TargetStep.Resembles (t.targetSteps assembler) (t'.targetSteps assembler') := by
  induction h with
  | linear matrix =>
      refine .cons ⟨.linear matrix, fun targets => ?_⟩ .nil
      exact (targetRows_congr matrix targets).bind fun _ _ => hassembler.affine
  | chain _ _ iha ihb => exact List.rel_append iha ihb
  | passThrough inner ih =>
      refine .cons ⟨.passThrough inner, keepPassThrough_resembles hassembler (.passThrough inner)
        inner _ _ (keepSteps_resembles hassembler inner ih)⟩ .nil
  | kernel name source target =>
      refine .cons ⟨.kernel name source target, fun targets => ?_⟩ .nil
      rw [name]
      exact .error _

include hassembler in
/-- Transforms that resemble each other are reduced to the same outputs alike. -/
theorem keepTargets_resembles {t : Transform κ α} {t' : Transform κ' α} (h : t.Resembles t')
    (targets : List Nat) :
    Matches Resembles (t.keepTargets assembler targets) (t'.keepTargets assembler' targets) :=
  keepSteps_resembles hassembler h (targetSteps_resembles hassembler h) targets

include hassembler in
theorem trimSources_resembles {t : Transform κ α} {t' : Transform κ' α} (h : t.Resembles t') :
    Matches SamePart (t.trimSources assembler) (t'.trimSources assembler') := by
  have hsame : Matches (ε := TransformError) SamePart (.ok (t, List.range t.sourceDimensions))
      (.ok (t', List.range t'.sourceDimensions)) := .ok ⟨h, congrArg List.range h.source⟩
  have hsteps := h.steps
  unfold trimSources
  generalize t.steps = steps at hsteps ⊢
  generalize t'.steps = steps' at hsteps ⊢
  cases hsteps with
  | nil => exact hsame
  | cons hfirst hrest =>
      cases hfirst with
      | linear matrix =>
          refine (trimMatrix_congr matrix).bind fun _ _ htrimmed => ?_
          cases htrimmed with
          | none => exact hsame
          | @some trimmed trimmed' htrimmed =>
              obtain ⟨trimmed, kept⟩ := trimmed
              obtain ⟨trimmed', _⟩ := trimmed'
              obtain ⟨htrimmed, rfl⟩ := htrimmed
              refine (hassembler.affine htrimmed).bind fun _ _ hhead => ?_
              exact (hassembler.compose (.cons hhead hrest)).bind fun _ _ hresult =>
                .ok ⟨hresult, rfl⟩
      | _ => exact hsame

end Targets

section Sources

variable {κ κ' α : Type} [Kernel κ α] [Kernel κ' α] [Scalar α] {assembler : Assembler κ α}
  {assembler' : Assembler κ' α}

/-- Two steps that resemble each other and are reduced to the same part by sources. -/
structure SourceStep.Resembles (s : SourceStep κ α) (s' : SourceStep κ' α) : Prop where
  step : s.step.Resembles s'.step
  reduce (sources : List Nat) : Matches SamePart (s.reduce sources) (s'.reduce sources)

theorem SourceStep.Resembles.keep {s : SourceStep κ α} {s' : SourceStep κ' α}
    (h : s.Resembles s') (sources : List Nat) :
    Matches SamePart (s.keep sources) (s'.keep sources) := by
  unfold SourceStep.keep
  rw [h.step.source, h.step.target]
  split
  · exact .ok ⟨h.step, rfl⟩
  · exact h.reduce sources

theorem keepForward_resembles {steps : List (SourceStep κ α)} {steps' : List (SourceStep κ' α)}
    (h : List.Forall₂ SourceStep.Resembles steps steps') (i : Nat) (current : List Nat) :
    Matches (fun parts parts' => List.Forall₂ Resembles parts.1 parts'.1 ∧ parts.2 = parts'.2)
      (keepForward steps i current) (keepForward steps' i current) := by
  induction h generalizing i current with
  | nil => exact .ok ⟨.nil, rfl⟩
  | @cons s s' rest rest' hs hrest ih =>
      unfold keepForward
      refine (hs.keep current).bind fun part part' hpart => ?_
      obtain ⟨step, outputs⟩ := part
      obtain ⟨step', _⟩ := part'
      obtain ⟨hstep, rfl⟩ := hpart
      have hempty : rest.isEmpty = rest'.isEmpty := by
        cases hrest with
        | nil => rfl
        | cons _ _ => rfl
      dsimp only
      rw [hempty]
      split
      · exact .error _
      · exact (ih (i + 1) outputs).bind fun later later' hlater =>
          .ok ⟨.cons hstep hlater.1, hlater.2⟩

variable [LawfulScalar α] [AbsorbingScalar α] (hassembler : assembler.Resembles assembler')

include hassembler in
theorem keepMatrixSources_resembles {m m' : DenseMatrix α} (h : (m == m') = true)
    (sources : List Nat) :
    Matches SamePart (keepMatrixSources assembler m sources)
      (keepMatrixSources assembler' m' sources) := by
  unfold keepMatrixSources
  rw [determinedRows_congr h, DenseMatrix.rows_congr h, DenseMatrix.cols_congr h]
  refine (DenseMatrix.submatrix_congr h _ _).ofMatrix.bind fun _ _ hblock => ?_
  exact (hassembler.affine hblock).bind fun _ _ hreduced => .ok ⟨hreduced, rfl⟩

include hassembler in
omit [LawfulScalar α] [AbsorbingScalar α] in
theorem keepSourceSteps_resembles {whole : Transform κ α} {whole' : Transform κ' α}
    (hwhole : whole.Resembles whole') {steps : List (SourceStep κ α)}
    {steps' : List (SourceStep κ' α)} (h : List.Forall₂ SourceStep.Resembles steps steps')
    (sources : List Nat) :
    Matches SamePart (keepSourceSteps assembler whole steps sources)
      (keepSourceSteps assembler' whole' steps' sources) := by
  have hchain : Matches SamePart
      (keepForward steps 0 sources >>= fun parts =>
        (fun result => (result, parts.2)) <$> assembler.compose parts.1)
      (keepForward steps' 0 sources >>= fun parts =>
        (fun result => (result, parts.2)) <$> assembler'.compose parts.1) :=
    (keepForward_resembles h 0 sources).bind fun _ _ hparts =>
      (hassembler.compose hparts.1).map fun _ _ hresult => ⟨hresult, hparts.2⟩
  unfold keepSourceSteps
  rw [hwhole.source, hwhole.target]
  split
  · exact .ok ⟨hwhole, rfl⟩
  · cases h with
    | nil => exact hchain
    | cons hfirst hrest =>
        cases hrest with
        | nil => exact hfirst.reduce sources
        | cons _ _ => exact hchain

include hassembler in
omit [AbsorbingScalar α] in
theorem keepPassThroughSources_resembles {inner : Transform κ α} {inner' : Transform κ' α}
    (hinner : inner.Resembles inner') (k : Nat)
    {keep : List Nat → Except TransformError (Reduced κ α)}
    {keep' : List Nat → Except TransformError (Reduced κ' α)}
    (hkeep : ∀ sources, Matches SamePart (keep sources) (keep' sources)) (sources : List Nat) :
    Matches SamePart (keepPassThroughSources assembler k inner keep sources)
      (keepPassThroughSources assembler' k inner' keep' sources) := by
  unfold keepPassThroughSources
  rw [hinner.source, hinner.target]
  dsimp only
  split
  · exact (hassembler.affine (DenseMatrix.beq_refl _)).bind fun _ _ hcopy => .ok ⟨hcopy, rfl⟩
  · refine (hkeep _).bind fun part part' hpart => ?_
    obtain ⟨reduced, innerTargets⟩ := part
    obtain ⟨reduced', _⟩ := part'
    obtain ⟨hreduced, rfl⟩ := hpart
    exact (hassembler.passThrough hreduced _ _).bind fun _ _ hresult => .ok ⟨hresult, rfl⟩

include hassembler in
theorem sourceSteps_resembles {t : Transform κ α} {t' : Transform κ' α} (h : t.Resembles t') :
    List.Forall₂ SourceStep.Resembles (t.sourceSteps assembler) (t'.sourceSteps assembler') := by
  induction h with
  | linear matrix =>
      exact .cons ⟨.linear matrix, keepMatrixSources_resembles hassembler matrix⟩ .nil
  | chain _ _ iha ihb => exact List.rel_append iha ihb
  | passThrough inner ih =>
      exact .cons ⟨.passThrough inner, keepPassThroughSources_resembles hassembler inner _
        (keepSourceSteps_resembles hassembler inner ih)⟩ .nil
  | kernel name source target =>
      refine .cons ⟨.kernel name source target, fun sources => ?_⟩ .nil
      rw [name, source]
      exact .error _

include hassembler in
/-- Transforms that resemble each other are reduced to the same inputs alike. -/
theorem keepSources_resembles {t : Transform κ α} {t' : Transform κ' α} (h : t.Resembles t')
    (sources : List Nat) :
    Matches SamePart (t.keepSources assembler sources) (t'.keepSources assembler' sources) :=
  keepSourceSteps_resembles hassembler h (sourceSteps_resembles hassembler h) sources

end Sources

end Transform

namespace Separation

open Outcome Transform

section Separating

variable {κ κ' α : Type} [Kernel κ α] [Kernel κ' α] [Scalar α] [LawfulScalar α]
  [AbsorbingScalar α] {assembler : Assembler κ α} {assembler' : Assembler κ' α}
  {t : Transform κ α} {t' : Transform κ' α}

/-- Separations of the same dimensions whose transforms resemble each other. -/
structure Resembles (s : Separation κ α) (s' : Separation κ' α) : Prop where
  transform : s.transform.Resembles s'.transform
  sourceDimensions : s.sourceDimensions = s'.sourceDimensions
  targetDimensions : s.targetDimensions = s'.targetDimensions

variable (hassembler : assembler.Resembles assembler') (h : t.Resembles t')

include hassembler h in
theorem bySources_resembles (sources : List Nat) (targets : Option (List Nat)) :
    Matches Resembles (bySources assembler t sources targets)
      (bySources assembler' t' sources targets) := by
  unfold bySources
  refine (keepSources_resembles hassembler h sources).bind fun part part' hpart => ?_
  obtain ⟨reduced, derived⟩ := part
  obtain ⟨reduced', _⟩ := part'
  obtain ⟨hreduced, rfl⟩ := hpart
  dsimp only
  split
  · exact .error _
  · cases targets with
    | none => exact .ok ⟨hreduced, rfl, rfl⟩
    | some requested =>
        refine (Matches.refl (R := Eq) (fun _ => rfl) (positionsAmong derived requested)).bind ?_
        rintro positions _ rfl
        exact (keepTargets_resembles hassembler hreduced positions).bind fun _ _ hresult =>
          .ok ⟨hresult, rfl, rfl⟩

include hassembler h in
theorem byTargets_resembles (targets : List Nat) (options : SeparationOptions) :
    Matches Resembles (byTargets assembler t targets options)
      (byTargets assembler' t' targets options) := by
  unfold byTargets
  refine (keepTargets_resembles hassembler h targets).bind fun _ _ hreduced => ?_
  split
  · exact (trimSources_resembles hassembler hreduced).bind fun _ _ hpart =>
      .ok ⟨hpart.1, hpart.2, rfl⟩
  · exact .ok ⟨hreduced, congrArg List.range h.source, rfl⟩

include hassembler h in
/-- Transforms that resemble each other are separated alike. -/
theorem separate_resembles (sources targets : Option (List Nat)) (options : SeparationOptions) :
    Matches Resembles (separate assembler t sources targets options)
      (separate assembler' t' sources targets options) := by
  unfold separate
  rw [h.source, h.target]
  dsimp only
  cases checkRequest .source t'.sourceDimensions (nonempty sources) with
  | error e => exact .error e
  | ok _ =>
      cases checkRequest .target t'.targetDimensions (nonempty targets) with
      | error e => exact .error e
      | ok _ =>
          cases nonempty sources with
          | none => exact byTargets_resembles hassembler h _ options
          | some s =>
              rw [ok_bind, ok_bind]
              dsimp only
              split
              · exact bySources_resembles hassembler h s _
              · exact byTargets_resembles hassembler h _ options

end Separating

section Binary64

variable {κ κ' : Type} [Kernel κ Float] [Kernel κ' Float] {t : Transform κ Float}
  {t' : Transform κ' Float}

/-- Separation is determined by the descriptor: equal descriptors give the same error, or the same
dimensions and results with equal descriptors. -/
theorem separate_of_describe (h : (t.describe == t'.describe) = true) (options : AssemblyOptions)
    (sources targets : Option (List Nat)) (extra : SeparationOptions) :
    Matches (fun s s' => s.sourceDimensions = s'.sourceDimensions ∧
        s.targetDimensions = s'.targetDimensions ∧
        (s.transform.describe == s'.transform.describe) = true)
      (separate (.standard options) t sources targets extra)
      (separate (.standard options) t' sources targets extra) :=
  (separate_resembles (Assembler.standard_resembles options) (resembles_iff_describe.mpr h) sources
    targets extra).mono fun _ _ hs =>
      ⟨hs.sourceDimensions, hs.targetDimensions, resembles_iff_describe.mp hs.transform⟩

/-- The second of two coordinates is curved, doubled and curved again, by kernels that are one node
or two. -/
def curvedTwice (zero curvature : Float) (first second : NodeId) :
    Transform SyntheticKernel Float :=
  let curve := SyntheticKernel.make "curve" 1 1 curvature 1 .declared none none
  chain none (passThrough none 1 (kernel first curve) 0)
    (chain none (linear none ⟨3, 3, #[1, zero, 0, zero, 2, 0, 0, zero, 1], rfl⟩)
      (passThrough none 1 (kernel second curve) 0))

/-- A shared kernel, what it computes and the signs of zeros make no difference. -/
theorem separate_curvedTwice :
    (separate (.standard {}) (curvedTwice 0 0.5 (some 0) (some 0)) (some [1]) none {}).isOk =
      true ∧
    Matches (fun s s' => s.sourceDimensions = s'.sourceDimensions ∧
        s.targetDimensions = s'.targetDimensions ∧
        (s.transform.describe == s'.transform.describe) = true)
      (separate (.standard {}) (curvedTwice 0 0.5 (some 0) (some 0)) (some [1]) none {})
      (separate (.standard {}) (curvedTwice (-0) 2 none (some 1)) (some [1]) none {}) := by
  have hdescribe : ((curvedTwice 0 0.5 (some 0) (some 0)).describe ==
      (curvedTwice (-0) 2 none (some 1)).describe) = true := by decide +kernel
  exact ⟨by decide +kernel, separate_of_describe hdescribe {} (some [1]) none {}⟩

end Binary64

end Separation
end SeparableTransforms
