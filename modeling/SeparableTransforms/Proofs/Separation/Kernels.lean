import SeparableTransforms.Kernels.Synthetic
import SeparableTransforms.Proofs.Separation.Sources
import SeparableTransforms.Proofs.Separation.Stages
import SeparableTransforms.Proofs.Separation.Targets
import SeparableTransforms.Proofs.Transform.NormalForm
import SeparableTransforms.Separation.Basic

/-!
# The kernels of a separation

A separation puts the parts of a transform together again.  It makes linear steps of its
own, but a kernel node it either keeps as it is or drops.  So the kernel nodes of the
result, in the order in which they are evaluated, are a sublist of those of the whole
transform: none is new, none occurs more often than before, and their order is kept.

The standard assembler neither drops nor copies kernel nodes: a chain has those of its
parts one after the other, whether it is folded or not.  Every reduction of a step gives
a sublist of the kernel nodes of the step, and a walk over the steps puts these sublists
one after the other.
-/

namespace SeparableTransforms
namespace Transform

open Outcome

section Steps

variable {κ α : Type}

theorem flatMap_kernels_steps (t : Transform κ α) : t.steps.flatMap kernels = t.kernels := by
  induction t with
  | chain id a b iha ihb => rw [steps, List.flatMap_append, iha, ihb, kernels]
  | _ => simp [steps]

theorem mem_kernels_of_getLast {t : Transform κ α} {id : NodeId} {k : κ}
    (h : t.steps.getLast? = some (kernel id k)) : (id, k) ∈ t.kernels := by
  rw [← flatMap_kernels_steps]
  exact List.mem_flatMap.mpr ⟨_, List.mem_of_getLast? h, List.mem_singleton.mpr rfl⟩

theorem kernels_of_isLinear {t : Transform κ α} (h : t.isLinear = true) : t.kernels = [] := by
  obtain ⟨id, m, rfl⟩ := isLinear_iff.mp h
  rfl

/-- A fold that puts transforms one after the other puts their kernels one after the other. -/
theorem kernels_foldlM {f : Transform κ α → Transform κ α → Except TransformError (Transform κ α)}
    (hf : ∀ a b, Yields (fun t => t.kernels = a.kernels ++ b.kernels) (f a b))
    (first : Transform κ α) (rest : List (Transform κ α)) :
    Yields (fun t => t.kernels = (first :: rest).flatMap kernels) (rest.foldlM f first) := by
  have hfirst : first.kernels = [first].flatMap kernels := by rw [List.flatMap_singleton]
  refine Ensures.foldlM (I := fun done t => kernels t = (first :: done).flatMap kernels) ?_ rest
    hfirst
  intro done b t ht
  refine (hf t b).mono fun t' ht' => ?_
  rw [ht', ht, ← List.cons_append, List.flatMap_append, List.flatMap_singleton]

end Steps

section Matrices

variable {κ α : Type} [Scalar α] {options : AssemblyOptions}

theorem kernels_of_isIdentity {t : Transform κ α} (h : t.isIdentity = true) : t.kernels = [] :=
  kernels_of_isLinear (isLinear_of_isIdentity h)

theorem kernels_ofMatrix (m : DenseMatrix α) :
    Yields (fun t : Transform κ α => t.kernels = []) (ofMatrix m) := by
  unfold ofMatrix
  split
  · trivial
  · split
    · trivial
    · exact rfl

/-- Linear steps that are folded have no kernels, and neither has their product. -/
theorem kernels_pushStep (stack : List (Transform κ α)) (s : Transform κ α) :
    Yields (fun stack' => stack'.reverse.flatMap kernels =
      stack.reverse.flatMap kernels ++ s.kernels) (pushStep options stack s) := by
  cases hpush : pushStep options stack s with
  | error e => trivial
  | ok stack' =>
      show stack'.reverse.flatMap kernels = _
      rcases pushStep_cases hpush with ⟨rfl, _⟩ | ⟨_, hs, top, earlier, product, htop, rfl, rfl⟩
      · simp
      · simp [kernels_of_isLinear hs, kernels_of_isLinear htop, kernels]

theorem kernels_foldSteps (steps : List (Transform κ α)) :
    Yields (fun folded => folded.flatMap kernels = steps.flatMap kernels)
      (foldSteps options steps) := by
  refine (Ensures.foldlM (I := fun done stack =>
    stack.reverse.flatMap kernels = done.flatMap kernels) ?_ steps rfl).map fun stack => id
  intro done s stack hstack
  refine (kernels_pushStep stack s).mono fun stack' hstack' => ?_
  rw [hstack', hstack, List.flatMap_append, List.flatMap_singleton]

theorem kernels_elideSteps (steps : List (Transform κ α)) :
    (elideSteps options steps).flatMap kernels = steps.flatMap kernels := by
  unfold elideSteps
  split
  · induction steps with
    | nil => rfl
    | cons s steps ih =>
        rw [List.filter_cons, List.flatMap_cons, ← ih]
        split
        · rw [List.flatMap_cons]
        · rename_i hs
          rw [kernels_of_isIdentity (by simpa using hs), List.nil_append]
  · rfl

theorem kernels_passThroughSimplified (k : Nat) (t : Transform κ α) (n : Nat) :
    Yields (fun t' => t'.kernels = t.kernels) (passThroughSimplified k t n) := by
  fun_induction passThroughSimplified k t n with
  | case1 k n t hnone => exact rfl
  | case2 k n hsome id matrix => exact kernels_ofMatrix _
  | case3 k n hsome id k' inner n' ih => exact ih
  | case4 k n hsome t => exact rfl

end Matrices

section Chains

variable {κ α : Type} [Kernel κ α]

theorem kernels_join (a b : Transform κ α) :
    Yields (fun t => t.kernels = a.kernels ++ b.kernels) (join a b) := by
  unfold join
  split
  · trivial
  · exact rfl

theorem kernels_joinAll (steps : List (Transform κ α)) :
    Yields (fun joined => (joined.map kernels).getD [] = steps.flatMap kernels)
      (joinAll steps) := by
  cases steps with
  | nil => exact rfl
  | cons first rest => exact (kernels_foldlM kernels_join first rest).map fun _ => id

/-- A concatenation has the kernels of its parts, one part after the other. -/
theorem kernels_concatenateWith [Scalar α] (options : AssemblyOptions) (a b : Transform κ α) :
    Yields (fun t => t.kernels = a.kernels ++ b.kernels) (concatenateWith options a b) := by
  unfold concatenateWith
  split
  · trivial
  · split
    · exact kernels_join a b
    · refine (kernels_foldSteps _).bind fun folded hfolded => ?_
      refine (kernels_joinAll (elideSteps options folded)).bind fun joined hjoined => ?_
      have hall : (joined.map kernels).getD [] = a.kernels ++ b.kernels := by
        rw [hjoined, kernels_elideSteps, hfolded, List.flatMap_append, flatMap_kernels_steps,
          flatMap_kernels_steps]
      cases joined with
      | some result => exact hall
      | none => exact (kernels_ofMatrix _).mono fun t ht => ht.trans hall

end Chains

end Transform

open Outcome

section Assemblers

variable {κ α : Type}

/-- An assembler that neither makes nor drops nor moves kernel nodes. -/
structure Assembler.KeepsKernels (assembler : Assembler κ α) : Prop where
  affine (m : DenseMatrix α) : Yields (fun t => t.kernels = []) (assembler.affine m)
  concatenate (a b : Transform κ α) :
    Yields (fun t => t.kernels = a.kernels ++ b.kernels) (assembler.concatenate a b)
  passThrough (k : Nat) (t : Transform κ α) (n : Nat) :
    Yields (fun t' => t'.kernels = t.kernels) (assembler.passThrough k t n)

theorem Assembler.KeepsKernels.affine_sublist {assembler : Assembler κ α}
    (h : assembler.KeepsKernels) (m : DenseMatrix α) (kernels : List (NodeId × κ)) :
    Yields (fun t => t.kernels.Sublist kernels) (assembler.affine m) :=
  (h.affine m).mono fun _ ht => ht ▸ List.nil_sublist kernels

theorem Assembler.KeepsKernels.compose {assembler : Assembler κ α} (h : assembler.KeepsKernels)
    (parts : List (Transform κ α)) :
    Yields (fun t => t.kernels = parts.flatMap Transform.kernels) (assembler.compose parts) := by
  cases parts with
  | nil => trivial
  | cons first rest => exact Transform.kernels_foldlM h.concatenate first rest

theorem Assembler.standard_keepsKernels [Kernel κ α] [Scalar α] (options : AssemblyOptions) :
    (Assembler.standard options : Assembler κ α).KeepsKernels where
  affine := Transform.kernels_ofMatrix
  concatenate := Transform.kernels_concatenateWith options
  passThrough := Transform.kernels_passThroughSimplified

end Assemblers

namespace Transform

section Within

variable {κ α : Type} {parts steps : List (Transform κ α)} {t s : Transform κ α}

/-- The kernels of some transforms, one after the other, are a sublist of those of others. -/
def KernelsWithin (parts steps : List (Transform κ α)) : Prop :=
  (parts.flatMap kernels).Sublist (steps.flatMap kernels)

theorem KernelsWithin.refl (steps : List (Transform κ α)) : KernelsWithin steps steps :=
  List.Sublist.refl _

theorem KernelsWithin.append {parts' steps' : List (Transform κ α)} (h : KernelsWithin parts steps)
    (h' : KernelsWithin parts' steps') : KernelsWithin (parts ++ parts') (steps ++ steps') := by
  unfold KernelsWithin
  rw [List.flatMap_append, List.flatMap_append]
  exact List.Sublist.append h h'

theorem kernelsWithin_singleton (h : t.kernels.Sublist s.kernels) : KernelsWithin [t] [s] := by
  simpa [KernelsWithin] using h

end Within

section Targets

variable {κ α : Type} [Kernel κ α] [Scalar α] {assembler : Assembler κ α}

/-- Every reduction of the step has some of its kernels. -/
def TargetStep.KeepsKernels (s : TargetStep κ α) : Prop :=
  ∀ targets, Yields (fun t' => t'.kernels.Sublist s.step.kernels) (s.reduce targets)

omit [Scalar α] in
theorem TargetStep.KeepsKernels.keep {s : TargetStep κ α} (h : s.KeepsKernels)
    (targets : List Nat) :
    Yields (fun t' => t'.kernels.Sublist s.step.kernels) (s.keep targets) := by
  unfold TargetStep.keep
  split
  · exact List.Sublist.refl _
  · exact h targets

variable (hassembler : assembler.KeepsKernels)

include hassembler in
/-- What a walk over the steps keeps has some of the kernels of the steps, step by step. -/
theorem kernels_keepChain {steps : List (TargetStep κ α)} (h : ∀ s ∈ steps, s.KeepsKernels)
    (targets : List Nat) :
    Yields (KernelsWithin · (steps.map TargetStep.step).reverse)
      (keepChain assembler steps targets) := by
  induction steps generalizing targets with
  | nil => exact .refl []
  | cons last earlier ih =>
      have hkeep := (h last List.mem_cons_self).keep targets
      have ih := ih fun s hs => h s (List.mem_cons_of_mem last hs)
      rw [List.map_cons, List.reverse_cons]
      cases earlier with
      | nil => exact hkeep.map fun final hfinal => kernelsWithin_singleton hfinal
      | cons previous rest =>
          -- a linear step has no kernels, in whatever form it is kept
          have hlast : ∀ before m,
              KernelsWithin before ((previous :: rest).map TargetStep.step).reverse →
              Yields (KernelsWithin ·
                  (((previous :: rest).map TargetStep.step).reverse ++ [last.step]))
                ((fun final => before ++ [final]) <$> assembler.affine m) :=
            fun before m hbefore => (hassembler.affine m).map fun final hfinal =>
              hbefore.append (kernelsWithin_singleton (hfinal ▸ List.nil_sublist _))
          unfold keepChain
          split
          · rename_i id m hstep
            refine yields_bind (targetRows m targets) fun rows => ?_
            dsimp only
            split
            · have hbefore := ih (usedColumns rows)
              split
              · rename_i reduced hreduced
                rw [hreduced] at hbefore
                exact hlast reduced _ hbefore
              · exact hlast _ rows (.refl _)
              · trivial
            · exact hlast _ rows (.refl _)
          · exact hkeep.map fun final hfinal =>
              (KernelsWithin.refl _).append (kernelsWithin_singleton hfinal)

include hassembler in
theorem kernels_keepSteps {whole : Transform κ α} {steps : List (TargetStep κ α)}
    (hwhole : steps.map TargetStep.step = whole.steps) (h : ∀ s ∈ steps, s.KeepsKernels)
    (targets : List Nat) :
    Yields (fun t' => t'.kernels.Sublist whole.kernels)
      (keepSteps assembler whole steps targets) := by
  have hkernels : (steps.map TargetStep.step).flatMap kernels = whole.kernels := by
    rw [hwhole, flatMap_kernels_steps]
  have hchain : Yields (fun t' => t'.kernels.Sublist whole.kernels)
      (keepChain assembler steps.reverse targets >>= assembler.compose) := by
    refine (kernels_keepChain hassembler (fun s hs => h s (List.mem_reverse.mp hs)) targets).bind
      fun parts hparts => (hassembler.compose parts).mono fun t' ht' => ?_
    rw [List.map_reverse, List.reverse_reverse] at hparts
    rw [ht', ← hkernels]
    exact hparts
  unfold keepSteps
  split
  · exact List.Sublist.refl _
  · split
    · rename_i only
      rw [List.map_singleton, List.flatMap_singleton] at hkernels
      rw [← hkernels]
      exact h only List.mem_cons_self targets
    · exact hchain

include hassembler in
omit [Scalar α] in
theorem kernels_wrapPart {whole inner : Transform κ α} (hwhole : whole.kernels = inner.kernels)
    {keep : List Nat → Except TransformError (Transform κ α)}
    (hkeep : ∀ targets, Yields (fun t' => t'.kernels.Sublist inner.kernels) (keep targets))
    (k n : Nat) (targets : List Nat) :
    Yields (fun part => part.1.kernels.Sublist inner.kernels)
      (wrapPart assembler whole k inner n keep targets) := by
  have hall : whole.kernels.Sublist inner.kernels := hwhole ▸ List.Sublist.refl _
  unfold wrapPart
  dsimp only
  split
  · exact hall
  · have hreduced := hkeep (inside k inner.targetDimensions targets)
    split
    · rename_i reduced heq
      rw [heq] at hreduced
      exact (hassembler.passThrough k reduced n).map fun wrapper hwrapper => hwrapper ▸ hreduced
    · exact hall
    · trivial

include hassembler in
omit [Kernel κ α] in
theorem kernels_selectPart (k c n : Nat) (targets : List Nat) (part : Transform κ α × List Nat) :
    Yields (fun t' => t'.kernels = part.1.kernels) (selectPart assembler k c n targets part) := by
  unfold selectPart
  dsimp only
  split
  · exact rfl
  · refine yields_bind _ fun matrix => ?_
    refine (hassembler.affine matrix).bind fun selection hselection => ?_
    refine (hassembler.concatenate part.1 selection).mono fun t' ht' => ?_
    rw [ht', hselection, List.append_nil]

include hassembler in
theorem kernels_keepPassThrough {whole inner : Transform κ α}
    (hwhole : whole.kernels = inner.kernels)
    {keep : List Nat → Except TransformError (Transform κ α)}
    (hkeep : ∀ targets, Yields (fun t' => t'.kernels.Sublist inner.kernels) (keep targets))
    (k n : Nat) (targets : List Nat) :
    Yields (fun t' => t'.kernels.Sublist inner.kernels)
      (keepPassThrough assembler whole k inner n keep targets) := by
  cases hcopied : (inside k inner.targetDimensions targets).isEmpty with
  | true =>
      rw [keepPassThrough_eq_copied hcopied]
      exact yields_bind _ fun matrix => hassembler.affine_sublist matrix _
  | false =>
      rw [keepPassThrough_eq_stages hcopied]
      refine (kernels_wrapPart hassembler hwhole hkeep k n targets).bind fun part hpart => ?_
      exact (kernels_selectPart hassembler k _ n targets part).mono fun t' ht' => ht' ▸ hpart

include hassembler in
theorem keepsKernels_targetSteps (t : Transform κ α) :
    ∀ s ∈ t.targetSteps assembler, s.KeepsKernels := by
  induction t with
  | linear id m =>
      refine List.forall_mem_singleton.mpr fun targets => ?_
      exact yields_bind _ fun rows => hassembler.affine_sublist rows _
  | chain id a b iha ihb => exact fun s hs => (List.mem_append.mp hs).elim (iha s) (ihb s)
  | passThrough id k inner n ih =>
      refine List.forall_mem_singleton.mpr fun targets => ?_
      have hwhole : (passThrough id k inner n).kernels = inner.kernels := rfl
      have hkeep := kernels_keepSteps hassembler (map_step_targetSteps assembler inner) ih
      exact kernels_keepPassThrough hassembler hwhole hkeep k n targets
  | kernel id k => exact List.forall_mem_singleton.mpr fun targets => trivial

include hassembler in
/-- What is kept of some outputs has some of the kernels. -/
theorem kernels_keepTargets (t : Transform κ α) (targets : List Nat) :
    Yields (fun t' => t'.kernels.Sublist t.kernels) (t.keepTargets assembler targets) :=
  kernels_keepSteps hassembler (map_step_targetSteps assembler t)
    (keepsKernels_targetSteps hassembler t) targets

include hassembler in
theorem kernels_trimSources (t : Transform κ α) :
    Yields (fun part => part.1.kernels = t.kernels) (t.trimSources assembler) := by
  unfold trimSources
  split
  · rename_i id m rest hsteps
    refine yields_bind (trimMatrix m) fun trimmed => ?_
    cases trimmed with
    | none => exact rfl
    | some trimmed =>
        refine (hassembler.affine trimmed.1).bind fun head hhead => ?_
        refine (hassembler.compose (head :: rest)).map fun result hresult => ?_
        rw [hresult, ← flatMap_kernels_steps t, hsteps, List.flatMap_cons, List.flatMap_cons,
          hhead, kernels]
  · exact rfl

end Targets

section Sources

variable {κ α : Type} [Kernel κ α] [Scalar α] {assembler : Assembler κ α}

/-- Every reduction of the step by sources has some of its kernels. -/
def SourceStep.KeepsKernels (s : SourceStep κ α) : Prop :=
  ∀ sources, Yields (fun part => part.1.kernels.Sublist s.step.kernels) (s.reduce sources)

omit [Scalar α] in
theorem SourceStep.KeepsKernels.keep {s : SourceStep κ α} (h : s.KeepsKernels)
    (sources : List Nat) :
    Yields (fun part => part.1.kernels.Sublist s.step.kernels) (s.keep sources) := by
  unfold SourceStep.keep
  split
  · exact List.Sublist.refl _
  · exact h sources

omit [Scalar α] in
theorem kernels_keepForward {steps : List (SourceStep κ α)} (h : ∀ s ∈ steps, s.KeepsKernels)
    (i : Nat) (current : List Nat) :
    Yields (fun parts => KernelsWithin parts.1 (steps.map SourceStep.step))
      (keepForward steps i current) := by
  induction steps generalizing i current with
  | nil => exact KernelsWithin.refl []
  | cons s rest ih =>
      unfold keepForward
      refine ((h s List.mem_cons_self).keep current).bind fun part hpart => ?_
      dsimp only
      split
      · trivial
      · exact (ih (fun s' hs' => h s' (List.mem_cons_of_mem s hs')) (i + 1) part.2).map
          fun later hlater => (kernelsWithin_singleton hpart).append hlater

variable (hassembler : assembler.KeepsKernels)

include hassembler in
omit [Scalar α] in
theorem kernels_keepSourceSteps {whole : Transform κ α} {steps : List (SourceStep κ α)}
    (hwhole : steps.map SourceStep.step = whole.steps) (h : ∀ s ∈ steps, s.KeepsKernels)
    (sources : List Nat) :
    Yields (fun part => part.1.kernels.Sublist whole.kernels)
      (keepSourceSteps assembler whole steps sources) := by
  have hkernels : (steps.map SourceStep.step).flatMap kernels = whole.kernels := by
    rw [hwhole, flatMap_kernels_steps]
  unfold keepSourceSteps
  split
  · exact List.Sublist.refl _
  · split
    · rename_i only
      rw [List.map_singleton, List.flatMap_singleton] at hkernels
      rw [← hkernels]
      exact h only List.mem_cons_self sources
    · refine (kernels_keepForward h 0 sources).bind fun parts hparts => ?_
      refine (hassembler.compose parts.1).map fun result hresult => ?_
      rw [hresult, ← hkernels]
      exact hparts

include hassembler in
theorem keepsKernels_sourceSteps (t : Transform κ α) :
    ∀ s ∈ t.sourceSteps assembler, s.KeepsKernels := by
  induction t with
  | linear id m =>
      refine List.forall_mem_singleton.mpr fun sources => ?_
      exact yields_bind _ fun block => (hassembler.affine_sublist block _).map fun _ ht => ht
  | chain id a b iha ihb => exact fun s hs => (List.mem_append.mp hs).elim (iha s) (ihb s)
  | passThrough id k inner n ih =>
      refine List.forall_mem_singleton.mpr fun sources => ?_
      show Yields _ (keepPassThroughSources assembler k inner _ sources)
      unfold keepPassThroughSources
      dsimp only
      split
      · exact (hassembler.affine_sublist _ _).map fun _ ht => ht
      · refine (kernels_keepSourceSteps hassembler (map_step_sourceSteps assembler inner) ih _).bind
          fun part hpart => ?_
        exact (hassembler.passThrough _ part.1 _).map fun t' ht' => ht' ▸ hpart
  | kernel id k => exact List.forall_mem_singleton.mpr fun sources => trivial

include hassembler in
/-- What is kept of some inputs has some of the kernels. -/
theorem kernels_keepSources (t : Transform κ α) (sources : List Nat) :
    Yields (fun part => part.1.kernels.Sublist t.kernels) (t.keepSources assembler sources) :=
  kernels_keepSourceSteps hassembler (map_step_sourceSteps assembler t)
    (keepsKernels_sourceSteps hassembler t) sources

end Sources

end Transform

namespace Separation

open Outcome Transform

section Separating

variable {κ α : Type} [Kernel κ α] [Scalar α] {assembler : Assembler κ α}
  (hassembler : assembler.KeepsKernels) (t : Transform κ α)

include hassembler in
theorem kernels_bySources (sources : List Nat) (targets : Option (List Nat)) :
    Yields (fun s => s.transform.kernels.Sublist t.kernels)
      (bySources assembler t sources targets) := by
  unfold bySources
  refine (kernels_keepSources hassembler t sources).bind fun part hpart => ?_
  dsimp only
  split
  · trivial
  · cases targets with
    | none => exact hpart
    | some requested =>
        refine yields_bind (positionsAmong part.2 requested) fun positions => ?_
        exact (kernels_keepTargets hassembler part.1 positions).map fun t' ht' => ht'.trans hpart

include hassembler in
theorem kernels_byTargets (targets : List Nat) (options : SeparationOptions) :
    Yields (fun s => s.transform.kernels.Sublist t.kernels)
      (byTargets assembler t targets options) := by
  unfold byTargets
  refine (kernels_keepTargets hassembler t targets).bind fun reduced hreduced => ?_
  split
  · exact (kernels_trimSources hassembler reduced).map fun part hpart => hpart ▸ hreduced
  · exact hreduced

include hassembler in
/-- A separation has some of the kernels of the transform, in their order. -/
theorem kernels_separate (sources targets : Option (List Nat)) (options : SeparationOptions) :
    Yields (fun s => s.transform.kernels.Sublist t.kernels)
      (separate assembler t sources targets options) := by
  unfold separate
  dsimp only
  refine yields_bind _ fun _ => yields_bind _ fun _ => ?_
  cases nonempty sources with
  | none => exact kernels_byTargets hassembler t _ options
  | some s =>
      dsimp only
      split
      · exact kernels_bySources hassembler t s _
      · exact kernels_byTargets hassembler t _ options

end Separating

section Binary64

variable {κ : Type} [Kernel κ Float] {t : Transform κ Float}

/-- A kernel node is kept whole or dropped: read in the order of evaluation, the kernel nodes of a
separation are a sublist of those of the transform. -/
theorem sublist_of_separate {options : AssemblyOptions} {sources targets : Option (List Nat)}
    {extra : SeparationOptions} {s : Separation κ Float}
    (hs : separate (.standard options) t sources targets extra = .ok s) :
    s.transform.kernels.Sublist t.kernels := by
  have hkernels :=
    kernels_separate (Assembler.standard_keepsKernels options) t sources targets extra
  rw [hs] at hkernels
  exact hkernels

/-- Two kernel nodes, of which the first occurs twice, each applied to one of three coordinates. -/
def interleaved : Transform SyntheticKernel Float :=
  let bend := kernel (some 1) (.make "bend" 1 1 0.5 1 .declared none none)
  let fold := kernel (some 2) (.make "fold" 1 1 0.25 1 .declared none none)
  chain none (passThrough none 0 bend 2)
    (chain none (passThrough none 1 fold 1) (passThrough none 2 bend 0))

/-- Without the second coordinate both occurrences of the first node remain. -/
theorem sublist_of_separate_interleaved :
    ∃ s : Separation SyntheticKernel Float,
      separate (.standard {}) interleaved (some [0, 2]) none {} = .ok s ∧
        s.transform.kernels.map Prod.fst = [some 1, some 1] ∧
        interleaved.kernels.map Prod.fst = [some 1, some 2, some 1] ∧
        s.transform.kernels.Sublist interleaved.kernels := by
  obtain ⟨s, hs⟩ := exists_ok_of_isOk
    (x := separate (.standard {}) interleaved (some [0, 2]) none {}) (by decide +kernel)
  have hnodes : (separate (.standard {}) interleaved (some [0, 2]) none {}).map
      (fun s => s.transform.kernels.map Prod.fst) = .ok [some 1, some 1] := by decide +kernel
  rw [hs] at hnodes
  exact ⟨s, hs, Except.ok.inj hnodes, rfl, sublist_of_separate hs⟩

end Binary64

end Separation
end SeparableTransforms
