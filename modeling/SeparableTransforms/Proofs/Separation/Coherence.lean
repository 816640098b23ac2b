import SeparableTransforms.Proofs.Separation.Results
import SeparableTransforms.Proofs.Separation.Stages
import SeparableTransforms.Proofs.Transform.PackedPoints
import SeparableTransforms.Proofs.Transform.Spanning

/-!
# Separations of coherent transforms

A coherent transform is separated into a coherent one, which takes and gives as many
coordinates as the separation reports, or it is not separated for another reason than
an argument.  So an accepted request never leads to a complaint about an argument later
on, even where kernels take no coordinate at all.

Coherent is all that the library makes, whatever the kernels.  What has to be kept in a
separation is that no part is asked for nothing: a matrix for some outputs has
a column for every input that it uses, and one for some inputs has a column for each of
them.  A part that is asked for nothing would be a matrix that takes no coordinate.
-/

namespace SeparableTransforms
namespace Transform

open Outcome

section Targets

variable {κ α : Type} [Kernel κ α] [Scalar α] {assembler : Assembler κ α} {n m l k c : Nat}
  {R : List Nat} {t inner : Transform κ α}

theorem accepts_selectCoordinates (picked : List Nat) (sources : Nat) :
    Accepts (fun matrix : DenseMatrix α => matrix.rows = picked.length + 1 ∧
      matrix.cols = sources + 1) (selectCoordinates picked sources) := by
  unfold selectCoordinates
  split
  · trivial
  · exact ⟨rfl, rfl⟩

/-- Every reduction of the step to some of its outputs spans these. -/
def TargetStep.KeepsSpans (s : TargetStep κ α) : Prop :=
  ∀ R, R ≠ [] → Increasing R s.step.targetDimensions →
    Accepts (Spans s.step.sourceDimensions · R.length) (s.reduce R)

/-- A transform with all of its outputs spans these. -/
theorem Spans.of_isFull (ht : Spans n t m) (hfull : isFull R m = true) :
    Spans n t R.length := by
  obtain rfl := isFull_iff.mp hfull
  rwa [List.length_range]

theorem TargetStep.KeepsSpans.keep {s : TargetStep κ α} (h : s.KeepsSpans)
    (hs : Spans n s.step m) (hR : Increasing R m) (hne : R ≠ []) :
    Accepts (Spans n · R.length) (s.keep R) := by
  obtain ⟨hcoherent, rfl, rfl⟩ := hs
  unfold TargetStep.keep
  split
  · rename_i hfull
    exact hcoherent.spans.of_isFull hfull
  · exact h R hne hR

variable (hassembler : assembler.KeepsSpans)

section Linear

variable {id : NodeId} {matrix : DenseMatrix α}

theorem increasing_usedInputs (h : Spans n (linear id matrix : Transform κ α) m)
    (R : List Nat) : Increasing (usedColumns (matrix.keepRows R)) n := by
  obtain ⟨-, rfl, -⟩ := h
  exact increasing_usedColumns (matrix.keepRows R)

include hassembler in
/-- Selected rows of a linear step. -/
theorem accepts_keepRows (h : Spans n (linear id matrix : Transform κ α) m) (R : List Nat) :
    Accepts (Spans n · R.length) (assembler.affine (matrix.keepRows R)) := by
  obtain ⟨⟨-, hcols⟩, rfl, -⟩ := h
  have hkept := hassembler.affine (matrix.keepRows R) hcols
  rwa [DenseMatrix.rows_keepRows, Nat.add_sub_cancel] at hkept

include hassembler in
/-- Selected rows of a linear step, with the columns that they use. -/
theorem accepts_keepUsed (h : Spans n (linear id matrix : Transform κ α) m)
    (hne : usedColumns (matrix.keepRows R) ≠ []) :
    Accepts (Spans (usedColumns (matrix.keepRows R)).length · R.length)
      (assembler.affine ((matrix.keepRows R).removeColumns
        ((List.range (matrix.cols - 1)).filter fun c =>
          !(usedColumns (matrix.keepRows R)).contains c))) := by
  have hcols : 2 ≤ matrix.cols := h.coherent.2
  have hkeep := DenseMatrix.removeColumns_unused (m := matrix.keepRows R) (Nat.lt_of_succ_lt hcols)
    (increasing_usedColumns (matrix.keepRows R))
  rw [DenseMatrix.cols_keepRows] at hkeep
  rw [hkeep]
  exact hassembler.affine_of DenseMatrix.rows_keepRows DenseMatrix.cols_keepColumns
    (List.length_pos_iff.mpr hne)

variable [LawfulScalar α]

theorem Spans.targetRows_eq_ok (h : Spans n (linear id matrix : Transform κ α) m)
    (hR : Increasing R m) : targetRows matrix R = .ok (matrix.keepRows R) := by
  obtain ⟨⟨haffine, -⟩, -, rfl⟩ := h
  exact Transform.targetRows_eq_ok haffine hR

end Linear

variable [LawfulScalar α]

include hassembler in
/-- What a walk over steps keeps is in sequence again, down to the requested outputs. -/
theorem accepts_keepChain {steps : List (TargetStep κ α)} (hsteps : steps ≠ [])
    (h : ∀ s ∈ steps, s.KeepsSpans) (hseq : Sequenced n (steps.map TargetStep.step).reverse m)
    (hR : Increasing R m) (hne : R ≠ []) :
    Accepts (Sequenced n · R.length) (keepChain assembler steps R) := by
  -- the steps are listed from last to first; what is asked of the earlier ones is what the last
  -- one uses of them, so the request changes on the way
  induction steps generalizing m R with
  | nil => exact absurd rfl hsteps
  | cons last earlier ih =>
      have hkeepLast := h last List.mem_cons_self
      rw [List.map_cons, List.reverse_cons] at hseq
      obtain ⟨l, hwhole, hlast⟩ := sequenced_append.mp hseq
      have hlast := sequenced_singleton.mp hlast
      cases earlier with
      | nil =>
          obtain rfl : n = l := hwhole
          exact (hkeepLast.keep hlast hR hne).map fun _ => sequenced_singleton.mpr
      | cons previous rest =>
          unfold keepChain
          split
          · rename_i id matrix hstep
            rw [hstep] at hlast
            have hrows := accepts_keepRows hassembler hlast R
            rw [hlast.targetRows_eq_ok hR, ok_bind]
            dsimp only
            split
            · rename_i hnarrow
              have husedNe : usedColumns (matrix.keepRows R) ≠ [] := by
                rintro hnil
                rw [hnil] at hnarrow
                cases hnarrow
              have hbefore := ih (List.cons_ne_nil _ _)
                (fun s hs => h s (List.mem_cons_of_mem last hs)) hwhole
                (increasing_usedInputs hlast R) husedNe
              split
              · rename_i reduced hreduced
                rw [hreduced] at hbefore
                exact (accepts_keepUsed hassembler hlast husedNe).map fun _ => hbefore.snoc
              · exact hrows.map fun _ => hwhole.snoc
              · rename_i e _ herror
                rw [herror] at hbefore
                exact hbefore
            · exact hrows.map fun _ => hwhole.snoc
          · exact (hkeepLast.keep hlast hR hne).map fun _ => hwhole.snoc

include hassembler in
theorem accepts_keepSteps {steps : List (TargetStep κ α)}
    (hsteps : steps.map TargetStep.step = t.steps) (h : ∀ s ∈ steps, s.KeepsSpans)
    (ht : Spans n t m) (hR : Increasing R m) (hne : R ≠ [] ∨ isFull R m = true) :
    Accepts (Spans n · R.length) (keepSteps assembler t steps R) := by
  have hseq := ht.sequenced_steps
  unfold keepSteps
  rw [ht.target]
  split
  · rename_i hfull
    exact ht.of_isFull hfull
  · rename_i hproper
    have hsome := hne.resolve_right hproper
    rw [← hsteps] at hseq
    split
    · rename_i only
      obtain ⟨-, rfl, rfl⟩ := sequenced_singleton.mp hseq
      exact h only List.mem_cons_self R hsome hR
    · have hsteps' : steps.reverse ≠ [] := by
        rintro hnil
        rw [List.reverse_eq_nil_iff.mp hnil] at hsteps
        exact t.steps_ne_nil hsteps.symm
      rw [← List.reverse_reverse (steps.map TargetStep.step), ← List.map_reverse] at hseq
      exact (accepts_keepChain hassembler hsteps' (fun s hs => h s (List.mem_reverse.mp hs)) hseq
        hR hsome).bind fun parts => hassembler.compose

section PassThrough

variable {id : NodeId} {keep : List Nat → Except TransformError (Transform κ α)}
  (hinner : Spans n inner m)
  (hkeep : ∀ R, R ≠ [] → Increasing R m → Accepts (Spans n · R.length) (keep R))
  (hR : Increasing R (k + m + c))

include hassembler hinner hkeep hR in
omit [LawfulScalar α] in
/-- The wrapper to select from gives some outputs of the inner transform, with those that are
copied. -/
theorem accepts_wrapPart (hne : inside k m R ≠ []) :
    Accepts (fun part => Spans (k + n + c) part.1 (k + part.2.length + c) ∧ 0 < part.2.length)
      (wrapPart assembler (passThrough id k inner c) k inner c keep R) := by
  have hreduced := hkeep (inside k m R) hne (increasing_inside hR)
  have hpos := List.length_pos_iff.mpr hne
  have hwhole : Spans (k + n + c) (passThrough id k inner c) (k + (List.range m).length + c) ∧
      0 < (List.range m).length := by
    obtain ⟨d, hd⟩ := List.exists_mem_of_ne_nil _ hne
    have hd := (mem_inside_iff.mp hd).1
    obtain ⟨hcoherent, rfl, rfl⟩ := hinner
    rw [List.length_range]
    exact ⟨⟨hcoherent, rfl, rfl⟩, Nat.zero_lt_of_lt hd⟩
  unfold wrapPart
  rw [hinner.target]
  dsimp only
  split
  · rename_i hfull
    rw [isFull_iff.mp hfull]
    exact hwhole
  · split
    · rename_i reduced heq
      rw [heq] at hreduced
      exact (hassembler.passThrough hreduced k c).map fun wrapper hwrapper => ⟨hwrapper, hpos⟩
    · exact hwhole
    · rename_i e _ heq
      rw [heq] at hreduced
      exact hreduced

omit [LawfulScalar α] in
include hassembler in
theorem accepts_selectPart {part : Transform κ α × List Nat}
    (hpart : Spans n part.1 (k + part.2.length + c)) (hpos : 0 < part.2.length) (R : List Nat) :
    Accepts (Spans n · R.length) (selectPart assembler k m c R part) := by
  unfold selectPart
  dsimp only
  split
  · rename_i hfull
    have hlength := hpart.of_isFull hfull
    rwa [List.length_map] at hlength
  · refine (accepts_selectCoordinates _ _).bind fun matrix hmatrix => ?_
    rw [List.length_map] at hmatrix
    exact (hassembler.affine_of hmatrix.1 hmatrix.2 (by omega)).bind fun selection =>
      hassembler.concatenate hpart

include hassembler hinner hkeep hR in
omit [LawfulScalar α] in
theorem accepts_keepPassThrough (hne : R ≠ []) :
    Accepts (Spans (k + n + c) · R.length)
      (keepPassThrough assembler (passThrough id k inner c) k inner c keep R) := by
  cases hcopied : (inside k inner.targetDimensions R).isEmpty with
  | true =>
      have hnil := List.isEmpty_iff.mp hcopied
      rw [keepPassThrough_eq_copied hcopied, hinner.source]
      have hpos : 0 < k + n + c := by
        obtain ⟨d, hd⟩ := List.exists_mem_of_ne_nil _ hne
        have hbound := hR.bounded d hd
        rw [hinner.target] at hnil
        have houtside := outside_of_inside_eq_nil hnil hd
        omega
      refine (accepts_selectCoordinates _ _).bind fun matrix hmatrix => ?_
      rw [List.length_map] at hmatrix
      exact hassembler.affine_of hmatrix.1 hmatrix.2 hpos
  | false =>
      have hsome : inside k inner.targetDimensions R ≠ [] := by simpa using hcopied
      rw [keepPassThrough_eq_stages hcopied]
      rw [hinner.target] at hsome ⊢
      exact (accepts_wrapPart hassembler hinner hkeep hR hsome).bind fun part hpart =>
        accepts_selectPart hassembler hpart.1 hpart.2 R

end PassThrough

include hassembler in
theorem keepsSpans_targetSteps (ht : t.Coherent) :
    ∀ s ∈ t.targetSteps assembler, s.KeepsSpans := by
  induction t with
  | linear id matrix =>
      refine List.forall_mem_singleton.mpr fun R _ hR => ?_
      have hlinear : Spans _ (linear id matrix : Transform κ α) _ := ht.spans
      show Accepts _ (targetRows matrix R >>= assembler.affine)
      rw [hlinear.targetRows_eq_ok hR, ok_bind]
      exact accepts_keepRows hassembler hlinear R
  | chain id a b iha ihb =>
      exact fun s hs => (List.mem_append.mp hs).elim (iha ht.1 s) (ihb ht.2.1 s)
  | passThrough id k inner c ih =>
      have hinner : inner.Coherent := ht
      refine List.forall_mem_singleton.mpr fun R hne hR => ?_
      refine accepts_keepPassThrough hassembler hinner.spans (fun R' hne' hR' => ?_) hR hne
      exact accepts_keepSteps hassembler (map_step_targetSteps assembler inner) (ih hinner)
        hinner.spans hR' (.inl hne')
  | kernel id k => exact List.forall_mem_singleton.mpr fun R _ _ => trivial

include hassembler in
/-- What is kept of some outputs spans these. -/
theorem accepts_keepTargets (ht : Spans n t m) (hR : Increasing R m)
    (hne : R ≠ [] ∨ isFull R m = true) :
    Accepts (Spans n · R.length) (t.keepTargets assembler R) :=
  accepts_keepSteps hassembler (map_step_targetSteps assembler t)
    (keepsSpans_targetSteps hassembler ht.coherent) ht hR hne

include hassembler in
/-- What is left after trimming spans the remaining sources. -/
theorem accepts_trimSources (ht : Spans n t m) :
    Accepts (fun part => Increasing part.2 n ∧ Spans part.2.length part.1 m)
      (t.trimSources assembler) := by
  have hseq := ht.sequenced_steps
  have hall : Increasing (List.range n) n ∧ Spans (List.range n).length t m := by
    rw [List.length_range]
    exact ⟨increasing_range n, ht⟩
  unfold trimSources
  rw [ht.source]
  split
  · rename_i id matrix rest hsteps
    rw [hsteps] at hseq
    obtain ⟨⟨haffine, -⟩, hsource, hrest⟩ := hseq
    have hused : Increasing (usedColumns matrix) n := hsource ▸ increasing_usedColumns matrix
    have hrows := Nat.sub_add_cancel (DenseMatrix.isAffine_rows_pos haffine)
    rw [trimMatrix_eq_ok haffine, ok_bind]
    by_cases hkept : usedColumns matrix = [] ∨ (usedColumns matrix).length = matrix.cols - 1
    · rw [if_pos hkept]
      exact hall
    · rw [if_neg hkept]
      have hhead : Accepts (Spans (usedColumns matrix).length · (matrix.rows - 1))
          (assembler.affine (matrix.keepColumns (usedColumns matrix))) :=
        hassembler.affine_of hrows.symm DenseMatrix.cols_keepColumns
          (List.length_pos_iff.mpr (not_or.mp hkept).1)
      refine hhead.bind fun head hhead => ?_
      have hkeptSeq : Sequenced (usedColumns matrix).length (head :: rest) m :=
        ⟨hhead.coherent, hhead.source, hhead.target.symm ▸ hrest⟩
      exact (hassembler.compose hkeptSeq).map fun result hresult => ⟨hused, hresult⟩
  · exact hall

end Targets

section Sources

variable {κ α : Type} [Kernel κ α] [Scalar α] {assembler : Assembler κ α} {n m k c i : Nat}
  {S : List Nat} {t inner : Transform κ α}

/-- A reduced transform takes the given inputs and gives some outputs of the whole one. -/
def Takes (S : List Nat) (m : Nat) (part : Reduced κ α) : Prop :=
  Increasing part.2 m ∧ Spans S.length part.1 part.2.length

/-- Every reduction of the step to some of its inputs takes these. -/
def SourceStep.KeepsSpans (s : SourceStep κ α) : Prop :=
  ∀ S, S ≠ [] → Increasing S s.step.sourceDimensions →
    Accepts (Takes S s.step.targetDimensions) (s.reduce S)

/-- A transform takes all of its inputs. -/
theorem Spans.takes (ht : Spans n t m) (hfull : isFull S n = true) :
    Takes S m (t, List.range m) := by
  obtain rfl := isFull_iff.mp hfull
  refine ⟨increasing_range m, ?_⟩
  rwa [List.length_range, List.length_range]

theorem SourceStep.KeepsSpans.keep {s : SourceStep κ α} (h : s.KeepsSpans)
    (hs : Spans n s.step m) (hS : Increasing S n) (hne : S ≠ []) :
    Accepts (Takes S m) (s.keep S) := by
  obtain ⟨hcoherent, rfl, rfl⟩ := hs
  unfold SourceStep.keep
  split
  · rename_i hfull
    exact hcoherent.spans.takes hfull
  · exact h S hne hS

/-- What a walk over steps keeps is in sequence again, from the given inputs on. -/
theorem accepts_keepForward {steps : List (SourceStep κ α)} (h : ∀ s ∈ steps, s.KeepsSpans)
    (hseq : Sequenced n (steps.map SourceStep.step) m) (hS : Increasing S n)
    (hne : S ≠ [] ∨ steps = []) :
    Accepts (fun parts => Increasing parts.2 m ∧ Sequenced S.length parts.1 parts.2.length)
      (keepForward steps i S) := by
  induction steps generalizing n S i with
  | nil =>
      obtain rfl : n = m := hseq
      exact ⟨hS, rfl⟩
  | cons s rest ih =>
      obtain ⟨hcoherent, rfl, hrest⟩ := hseq
      have hsome := hne.resolve_right (List.cons_ne_nil s rest)
      have hkeep := (h s List.mem_cons_self).keep hcoherent.spans hS hsome
      unfold keepForward
      refine hkeep.bind fun part hpart => ?_
      dsimp only
      split
      · trivial
      · rename_i hsome'
        -- only after the last step nothing may be left to go on with
        have hnext : part.2 ≠ [] ∨ rest = [] := by
          rw [or_iff_not_imp_left, not_not]
          intro hnil
          simpa [hnil] using hsome'
        exact (ih (fun s' hs' => h s' (List.mem_cons_of_mem s hs')) hrest hpart.1 hnext).map
          fun parts hparts => ⟨hparts.1, hpart.2.coherent, hpart.2.source,
            hpart.2.target.symm ▸ hparts.2⟩

variable (hassembler : assembler.KeepsSpans)

include hassembler in
theorem accepts_keepSourceSteps {steps : List (SourceStep κ α)}
    (hsteps : steps.map SourceStep.step = t.steps) (h : ∀ s ∈ steps, s.KeepsSpans)
    (ht : Spans n t m) (hS : Increasing S n) (hne : S ≠ []) :
    Accepts (Takes S m) (keepSourceSteps assembler t steps S) := by
  have hseq := ht.sequenced_steps
  unfold keepSourceSteps
  rw [ht.source, ht.target]
  split
  · rename_i hfull
    exact ht.takes hfull
  · rw [← hsteps] at hseq
    split
    · rename_i only
      obtain ⟨-, rfl, rfl⟩ := sequenced_singleton.mp hseq
      exact h only List.mem_cons_self S hne hS
    · exact (accepts_keepForward h hseq hS (.inl hne)).bind fun parts hparts =>
        (hassembler.compose hparts.2).map fun result hresult => ⟨hparts.1, hresult⟩

include hassembler in
theorem accepts_keepMatrixSources {id : NodeId} {matrix : DenseMatrix α}
    (h : Spans n (linear id matrix : Transform κ α) m) (hne : S ≠ []) :
    Accepts (Takes S m) (keepMatrixSources assembler matrix S) := by
  obtain ⟨-, -, rfl⟩ := h
  have hkept : Increasing (determinedRows matrix S) (matrix.rows - 1) :=
    increasing_filter_range _ _
  unfold keepMatrixSources
  refine (accepts_ofMatrix (P := fun block => block.rows = _ ∧ block.cols = _)
    fun block => shape_of_submatrix).bind fun block hblock => ?_
  rw [List.length_append, List.length_append] at hblock
  exact (hassembler.affine_of hblock.1 hblock.2 (List.length_pos_iff.mpr hne)).map
    fun reduced hreduced => ⟨hkept, hreduced⟩

include hassembler in
/-- A pass-through with some of its inputs takes these, if the same holds of its inner transform. -/
theorem accepts_keepPassThroughSources (hinner : Spans n inner m)
    {keep : List Nat → Except TransformError (Reduced κ α)}
    (hkeep : ∀ S, S ≠ [] → Increasing S n → Accepts (Takes S m) (keep S))
    (hS : Increasing S (k + n + c)) (hne : S ≠ []) :
    Accepts (Takes S (k + m + c)) (keepPassThroughSources assembler k inner keep S) := by
  have htake := take_before hS
  have hlength : S.length = (S.filter fun d => d < k).length + (inside k n S).length +
      (S.filter fun d => k + n ≤ d).length := by
    rw [← length_copyAround (c := n), copyAround_inside hS]
  obtain ⟨-, rfl, rfl⟩ := hinner
  unfold keepPassThroughSources
  dsimp only
  rw [htake]
  split
  · rename_i hcopied
    have hnil : inside k inner.sourceDimensions S = [] := List.isEmpty_iff.mp hcopied
    have hcopy : Accepts (Spans S.length · S.length)
        (assembler.affine (DenseMatrix.identity (S.length + 1))) :=
      hassembler.affine_of rfl rfl (List.length_pos_iff.mpr hne)
    have hincreasing := increasing_copyAround hS (increasing_nil inner.targetDimensions)
    have hkept : (copyAround k inner.sourceDimensions inner.targetDimensions S []).length =
        S.length := by
      rw [length_copyAround, hlength, hnil]
    rw [copyAround, List.map_nil, List.append_nil] at hincreasing hkept
    exact hcopy.map fun copy hcopy => ⟨hincreasing, hkept.symm ▸ hcopy⟩
  · rename_i hinside
    have hsome : inside k inner.sourceDimensions S ≠ [] := fun hnil =>
      hinside (List.isEmpty_iff.mpr hnil)
    refine (hkeep _ hsome (increasing_inside hS)).bind fun part hpart => ?_
    refine (hassembler.passThrough hpart.2 _ _).map fun result hresult =>
      ⟨increasing_copyAround hS hpart.1, ?_⟩
    rw [hlength]
    exact length_copyAround.symm ▸ hresult

include hassembler in
theorem keepsSpans_sourceSteps (ht : t.Coherent) :
    ∀ s ∈ t.sourceSteps assembler, s.KeepsSpans := by
  induction t with
  | linear id matrix =>
      have hlinear : Spans _ (linear id matrix : Transform κ α) _ := ht.spans
      exact List.forall_mem_singleton.mpr fun S hne _ =>
        accepts_keepMatrixSources hassembler hlinear hne
  | chain id a b iha ihb =>
      exact fun s hs => (List.mem_append.mp hs).elim (iha ht.1 s) (ihb ht.2.1 s)
  | passThrough id k inner c ih =>
      have hinner : inner.Coherent := ht
      refine List.forall_mem_singleton.mpr fun S hne hS => ?_
      refine accepts_keepPassThroughSources hassembler hinner.spans (fun S' hne' hS' => ?_) hS hne
      exact accepts_keepSourceSteps hassembler (map_step_sourceSteps assembler inner) (ih hinner)
        hinner.spans hS' hne'
  | kernel id k => exact List.forall_mem_singleton.mpr fun S _ _ => trivial

include hassembler in
/-- What is kept of some inputs takes these. -/
theorem accepts_keepSources (ht : Spans n t m) (hS : Increasing S n) (hne : S ≠ []) :
    Accepts (Takes S m) (t.keepSources assembler S) :=
  accepts_keepSourceSteps hassembler (map_step_sourceSteps assembler t)
    (keepsSpans_sourceSteps hassembler ht.coherent) ht hS hne

end Sources

end Transform

namespace Separation

open Outcome Transform

section Separating

variable {κ α : Type} [Kernel κ α] [Scalar α] {assembler : Assembler κ α} {t : Transform κ α}

/-- A separation that reports dimensions of the transform and spans as many. -/
structure Consistent (t : Transform κ α) (s : Separation κ α) : Prop where
  sources : Increasing s.sourceDimensions t.sourceDimensions
  targets : Increasing s.targetDimensions t.targetDimensions
  spans : Spans s.sourceDimensions.length s.transform s.targetDimensions.length

/-- Targets that cannot all be computed are no argument to complain about. -/
theorem accepts_positionsAmong {derived requested : List Nat} {limit : Nat}
    (hderived : Increasing derived limit) (hrequested : Increasing requested limit) :
    Accepts (fun positions => Increasing positions derived.length ∧
      positions.length = requested.length) (positionsAmong derived requested) := by
  by_cases hall : ∀ d ∈ requested, d ∈ derived
  · rw [positionsAmong_eq_ok hall]
    exact ⟨increasing_positions hderived hrequested hall, List.length_map _⟩
  · obtain ⟨d, hd, hout⟩ : ∃ d ∈ requested, d ∉ derived := by simpa using hall
    obtain ⟨e, -, herror⟩ := positionsAmong_eq_error hd hout
    rw [herror]
    trivial

variable [LawfulScalar α] (hassembler : assembler.KeepsSpans) (ht : t.Coherent)

include hassembler ht in
theorem accepts_bySources {sources : List Nat} {targets : Option (List Nat)}
    (hsources : Increasing sources t.sourceDimensions) (hne : sources ≠ [])
    (htargets : ∀ R ∈ targets, R ≠ [] ∧ Increasing R t.targetDimensions) :
    Accepts (Consistent t) (bySources assembler t sources targets) := by
  unfold bySources
  refine (accepts_keepSources hassembler ht.spans hsources hne).bind fun part hpart => ?_
  dsimp only
  split
  · trivial
  · cases targets with
    | none => exact ⟨hsources, hpart.1, hpart.2⟩
    | some requested =>
        obtain ⟨hsome, hrequested⟩ := htargets requested rfl
        refine (accepts_positionsAmong hpart.1 hrequested).bind fun positions hpositions => ?_
        obtain ⟨hincreasing, hlength⟩ := hpositions
        have hsome' : positions ≠ [] := by
          rintro rfl
          exact hsome (List.length_eq_zero_iff.mp hlength.symm)
        refine (accepts_keepTargets hassembler hpart.2 hincreasing (.inl hsome')).map
          fun result hresult => ⟨hsources, hrequested, ?_⟩
        rwa [hlength] at hresult

include hassembler ht in
theorem accepts_byTargets {targets : List Nat} (htargets : Increasing targets t.targetDimensions)
    (hne : targets ≠ [] ∨ isFull targets t.targetDimensions = true) (options : SeparationOptions) :
    Accepts (Consistent t) (byTargets assembler t targets options) := by
  unfold byTargets
  refine (accepts_keepTargets hassembler ht.spans htargets hne).bind fun reduced hreduced => ?_
  split
  · exact (accepts_trimSources hassembler hreduced).map fun part hpart =>
      ⟨hpart.1, htargets, hpart.2⟩
  · refine ⟨increasing_range _, htargets, ?_⟩
    rwa [List.length_range]

include hassembler ht in
/-- An accepted request is separated consistently, or refused for another reason than an
argument. -/
theorem accepts_separate {sources targets : Option (List Nat)}
    (hsources : Increasing (sources.getD []) t.sourceDimensions)
    (htargets : Increasing (targets.getD []) t.targetDimensions) (options : SeparationOptions) :
    Accepts (Consistent t) (separate assembler t sources targets options) := by
  rw [separate_eq hsources htargets]
  cases hproper : properSources t.sourceDimensions sources with
  | some S =>
      obtain ⟨rfl, hne, -⟩ := properSources_eq_some_iff.mp hproper
      exact accepts_bySources hassembler ht hsources hne fun R hR =>
        ⟨(nonempty_eq_some_iff.mp hR).2, increasing_of_mem_nonempty htargets R hR⟩
  | none =>
      refine accepts_byTargets hassembler ht (increasing_requestedTargets htargets) ?_ options
      rw [requestedTargets]
      cases hrequest : nonempty targets with
      | none => exact .inr (isFull_range _)
      | some R => exact .inl (nonempty_eq_some_iff.mp hrequest).2

end Separating

end Separation

namespace Transform

open Outcome

section Obtaining

variable {κ α : Type} [Kernel κ α] [Scalar α] [LawfulScalar α] {P : κ → Prop}
  {a b t : Transform κ α}

omit [LawfulScalar α] in
theorem Coherent.concatenate {options : AssemblyOptions} (ha : a.Coherent) (hb : b.Coherent)
    (h : concatenateWith options a b = .ok t) : t.Coherent := by
  by_cases hfit : a.targetDimensions = b.sourceDimensions
  · have hspans : Spans a.targetDimensions b b.targetDimensions := ⟨hb, hfit.symm, rfl⟩
    have hmade := accepts_concatenateWith options ha.spans hspans
    rw [h] at hmade
    exact hmade.coherent
  · rw [concatenateWith, if_pos hfit] at h
    cases h

/-- Every transform that the operations of the library make is coherent. -/
theorem Obtained.coherent (h : Obtained P t) : t.Coherent := by
  induction h with
  | affine h | identity h => exact (wellFormed_of_ofMatrix h).coherent
  | kernel _ h => exact (wellFormed_of_ofKernel h).coherent
  | concatenate _ _ options h iha ihb => exact iha.concatenate ihb h
  | @passThrough a t _ options k n h ih =>
      have hmade := accepts_passThroughSimplified ih.spans k n
      rw [show passThroughSimplified k a n = .ok t from h] at hmade
      exact hmade.coherent
  | join _ _ h iha ihb =>
      rw [← concatenateWith_verbatim] at h
      exact iha.concatenate ihb h
  | wrap _ k n ih => exact ih
  | inverse _ h ih => exact ih.inverse h
  | @separate a s _ options sources targets extra h ih =>
      obtain ⟨hsources, htargets⟩ := Separation.increasing_of_separate h
      have hmade := Separation.accepts_separate (Assembler.standard_keepsSpans options) ih hsources
        htargets extra
      rw [h] at hmade
      exact hmade.spans.coherent
  | @named a _ id ih =>
      cases a with
      | _ => exact ih

end Obtaining

end Transform
end SeparableTransforms
