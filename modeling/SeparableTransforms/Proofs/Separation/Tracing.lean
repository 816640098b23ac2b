import SeparableTransforms.Proofs.Separation.Dependencies
import SeparableTransforms.Proofs.Separation.Results

/-!
# Backward and forward dependencies

Keeping targets walks a chain backwards and finds out which inputs are used, while
keeping sources walks it forwards and finds out which outputs are determined.  The
two agree where nothing is folded and nothing left out: the sources that a reduced
transform uses determine the targets it was reduced to.

The walk backwards stops at the first step that is not linear or that uses all of
its inputs or none.  From there on all inputs are used, so what remains is to go
forwards again through linear steps.  A pass-through hands the question on to its
inner transform.  It needs one condition: a linear block that it holds must not have
constant outputs, which can be computed from no inputs at all, while the walk
forwards drops the outputs of a block whose inputs are all excluded.
-/

namespace SeparableTransforms
namespace Transform

open Outcome

section Tracing

variable {κ α : Type} [Scalar α]

/-- Every output depends on some input. -/
def RowsVary (matrix : DenseMatrix α) : Prop :=
  ∀ r, r < matrix.rows - 1 →
    ∃ c, c < matrix.cols - 1 ∧ (matrix.coefficient r c).isZero = false

/-- No pass-through directly holds a linear transform with a constant output. -/
def BlocksVary : Transform κ α → Prop
  | linear _ _ => True
  | chain _ a b => a.BlocksVary ∧ b.BlocksVary
  | passThrough _ _ t _ => t.BlocksVary ∧ ∀ matrix, t.matrix? = some matrix → RowsVary matrix
  | kernel _ _ => True

omit [Scalar α] in
/-- A pass-through is put around a chain or a kernel as it is. -/
def StaysWhole : Transform κ α → Prop
  | chain _ _ _ => True
  | kernel _ _ => True
  | _ => False

omit [Scalar α] in
/-- A pass-through has no simpler form. -/
def Compact : Transform κ α → Prop
  | passThrough _ _ t _ => t.StaysWhole
  | _ => True

variable [Kernel κ α]

/-- The walk backwards from the outputs `R` has come to `t'`, and the walk forwards from there leads
to `R` again. -/
structure Traced (t : Transform κ α) (R : List Nat) (t' : Transform κ α) : Prop where
  determined : ∃ D, t.determined t'.usedSources = some D ∧ ∀ d ∈ R, d ∈ D
  endsAfter : t.endsAfter t'.usedSources = false
  compact : t'.Compact
  varies : (∀ matrix, t.matrix? = some matrix → RowsVary matrix) →
    ∀ matrix, t'.matrix? = some matrix → usedColumns matrix ≠ []

/-- A step that can be traced when some of its outputs are kept. -/
def TargetStep.Traces (P : κ → Prop) (s : TargetStep κ α) : Prop :=
  ∀ n m R t', Fits P n s.step m → Increasing R m → R ≠ [] → isFull R m = false →
    s.reduce R = .ok t' → Traced s.step R t'

variable [LawfulScalar α] {P : κ → Prop} {n m l : Nat} {R : List Nat} {t t' first : Transform κ α}
  {later whole parts : List (Transform κ α)} {s : TargetStep κ α} {steps : List (TargetStep κ α)}

omit [Scalar α] [LawfulScalar α] in
theorem sourceDimensions_of_steps (h : t.steps = first :: later) :
    t.sourceDimensions = first.sourceDimensions := by
  induction t generalizing later with
  | chain id a b iha _ =>
      cases ha : a.steps with
      | nil => exact absurd ha a.steps_ne_nil
      | cons x rest =>
          rw [steps, ha, List.cons_append] at h
          obtain ⟨rfl, _⟩ := List.cons.inj h
          exact iha ha
  | _ =>
      obtain ⟨rfl, _⟩ := List.cons.inj h
      rfl

omit [LawfulScalar α] in
/-- Which sources are used depends on the first step. -/
theorem usedSources_congr (h : t'.steps = first.steps ++ later) :
    t'.usedSources = first.usedSources := by
  cases hfirst : first.steps with
  | nil => exact absurd hfirst first.steps_ne_nil
  | cons x rest =>
      rw [hfirst, List.cons_append] at h
      unfold usedSources
      rw [h, hfirst, sourceDimensions_of_steps h, sourceDimensions_of_steps hfirst]
      cases x <;> rfl

/-- Where a walk over the steps before the last one has come, as the walk forwards sees it. -/
structure Walked (n m : Nat) (earlier : List (Transform κ α)) (last : Transform κ α) (R : List Nat)
    (parts : List (Transform κ α)) : Prop where
  several : earlier ≠ [] → 2 ≤ parts.length
  leads : ∃ first later T D, parts = first :: later ∧ Leads earlier first.usedSources T ∧
    last.determined T = some D ∧ (∀ d ∈ R, d ∈ D) ∧
    (isFull R m = false → last.endsAfter T = false)

/-- The last step is reduced on its own. -/
theorem walked_whole {last final : Transform κ α} (hearlier : Linked P n whole l)
    (hne : whole ≠ []) (hlast : Fits P l last m) (hR : Increasing R m)
    (hend : isFull R m = false → last.endsAfter (List.range l) = false) :
    Walked n m whole last R (whole ++ [final]) := by
  cases whole with
  | nil => exact absurd rfl hne
  | cons first later =>
      have hall := determined_range hlast.admissible.wellFormed
      rw [hlast.source, hlast.target] at hall
      exact ⟨fun _ => by simp, first, later ++ [final], List.range l, List.range m, rfl,
        leads_usedSources hearlier hlast.source_pos, hall,
        fun d hd => List.mem_range.mpr (hR.bounded d hd), hend⟩

/-- A single step is kept whole or traced. -/
theorem walked_singleton (hs : s.Traces P) (hfits : Fits P n s.step m) (hR : Increasing R m)
    (hne : R ≠ []) (hkeep : s.keep R = .ok t') : Walked n m [] s.step R [t'] := by
  refine ⟨fun h => absurd rfl h, t', [], t'.usedSources, ?_⟩
  unfold TargetStep.keep at hkeep
  rw [hfits.target] at hkeep
  split at hkeep
  · rename_i hfull
    cases hkeep
    obtain ⟨d, hd⟩ := List.exists_mem_of_ne_nil _ hne
    have hm := Nat.lt_of_le_of_lt (Nat.zero_le d) (hR.bounded d hd)
    exact ⟨List.range m, rfl, rfl, determined_usedSources hfits hm,
      fun d hd => List.mem_range.mpr (hR.bounded d hd),
      fun hnot => absurd (hfull.symm.trans hnot) (by simp)⟩
  · rename_i hfull
    have htraced := hs n m R t' hfits hR hne (Bool.eq_false_iff.mpr hfull) hkeep
    obtain ⟨D, hD, hsub⟩ := htraced.determined
    exact ⟨D, rfl, rfl, hD, hsub, fun _ => htraced.endsAfter⟩

/-- A linear last step is traced behind the walk to the inputs that the requested rows use. -/
theorem Walked.linear {id id' : NodeId} {matrix : DenseMatrix α} {last : Transform κ α}
    (hwalked : Walked n l whole last (usedColumns (matrix.keepRows R)) parts)
    (hfits : Fits P l (linear id matrix) m) (hR : Increasing R m)
    (hne : usedColumns (matrix.keepRows R) ≠ []) {narrowed : DenseMatrix α} :
    Walked n m (whole ++ [last]) (linear id matrix) R (parts ++ [linear id' narrowed]) := by
  obtain ⟨first, later, T, D, rfl, hleads, hD, hsub, _⟩ := hwalked.leads
  have hDne : D ≠ [] := ne_nil_of_forall_mem hne hsub
  have hrows := hfits.linear.2.1
  exact ⟨fun _ => by simp, first, later ++ [_], D, determinedRows matrix D, rfl,
    leads_append.mpr ⟨T, hleads, leads_singleton.mpr ⟨hD, hDne⟩⟩, rfl, fun r hr =>
      mem_determinedRows_of_used hr (by have := hR.bounded r hr; omega) hsub,
    fun _ => rfl⟩

theorem walked_keepChain {rest : List (TargetStep κ α)}
    (hsteps : ∀ s' ∈ s :: rest, s'.Traces P ∧ s'.Reducible .verbatim P)
    (hsingle : ∀ s' ∈ s :: rest, s'.step.steps = [s'.step])
    (hlinked : Linked P n (rest.map TargetStep.step).reverse l) (hlast : Fits P l s.step m)
    (hR : Increasing R m) (hne : R ≠ [])
    (hkeep : keepChain (.standard .verbatim) (s :: rest) R = .ok parts) :
    Walked n m (rest.map TargetStep.step).reverse s.step R parts := by
  induction rest generalizing s l m R parts with
  | nil =>
      obtain rfl : n = l := hlinked
      obtain ⟨t', ht', hparts⟩ := bind_eq_ok_iff.mp hkeep
      cases hparts
      exact walked_singleton (hsteps s List.mem_cons_self).1 hlast hR hne ht'
  | cons previous earlier ih =>
      have hprevious := fun s' hs' => hsteps s' (List.mem_cons_of_mem s hs')
      have hwhole : ((previous :: earlier).map TargetStep.step).reverse ≠ [] := by simp
      by_cases hlinear : ∃ id matrix, s.step = linear id matrix
      · obtain ⟨id, matrix, hstep⟩ := hlinear
        have hfits := hlast
        rw [hstep] at hfits ⊢
        have hused := increasing_usedColumns_keepRows hfits R
        have hcases := keepChain_cases_of (fun s' hs' => (hprevious s' hs').2) hlinked fun hend =>
          keepChain_eq_ok _ (fun s' hs' => (hprevious s' hs').2) (List.cons_ne_nil _ _) hlinked
            hused hend
        rcases keepChain_linear hstep hlast hR
          (hcases.imp_left fun ⟨reduced, hreduced, _⟩ => ⟨reduced, hreduced⟩) with
          ⟨husedne, reduced, hreduced, hkeep'⟩ | hkeep'
        · obtain rfl := Except.ok.inj (hkeep'.symm.trans hkeep)
          rw [List.map_cons, List.reverse_cons] at hlinked ⊢
          obtain ⟨l', hearlier, hmiddle⟩ := linked_append.mp hlinked
          have hwalked := ih hprevious (fun s' hs' => hsingle s' (List.mem_cons_of_mem s hs'))
            hearlier (linked_singleton.mp hmiddle) hused husedne hreduced
          exact hwalked.linear hfits hR husedne
        · obtain rfl := Except.ok.inj (hkeep'.symm.trans hkeep)
          exact walked_whole hlinked hwhole hfits hR fun _ => rfl
      · have hlinear : ∀ id matrix, s.step ≠ linear id matrix :=
          fun id matrix h => hlinear ⟨id, matrix, h⟩
        rw [keepChain_other hlinear] at hkeep
        obtain ⟨final, hfinal, hparts⟩ := bind_eq_ok_iff.mp hkeep
        cases hparts
        refine walked_whole hlinked hwhole hlast hR fun hfull => ?_
        rw [← hlast.source, endsAfter_range hlast.admissible.wellFormed,
          hsingle s List.mem_cons_self]
        by_contra hend
        obtain ⟨_, _, -, herror⟩ := (hsteps s List.mem_cons_self).2.keep_eq_error
          (Bool.eq_true_of_not_eq_false hend) (by rwa [hlast.target])
        rw [herror] at hfinal
        cases hfinal

omit [Kernel κ α] [Scalar α] [LawfulScalar α] in
theorem length_le_flatMap_steps (parts : List (Transform κ α)) :
    parts.length ≤ (parts.flatMap Transform.steps).length := by
  induction parts with
  | nil => exact Nat.zero_le _
  | cons part rest ih =>
      have hpart := List.length_pos_iff.mpr part.steps_ne_nil
      rw [List.flatMap_cons, List.length_append, List.length_cons]
      omega

omit [Kernel κ α] [Scalar α] [LawfulScalar α] in
theorem exists_chain_of_steps (h : 2 ≤ t.steps.length) : ∃ id a b, t = chain id a b := by
  cases t with
  | chain id a b => exact ⟨id, a, b, rfl⟩
  | _ => exact absurd h (by simp [steps])

/-- A transform can be traced if its steps can. -/
theorem traced_of_traces (hsteps : ∀ s ∈ t.targetSteps (.standard .verbatim), s.Traces P)
    (h : Fits P n t m) (hR : Increasing R m) (hne : R ≠ []) (hfull : isFull R m = false)
    (hkeep : t.keepTargets (.standard .verbatim) R = .ok t') : Traced t R t' := by
  have hreverse := reverse_step_targetSteps (.standard .verbatim) t
  have hmem : ∀ s ∈ (t.targetSteps (.standard .verbatim)).reverse,
      s.Traces P ∧ s.Reducible .verbatim P ∧ s.step.steps = [s.step] := by
    intro s hs
    have hs := List.mem_reverse.mp hs
    refine ⟨hsteps s hs, reducible_targetSteps .verbatim P t s hs, ?_⟩
    exact steps_of_mem_steps (map_step_targetSteps (.standard .verbatim) t ▸
      List.mem_map_of_mem hs)
  rw [keepTargets_eq (by rwa [h.target])] at hkeep
  obtain ⟨parts, hparts, hcompose⟩ := bind_eq_ok_iff.mp hkeep
  generalize (t.targetSteps (.standard .verbatim)).reverse = reversed at hreverse hmem hparts
  cases reversed with
  | nil => exact absurd hreverse.symm t.steps_ne_nil
  | cons s rest =>
      rw [List.map_cons, List.reverse_cons] at hreverse
      obtain ⟨hs, _, hsingle⟩ := hmem s List.mem_cons_self
      cases rest with
      | nil =>
          obtain rfl : t = s.step := eq_of_steps_singleton hreverse.symm
          obtain ⟨reduced, hreduced, hnil⟩ := bind_eq_ok_iff.mp hparts
          cases hnil
          cases hcompose
          rw [TargetStep.keep, h.target, hfull, if_neg Bool.false_ne_true] at hreduced
          exact hs n m R _ h hR hne hfull hreduced
      | cons previous earlier =>
          have hlinked := h.linked_steps
          rw [← hreverse] at hlinked
          obtain ⟨l, hearlier, hlast⟩ := linked_append.mp hlinked
          obtain ⟨hseveral, first, later, T, D, rfl, hleads, hD, hsub, hends⟩ :=
            walked_keepChain (fun s' hs' => ⟨(hmem s' hs').1, (hmem s' hs').2.1⟩)
              (fun s' hs' => (hmem s' hs').2.2) hearlier (linked_singleton.mp hlast) hR hne hparts
          have hsteps' := steps_of_compose_verbatim hcompose
          rw [List.flatMap_cons] at hsteps'
          have hDne : D ≠ [] := ne_nil_of_forall_mem hne hsub
          have hused := usedSources_congr hsteps'
          have hall : Leads t.steps first.usedSources D :=
            hreverse ▸ leads_append.mpr ⟨T, hleads, leads_singleton.mpr ⟨hD, hDne⟩⟩
          have hlong : 2 ≤ t'.steps.length := by
            rw [hsteps', ← List.flatMap_cons]
            exact (hseveral (by simp)).trans (length_le_flatMap_steps _)
          obtain ⟨id, a, b, rfl⟩ := exists_chain_of_steps hlong
          refine ⟨⟨D, hused ▸ (leads_steps_iff.mp hall).1, hsub⟩, ?_, trivial,
            fun _ _ hnone => by cases hnone⟩
          rw [hused, endsAfter_of_leads hreverse.symm hleads]
          exact hends hfull

end Tracing

section Wrapping

variable {κ α : Type} [Kernel κ α] [Scalar α] {P : κ → Prop} {k j s c n m : Nat}
  {R S K D : List Nat} {id : NodeId} {inner reduced t t' wrapper : Transform κ α}

/-- Copied outputs from copied inputs, and those of the inner transform from its own. -/
theorem determined_around (hne : S ≠ []) (hinside : inside k inner.sourceDimensions K = S)
    (hD : inner.determined S = some D) (hlead : ∀ d ∈ R, d < k → d ∈ K)
    (hinner : ∀ d ∈ inside k inner.targetDimensions R, d ∈ D)
    (htrail : ∀ d ∈ R, k + inner.targetDimensions ≤ d →
      d - inner.targetDimensions + inner.sourceDimensions ∈ K) :
    ∃ D', (passThrough id k inner j).determined K = some D' ∧ ∀ d ∈ R, d ∈ D' := by
  have hempty : S.isEmpty = false := by simpa using hne
  refine ⟨copyAround k inner.sourceDimensions inner.targetDimensions K D, ?_, fun d hd => ?_⟩
  · rw [determined, hinside, hempty, if_neg Bool.false_ne_true, hD]
    rfl
  · rw [mem_copyAround_iff]
    rcases Nat.lt_or_ge d k with hk | hk
    · exact .inl ⟨hlead d hd hk, hk⟩
    · rcases Nat.lt_or_ge d (k + inner.targetDimensions) with hc | hc
      · exact .inr (.inl ⟨d - k, hinner _ (sub_mem_inside hd hk hc), by omega⟩)
      · exact .inr (.inr ⟨_, htrail d hd hc, by omega, by omega⟩)

theorem endsAfter_around (h : inner.endsAfter (inside k inner.sourceDimensions K) = false) :
    (passThrough id k inner j).endsAfter K = false := by
  simp [endsAfter, h]

theorem inside_zero {limit : Nat} (h : Increasing K limit) : inside 0 limit K = K := by
  refine (increasing_inside h).eq_of_mem_iff h fun d => ?_
  rw [mem_inside_iff, Nat.zero_add]
  exact ⟨And.right, fun hd => ⟨h.bounded d hd, hd⟩⟩

omit [Kernel κ α] in
theorem passThroughSimplified_whole (h : t.StaysWhole) (hnone : ¬(k = 0 ∧ n = 0)) :
    passThroughSimplified k t n = .ok (passThrough none k t n) := by
  unfold passThroughSimplified
  rw [if_neg hnone]
  cases t with
  | linear id matrix => exact False.elim h
  | chain id a b => rfl
  | passThrough id k' u n' => exact False.elim h
  | kernel id κ => rfl

omit [Kernel κ α] in
/-- A compact transform is wrapped by nothing, by an expansion or by a compact pass-through. -/
theorem wrapper_cases (h : t.Compact) (hwrapper : passThroughSimplified k t n = .ok wrapper) :
    (k = 0 ∧ n = 0 ∧ wrapper = t) ∨
      (∃ id matrix, t = linear id matrix ∧ wrapper = linear none (expand k matrix n)) ∨
      ∃ id k' u n', wrapper = passThrough id k' u n' ∧ wrapper.Compact := by
  by_cases hnone : k = 0 ∧ n = 0
  · obtain ⟨rfl, rfl⟩ := hnone
    rw [passThroughSimplified_zero] at hwrapper
    cases hwrapper
    exact .inl ⟨rfl, rfl, rfl⟩
  · right
    cases t with
    | linear id matrix =>
        rw [passThroughSimplified, if_neg hnone] at hwrapper
        exact .inl ⟨id, matrix, rfl, eq_of_ofMatrix hwrapper⟩
    | passThrough id k' u n' =>
        -- two pass-throughs become one
        have hnone' : ¬(k + k' = 0 ∧ n + n' = 0) := by omega
        rw [passThroughSimplified, if_neg hnone, passThroughSimplified_whole h hnone'] at hwrapper
        cases hwrapper
        exact .inr ⟨_, _, _, _, rfl, h⟩
    | chain id a b =>
        have hwhole : (chain id a b).StaysWhole := trivial
        rw [passThroughSimplified_whole hwhole hnone] at hwrapper
        cases hwrapper
        exact .inr ⟨_, _, _, _, rfl, trivial⟩
    | kernel id κ =>
        have hwhole : (kernel id κ : Transform _ α).StaysWhole := trivial
        rw [passThroughSimplified_whole hwhole hnone] at hwrapper
        cases hwrapper
        exact .inr ⟨_, _, _, _, rfl, trivial⟩

/-- Selecting coordinates without simplification adds a step or nothing. -/
theorem selectWrapped_verbatim {kept : List Nat}
    (h : selectWrapped .verbatim k c n R kept wrapper = .ok t') :
    isFull (R.map (reducedPosition k c kept)) (k + kept.length + n) = true ∧ t' = wrapper ∨
      ∃ selection, t' = chain none wrapper selection := by
  refine (selectWrapped_cases h).imp_right fun ⟨selection, h⟩ => ⟨selection, ?_⟩
  rw [concatenateWith_verbatim, join] at h
  split at h
  · cases h
  · exact (Except.ok.inj h).symm

/-- A selection behind a transform does not change which sources it uses. -/
theorem Traced.select (h : Traced t R wrapper) (selection : Transform κ α) :
    Traced t R (chain none wrapper selection) := by
  have hused : (chain none wrapper selection).usedSources = wrapper.usedSources :=
    usedSources_congr rfl
  refine ⟨?_, ?_, trivial, fun _ _ hnone => by cases hnone⟩
  · rw [hused]
    exact h.determined
  · rw [hused]
    exact h.endsAfter

/-- With all sources everything can be traced. -/
theorem traced_whole (h : Fits P n (passThrough id k inner j) m) (hR : Increasing R m)
    (hused : t'.usedSources = List.range n) (hcompact : t'.Compact)
    (hlinear : t'.matrix? = none) : Traced (passThrough id k inner j) R t' := by
  have hall := determined_range h.admissible.wellFormed
  have hends := endsAfter_range h.admissible.wellFormed
  rw [h.source] at hends
  rw [h.source, h.target] at hall
  refine ⟨⟨List.range m, hused ▸ hall, fun d hd => List.mem_range.mpr (hR.bounded d hd)⟩, ?_,
    hcompact, fun _ matrix hsome => by rw [hlinear] at hsome; cases hsome⟩
  rw [hused, hends]
  rfl

section Blocks

variable [LawfulScalar α]

omit [LawfulScalar α] in
theorem usedSources_ne_nil (h : Fits P n t m) : t.usedSources ≠ [] := by
  have hpos := h.source_pos
  unfold usedSources
  split
  · split
    · rw [h.source]
      exact range_ne_nil hpos
    · rename_i hne
      simpa using hne
  · rw [h.source]
    exact range_ne_nil hpos

omit [LawfulScalar α] in
theorem usedSources_of_linear {matrix : DenseMatrix α} (hne : usedColumns matrix ≠ []) :
    (linear id matrix : Transform κ α).usedSources = usedColumns matrix :=
  usedSources_linear rfl hne

/-- Only copied coordinates are kept. -/
theorem traced_copied (hR : Increasing R (k + inner.targetDimensions + j)) (hne : R ≠ [])
    (hnil : inside k inner.targetDimensions R = []) :
    Traced (passThrough id k inner j) R (linear none (selectionMatrix
      (R.map fun d => if d < k then d else d - inner.targetDimensions + inner.sourceDimensions)
      (k + inner.sourceDimensions + j))) := by
  have houtside : ∀ d ∈ R, d < k ∨ k + inner.targetDimensions ≤ d := fun d hd =>
    outside_of_inside_eq_nil hnil hd
  generalize hpicked : (R.map fun d =>
    if d < k then d else d - inner.targetDimensions + inner.sourceDimensions) = picked
  have hmem : ∀ {d}, d ∈ picked ↔ ∃ e ∈ R,
      (if e < k then e else e - inner.targetDimensions + inner.sourceDimensions) = d := by
    intro d
    rw [← hpicked, List.mem_map]
  have hbound : ∀ d ∈ picked, d < k + inner.sourceDimensions + j :=
    hpicked ▸ copiedPosition_lt hR hnil
  generalize hmatrix : (selectionMatrix picked (k + inner.sourceDimensions + j) :
    DenseMatrix α) = matrix
  have hused : ∀ {d}, d ∈ usedColumns matrix ↔ d ∈ picked :=
    hmatrix ▸ mem_usedColumns_selectionMatrix hbound
  have husedne : usedColumns matrix ≠ [] := by
    obtain ⟨d, hd⟩ := List.exists_mem_of_ne_nil _ hne
    exact List.ne_nil_of_mem (hused.mpr (hmem.mpr ⟨d, hd, rfl⟩))
  have hinside : inside k inner.sourceDimensions (usedColumns matrix) = [] := by
    refine List.eq_nil_iff_forall_not_mem.mpr fun d hd => ?_
    obtain ⟨hlt, hin⟩ := mem_inside_iff.mp hd
    obtain ⟨e, he, heq⟩ := hmem.mp (hused.mp hin)
    have := houtside e he
    split at heq <;> omega
  refine ⟨⟨copyAround k inner.sourceDimensions inner.targetDimensions (usedColumns matrix) [],
    ?_, fun d hd => ?_⟩, ?_, trivial, fun _ matrix' hsome => ?_⟩
  · rw [usedSources_of_linear husedne, determined, hinside, List.isEmpty_nil, if_pos rfl]
  · rw [mem_copyAround_iff]
    rcases houtside d hd with hk | hk
    · exact .inl ⟨hused.mpr (hmem.mpr ⟨d, hd, if_pos hk⟩), hk⟩
    · exact .inr (.inr ⟨_, hused.mpr (hmem.mpr ⟨d, hd, if_neg (by omega)⟩), by omega, by omega⟩)
  · rw [usedSources_of_linear husedne]
    simp [endsAfter, hinside]
  · cases hsome
    exact husedne

/-- An expanded matrix is traced if the matrix is. -/
theorem traced_expand (id : NodeId) {id' : NodeId} {matrix : DenseMatrix α}
    (hR : Increasing R (k + inner.targetDimensions + j))
    (htraced : Traced inner (inside k inner.targetDimensions R) (linear id' matrix))
    (hcols : matrix.cols - 1 = inner.sourceDimensions) (hne : usedColumns matrix ≠ []) :
    Traced (passThrough id k inner j) R (linear none (expand k matrix j)) := by
  have hexpandne := usedColumns_expand_ne_nil (k := k) (n := j) hne
  have hinside : inside k inner.sourceDimensions (usedColumns (expand k matrix j)) =
      usedColumns matrix := hcols ▸ inside_usedColumns_expand
  have hused : ∀ {d}, d ∈ usedColumns (expand k matrix j) ↔ d < k ∨
      (k ≤ d ∧ d - k ∈ usedColumns matrix) ∨
        (k + inner.sourceDimensions ≤ d ∧ d < k + inner.sourceDimensions + j) := by
    intro d
    rw [mem_usedColumns_expand, hcols]
  obtain ⟨D, hD, hsub⟩ := htraced.determined
  have hends := htraced.endsAfter
  rw [usedSources_of_linear hne] at hD hends
  refine ⟨?_, ?_, trivial, fun _ matrix' hsome => ?_⟩
  · rw [usedSources_of_linear hexpandne]
    refine determined_around hne hinside hD (fun d _ hk => hused.mpr (.inl hk)) hsub
      fun d hd hc => hused.mpr (.inr (.inr ?_))
    have := hR.bounded d hd
    omega
  · rw [usedSources_of_linear hexpandne]
    refine endsAfter_around ?_
    rw [hinside]
    exact hends
  · cases hsome
    exact hexpandne

/-- The wrapper around a reduced inner transform is traced if the inner one is. -/
theorem traced_wrapper (id : NodeId) (hinner : Fits P s inner c)
    (hR : Increasing R (k + c + j))
    (hvary : ∀ matrix, inner.matrix? = some matrix → RowsVary matrix)
    (htraced : Traced inner (inside k c R) reduced) (hreduced : Fits P s reduced m)
    (hwrapper : passThroughSimplified k reduced j = .ok wrapper) :
    Traced (passThrough id k inner j) R wrapper := by
  have hwhole : Fits P (k + s + j) (passThrough id k inner j) (k + c + j) := hinner.passThrough k j
  obtain ⟨_, rfl, rfl⟩ := hinner
  rcases wrapper_cases htraced.compact hwrapper with ⟨rfl, rfl, rfl⟩ | ⟨id', matrix, rfl, rfl⟩ |
    ⟨id', k', u, n', rfl, hcompact⟩
  · obtain ⟨D, hD, hsub⟩ := htraced.determined
    have hinside := inside_zero (increasing_usedSources hreduced)
    refine ⟨determined_around (usedSources_ne_nil hreduced) hinside hD
      (fun d _ hk => absurd hk (Nat.not_lt_zero d)) hsub fun d hd hc => ?_, ?_,
      htraced.compact, fun _ => htraced.varies hvary⟩
    · have := hR.bounded d hd
      omega
    · refine endsAfter_around ?_
      rw [hinside]
      exact htraced.endsAfter
  · have hcols := hreduced.linear.2.2.1
    exact traced_expand id hR htraced (by omega) (htraced.varies hvary matrix rfl)
  · obtain ⟨w, hw, hfits, _⟩ := passThroughSimplified_eq_ok hreduced k j
    obtain rfl := Except.ok.inj (hw.symm.trans hwrapper)
    refine traced_whole hwhole hR ?_ hcompact rfl
    rw [← hfits.source]
    rfl

/-- Nothing moves as long as the inner transform is whole. -/
theorem map_reducedPosition_range (R : List Nat) :
    R.map (reducedPosition k c (List.range c)) = R := by
  conv_rhs => rw [← List.map_id R]
  refine List.map_congr_left fun d _ => ?_
  unfold reducedPosition
  split
  · rfl
  · split
    · rename_i hk hc
      have hlt : d - k < (List.range c).length := by simp; omega
      have hplace := (List.nodup_range (n := c)).idxOf_getElem (d - k) hlt
      rw [List.getElem_range] at hplace
      rw [hplace]
      exact Nat.add_sub_cancel' (by omega)
    · rw [List.length_range]
      exact Nat.sub_add_cancel (by omega)

omit [LawfulScalar α] in
/-- A pass-through that stays whole is followed by a selection. -/
theorem traced_selectWrapped_whole (h : Fits P n (passThrough id k inner j) m)
    (hR : Increasing R m) (hfull : isFull R m = false)
    (hselect : selectWrapped .verbatim k inner.targetDimensions j R
      (List.range inner.targetDimensions) (passThrough id k inner j) = .ok t') :
    Traced (passThrough id k inner j) R t' := by
  have htarget : k + inner.targetDimensions + j = m := h.target
  rcases selectWrapped_verbatim hselect with ⟨hall, _⟩ | ⟨selection, rfl⟩
  · rw [map_reducedPosition_range, List.length_range, htarget, hfull] at hall
    cases hall
  · refine traced_whole h hR ?_ trivial rfl
    have hused : (chain none (passThrough id k inner j) selection).usedSources =
        (passThrough id k inner j).usedSources := usedSources_congr rfl
    rw [hused, ← h.source]
    rfl

/-- Selected rows of a linear transform are traced. -/
theorem traced_rows {matrix : DenseMatrix α} (h : Fits P n (linear id matrix : Transform κ α) m)
    (hR : Increasing R m) (hne : R ≠ []) :
    Traced (linear id matrix : Transform κ α) R (linear none (matrix.keepRows R)) := by
  obtain ⟨_, hrows, hcols, _⟩ := h.linear
  have hbound : ∀ r ∈ R, r < matrix.rows - 1 := fun r hr => by
    have := hR.bounded r hr
    omega
  have hused : ∀ c ∈ usedColumns (matrix.keepRows R),
      c ∈ (linear none (matrix.keepRows R) : Transform κ α).usedSources := by
    intro c hc
    rw [usedSources_of_linear (List.ne_nil_of_mem hc)]
    exact hc
  refine ⟨⟨_, rfl, fun r hr => mem_determinedRows_of_used hr (hbound r hr) hused⟩, rfl, trivial,
    fun hvary matrix' hsome => ?_⟩
  cases hsome
  obtain ⟨r, hr⟩ := List.exists_mem_of_ne_nil _ hne
  obtain ⟨c, hc, hzero⟩ := hvary matrix rfl r (hbound r hr)
  obtain ⟨i, hi, rfl⟩ := List.mem_iff_getElem.mp hr
  refine List.ne_nil_of_mem (mem_usedColumns_iff.mpr ⟨hc, i, by simpa using hi, ?_⟩)
  rw [coefficient_keepRows hi (by omega)]
  exact hzero

/-- The outputs kept of a pass-through are traced, given that those of the inner transform are. -/
theorem traced_passThrough (hvary : (passThrough id k inner j).BlocksVary)
    (hsteps : ∀ s ∈ inner.targetSteps (.standard .verbatim), s.Traces P)
    (hfits : Fits P n (passThrough id k inner j) m) (hR : Increasing R m) (hne : R ≠ [])
    (hfull : isFull R m = false)
    (hreduce : keepPassThrough (.standard .verbatim) (passThrough id k inner j) k inner j
      (inner.keepTargets (.standard .verbatim)) R = .ok t') :
    Traced (passThrough id k inner j) R t' := by
  have hinner : Fits P inner.sourceDimensions inner inner.targetDimensions :=
    Admissible.fits (t := inner) hfits.admissible
  have htarget : k + inner.targetDimensions + j = m := hfits.target
  have hbound : Increasing R (k + inner.targetDimensions + j) := htarget ▸ hR
  by_cases hnil : inside k inner.targetDimensions R = []
  · rw [keepPassThrough_copied hbound hnil] at hreduce
    obtain rfl := eq_of_ofMatrix hreduce
    exact traced_copied hbound hne hnil
  · have hincreasing : Increasing (inside k inner.targetDimensions R) inner.targetDimensions :=
      increasing_inside hbound
    cases hwhole : isFull (inside k inner.targetDimensions R) inner.targetDimensions with
    | true =>
        rw [keepPassThrough_whole hnil (.inl hwhole)] at hreduce
        exact traced_selectWrapped_whole hfits hR hfull hreduce
    | false =>
        cases hend : endsInKernel inner.steps with
        | true =>
            obtain ⟨_, _, -, herror⟩ := keepTargets_eq_error .verbatim hinner hend hwhole
            rw [keepPassThrough_whole hnil (.inr ⟨_, herror⟩)] at hreduce
            exact traced_selectWrapped_whole hfits hR hfull hreduce
        | false =>
            obtain ⟨reduced, hkeep, hpart⟩ := keepTargets_eq_ok .verbatim hinner
              hincreasing (by rw [hend]; exact nofun)
            obtain ⟨wrapper, hwrapper, _⟩ := passThroughSimplified_eq_ok hpart.fits k j
            rw [keepPassThrough_reduced hnil hwhole hkeep hwrapper] at hreduce
            have htraced := traced_wrapper id hinner hbound hvary.2
              (traced_of_traces hsteps hinner hincreasing hnil hwhole hkeep) hpart.fits hwrapper
            rcases selectWrapped_verbatim hreduce with ⟨_, rfl⟩ | ⟨selection, rfl⟩
            · exact htraced
            · exact htraced.select selection

/-- Every step can be traced. -/
theorem traces_targetSteps (P : κ → Prop) (hvary : t.BlocksVary) :
    ∀ s ∈ t.targetSteps (.standard .verbatim), s.Traces P := by
  induction t with
  | linear id matrix =>
      intro s hs n m R t' hfits hR hne _ hreduce
      obtain rfl := List.mem_singleton.mp hs
      obtain ⟨haffine, hrows, _⟩ := hfits.linear
      obtain ⟨rows, hrows', hreduce⟩ := bind_eq_ok_iff.mp hreduce
      rw [targetRows_eq_ok haffine (by rwa [hrows, Nat.add_sub_cancel])] at hrows'
      cases hrows'
      obtain rfl := eq_of_ofMatrix hreduce
      exact traced_rows hfits hR hne
  | chain id a b iha ihb =>
      intro s hs
      exact (List.mem_append.mp hs).elim (iha hvary.1 s) (ihb hvary.2 s)
  | passThrough id k inner j ih =>
      intro s hs n m R t' hfits hR hne hfull hreduce
      obtain rfl := List.mem_singleton.mp hs
      exact traced_passThrough hvary (ih hvary.1) hfits hR hne hfull hreduce
  | kernel id k =>
      intro s hs n m R t' _ _ _ _ hreduce
      obtain rfl := List.mem_singleton.mp hs
      cases hreduce

/-- A transform that has been reduced to some of its outputs is traced. -/
theorem traced_keepTargets (hvary : t.BlocksVary) (h : Fits P n t m) (hR : Increasing R m)
    (hne : R ≠ []) (hfull : isFull R m = false)
    (hkeep : t.keepTargets (.standard .verbatim) R = .ok t') : Traced t R t' :=
  traced_of_traces (traces_targetSteps P hvary) h hR hne hfull hkeep

/-- The sources that a reduced transform uses determine the targets it was reduced to, and no others
if a kernel stands at the end. -/
theorem determined_keepTargets (hvary : t.BlocksVary) (h : Fits P n t m) (hR : Increasing R m)
    (hne : R ≠ []) (hkeep : t.keepTargets (.standard .verbatim) R = .ok t') :
    ∃ D, t.determined t'.usedSources = some D ∧ (∀ d ∈ R, d ∈ D) ∧
      (t.endsAfter t'.usedSources = true → R = D) := by
  cases hfull : isFull R m with
  | true =>
      rw [keepTargets_whole (by rwa [h.target])] at hkeep
      obtain rfl : t = t' := Except.ok.inj hkeep
      obtain ⟨d, hd⟩ := List.exists_mem_of_ne_nil _ hne
      have hm := Nat.zero_lt_of_lt (hR.bounded d hd)
      exact ⟨R, isFull_iff.mp hfull ▸ determined_usedSources h hm, fun _ hd => hd, fun _ => rfl⟩
  | false =>
      have htraced := traced_keepTargets hvary h hR hne hfull hkeep
      obtain ⟨D, hD, hsub⟩ := htraced.determined
      exact ⟨D, hD, hsub, fun hends => by rw [htraced.endsAfter] at hends; cases hends⟩

end Blocks

end Wrapping

end Transform
end SeparableTransforms
