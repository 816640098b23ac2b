import SeparableTransforms.Proofs.Separation.Determined
import SeparableTransforms.Proofs.Transform.Simulation

/-!
# Keeping some inputs

The outputs that remain of a transform with some of its inputs are those that
`determined` finds, and the reduction fails where it finds that a part stands in
the way.  As long as nothing is folded and every coefficient is known, the result
computes these outputs from the inputs that were kept.
-/

namespace SeparableTransforms
namespace Transform

open Outcome

section Known

variable {κ α : Type}

/-- The matrices of the tree, in the order in which they are applied. -/
def matrices : Transform κ α → List (DenseMatrix α)
  | linear _ m => [m]
  | chain _ a b => a.matrices ++ b.matrices
  | passThrough _ _ t _ => t.matrices
  | kernel _ _ => []

/-- No coefficient of the tree stands for "not determined". -/
def Known [Scalar α] (t : Transform κ α) : Prop :=
  ∀ m ∈ t.matrices, m.hasUnconstrained = false

variable [Scalar α]

theorem known_chain {id : NodeId} {a b : Transform κ α} (h : (chain id a b).Known) :
    a.Known ∧ b.Known :=
  ⟨fun m hm => h m (List.mem_append_left _ hm), fun m hm => h m (List.mem_append_right _ hm)⟩

/-- A known coefficient is ignorable only if it is zero. -/
theorem isZero_of_isIgnorable {m : DenseMatrix α} (h : m.hasUnconstrained = false) {r c : Nat}
    (hr : r < m.rows) (hc : c < m.cols) (hignorable : (m.coefficient r c).isIgnorable = true) :
    (m.entry r c == 0) = true := by
  have hknown : Scalar.isNaN (m.entry r c) = false := by
    have hcell : r * m.cols + c < m.cells.size := m.size_cells ▸ DenseMatrix.cell_lt hr hc
    rw [← DenseMatrix.cell_eq_entry m hr hc hcell]
    simp only [DenseMatrix.hasUnconstrained, Array.any_eq_false] at h
    simpa using h _ hcell
  simpa [DenseMatrix.coefficient, Coefficient.ofScalar, hknown, Coefficient.isIgnorable] using
    hignorable

end Known

section Parts

variable {κ α : Type} [Kernel κ α] [Scalar α]

omit [Kernel κ α] [Scalar α] in
theorem endsAs_linear {options : AssemblyOptions} {id : NodeId} {matrix : DenseMatrix α} :
    EndsAs options false [(linear id matrix : Transform κ α)] :=
  ⟨nofun, fun _ => rfl⟩

/-- The result of keeping the inputs `S` of a transform, with the outputs `R` that remain. -/
structure SourcePart (options : AssemblyOptions) (P : κ → Prop) (t : Transform κ α)
    (S R : List Nat) (t' : Transform κ α) : Prop where
  fits : Fits P S.length t' R.length
  ends : EndsAs options (t.endsAfter S) t'.steps
  computes : Faithful (α := α) options P → t.Known → ∀ p v, t.apply p = .ok v →
    ∃ w, t'.apply (pick p S) = .ok w ∧ SamePoint w (pick v R)

/-- The same for a result that is still a list of transforms. -/
structure SourceParts (options : AssemblyOptions) (P : κ → Prop) (t : Transform κ α)
    (S R : List Nat) (parts : List (Transform κ α)) : Prop where
  linked : Linked P S.length parts R.length
  nonempty : parts ≠ []
  ends : EndsAs options (t.endsAfter S) (parts.flatMap Transform.steps)
  computes : Faithful (α := α) options P → t.Known → ∀ p v, t.apply p = .ok v →
    ∃ w, Runs parts (pick p S) w ∧ SamePoint w (pick v R)

variable {options : AssemblyOptions} {P : κ → Prop} {n m : Nat} {S R T : List Nat}
  {a b t t' : Transform κ α} {parts parts' : List (Transform κ α)}

theorem SourcePart.singleton (h : SourcePart options P t S R t') :
    SourceParts options P t S R [t'] where
  linked := linked_singleton.mpr h.fits
  nonempty := List.cons_ne_nil _ _
  ends := by simpa using h.ends
  computes hP hknown p v hv := by
    obtain ⟨w, hw, hsame⟩ := h.computes hP hknown p v hv
    exact ⟨w, runs_singleton.mpr hw, hsame⟩

/-- Only an identity that is left out makes a kernel the last step. -/
theorem SourcePart.elides (h : SourcePart options P t S R t')
    (hend : endsInKernel t'.steps = true) (hafter : t.endsAfter S = false) :
    options.elideIdentity = true := by
  by_contra helide
  have hends := h.ends.2 (Bool.eq_false_iff.mpr helide)
  rw [hafter, hend] at hends
  cases hends

variable [LawfulScalar α]

theorem SourceParts.compose (h : SourceParts options P t S R parts) :
    ∃ t', (Assembler.standard options).compose parts = .ok t' ∧
      SourcePart options P t S R t' := by
  obtain ⟨t', ht', hfits, hends⟩ := compose_eq_ok options h.linked h.nonempty
  refine ⟨t', ht', hfits, h.ends.trans hends, fun hP hknown p v hv => ?_⟩
  obtain ⟨w, hw, hsame⟩ := h.computes hP hknown p v hv
  obtain ⟨w', hw', hsame'⟩ := runs_compose h.linked hP ht' (h.linked.runs_flatMap.mpr hw)
  exact ⟨w', (apply_iff_runs hfits.admissible.wellFormed).mpr hw', hsame'.symm.trans hsame⟩

/-- The parts of a chain are those of its first half followed by those of its second. -/
theorem SourceParts.append {id : NodeId} (ht : (chain id a b).WellFormed)
    (ha : SourceParts options P a S T parts) (hb : SourceParts options P b T R parts')
    (hT : a.determined S = some T) :
    SourceParts options P (chain id a b) S R (parts ++ parts') where
  linked := linked_append.mpr ⟨T.length, ha.linked, hb.linked⟩
  nonempty := by simp [ha.nonempty]
  ends := by
    have hne : parts'.flatMap Transform.steps ≠ [] := by
      obtain ⟨s, hs⟩ := List.exists_mem_of_ne_nil _ hb.nonempty
      obtain ⟨step, hstep⟩ := List.exists_mem_of_ne_nil _ s.steps_ne_nil
      exact List.ne_nil_of_mem (List.mem_flatMap.mpr ⟨s, hs, hstep⟩)
    have hends := hb.ends
    have hlast := endsInKernel_append (parts.flatMap Transform.steps) hne
    rw [← List.flatMap_append] at hlast
    rw [EndsAs, show (chain id a b).endsAfter S = b.endsAfter T by simp only [endsAfter, hT], hlast]
    exact hends
  computes hP hknown p v hv := by
    obtain ⟨hka, hkb⟩ := known_chain hknown
    obtain ⟨u, hu, hv⟩ := (apply_chain_iff ht).mp hv
    obtain ⟨w, hw, hsame⟩ := ha.computes hP hka p u hu
    obtain ⟨w', hw', hsame'⟩ := hb.computes hP hkb u v hv
    obtain ⟨w'', hw'', hsame''⟩ := hb.linked.runs_congr hP hsame.symm hw'
    exact ⟨w'', runs_append.mpr ⟨w, hw, hw''⟩, hsame''.symm.trans hsame'⟩

variable (options) in
/-- A transform with all of its inputs stays as it is. -/
theorem Fits.sourcePart_range (h : Fits P n t m) :
    SourcePart options P t (List.range n) (List.range m) t := by
  obtain ⟨hadmissible, rfl, rfl⟩ := h
  have hwell := hadmissible.wellFormed
  refine ⟨by simpa using hadmissible.fits, ?_, fun _ _ p v hv => ?_⟩
  · rw [endsAfter_range hwell]
    exact EndsAs.refl _
  · rw [pick_range (length_of_apply hv), pick_range (length_apply hv)]
    exact ⟨v, hv, SamePoint.refl v⟩

end Parts

section Forward

variable {κ α : Type} [Kernel κ α]

theorem map_step_sourceSteps [Scalar α] (assembler : Assembler κ α) (t : Transform κ α) :
    (t.sourceSteps assembler).map SourceStep.step = t.steps := by
  induction t with
  | chain id a b iha ihb => rw [sourceSteps, List.map_append, iha, ihb, steps]
  | _ => rfl

theorem sourceSteps_ne_nil [Scalar α] (assembler : Assembler κ α) (t : Transform κ α) :
    t.sourceSteps assembler ≠ [] := by
  intro hnil
  have hmap := map_step_sourceSteps assembler t
  rw [hnil] at hmap
  exact t.steps_ne_nil hmap.symm

/-- A walk over two lists of steps is a walk over the first and one over the second. -/
theorem keepForward_append {first second : List (SourceStep κ α)} (hfirst : first ≠ [])
    (hsecond : second ≠ []) (i : Nat) (S : List Nat) :
    keepForward (first ++ second) i S = (do
      let (parts, T) ← keepForward first i S
      if T.isEmpty then throw (.cannotSeparate (.stepWithoutOutput (i + first.length - 1)))
      let (parts', R) ← keepForward second (i + first.length) T
      return (parts ++ parts', R)) := by
  induction first generalizing i S with
  | nil => exact absurd rfl hfirst
  | cons s rest ih =>
      rw [List.cons_append, keepForward, keepForward]
      cases hkeep : s.keep S with
      | error e => rfl
      | ok kept =>
          obtain ⟨step, T⟩ := kept
          simp only [ok_bind]
          cases rest with
          | nil =>
              have hsecond : second.isEmpty = false := by simpa using hsecond
              cases T with
              | nil => simp [hsecond, keepForward, throw_eq_error]
              | cons d T => simp [keepForward]
          | cons next rest =>
              cases T with
              | nil => simp [throw_eq_error]
              | cons d T =>
                  have hplace : i + 1 + rest.length = i + (rest.length + 1) := by omega
                  have hplace' : i + 1 + (rest.length + 1) = i + (rest.length + 1 + 1) := by omega
                  rw [ih (List.cons_ne_nil _ _)]
                  cases hrest : keepForward (next :: rest) (i + 1) (d :: T) with
                  | error e => simp
                  | ok result =>
                      obtain ⟨parts, T'⟩ := result
                      cases T' with
                      | nil => simp [hplace, throw_eq_error]
                      | cons d' T' => simp [hplace']

end Forward

section Matrices

variable {κ α : Type} [Kernel κ α] [Scalar α] [LawfulScalar α] {options : AssemblyOptions}
  {P : κ → Prop} {n m : Nat} {S : List Nat} {matrix : DenseMatrix α}

omit [LawfulScalar α] in
theorem mem_determinedRows_iff {r : Nat} :
    r ∈ determinedRows matrix S ↔ r < matrix.rows - 1 ∧
      ∀ c, c < matrix.cols - 1 → c ∉ S → (matrix.coefficient r c).isIgnorable = true := by
  simp [determinedRows, or_iff_not_imp_left]

/-- The rows that remain of an affine matrix, without the excluded columns. -/
theorem keepMatrixSources_eq (h : matrix.isAffine = true) (hS : Increasing S (matrix.cols - 1))
    (hne : S ≠ []) :
    keepMatrixSources (.standard options) matrix S =
      .ok ((linear none ((matrix.keepRows (determinedRows matrix S)).keepColumns S) :
        Transform κ α), determinedRows matrix S) := by
  have hlen : 0 < S.length := List.length_pos_iff.mpr hne
  have hR : Increasing (determinedRows matrix S) (matrix.rows - 1) := increasing_filter_range _ _
  have hblock := DenseMatrix.isAffine_keepColumns
    (DenseMatrix.isAffine_keepRows h (determinedRows matrix S)) hS.bounded
  have hmade : (Assembler.standard options).affine
      ((matrix.keepRows (determinedRows matrix S)).keepColumns S) =
      .ok (linear none ((matrix.keepRows (determinedRows matrix S)).keepColumns S) :
        Transform κ α) :=
    ofMatrix_eq_ok hblock (by rw [DenseMatrix.cols_keepColumns]; omega)
  have hcross := DenseMatrix.submatrix_last (DenseMatrix.isAffine_rows_pos h) hR.bounded
    (DenseMatrix.isAffine_cols_pos h) hS.bounded
  unfold keepMatrixSources
  simp only [hcross, ofMatrix_ok, ok_bind, hmade, pure_eq_ok]

/-- What remains of a linear transform fits and computes the outputs that remain. -/
theorem keepMatrixSources_eq_ok {id : NodeId} (h : Fits P n (linear id matrix : Transform κ α) m)
    (hS : Increasing S n) (hne : S ≠ []) :
    ∃ t', keepMatrixSources (.standard options) matrix S =
        .ok (t', determinedRows matrix S) ∧
      SourcePart options P (linear id matrix) S (determinedRows matrix S) t' := by
  obtain ⟨haffine, hrows, hcols, hpos⟩ := h.linear
  have hlen : 0 < S.length := List.length_pos_iff.mpr hne
  have hR : Increasing (determinedRows matrix S) (matrix.rows - 1) := increasing_filter_range _ _
  have hS : Increasing S (matrix.cols - 1) := by rwa [hcols, Nat.add_sub_cancel]
  have hblock := DenseMatrix.isAffine_keepColumns
    (DenseMatrix.isAffine_keepRows haffine (determinedRows matrix S)) hS.bounded
  refine ⟨linear none ((matrix.keepRows (determinedRows matrix S)).keepColumns S),
    keepMatrixSources_eq haffine hS hne,
    fits_linear hblock DenseMatrix.rows_keepRows DenseMatrix.cols_keepColumns hlen,
    endsAs_linear, ?_⟩
  · intro _ hknown p v hv
    obtain ⟨hp, rfl⟩ := apply_linear_iff.mp hv
    refine ⟨_, apply_linear_iff.mpr ⟨by simp, rfl⟩, ?_⟩
    have hzero : ∀ r, r < (matrix.keepRows (determinedRows matrix S)).rows - 1 →
        ∀ c, c < (matrix.keepRows (determinedRows matrix S)).cols - 1 → c ∉ S →
        ((matrix.keepRows (determinedRows matrix S)).entry r c == 0) = true := by
      intro r hr c hc hout
      rw [DenseMatrix.rows_keepRows, Nat.add_sub_cancel] at hr
      rw [DenseMatrix.cols_keepRows] at hc
      rw [DenseMatrix.entry_keepRows hr (by omega)]
      have hmem := List.getElem_mem hr
      have hbound := hR.bounded _ hmem
      exact isZero_of_isIgnorable (hknown matrix (by simp [matrices])) (by omega) (by omega)
        ((mem_determinedRows_iff.mp hmem).2 c hc hout)
    rw [applyAffine_keepColumns (m := matrix.keepRows (determinedRows matrix S)) hp hS hzero,
      applyAffine_keepRows (by omega) hp hR.bounded]
    exact SamePoint.refl _

end Matrices

section PassThroughs

variable {κ α : Type} [Kernel κ α] [Scalar α] [LawfulScalar α] {options : AssemblyOptions}
  {P : κ → Prop} {k s c n : Nat} {S T : List Nat} {id : NodeId} {inner reduced : Transform κ α}
  {keep : List Nat → Except TransformError (Reduced κ α)}

/-- Inputs that are all copied need no inner transform. -/
theorem keepPassThroughSources_outside (hS : Increasing S (k + inner.sourceDimensions + n))
    (hne : S ≠ []) (hnil : inside k inner.sourceDimensions S = []) :
    keepPassThroughSources (.standard options) k inner keep S =
      .ok (linear none (DenseMatrix.identity (S.length + 1)),
        copyAround k inner.sourceDimensions inner.targetDimensions S []) := by
  have htake := take_before hS
  have hmade : (Assembler.standard options).affine (DenseMatrix.identity (S.length + 1)) =
      .ok (linear none (DenseMatrix.identity (S.length + 1)) : Transform κ α) :=
    ofMatrix_eq_ok (DenseMatrix.isAffine_identity _)
      (Nat.succ_le_succ (List.length_pos_iff.mpr hne))
  unfold inside at hnil
  unfold keepPassThroughSources
  simp only [hnil, htake, hmade, ok_bind, pure_eq_ok, List.isEmpty_nil, if_true]
  rw [copyAround, List.map_nil, List.append_nil]

omit [LawfulScalar α] in
/-- Otherwise the inner transform is reduced, and the inputs around it are copied. -/
theorem keepPassThroughSources_inside (hS : Increasing S (k + inner.sourceDimensions + n))
    (hne : inside k inner.sourceDimensions S ≠ []) :
    keepPassThroughSources (.standard options) k inner keep S = (do
      let (reduced, T) ← keep (inside k inner.sourceDimensions S)
      let t' ← passThroughSimplified (S.filter fun d => d < k).length reduced
        (S.filter fun d => k + inner.sourceDimensions ≤ d).length
      return (t', copyAround k inner.sourceDimensions inner.targetDimensions S T)) := by
  have htake := take_before hS
  have hempty : (inside k inner.sourceDimensions S).isEmpty = false := by simpa using hne
  unfold inside at hempty
  unfold keepPassThroughSources
  simp only [hempty, htake, Bool.false_eq_true, if_false]
  rfl

/-- Only copied coordinates are kept. -/
theorem keepPassThroughSources_copied (h : Fits P s inner c) (hS : Increasing S (k + s + n))
    (hne : S ≠ []) (hnil : inside k s S = []) :
    ∃ t', keepPassThroughSources (.standard options) k inner keep S =
        .ok (t', copyAround k s c S []) ∧
      SourcePart options P (passThrough id k inner n) S (copyAround k s c S []) t' := by
  have hlen : 0 < S.length := List.length_pos_iff.mpr hne
  have hwhole := length_copyAround (k := k) (c := s) (s := s) (S := S) (T := inside k s S)
  rw [copyAround_inside hS, hnil] at hwhole
  obtain ⟨hadmissible, rfl, rfl⟩ := h
  refine ⟨linear none (DenseMatrix.identity (S.length + 1)),
    keepPassThroughSources_outside hS hne hnil, ?_, ?_, ?_⟩
  · rw [length_copyAround, ← hwhole]
    exact fits_identity hlen
  · have hend : (passThrough id k inner n).endsAfter S = false := by simp [endsAfter, hnil]
    rw [hend]
    exact endsAs_linear
  · intro _ _ p v hv
    obtain ⟨hp, w, hw, rfl⟩ := apply_passThrough_iff.mp hv
    refine ⟨_, apply_linear_iff.mpr ⟨length_pick, rfl⟩, ?_⟩
    have hcopy := samePoint_of_isIdentity (m := DenseMatrix.identity (S.length + 1))
      (isIdentity_identity _) (p := pick p S) length_pick
    rw [pick_copyAround (by omega) (length_apply hw) (by simp)]
    rw [pick_inside hp hS, hnil] at hcopy
    rw [pick_inside hp hS, hnil]
    exact hcopy

/-- The inner transform is reduced, with the kept coordinates copied around it. -/
theorem keepPassThroughSources_reduced (h : Fits P s inner c) (hS : Increasing S (k + s + n))
    (hne : inside k s S ≠ []) (hfull : isFull S (k + s + n) = false)
    (hkeep : keep (inside k s S) = .ok (reduced, T)) (hT : Increasing T c)
    (hpart : SourcePart options P inner (inside k s S) T reduced) :
    ∃ t', keepPassThroughSources (.standard options) k inner keep S =
        .ok (t', copyAround k s c S T) ∧
      SourcePart options P (passThrough id k inner n) S (copyAround k s c S T) t' := by
  have hempty : (inside k s S).isEmpty = false := by simpa using hne
  have hwhole := length_copyAround (k := k) (c := s) (s := s) (S := S) (T := inside k s S)
  rw [copyAround_inside hS] at hwhole
  obtain ⟨t', ht', hfits, hends⟩ := passThroughSimplified_eq_ok hpart.fits
    (S.filter fun d => d < k).length (S.filter fun d => k + s ≤ d).length
  obtain ⟨hadmissible, rfl, rfl⟩ := h
  refine ⟨t', ?_, ?_, ?_, ?_⟩
  · rw [keepPassThroughSources_inside hS hne, hkeep, ok_bind]
    simp only [ht', ok_bind, pure_eq_ok]
  · rw [length_copyAround, hwhole]
    exact hfits
  · have hend : (passThrough id k inner n).endsAfter S = true ↔
        (S.filter fun d => d < k).length = 0 ∧
          (S.filter fun d => k + inner.sourceDimensions ≤ d).length = 0 ∧
          inner.endsAfter (inside k inner.sourceDimensions S) = true := by
      simp only [endsAfter, hfull, hempty, Bool.not_false, Bool.true_and, Bool.and_eq_true,
        List.isEmpty_iff, List.length_eq_zero_iff, and_assoc]
    constructor
    · intro hkernel
      obtain ⟨hbefore, hafter, hinner⟩ := hend.mp hkernel
      exact hends.mpr ⟨hbefore, hafter, hpart.ends.1 hinner⟩
    · intro ho
      rw [Bool.eq_iff_iff, hends, hend, hpart.ends.2 ho]
  · intro hP hknown p v hv
    obtain ⟨hp, w, hw, rfl⟩ := apply_passThrough_iff.mp hv
    obtain ⟨u, hu, hsame⟩ := hpart.computes hP hknown _ w hw
    rw [← take_drop_pick hp hS] at hu
    obtain ⟨w', hw', hsame'⟩ := apply_passThroughSimplified hpart.fits ht'
      (by rw [length_pick, ← hwhole]) hu
    refine ⟨w', hw', hsame'.trans ?_⟩
    rw [take_pick hp hS, drop_pick hp hS, pick_copyAround (by omega)
      (length_apply hw) hT.bounded]
    exact ((SamePoint.refl _).append hsame).append (SamePoint.refl _)

end PassThroughs

section Walks

variable {κ α : Type} [Kernel κ α] [Scalar α]

/-- A walk over some steps finds what `determined` says of the transform that they make up. -/
structure Walks (options : AssemblyOptions) (P : κ → Prop) (t : Transform κ α)
    (steps : List (SourceStep κ α)) (S : List Nat) : Prop where
  found : ∀ R, t.determined S = some R →
    ∃ parts, (∀ i, keepForward steps i S = .ok (parts, R)) ∧ SourceParts options P t S R parts
  stuck : t.determined S = none →
    ∀ i, ∃ obstacle, keepForward steps i S = .error (.cannotSeparate obstacle)

/-- A way to reduce a transform that finds what `determined` says. -/
structure Reduces (options : AssemblyOptions) (P : κ → Prop) (t : Transform κ α)
    (reduce : List Nat → Except TransformError (Reduced κ α)) (S : List Nat) : Prop where
  found : ∀ R, t.determined S = some R →
    ∃ t', reduce S = .ok (t', R) ∧ SourcePart options P t S R t'
  stuck : t.determined S = none → ∃ obstacle, reduce S = .error (.cannotSeparate obstacle)

variable {options : AssemblyOptions} {P : κ → Prop} {n m k trailing : Nat} {S T : List Nat}
  {a b t inner : Transform κ α} {s : SourceStep κ α} {steps rest : List (SourceStep κ α)}

/-- What a walk that succeeds has found. -/
theorem Walks.of_keepForward {i : Nat} {R : List Nat} {parts : List (Transform κ α)}
    (h : Walks options P t steps S) (hwalk : keepForward steps i S = .ok (parts, R)) :
    t.determined S = some R ∧ SourceParts options P t S R parts := by
  cases hR : t.determined S with
  | none =>
      obtain ⟨obstacle, herror⟩ := h.stuck hR i
      rw [hwalk] at herror
      cases herror
  | some D =>
      obtain ⟨parts', hfound, hparts⟩ := h.found D hR
      have hsame := hfound i
      rw [hwalk] at hsame
      cases hsame
      exact ⟨rfl, hparts⟩

/-- What a reduction that succeeds has found. -/
theorem Reduces.of_ok {reduce : List Nat → Except TransformError (Reduced κ α)} {R : List Nat}
    {t' : Transform κ α} (h : Reduces options P t reduce S) (hreduce : reduce S = .ok (t', R)) :
    t.determined S = some R ∧ SourcePart options P t S R t' := by
  cases hR : t.determined S with
  | none =>
      obtain ⟨obstacle, herror⟩ := h.stuck hR
      rw [hreduce] at herror
      cases herror
  | some D =>
      obtain ⟨t'', hfound, hpart⟩ := h.found D hR
      rw [hreduce] at hfound
      cases hfound
      exact ⟨rfl, hpart⟩

omit [Scalar α] in
theorem keepForward_singleton (s : SourceStep κ α) (i : Nat) (S : List Nat) :
    keepForward [s] i S = (fun kept => ([kept.1], kept.2)) <$> s.keep S := by
  rw [keepForward]
  cases s.keep S with
  | error e => rfl
  | ok kept => simp [keepForward]

variable [LawfulScalar α]

/-- A single step is walked by keeping it whole or by reducing it. -/
theorem walks_singleton {reduce : List Nat → Except TransformError (Reduced κ α)}
    (h : Fits P n t m) (hreduce : isFull S n = false → Reduces options P t reduce S) :
    Walks options P t [⟨t, reduce⟩] S := by
  cases hfull : isFull S n with
  | true =>
      obtain rfl := isFull_iff.mp hfull
      have hkeep : SourceStep.keep ⟨t, reduce⟩ (List.range n) = .ok (t, List.range m) := by
        rw [SourceStep.keep, h.source, hfull, if_pos rfl, h.target]
      have hall := determined_range h.admissible.wellFormed
      rw [h.source, h.target] at hall
      constructor
      · intro R hR
        obtain rfl : List.range m = R := Option.some.inj (hall.symm.trans hR)
        exact ⟨[t], fun i => by rw [keepForward_singleton, hkeep]; rfl,
          (h.sourcePart_range options).singleton⟩
      · intro hnone
        rw [hall] at hnone
        cases hnone
  | false =>
      have hkeep : SourceStep.keep ⟨t, reduce⟩ S = reduce S := by
        rw [SourceStep.keep, h.source, hfull, if_neg Bool.false_ne_true]
      constructor
      · intro R hR
        obtain ⟨t', ht', hpart⟩ := (hreduce hfull).found R hR
        exact ⟨[t'], fun i => by rw [keepForward_singleton, hkeep, ht']; rfl, hpart.singleton⟩
      · intro hnone i
        obtain ⟨obstacle, herror⟩ := (hreduce hfull).stuck hnone
        exact ⟨obstacle, by rw [keepForward_singleton, hkeep, herror]; rfl⟩

/-- A chain is walked part by part. -/
theorem Walks.append {id : NodeId} (ht : (chain id a b).WellFormed) (hsteps : steps ≠ [])
    (hrest : rest ≠ []) (ha : Walks options P a steps S)
    (hb : ∀ T, a.determined S = some T → T ≠ [] → Walks options P b rest T) :
    Walks options P (chain id a b) (steps ++ rest) S := by
  cases hT : a.determined S with
  | none =>
      have hnone : (chain id a b).determined S = none := by simp only [determined, hT, Option.bind]
      refine ⟨fun R hR => absurd (hnone.symm.trans hR) (by simp), fun _ i => ?_⟩
      obtain ⟨obstacle, herror⟩ := ha.stuck hT i
      exact ⟨obstacle, by rw [keepForward_append hsteps hrest, herror]; rfl⟩
  | some T =>
      obtain ⟨parts, hwalk, hparts⟩ := ha.found T hT
      by_cases hempty : T = []
      · subst hempty
        have hnone : (chain id a b).determined S = none := by simp [determined, hT]
        refine ⟨fun R hR => absurd (hnone.symm.trans hR) (by simp), fun _ i => ?_⟩
        exact ⟨_, by rw [keepForward_append hsteps hrest, hwalk]; rfl⟩
      · have hsecond : (chain id a b).determined S = b.determined T := by
          simp [determined, hT, hempty]
        have hnext : ∀ i, keepForward (steps ++ rest) i S =
            (fun found => (parts ++ found.1, found.2)) <$>
              keepForward rest (i + steps.length) T := by
          intro i
          rw [keepForward_append hsteps hrest, hwalk, ok_bind]
          simp only [List.isEmpty_iff, hempty, if_false]
          cases keepForward rest (i + steps.length) T with
          | error e => rfl
          | ok found => rfl
        refine ⟨fun R hR => ?_, fun hnone i => ?_⟩
        · obtain ⟨parts', hwalk', hparts'⟩ := (hb T hT hempty).found R (hsecond ▸ hR)
          exact ⟨parts ++ parts', fun i => by rw [hnext, hwalk']; rfl,
            hparts.append ht hparts' hT⟩
        · obtain ⟨obstacle, herror⟩ := (hb T hT hempty).stuck (hsecond ▸ hnone) (i + steps.length)
          exact ⟨obstacle, by rw [hnext, herror]; rfl⟩

omit [Scalar α] [LawfulScalar α] in
/-- A transform that is not kept whole is made of the parts that a walk finds. -/
theorem keepSourceSteps_eq {assembler : Assembler κ α} (hfull : isFull S t.sourceDimensions = false)
    (honly : ∀ only, steps = [only] → only.step.sourceDimensions = t.sourceDimensions) :
    keepSourceSteps assembler t steps S = (do
      let (parts, R) ← keepForward steps 0 S
      let t' ← assembler.compose parts
      return (t', R)) := by
  unfold keepSourceSteps
  rw [hfull, if_neg Bool.false_ne_true]
  split
  · rename_i only
    have hkeep : only.keep S = only.reduce S := by
      rw [SourceStep.keep, honly only rfl, hfull, if_neg Bool.false_ne_true]
    rw [keepForward_singleton, hkeep]
    cases only.reduce S with
    | error e => rfl
    | ok kept => rfl
  · rfl

/-- The parts of a walk make up the reduced transform. -/
theorem Walks.reduces (h : Fits P n t m)
    (honly : ∀ only, steps = [only] → only.step.sourceDimensions = t.sourceDimensions)
    (hwalk : Walks options P t steps S) :
    Reduces options P t (keepSourceSteps (.standard options) t steps) S := by
  cases hfull : isFull S t.sourceDimensions with
  | true =>
      have hkeep : keepSourceSteps (.standard options) t steps S =
          .ok (t, List.range t.targetDimensions) := by
        unfold keepSourceSteps
        rw [hfull, if_pos rfl]
      have hall := determined_range h.admissible.wellFormed
      rw [← isFull_iff.mp hfull] at hall
      constructor
      · intro R hR
        obtain rfl : List.range t.targetDimensions = R := Option.some.inj (hall.symm.trans hR)
        have hpart := h.admissible.fits.sourcePart_range options
        rw [← isFull_iff.mp hfull] at hpart
        exact ⟨t, hkeep, hpart⟩
      · intro hnone
        rw [hall] at hnone
        cases hnone
  | false =>
      constructor
      · intro R hR
        obtain ⟨parts, hparts, hpart⟩ := hwalk.found R hR
        obtain ⟨t', ht', hpart'⟩ := hpart.compose
        refine ⟨t', ?_, hpart'⟩
        rw [keepSourceSteps_eq hfull honly, hparts]
        simp only [ok_bind, ht', pure_eq_ok]
      · intro hnone
        obtain ⟨obstacle, herror⟩ := hwalk.stuck hnone 0
        exact ⟨obstacle, by rw [keepSourceSteps_eq hfull honly, herror]; rfl⟩

omit [LawfulScalar α] in
theorem sourceStep_of_sourceSteps {assembler : Assembler κ α} {only : SourceStep κ α}
    (h : t.sourceSteps assembler = [only]) : only.step = t := by
  have hmap := map_step_sourceSteps assembler t
  rw [h, List.map_cons, List.map_nil] at hmap
  exact (eq_of_steps_singleton hmap.symm).symm

theorem reduces_linear {id : NodeId} {matrix : DenseMatrix α}
    (h : Fits P n (linear id matrix : Transform κ α) m) (hS : Increasing S n) (hne : S ≠ []) :
    Reduces options P (linear id matrix) (keepMatrixSources (.standard options) matrix) S := by
  refine ⟨fun R hR => ?_, fun hnone => by cases hnone⟩
  cases hR
  exact keepMatrixSources_eq_ok h hS hne

theorem reduces_passThrough {id : NodeId}
    {keep : List Nat → Except TransformError (Reduced κ α)}
    (h : Fits P n (passThrough id k inner trailing) m) (hS : Increasing S n) (hne : S ≠ [])
    (hfull : isFull S n = false)
    (hkeep : inside k inner.sourceDimensions S ≠ [] →
      Reduces options P inner keep (inside k inner.sourceDimensions S)) :
    Reduces options P (passThrough id k inner trailing)
      (keepPassThroughSources (.standard options) k inner keep) S := by
  have hinner : Fits P inner.sourceDimensions inner inner.targetDimensions :=
    Admissible.fits h.admissible
  obtain rfl : k + inner.sourceDimensions + trailing = n := h.source
  by_cases hnil : inside k inner.sourceDimensions S = []
  · refine ⟨fun R hR => ?_, fun hnone => ?_⟩
    · rw [determined, hnil, List.isEmpty_nil, if_pos rfl] at hR
      cases hR
      exact keepPassThroughSources_copied hinner hS hne hnil
    · rw [determined, hnil, List.isEmpty_nil, if_pos rfl] at hnone
      cases hnone
  · have hempty : (inside k inner.sourceDimensions S).isEmpty = false := by simpa using hnil
    have hreduces := hkeep hnil
    refine ⟨fun R hR => ?_, fun hnone => ?_⟩
    · rw [determined, hempty, if_neg Bool.false_ne_true] at hR
      obtain ⟨T, hT, rfl⟩ := Option.map_eq_some_iff.mp hR
      obtain ⟨reduced, hreduced, hpart⟩ := hreduces.found T hT
      exact keepPassThroughSources_reduced hinner hS hnil hfull hreduced
        (increasing_determined hinner.admissible.wellFormed (increasing_inside hS) hT) hpart
    · rw [determined, hempty, if_neg Bool.false_ne_true, Option.map_eq_none_iff] at hnone
      obtain ⟨obstacle, herror⟩ := hreduces.stuck hnone
      exact ⟨obstacle, by rw [keepPassThroughSources_inside hS hnil, herror, error_bind]⟩

omit [LawfulScalar α] in
/-- A kernel needs all of its inputs. -/
theorem reduces_kernel {id : NodeId} {kernel : κ}
    {reduce : List Nat → Except TransformError (Reduced κ α)}
    (h : Fits P n (Transform.kernel id kernel : Transform κ α) m) (hfull : isFull S n = false)
    (hreduce : ∃ obstacle, reduce S = .error (.cannotSeparate obstacle)) :
    Reduces options P (Transform.kernel id kernel) reduce S := by
  obtain rfl : Kernel.sourceDimensions kernel = n := h.source
  refine ⟨fun R hR => ?_, fun _ => hreduce⟩
  rw [determined, hfull, if_neg Bool.false_ne_true] at hR
  cases hR

/-- The walk over the steps of any transform. -/
theorem walks_sourceSteps (h : Fits P n t m) (hS : Increasing S n) (hne : S ≠ []) :
    Walks options P t (t.sourceSteps (.standard options)) S := by
  induction t generalizing n m S with
  | linear id matrix => exact walks_singleton h fun _ => reduces_linear h hS hne
  | chain id a b iha ihb =>
      obtain ⟨⟨ha, hb, hfit⟩, rfl, rfl⟩ := h
      refine Walks.append ⟨ha.wellFormed, hb.wellFormed, hfit⟩ (sourceSteps_ne_nil _ a)
        (sourceSteps_ne_nil _ b) (iha ha.fits hS hne) fun T hT hTne => ?_
      have hincreasing := increasing_determined ha.wellFormed hS hT
      exact ihb ⟨hb, hfit.symm, rfl⟩ hincreasing hTne
  | passThrough id k inner trailing ih =>
      refine walks_singleton h fun hfull => reduces_passThrough h hS hne hfull fun hinside => ?_
      have hinner : Fits P inner.sourceDimensions inner inner.targetDimensions :=
        Admissible.fits h.admissible
      exact (ih hinner (increasing_inside hS) hinside).reduces hinner fun only honly => by
        rw [sourceStep_of_sourceSteps honly]
  | kernel id kernel =>
      exact walks_singleton h fun hfull => reduces_kernel h hfull ⟨_, rfl⟩

variable (options) in
/-- What is left of a transform with some of its inputs. -/
theorem reduces_keepSources (h : Fits P n t m) (hS : Increasing S n) (hne : S ≠ []) :
    Reduces options P t (t.keepSources (.standard options)) S :=
  (walks_sourceSteps h hS hne).reduces h fun only honly => by
    rw [sourceStep_of_sourceSteps honly]

end Walks

end Transform
end SeparableTransforms
