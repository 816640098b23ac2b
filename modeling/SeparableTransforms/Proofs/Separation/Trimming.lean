import SeparableTransforms.Kernels.Synthetic
import SeparableTransforms.Proofs.Separation.Columns
import SeparableTransforms.Proofs.Separation.Soundness
import SeparableTransforms.Proofs.Transform.NormalForm

/-!
# How far sources are trimmed

Trimming drops the sources that the first step does not use, so a single linear step is
left with sources all of which are used, or none of which is.  Whether the first step
is the only one, however, may turn out after it has been trimmed.

* A chain of linear steps that is kept as it is gets folded only then.
* Without folding, the trimmed step may be an identity, which is left out.

In these two cases a source may remain that no target depends on.  They are the only
ones: with folding a chain that has been reduced to some of its targets has no two
consecutive linear steps, and steps that are not linear stay what they are.
-/

namespace SeparableTransforms
namespace Transform

open Outcome

section Usage

variable {α : Type} [Scalar α] {matrix : DenseMatrix α}

/-- On every source some target depends. -/
def UsesAll (matrix : DenseMatrix α) : Prop :=
  ∀ c, c < matrix.cols - 1 → ∃ r, r < matrix.rows - 1 ∧ (matrix.coefficient r c).isZero = false

/-- No target depends on a source. -/
def UsesNone (matrix : DenseMatrix α) : Prop :=
  ∀ c, c < matrix.cols - 1 → ∀ r, r < matrix.rows - 1 → (matrix.coefficient r c).isZero = true

instance (matrix : DenseMatrix α) : Decidable (UsesAll matrix) :=
  inferInstanceAs (Decidable (∀ c, c < _ → ∃ r, r < _ ∧ _))

instance (matrix : DenseMatrix α) : Decidable (UsesNone matrix) :=
  inferInstanceAs (Decidable (∀ c, c < _ → ∀ r, r < _ → _))

theorem usesAll_iff : UsesAll matrix ↔ (usedColumns matrix).length = matrix.cols - 1 := by
  constructor
  · intro hall
    have hrange : usedColumns matrix = List.range (matrix.cols - 1) :=
      (increasing_usedColumns matrix).eq_of_mem_iff (increasing_range _) fun c =>
        ⟨fun hc => List.mem_range.mpr (mem_usedColumns_iff.mp hc).1, fun hc =>
          mem_usedColumns_iff.mpr ⟨List.mem_range.mp hc, hall c (List.mem_range.mp hc)⟩⟩
    rw [hrange, List.length_range]
  · intro hlen c hc
    have hrange := (increasing_usedColumns matrix).eq_range hlen.ge
    exact (mem_usedColumns_iff.mp (hrange ▸ List.mem_range.mpr hc)).2

theorem usesNone_of_usedColumns (h : usedColumns matrix = []) : UsesNone matrix := by
  intro c hc r hr
  by_contra hzero
  have hused := mem_usedColumns_iff.mpr ⟨hc, r, hr, Bool.eq_false_iff.mpr hzero⟩
  rw [h] at hused
  cases hused

/-- The columns that are used are all used in the matrix that they make up. -/
theorem usesAll_keepColumns (matrix : DenseMatrix α) :
    UsesAll (matrix.keepColumns (usedColumns matrix)) := by
  intro c hc
  rw [DenseMatrix.cols_keepColumns, Nat.add_sub_cancel] at hc
  obtain ⟨hbound, r, hr, hused⟩ := mem_usedColumns_iff.mp (List.getElem_mem hc)
  refine ⟨r, hr, ?_⟩
  unfold DenseMatrix.coefficient at hused ⊢
  rwa [DenseMatrix.entry_keepColumns (by omega) hc]

end Usage

section Reduced

variable {κ α : Type} [Kernel κ α] [Scalar α] {assembler : Assembler κ α}
  {options : AssemblyOptions} {R : List Nat} {k n : Nat} {t t' : Transform κ α}
  {last previous : TargetStep κ α} {earlier steps : List (TargetStep κ α)}
  {parts : List (Transform κ α)}

/-- The last step is reduced, and the steps before it are walked further or kept whole. -/
theorem keepChain_snoc (h : keepChain assembler (last :: previous :: earlier) R = .ok parts) :
    ∃ init final, parts = init ++ [final] ∧
      (init = ((previous :: earlier).map TargetStep.step).reverse ∨
        ∃ used, keepChain assembler (previous :: earlier) used = .ok init) := by
  unfold keepChain at h
  split at h
  · obtain ⟨rows, _, h⟩ := bind_eq_ok_iff.mp h
    dsimp only at h
    split at h
    · split at h
      · rename_i reduced hreduced
        obtain ⟨final, _, h⟩ := bind_eq_ok_iff.mp h
        exact ⟨reduced, final, (Except.ok.inj h).symm, .inr ⟨_, hreduced⟩⟩
      · obtain ⟨final, _, h⟩ := bind_eq_ok_iff.mp h
        exact ⟨_, final, (Except.ok.inj h).symm, .inl rfl⟩
      · cases h
    · obtain ⟨final, _, h⟩ := bind_eq_ok_iff.mp h
      exact ⟨_, final, (Except.ok.inj h).symm, .inl rfl⟩
  · obtain ⟨final, _, h⟩ := bind_eq_ok_iff.mp h
    exact ⟨_, final, (Except.ok.inj h).symm, .inl rfl⟩

theorem keepChain_ne_nil (hne : steps ≠ []) (h : keepChain assembler steps R = .ok parts) :
    parts ≠ [] := by
  match steps with
  | [] => exact absurd rfl hne
  | [only] =>
      obtain ⟨reduced, _, h⟩ := bind_eq_ok_iff.mp h
      cases h
      exact List.cons_ne_nil _ _
  | last :: previous :: earlier =>
      obtain ⟨init, final, rfl, _⟩ := keepChain_snoc h
      simp

/-- With folding, what is composed of several reduced steps has no two consecutive linear steps. -/
theorem unpaired_keepChain (hfold : options.foldLinear = true)
    (h : (keepChain (.standard options) (last :: previous :: earlier) R >>=
      (Assembler.standard options).compose) = .ok t') : Unpaired t'.steps := by
  obtain ⟨parts, hparts, hcompose⟩ := bind_eq_ok_iff.mp h
  obtain ⟨init, final, rfl, hinit⟩ := keepChain_snoc hparts
  refine unpaired_compose hfold ?_ hcompose
  rcases hinit with rfl | ⟨used, hused⟩
  · simp
  · exact keepChain_ne_nil (List.cons_ne_nil _ _) hused

omit [Kernel κ α] in
/-- The simplest form of a pass-through is a single step, unless nothing is copied. -/
theorem passThroughSimplified_cases (h : passThroughSimplified k t n = .ok t') :
    k = 0 ∧ n = 0 ∧ t' = t ∨ t'.steps = [t'] := by
  fun_induction passThroughSimplified k t n with
  | case1 k n t hnone => exact .inl ⟨hnone.1, hnone.2, (Except.ok.inj h).symm⟩
  | case2 k n hsome id matrix =>
      rw [eq_of_ofMatrix h]
      exact .inr rfl
  | case3 k n hsome id k' inner n' ih => exact .inr ((ih h).resolve_left fun hnone => by omega)
  | case4 k n hsome t =>
      cases h
      exact .inr rfl

/-- With folding, what is kept of some of the targets has no two consecutive linear steps. -/
theorem unpaired_keepTargets (hfold : options.foldLinear = true)
    (hproper : isFull R t.targetDimensions = false)
    (h : t.keepTargets (.standard options) R = .ok t') : Unpaired t'.steps := by
  induction t generalizing R t' with
  | linear id matrix =>
      rw [keepTargets_singleton rfl hproper] at h
      obtain ⟨rows, _, h⟩ := bind_eq_ok_iff.mp h
      rw [eq_of_ofMatrix h]
      exact unpaired_singleton _
  | chain id a b iha ihb =>
      rw [keepTargets_eq hproper, targetSteps, List.reverse_append] at h
      obtain ⟨last, second, hsecond⟩ := List.exists_cons_of_ne_nil
        (List.reverse_ne_nil_iff.mpr (targetSteps_ne_nil (.standard options) b))
      obtain ⟨previous, earlier, hfirst⟩ := List.exists_cons_of_ne_nil
        (List.append_ne_nil_of_right_ne_nil second
          (List.reverse_ne_nil_iff.mpr (targetSteps_ne_nil (.standard options) a)))
      rw [hsecond, List.cons_append, hfirst] at h
      exact unpaired_keepChain hfold h
  | passThrough id k inner n ih =>
      rw [keepTargets_singleton rfl hproper] at h
      rcases keepPassThrough_cases h with ⟨matrix, hmade⟩ | ⟨kept, wrapper, hselected, hwrapper⟩
      · rw [eq_of_ofMatrix hmade]
        exact unpaired_singleton _
      · rcases selectWrapped_cases hselected with ⟨_, rfl⟩ | ⟨selection, hconcatenated⟩
        · rcases hwrapper with rfl | ⟨reduced, hkept, hreduced, hmade⟩
          · exact unpaired_singleton _
          · rcases passThroughSimplified_cases hmade with ⟨_, _, rfl⟩ | hsingle
            · exact ih hkept hreduced
            · rw [hsingle]
              exact unpaired_singleton _
        · exact unpaired_concatenateWith hfold hconcatenated
  | kernel id kernel =>
      rw [keepTargets_singleton rfl hproper] at h
      cases h

end Reduced

section Completeness

variable {κ α : Type} [Kernel κ α] [Scalar α] {options : AssemblyOptions} {P : κ → Prop}
  {n m : Nat} {R kept : List Nat} {id : NodeId} {matrix : DenseMatrix α} {t t' : Transform κ α}

/-- What can hide an unused source from trimming: linear steps that are folded only after the first
of them has been trimmed, or a first step that is left out once it has been. -/
def Blurs (options : AssemblyOptions) (t : Transform κ α) (R : List Nat) : Prop :=
  (options.foldLinear = true ∧ isFull R t.targetDimensions = true ∧ 2 ≤ t.steps.length ∧
      ∀ s ∈ t.steps, s.isLinear = true) ∨
    (options.foldLinear = false ∧ options.elideIdentity = true ∧ ∃ t' id matrix rest,
      t.keepTargets (.standard options) R = .ok t' ∧ t'.steps = linear id matrix :: rest ∧
        rest ≠ [] ∧ (matrix.keepColumns (usedColumns matrix)).isIdentity = true)

/-- The first step of a chain lasts once it has been trimmed, or a later one does that is not
linear. -/
def StaysApart (options : AssemblyOptions) (t : Transform κ α) : Prop :=
  ∀ id matrix rest, t.steps = linear id matrix :: rest → rest ≠ [] →
    Lasts options (linear none (matrix.keepColumns (usedColumns matrix)) : Transform κ α) ∨
      ∃ s ∈ rest, s.isLinear = false

/-- What is kept of the targets stays apart where nothing can hide an unused source. -/
theorem staysApart_keepTargets (hsharp : ¬Blurs options t R)
    (h : t.keepTargets (.standard options) R = .ok t') : StaysApart options t' := by
  intro id matrix rest hsteps hrest
  cases hfold : options.foldLinear with
  | false =>
      refine .inl (.inr ⟨hfold, fun helide => ?_⟩)
      by_contra hid
      exact hsharp (.inr ⟨hfold, helide, t', id, matrix, rest, h, hsteps, hrest,
        Bool.eq_true_of_not_eq_false hid⟩)
  | true =>
      refine .inr ?_
      by_contra hnone
      have hlinear : ∀ s ∈ t'.steps, s.isLinear = true := by
        intro s hs
        rw [hsteps] at hs
        rcases List.mem_cons.mp hs with rfl | hs
        · rfl
        · by_contra hnonlinear
          exact hnone ⟨s, hs, Bool.eq_false_iff.mpr hnonlinear⟩
      have hlen : 2 ≤ t'.steps.length := by
        have := List.length_pos_iff.mpr hrest
        rw [hsteps, List.length_cons]
        omega
      cases hfull : isFull R t.targetDimensions with
      | true =>
          rw [keepTargets_whole hfull] at h
          obtain rfl : t = t' := Except.ok.inj h
          exact hsharp (.inl ⟨hfold, hfull, hlen, hlinear⟩)
      | false =>
          have := (unpaired_keepTargets hfold hfull h).length_le hlinear
          omega

variable [LawfulScalar α]

/-- Of a linear transform that trimming leaves all sources are used, or none. -/
theorem uses_of_trimSources (h : Fits P n t m) (hapart : StaysApart options t)
    (htrim : t.trimSources (.standard options) = .ok (linear id matrix, kept)) :
    UsesAll matrix ∨ UsesNone matrix := by
  unfold trimSources at htrim
  split at htrim
  · rename_i id₀ head rest hsteps
    have hlinked := h.linked_steps
    rw [hsteps] at hlinked
    obtain ⟨l, hfirst, _⟩ := hlinked
    simp only [trimMatrix_eq_ok hfirst.linear.1, ok_bind] at htrim
    by_cases hkeep : usedColumns head = [] ∨ (usedColumns head).length = head.cols - 1
    · -- nothing is trimmed, so the transform is its only step
      rw [if_pos hkeep] at htrim
      obtain ⟨rfl, _⟩ := Prod.mk.inj (Except.ok.inj htrim)
      cases hsteps
      exact hkeep.symm.imp usesAll_iff.mpr usesNone_of_usedColumns
    · rw [if_neg hkeep] at htrim
      obtain ⟨head', hhead, htrim⟩ := bind_eq_ok_iff.mp htrim
      obtain rfl := eq_of_ofMatrix hhead
      obtain ⟨result, hresult, htrim⟩ := bind_eq_ok_iff.mp htrim
      obtain ⟨rfl, _⟩ := Prod.mk.inj (Except.ok.inj htrim)
      -- a step that lasts is the result
      have hlast : ∀ s, Lasts options s → (∃ part ∈ linear none
          (head.keepColumns (usedColumns head)) :: rest, s ∈ part.steps) → s = linear id matrix :=
        fun s hs hmem => List.mem_singleton.mp (mem_steps_compose hs hmem hresult)
      have hnarrowed : (linear none (head.keepColumns (usedColumns head)) : Transform κ α) =
          linear id matrix → UsesAll matrix := by
        intro hsame
        cases hsame
        exact usesAll_keepColumns head
      by_cases hrest : rest = []
      · subst hrest
        exact .inl (hnarrowed (Except.ok.inj hresult))
      · rcases hapart id₀ head rest hsteps hrest with hlasts | ⟨s, hs, hnonlinear⟩
        · exact .inl (hnarrowed (hlast _ hlasts ⟨_, List.mem_cons_self, List.mem_singleton_self _⟩))
        · have hsingle : s.steps = [s] :=
            steps_of_mem_steps (hsteps ▸ List.mem_cons_of_mem _ hs : s ∈ t.steps)
          have hlinear := hlast s (.inl hnonlinear)
            ⟨s, List.mem_cons_of_mem _ hs, hsingle ▸ List.mem_singleton_self s⟩
          rw [hlinear] at hnonlinear
          cases hnonlinear
  · rename_i hother
    obtain ⟨rfl, _⟩ := Prod.mk.inj (Except.ok.inj htrim)
    exact absurd rfl (hother id matrix [])

end Completeness

end Transform

namespace Separation

open Transform Outcome

section Trimming

variable {κ α : Type} [Kernel κ α] [Scalar α] [LawfulScalar α] {P : κ → Prop}
  {options : AssemblyOptions} {t : Transform κ α} {R : List Nat} {s : Separation κ α} {id : NodeId}
  {matrix : DenseMatrix α}

/-- Of a linear result all sources are used, or none. -/
theorem uses_of_byTargets (h : t.Admissible P) (hR : Increasing R t.targetDimensions)
    (hs : byTargets (.standard options) t R ⟨true⟩ = .ok s)
    (hlinear : s.transform = linear id matrix) (hsharp : ¬Blurs options t R) :
    UsesAll matrix ∨ UsesNone matrix := by
  obtain ⟨_, _, t', hkeep, hend, _⟩ := separates_of_byTargets h hR hs
  obtain ⟨t'', hkeep', hpart⟩ := keepTargets_eq_ok options h.fits hR hend
  obtain rfl : t'' = t' := Except.ok.inj (hkeep'.symm.trans hkeep)
  unfold byTargets at hs
  simp only [hkeep, ok_bind, if_true] at hs
  obtain ⟨⟨trimmed, kept⟩, htrim, hs⟩ := bind_eq_ok_iff.mp hs
  cases hs
  obtain rfl : trimmed = linear id matrix := hlinear
  exact uses_of_trimSources hpart.fits (staysApart_keepTargets hsharp hkeep) htrim

end Trimming

section Binary64

variable {κ : Type} [Kernel κ Float] {t : Transform κ Float}

/-- Trimming leaves a linear result with sources that are all used, or none of which is, unless
the steps are simplified only after it. -/
theorem separate_trimmed (ht : t.WellFormed) {options : AssemblyOptions}
    {sources targets : Option (List Nat)} (hsources : sources.getD [] = [])
    {s : Separation κ Float}
    (hs : separate (.standard options) t sources targets ⟨true⟩ = .ok s) {id : NodeId}
    {matrix : DenseMatrix Float} (hlinear : s.transform = linear id matrix)
    (hsharp : ¬Blurs options t (requestedTargets t.targetDimensions targets)) :
    UsesAll matrix ∨ UsesNone matrix := by
  obtain ⟨hincreasing, htargets⟩ := increasing_of_separate hs
  have hproper : properSources t.sourceDimensions sources = none := by
    by_contra hsome
    obtain ⟨S, hS⟩ := Option.ne_none_iff_exists'.mp hsome
    obtain ⟨rfl, hne, _⟩ := properSources_eq_some_iff.mp hS
    exact hne hsources
  rw [separate_eq hincreasing htargets, hproper] at hs
  exact uses_of_byTargets ht.admissible (increasing_requestedTargets htargets) hs hlinear hsharp

/-- Three coordinates, of which the second one goes to the second target only and the third one is
lost in the first step. -/
def losingChain : Transform SyntheticKernel Float :=
  chain none
    (linear none ⟨4, 4, #[1, 0, 0, 1, 0, 2, 0, 0, 0, 0, 0, 3, 0, 0, 0, 1], by decide +kernel⟩)
    (linear none ⟨3, 4, #[1, 0, 4, 0, 0, 1, 0, 0, 0, 0, 0, 1], by decide +kernel⟩)

/-- The first target of the losing chain uses the first source only. -/
theorem separate_losingChain :
    ∃ s id matrix,
      separate (.standard {}) losingChain none (some [0]) ⟨true⟩ = .ok s ∧
      s.sourceDimensions = [0] ∧ s.transform = linear id matrix ∧
      (UsesAll matrix ∨ UsesNone matrix) := by
  have hwell : losingChain.WellFormed := by decide +kernel
  have hsharp : ¬Blurs {} losingChain (requestedTargets losingChain.targetDimensions (some [0])) := by
    have hproper : isFull (requestedTargets losingChain.targetDimensions (some [0]))
        losingChain.targetDimensions = false := by
      decide +kernel
    rintro (⟨_, hfull, _⟩ | ⟨hfold, _⟩)
    · rw [hproper] at hfull
      cases hfull
    · cases hfold
  have hfound : (fun s => (s.sourceDimensions, s.transform.isLinear)) <$>
      separate (.standard {}) losingChain none (some [0]) ⟨true⟩ = .ok ([0], true) := by
    decide +kernel
  obtain ⟨s, hs, hparts⟩ := map_eq_ok_iff.mp hfound
  obtain ⟨hsource, hislinear⟩ := Prod.mk.inj hparts
  obtain ⟨id, matrix, hlinear⟩ := isLinear_iff.mp hislinear
  exact ⟨s, id, matrix, hs, hsource, hlinear, separate_trimmed hwell rfl hs hlinear hsharp⟩

/-- Two coordinates, of which only the first one reaches the target.  The first step uses both. -/
def foldedLate : Transform SyntheticKernel Float :=
  chain none
    (linear none ⟨3, 4, #[1, 0, 0, 0, 0, 1, 0, 2, 0, 0, 0, 1], by decide +kernel⟩)
    (linear none ⟨2, 3, #[1, 0, 5, 0, 0, 1], by decide +kernel⟩)

/-- A source stays that the target does not depend on, because the steps are folded too late. -/
theorem separate_foldedLate :
    foldedLate.WellFormed ∧ ∃ s id matrix,
      separate (.standard {}) foldedLate none none ⟨true⟩ = .ok s ∧ s.sourceDimensions = [0, 1] ∧
      s.transform = linear id matrix ∧ ¬(UsesAll matrix ∨ UsesNone matrix) := by
  have hfound : (fun s => (s.sourceDimensions, s.transform.matrix?.map fun matrix =>
        (decide (UsesAll matrix), decide (UsesNone matrix)))) <$>
      separate (.standard {}) foldedLate none none ⟨true⟩ = .ok ([0, 1], some (false, false)) := by
    decide +kernel
  obtain ⟨s, hs, hparts⟩ := map_eq_ok_iff.mp hfound
  obtain ⟨hsource, husage⟩ := Prod.mk.inj hparts
  obtain ⟨matrix, hmatrix, huses⟩ := Option.map_eq_some_iff.mp husage
  obtain ⟨hall, hnone⟩ := Prod.mk.inj huses
  have hlinear : ∃ id, s.transform = linear id matrix := by
    cases htransform : s.transform with
    | linear id m =>
        rw [htransform] at hmatrix
        obtain rfl : m = matrix := Option.some.inj hmatrix
        exact ⟨id, rfl⟩
    | _ =>
        rw [htransform] at hmatrix
        cases hmatrix
  obtain ⟨id, hlinear⟩ := hlinear
  refine ⟨by decide +kernel, s, id, matrix, hs, hsource, hlinear, ?_⟩
  exact not_or.mpr ⟨of_decide_eq_false hall, of_decide_eq_false hnone⟩

end Binary64

end Separation
end SeparableTransforms
