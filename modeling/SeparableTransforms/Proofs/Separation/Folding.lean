import SeparableTransforms.Kernels.Synthetic
import SeparableTransforms.Proofs.Binary64.Agreement
import SeparableTransforms.Proofs.Separation.Results
import SeparableTransforms.Proofs.Transform.LinearFolding

/-!
# Separation and folding

Linear steps may be folded before some of the targets are separated or after it.
Folding first leaves a single matrix of which rows are selected.  Separating first
narrows step after step, from the last to the first, until a step uses all of its
inputs or none.  What is dropped on the way are rows that meet columns of zeros, so
the product of the narrowed steps is exactly the product with its rows selected,
also where coefficients are infinite or not determined.
-/

namespace SeparableTransforms
namespace Transform

open Outcome

section Narrowing

variable {κ α : Type} [Kernel κ α] [Scalar α] [LawfulScalar α] {options : AssemblyOptions}
  {P : κ → Prop} {n m : Nat} {R : List Nat} {p : DenseMatrix α} {t : Transform κ α}
  {steps : List (TargetStep κ α)}

/-- An unused column is zero in the last row as well. -/
theorem isZero_of_unused {matrix : DenseMatrix α} (h : matrix.isAffine = true) {r c : Nat}
    (hr : r < matrix.rows) (hc : c < matrix.cols - 1) (hout : c ∉ usedColumns matrix) :
    (matrix.entry r c == 0) = true := by
  by_cases hlast : r < matrix.rows - 1
  · exact isZero_of_not_mem_usedColumns hlast hc hout
  · obtain rfl : r = matrix.rows - 1 := by omega
    exact DenseMatrix.isAffine_lastRow_beq_zero h hc

/-- A linear step that is reduced by selecting rows. -/
def TargetStep.SelectsRows (s : TargetStep κ α) : Prop :=
  ∀ id (m : DenseMatrix α), s.step = linear id m → m.isAffine = true → 2 ≤ m.cols →
    ∀ R, Increasing R (m.rows - 1) → s.reduce R = .ok (linear none (m.keepRows R))

theorem selectsRows_targetSteps (options : AssemblyOptions) (t : Transform κ α) :
    ∀ s ∈ t.targetSteps (.standard options), s.SelectsRows := by
  induction t with
  | linear id m =>
      intro s hs id' m' hstep haffine hcols R hR
      obtain rfl := List.mem_singleton.mp hs
      obtain ⟨rfl, rfl⟩ : id = id' ∧ m = m' := by
        simpa using hstep
      have hmade : (Assembler.standard options).affine (m.keepRows R) =
          .ok (linear none (m.keepRows R) : Transform κ α) :=
        ofMatrix_eq_ok (DenseMatrix.isAffine_keepRows haffine R) hcols
      simp only [targetRows_eq_ok haffine hR, ok_bind, hmade]
  | chain id a b iha ihb =>
      intro s hs
      exact (List.mem_append.mp hs).elim (iha s) (ihb s)
  | passThrough id k inner n ih =>
      intro s hs id' m' hstep
      obtain rfl := List.mem_singleton.mp hs
      cases hstep
  | kernel id k =>
      intro s hs id' m' hstep
      obtain rfl := List.mem_singleton.mp hs
      cases hstep

/-- A single linear step keeps its rows. -/
theorem keep_of_selectsRows {s : TargetStep κ α} {id : NodeId} {matrix : DenseMatrix α}
    (hs : s.SelectsRows) (hstep : s.step = linear id matrix) (hfits : Fits P n s.step m)
    (hR : Increasing R m) : ∃ id', s.keep R = .ok (linear id' (matrix.keepRows R)) := by
  rw [hstep] at hfits
  obtain ⟨haffine, hrows, hcols, hpos⟩ := hfits.linear
  unfold TargetStep.keep
  split
  · rename_i hfull
    have hall := isFull_iff.mp hfull
    rw [hstep, hfits.target] at hall
    refine ⟨id, ?_⟩
    have hm : m = matrix.rows - 1 := by omega
    rw [hall, hm, DenseMatrix.keepRows_range (by omega), hstep]
  · exact ⟨none, hs id matrix hstep haffine (by omega) R (by rwa [hrows, Nat.add_sub_cancel])⟩

/-- The columns that the selected rows do not use are left out of the product, with the rows that
they would meet. -/
theorem product_usedColumns {matrix q : DenseMatrix α} (haffine : matrix.isAffine = true)
    (hfit : matrix.cols = q.rows) (hrows : 0 < q.rows) :
    ((matrix.keepRows R).keepColumns (usedColumns (matrix.keepRows R))).product
        (q.keepRows (usedColumns (matrix.keepRows R))) = (matrix.keepRows R).product q :=
  DenseMatrix.product_keepColumns (DenseMatrix.cols_keepRows.trans hfit) hrows
    (increasing_usedColumns _) fun _ hr _ hc hout =>
      isZero_of_unused (DenseMatrix.isAffine_keepRows haffine R) hr hc hout

variable (options) in
/-- The narrowed steps have the product of the steps, with its rows selected. -/
theorem multiplies_keepChain (hsteps : ∀ s ∈ steps, s.SelectsRows)
    (hlinked : Linked P n (steps.map TargetStep.step).reverse m)
    (hp : Multiplies (steps.map TargetStep.step) p) (hR : Increasing R m) :
    ∃ parts, keepChain (.standard options) steps R = .ok parts ∧
      Multiplies parts.reverse (p.keepRows R) := by
  induction steps generalizing p m R with
  | nil => cases hp
  | cons s rest ih =>
      have hs := hsteps s List.mem_cons_self
      have hrest := fun s' hs' => hsteps s' (List.mem_cons_of_mem s hs')
      rw [List.map_cons, List.reverse_cons] at hlinked
      obtain ⟨l, hearlier, hlast⟩ := linked_append.mp hlinked
      have hlast := linked_singleton.mp hlast
      obtain ⟨id, matrix, hstep, hp⟩ := hp
      have hfits := hlast
      rw [hstep] at hfits
      obtain ⟨haffine, hrows, hcols, hpos⟩ := hfits.linear
      cases rest with
      | nil =>
          rcases hp with ⟨_, rfl⟩ | ⟨q, hq, _⟩
          · obtain ⟨id', hkeep⟩ := keep_of_selectsRows hs hstep hlast hR
            refine ⟨[linear id' (p.keepRows R)], ?_, multiplies_singleton⟩
            rw [keepChain, hkeep]
            rfl
          · cases hq
      | cons previous earlier =>
          obtain ⟨q, hq, rfl⟩ := hp.resolve_left fun h => List.cons_ne_nil _ _ h.1
          obtain ⟨haffine', hrows', hcols', _⟩ := (hq.fits hearlier).linear
          have hbound : ∀ r ∈ R, r < matrix.rows - 1 := fun r hr => by
            have := hR.bounded r hr
            omega
          have hselected := DenseMatrix.product_keepRows (b := q) (by omega) hbound
          have hused := increasing_usedColumns_keepRows hfits R
          obtain ⟨reduced, hreduced, hmultiplies⟩ := ih hrest hearlier hq hused
          rcases keepChain_linear hstep hlast hR (.inl ⟨reduced, hreduced⟩) with
            ⟨_, reduced', hreduced', hkeep⟩ | hkeep
          · obtain rfl : reduced = reduced' := Except.ok.inj (hreduced.symm.trans hreduced')
            refine ⟨_, hkeep, ?_⟩
            rw [List.reverse_append, List.reverse_singleton, List.singleton_append, ← hselected,
              ← product_usedColumns haffine (by omega) (by omega)]
            exact hmultiplies.cons
          · refine ⟨_, hkeep, ?_⟩
            rw [List.reverse_append, List.reverse_singleton, List.singleton_append,
              List.reverse_reverse, ← hselected]
            exact hq.cons

/-- The targets kept of a transform made of linear steps have the product of these steps, with its
rows selected. -/
theorem multiplies_keepTargets (h : Fits P n t m) (hp : Multiplies t.steps.reverse p)
    (hR : Increasing R m) :
    ∃ t', t.keepTargets (.standard .verbatim) R = .ok t' ∧ Fits P n t' R.length ∧
      Multiplies t'.steps.reverse (p.keepRows R) := by
  have hopen : endsInKernel t.steps = false := by
    by_contra hend
    obtain ⟨earlier, id, k, hsteps⟩ :=
      endsInKernel_iff.mp (Bool.eq_true_of_not_eq_false hend)
    rw [hsteps, List.reverse_append] at hp
    obtain ⟨_, _, hlinear, _⟩ := hp
    cases hlinear
  obtain ⟨t', ht', hpart⟩ := keepTargets_eq_ok .verbatim h hR
    (by rw [hopen]; exact nofun)
  refine ⟨t', ht', hpart.fits, ?_⟩
  cases hfull : isFull R m with
  | true =>
      rw [keepTargets_whole (by rwa [h.target])] at ht'
      obtain rfl : t = t' := Except.ok.inj ht'
      obtain ⟨_, hrows, _⟩ :=
        (hp.fits (by rw [List.reverse_reverse]; exact h.linked_steps)).linear
      have hm : m = p.rows - 1 := by omega
      rw [isFull_iff.mp hfull, hm, DenseMatrix.keepRows_range (by omega)]
      exact hp
  | false =>
      have hreverse := reverse_step_targetSteps (.standard .verbatim) t
      have hmap := List.reverse_eq_iff.mp hreverse
      obtain ⟨parts, hkeep, hmultiplies⟩ := multiplies_keepChain .verbatim
        (fun s hs => selectsRows_targetSteps .verbatim t s (List.mem_reverse.mp hs))
        (hreverse ▸ h.linked_steps) (hmap ▸ hp) hR
      rw [keepTargets_eq (by rwa [h.target]), hkeep, ok_bind] at ht'
      have hsingle : parts.flatMap Transform.steps = parts := by
        have hflat := List.flatMap_congr fun s hs =>
          hmultiplies.single s (List.mem_reverse.mpr hs)
        simpa using hflat
      rwa [steps_of_compose_verbatim ht', hsingle]

variable (options) in
/-- The targets kept of a single linear step are rows of its matrix. -/
theorem keepTargets_linear {id : NodeId} {matrix : DenseMatrix α}
    (h : Fits P n (linear id matrix : Transform κ α) m) (hR : Increasing R m) :
    ∃ id', (linear id matrix : Transform κ α).keepTargets (.standard options) R =
      .ok (linear id' (matrix.keepRows R)) := by
  have hs := selectsRows_targetSteps options (linear id matrix : Transform κ α) _
    List.mem_cons_self
  obtain ⟨id', hkeep⟩ := keep_of_selectsRows (P := P) hs rfl h hR
  exact ⟨id', hkeep⟩

end Narrowing

end Transform

namespace Separation

open Transform

section Folding

variable {κ : Type} [Kernel κ Float] {t : Transform κ Float}

/-- Separating targets of linear steps and folding what is left gives the matrix that folding the
steps and separating the targets gives. -/
theorem separate_compose_linear (ht : t.WellFormed)
    (hlinear : ∀ s ∈ t.steps, ∃ id m, s = linear id m) {targets : List Nat} (hne : targets ≠ [])
    (htargets : Increasing targets t.targetDimensions) :
    ∃ (narrowed whole : Separation κ Float) (folded : Transform κ Float) (id id' : NodeId)
        (m m' : DenseMatrix Float),
      separate (.standard .verbatim) t none (some targets) ⟨false⟩ = .ok narrowed ∧
      (Assembler.standard {}).compose narrowed.transform.steps = .ok (linear id m) ∧
      (Assembler.standard {}).compose t.steps = .ok folded ∧
      separate (.standard {}) folded none (some targets) ⟨false⟩ = .ok whole ∧
      whole.transform = linear id' m' ∧ (m == m') = true ∧
      narrowed.sourceDimensions = whole.sourceDimensions ∧
      narrowed.targetDimensions = whole.targetDimensions := by
  have hfits := ht.admissible.fits
  have hfold : ({} : AssemblyOptions).foldLinear = true := rfl
  have hlinked : Linked _ _ t.steps.reverse.reverse _ :=
    t.steps.reverse_reverse ▸ hfits.linked_steps
  obtain ⟨p, hp⟩ := exists_multiplies (List.reverse_ne_nil_iff.mpr t.steps_ne_nil)
    fun s hs => hlinear s (List.mem_reverse.mp hs)
  -- the steps folded first
  obtain ⟨id', f, hfolded, hfp, hfitsf⟩ := hp.compose hfold hlinked
  rw [List.reverse_reverse] at hfolded
  obtain ⟨id'', hselected⟩ := keepTargets_linear {} hfitsf htargets
  -- the targets separated first
  obtain ⟨t', hkeep, hfits', hnarrowed⟩ := multiplies_keepTargets hfits hp htargets
  obtain ⟨id, m, hm, hmp, _⟩ := hnarrowed.compose hfold
    (t'.steps.reverse_reverse ▸ hfits'.linked_steps)
  rw [List.reverse_reverse] at hm
  obtain ⟨_, hrows, hcols, _⟩ := hfitsf.linear
  have hrow : (f.keepRows targets == p.keepRows targets) = true :=
    DenseMatrix.keepRows_congr (by omega)
      (fun r hr => by have := htargets.bounded r hr; omega) hfp
  refine ⟨⟨t', List.range t.sourceDimensions, targets⟩,
    ⟨linear id'' (f.keepRows targets), List.range t.sourceDimensions, targets⟩, linear id' f,
    id, id'', m, f.keepRows targets, ?_, hm, hfolded, ?_, rfl,
    DenseMatrix.beq_trans hmp (DenseMatrix.beq_symm hrow), rfl, rfl⟩
  · rw [separate_targets hne htargets, hkeep]
    rfl
  · rw [separate_targets hne (by rwa [hfitsf.target]), hselected, hfitsf.source]
    rfl

/-- Three linear steps, with coefficients that are infinite or not determined.  The first target
needs one coordinate of the second step, and so on. -/
def incompleteChain : Transform SyntheticKernel Float :=
  chain none
    (chain none
      (linear none ⟨3, 3, #[2, 0, 1, 0, 0 / 0, 0, 0, 0, 1], by decide +kernel⟩)
      (linear none ⟨4, 3, #[1, 0, 0, 0, 1 / 0, 3, 1, 1, 0, 0, 0, 1], by decide +kernel⟩))
    (linear none ⟨3, 4, #[5, 0, 0, 1, 0, 1, 0 / 0, 0, 0, 0, 0, 1], by decide +kernel⟩)

/-- The first target of the incomplete chain. -/
theorem separate_compose_incompleteChain :
    ∃ (narrowed whole : Separation SyntheticKernel Float)
        (folded : Transform SyntheticKernel Float) (id id' : NodeId) (m m' : DenseMatrix Float),
      separate (.standard .verbatim) incompleteChain none (some [0]) ⟨false⟩ = .ok narrowed ∧
      (Assembler.standard {}).compose narrowed.transform.steps = .ok (linear id m) ∧
      (Assembler.standard {}).compose incompleteChain.steps = .ok folded ∧
      separate (.standard {}) folded none (some [0]) ⟨false⟩ = .ok whole ∧
      whole.transform = linear id' m' ∧ (m == m') = true ∧
      narrowed.sourceDimensions = whole.sourceDimensions ∧
      narrowed.targetDimensions = whole.targetDimensions := by
  have hwell : incompleteChain.WellFormed := by decide +kernel
  have hlinear : ∀ s ∈ incompleteChain.steps, ∃ id m, s = linear id m := by
    simp [incompleteChain, steps]
  have htargets : Increasing [0] incompleteChain.targetDimensions :=
    ⟨List.pairwise_singleton _ _, by decide +kernel⟩
  exact separate_compose_linear hwell hlinear (List.cons_ne_nil _ _) htargets

end Folding

end Separation
end SeparableTransforms
