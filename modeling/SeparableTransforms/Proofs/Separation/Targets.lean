import SeparableTransforms.Proofs.Transform.Simulation
import SeparableTransforms.Separation.Targets

/-!
# Keeping some outputs

Any increasing list of outputs can be kept, unless the transform ends in a kernel.
The result takes all sources and gives the outputs in the list, and as long as
nothing is folded it computes what the whole transform computes there.

The reduction of a chain is an induction over its steps, from the last to the
first.  Where the last step is linear, the columns that are dropped from it are
columns of zeros, so they leave every sum as it was.
-/

namespace SeparableTransforms
namespace Transform

open Outcome

section Parts

variable {κ α : Type} [Kernel κ α] [Scalar α]

/-- The result of keeping the outputs `R` of a transform with the given steps. -/
structure TargetPart (options : AssemblyOptions) (P : κ → Prop) (n : Nat)
    (steps : List (Transform κ α)) (R : List Nat) (t' : Transform κ α) : Prop where
  fits : Fits P n t' R.length
  computes : Faithful (α := α) options P → ∀ p v, Runs steps p v →
    ∃ w, t'.apply p = .ok w ∧ SamePoint w (pick v R)

/-- The same for a result that is still a list of transforms. -/
structure TargetParts (options : AssemblyOptions) (P : κ → Prop) (n : Nat)
    (steps : List (Transform κ α)) (R : List Nat) (parts : List (Transform κ α)) : Prop where
  linked : Linked P n parts R.length
  nonempty : parts ≠ []
  computes : Faithful (α := α) options P → ∀ p v, Runs steps p v →
    ∃ w, Runs parts p w ∧ SamePoint w (pick v R)

variable {options : AssemblyOptions} {P : κ → Prop} {n m l : Nat} {R : List Nat}
  {s t t' : Transform κ α} {steps parts earlier : List (Transform κ α)}

theorem TargetPart.singleton (h : TargetPart options P n steps R t') :
    TargetParts options P n steps R [t'] where
  linked := linked_singleton.mpr h.fits
  nonempty := List.cons_ne_nil _ _
  computes hP p v hv := by
    obtain ⟨w, hw, hsame⟩ := h.computes hP p v hv
    exact ⟨w, runs_singleton.mpr hw, hsame⟩

/-- The last step reduced on its own, with the steps before it as they are. -/
theorem targetParts_last (hearlier : Linked P n earlier l)
    (hpart : TargetPart options P l [s] R t) :
    TargetParts options P n (earlier ++ [s]) R (earlier ++ [t]) where
  linked := linked_append.mpr ⟨l, hearlier, linked_singleton.mpr hpart.fits⟩
  nonempty := by simp
  computes hP p v hv := by
    obtain ⟨u, hu, hv⟩ := runs_append.mp hv
    obtain ⟨w, hw, hsame⟩ := hpart.computes hP u v hv
    exact ⟨w, runs_append.mpr ⟨u, hu, runs_singleton.mpr hw⟩, hsame⟩

variable [LawfulScalar α]

/-- The parts can be composed. -/
theorem TargetParts.compose (h : TargetParts options P n steps R parts) :
    ∃ t', (Assembler.standard options).compose parts = .ok t' ∧
      TargetPart options P n steps R t' := by
  obtain ⟨t', ht', hfits, _⟩ := compose_eq_ok options h.linked h.nonempty
  refine ⟨t', ht', hfits, fun hP p v hv => ?_⟩
  obtain ⟨w, hw, hsame⟩ := h.computes hP p v hv
  obtain ⟨w', hw', hsame'⟩ := runs_compose h.linked hP ht' (h.linked.runs_flatMap.mpr hw)
  exact ⟨w', (apply_iff_runs hfits.admissible.wellFormed).mpr hw', hsame'.symm.trans hsame⟩

/-- A transform keeps all of its outputs by staying as it is. -/
theorem Fits.targetPart_whole (h : Fits P n t m) (hR : isFull R m = true)
    (hsteps : ∀ p v, Runs steps p v → t.apply p = .ok v) :
    TargetPart options P n steps R t := by
  obtain rfl := isFull_iff.mp hR
  refine ⟨by simpa using h, fun _ p v hv => ?_⟩
  have hlen := length_apply (hsteps p v hv)
  exact ⟨v, hsteps p v hv, by rw [pick_range (hlen.trans h.target)]; exact SamePoint.refl v⟩

end Parts

section Columns

variable {α : Type} [Scalar α] {matrix : DenseMatrix α}

theorem increasing_usedColumns (matrix : DenseMatrix α) :
    Increasing (usedColumns matrix) (matrix.cols - 1) :=
  increasing_filter_range _ _

/-- A column that is not used holds zeros. -/
theorem isZero_of_not_mem_usedColumns {r c : Nat} (hr : r < matrix.rows - 1)
    (hc : c < matrix.cols - 1) (hout : c ∉ usedColumns matrix) :
    (matrix.entry r c == 0) = true := by
  have hzero : (matrix.coefficient r c).isZero = true := by
    simp only [usedColumns, List.mem_filter, List.mem_range, hc, true_and, List.any_eq_true,
      Bool.not_eq_true', not_exists, not_and, Bool.not_eq_false] at hout
    exact hout r hr
  unfold DenseMatrix.coefficient Coefficient.ofScalar at hzero
  split at hzero
  · cases hzero
  · exact hzero

variable (matrix) in
/-- The unused columns may be dropped together with their coordinates. -/
theorem applyAffine_usedColumns {p : List α} (hp : p.length = matrix.cols - 1) :
    applyAffine (matrix.keepColumns (usedColumns matrix)) (pick p (usedColumns matrix)) =
      applyAffine matrix p :=
  applyAffine_keepColumns hp (increasing_usedColumns matrix) fun _ hr _ hc hout =>
    isZero_of_not_mem_usedColumns hr hc hout

end Columns

section Rows

variable {κ α : Type} [Kernel κ α] [Scalar α] [LawfulScalar α] {options : AssemblyOptions}
  {P : κ → Prop} {n m l : Nat} {R used : List Nat} {matrix : DenseMatrix α}
  {earlier reduced : List (Transform κ α)} {s t : Transform κ α}

theorem targetRows_eq_ok (h : matrix.isAffine = true) (hR : Increasing R (matrix.rows - 1)) :
    targetRows matrix R = .ok (matrix.keepRows R) := by
  rw [targetRows, DenseMatrix.selectRows_last (DenseMatrix.isAffine_rows_pos h) hR.bounded]
  rfl

variable (options) in
/-- Selected rows of a linear transform. -/
theorem targetPart_rows {id : NodeId} (h : Fits P n (linear id matrix : Transform κ α) m)
    (hR : Increasing R m) :
    ofMatrix (matrix.keepRows R) = .ok (linear none (matrix.keepRows R) : Transform κ α) ∧
      TargetPart options P n [linear id matrix] R (linear none (matrix.keepRows R)) := by
  obtain ⟨haffine, hrows, hcols, hpos⟩ := h.linear
  have hkept := DenseMatrix.isAffine_keepRows haffine R
  have hcols' : (matrix.keepRows R).cols = n + 1 := hcols
  refine ⟨ofMatrix_eq_ok hkept (by omega),
    fits_linear hkept DenseMatrix.rows_keepRows hcols' hpos, fun _ p v hv => ?_⟩
  obtain ⟨hlen, rfl⟩ := apply_linear_iff.mp (runs_singleton.mp hv)
  refine ⟨applyAffine (matrix.keepRows R) p, apply_linear_iff.mpr ⟨hlen, rfl⟩, ?_⟩
  rw [applyAffine_keepRows (by omega) hlen fun r hr => by have := hR.bounded r hr; omega]
  exact SamePoint.refl _

/-- The unused columns of the last step dropped, and the steps before it reduced to the others. -/
theorem targetParts_narrowed {id : NodeId}
    (h : Fits P l (linear id matrix : Transform κ α) m) (hR : Increasing R m)
    (hused : usedColumns (matrix.keepRows R) = used) (hne : used ≠ [])
    (hreduced : TargetParts options P n earlier used reduced) :
    ofMatrix ((matrix.keepRows R).keepColumns used) =
        .ok (linear none ((matrix.keepRows R).keepColumns used) : Transform κ α) ∧
      TargetParts options P n (earlier ++ [linear id matrix]) R
        (reduced ++ [linear none ((matrix.keepRows R).keepColumns used)]) := by
  obtain ⟨haffine, hrows, hcols, hpos⟩ := h.linear
  have hkept := DenseMatrix.isAffine_keepRows haffine R
  have hincreasing : Increasing used ((matrix.keepRows R).cols - 1) :=
    hused ▸ increasing_usedColumns _
  have hnarrow := DenseMatrix.isAffine_keepColumns hkept hincreasing.bounded
  have hlen : 0 < used.length := List.length_pos_iff.mpr hne
  refine ⟨ofMatrix_eq_ok hnarrow (by rw [DenseMatrix.cols_keepColumns]; omega), ?_, by simp, ?_⟩
  · exact linked_append.mpr ⟨used.length, hreduced.linked, linked_singleton.mpr
      (fits_linear hnarrow DenseMatrix.rows_keepRows DenseMatrix.cols_keepColumns hlen)⟩
  · intro hP p v hv
    obtain ⟨u, hu, hv⟩ := runs_append.mp hv
    obtain ⟨hlenu, rfl⟩ := apply_linear_iff.mp (runs_singleton.mp hv)
    obtain ⟨u', hu', hsame⟩ := hreduced.computes hP p u hu
    have hlenu' : u'.length = used.length := by rw [hsame.length_eq, length_pick]
    refine ⟨applyAffine ((matrix.keepRows R).keepColumns used) u',
      runs_append.mpr ⟨u', hu', runs_singleton.mpr (apply_linear_iff.mpr
        ⟨by rw [DenseMatrix.cols_keepColumns]; omega, rfl⟩)⟩, ?_⟩
    have himage : applyAffine ((matrix.keepRows R).keepColumns used) (pick u used) =
        pick (applyAffine matrix u) R := by
      subst hused
      rw [applyAffine_usedColumns (matrix.keepRows R) hlenu,
        applyAffine_keepRows (by omega) hlenu fun r hr => by have := hR.bounded r hr; omega]
    rw [← himage]
    exact samePoint_applyAffine hsame (by rw [DenseMatrix.cols_keepColumns]; omega)

end Rows

section Chains

variable {κ α : Type} [Kernel κ α] [Scalar α] [LawfulScalar α]

/-- A step that can be reduced to any of its outputs, unless it is a kernel. -/
structure TargetStep.Reducible (options : AssemblyOptions) (P : κ → Prop) (s : TargetStep κ α) :
    Prop where
  kernel : ∀ id k, s.step = .kernel id k → ∀ R,
    s.reduce R = .error (.cannotSeparate (.kernelTargets (Kernel.name k) R))
  other : endsInKernel [s.step] = false → ∀ n m R, Fits P n s.step m → Increasing R m →
    ∃ t', s.reduce R = .ok t' ∧ TargetPart options P n [s.step] R t'

variable {options : AssemblyOptions} {P : κ → Prop} {n m l : Nat} {R : List Nat}
  {s : TargetStep κ α} {steps : List (TargetStep κ α)}

theorem TargetStep.Reducible.keep_eq_ok (hs : s.Reducible options P) (hfits : Fits P n s.step m)
    (hR : Increasing R m) (hend : endsInKernel [s.step] = true → isFull R m = true) :
    ∃ t', s.keep R = .ok t' ∧ TargetPart options P n [s.step] R t' := by
  unfold TargetStep.keep
  rw [hfits.target]
  split
  · rename_i hfull
    exact ⟨s.step, rfl, hfits.targetPart_whole hfull fun _ _ => runs_singleton.mp⟩
  · rename_i hfull
    exact hs.other (Bool.eq_false_iff.mpr fun h => hfull (hend h)) n m R hfits hR

omit [LawfulScalar α] in
theorem TargetStep.Reducible.keep_eq_error (hs : s.Reducible options P)
    (hend : endsInKernel [s.step] = true) (hfull : isFull R s.step.targetDimensions = false) :
    ∃ id k, s.step = .kernel id k ∧
      s.keep R = .error (.cannotSeparate (.kernelTargets (Kernel.name k) R)) := by
  obtain ⟨earlier, id, k, hstep⟩ := endsInKernel_iff.mp hend
  have hstep : s.step = .kernel id k := by
    cases earlier with
    | nil => simpa using hstep
    | cons a l => simp at hstep
  unfold TargetStep.keep
  rw [hfull, if_neg Bool.false_ne_true]
  exact ⟨id, k, hstep, hs.kernel id k hstep R⟩

omit [LawfulScalar α] in
/-- A last step that is not linear is reduced on its own. -/
theorem keepChain_other {assembler : Assembler κ α} {previous : TargetStep κ α}
    {earlier : List (TargetStep κ α)} (hs : ∀ id m, s.step ≠ .linear id m) :
    keepChain assembler (s :: previous :: earlier) R = (do
      let final ← s.keep R
      return ((previous :: earlier).map TargetStep.step).reverse ++ [final]) := by
  unfold keepChain
  cases hstep : s.step with
  | linear id m => exact absurd hstep (hs id m)
  | chain id a b => rfl
  | passThrough id k t n => rfl
  | kernel id k => rfl

section Linear

variable {previous : TargetStep κ α} {earlier : List (TargetStep κ α)} {id : NodeId}
  {matrix : DenseMatrix α} {reduced : List (Transform κ α)} {used : List Nat}

/-- A last step that is linear is narrowed to the columns it uses. -/
theorem keepChain_narrowed (hstep : s.step = .linear id matrix)
    (hfits : Fits P n s.step m) (hR : Increasing R m)
    (hused : usedColumns (matrix.keepRows R) = used) (hne : used ≠ [])
    (hlt : used.length < matrix.cols - 1)
    (hreduced : keepChain (.standard options) (previous :: earlier) used = .ok reduced) :
    keepChain (.standard options) (s :: previous :: earlier) R =
      .ok (reduced ++ [.linear none ((matrix.keepRows R).keepColumns used)]) := by
  rw [hstep] at hfits
  obtain ⟨haffine, hrows, hcols, hpos⟩ := hfits.linear
  have hkept := DenseMatrix.isAffine_keepRows haffine R
  have hincreasing : Increasing used ((matrix.keepRows R).cols - 1) :=
    hused ▸ increasing_usedColumns _
  have hremove := DenseMatrix.removeColumns_unused (DenseMatrix.isAffine_cols_pos hkept) hincreasing
  have hmade : (Assembler.standard options).affine ((matrix.keepRows R).keepColumns used) =
      .ok (.linear none ((matrix.keepRows R).keepColumns used) : Transform κ α) := by
    have hlen := List.length_pos_iff.mpr hne
    exact ofMatrix_eq_ok (DenseMatrix.isAffine_keepColumns hkept hincreasing.bounded)
      (by rw [DenseMatrix.cols_keepColumns]; omega)
  have hRrows : Increasing R (matrix.rows - 1) := by rwa [hrows, Nat.add_sub_cancel]
  have hempty : used.isEmpty = false := by simpa using hne
  rw [DenseMatrix.cols_keepRows] at hremove
  unfold keepChain
  simp only [hstep, targetRows_eq_ok haffine hRrows, ok_bind, hused, hempty, hlt, hreduced,
    hremove, hmade, Bool.not_false, decide_true, Bool.and_self, if_true, pure_eq_ok]

/-- A last step that is linear keeps all columns if it uses none or all of them, or if the steps
before it cannot be reduced. -/
theorem keepChain_wide (hstep : s.step = .linear id matrix)
    (hfits : Fits P n s.step m) (hR : Increasing R m)
    (hused : usedColumns (matrix.keepRows R) = used)
    (hwide : used = [] ∨ matrix.cols - 1 ≤ used.length ∨ ∃ obstacle,
      keepChain (.standard options) (previous :: earlier) used = .error (.cannotSeparate obstacle)) :
    keepChain (.standard options) (s :: previous :: earlier) R =
      .ok (((previous :: earlier).map TargetStep.step).reverse ++
        [.linear none (matrix.keepRows R)]) := by
  rw [hstep] at hfits
  obtain ⟨haffine, hrows, hcols, hpos⟩ := hfits.linear
  have hRrows : Increasing R (matrix.rows - 1) := by rwa [hrows, Nat.add_sub_cancel]
  have hmade : (Assembler.standard options).affine (matrix.keepRows R) =
      .ok (.linear none (matrix.keepRows R) : Transform κ α) :=
    (targetPart_rows options hfits hR).1
  unfold keepChain
  simp only [hstep, targetRows_eq_ok haffine hRrows, ok_bind, hmade, hused, pure_eq_ok]
  split
  · rename_i hnarrow
    simp only [Bool.and_eq_true, Bool.not_eq_true', decide_eq_true_eq] at hnarrow
    obtain ⟨obstacle, hobstacle⟩ : ∃ obstacle, keepChain (.standard options)
        (previous :: earlier) used = .error (.cannotSeparate obstacle) := by
      rcases hwide with rfl | hall | hobstacle
      · cases hnarrow.1
      · omega
      · exact hobstacle
    simp only [hobstacle]
  · rfl

end Linear

variable (options) in
omit [LawfulScalar α] in
/-- A chain that ends in a kernel cannot be reduced. -/
theorem keepChain_eq_error (hsteps : ∀ s ∈ steps, s.Reducible options P)
    (hlinked : Linked P n (steps.map TargetStep.step).reverse m)
    (hend : endsInKernel (steps.map TargetStep.step).reverse = true) (hfull : isFull R m = false) :
    ∃ id k, (steps.map TargetStep.step).reverse.getLast? = some (.kernel id k) ∧
      keepChain (.standard options) steps R =
        .error (.cannotSeparate (.kernelTargets (Kernel.name k) R)) := by
  cases steps with
  | nil => cases hend
  | cons s rest =>
      rw [List.map_cons, List.reverse_cons] at hlinked hend
      rw [endsInKernel_append _ (List.cons_ne_nil _ _)] at hend
      obtain ⟨l, _, hlast⟩ := linked_append.mp hlinked
      rw [← (linked_singleton.mp hlast).target] at hfull
      obtain ⟨id, k, hstep, hkeep⟩ := (hsteps s List.mem_cons_self).keep_eq_error hend hfull
      refine ⟨id, k, by simp [hstep], ?_⟩
      cases rest with
      | nil =>
          rw [keepChain, hkeep]
          rfl
      | cons previous earlier =>
          have hlinear : ∀ id matrix, s.step ≠ .linear id matrix := by
            intro id matrix hstep
            rw [hstep] at hend
            cases hend
          rw [keepChain_other hlinear, hkeep]
          rfl

/-- A chain whose last step is linear is narrowed or kept wide, given that the steps before it can
be reduced or cannot be separated. -/
theorem keepChain_linear {id : NodeId} {matrix : DenseMatrix α} {previous : TargetStep κ α}
    {earlier : List (TargetStep κ α)} (hstep : s.step = .linear id matrix)
    (hfits : Fits P l s.step m) (hR : Increasing R m)
    (hrest : (∃ reduced, keepChain (.standard options) (previous :: earlier)
        (usedColumns (matrix.keepRows R)) = .ok reduced) ∨
      ∃ obstacle, keepChain (.standard options) (previous :: earlier)
        (usedColumns (matrix.keepRows R)) = .error (.cannotSeparate obstacle)) :
    (usedColumns (matrix.keepRows R) ≠ [] ∧ ∃ reduced,
      keepChain (.standard options) (previous :: earlier) (usedColumns (matrix.keepRows R)) =
        .ok reduced ∧
      keepChain (.standard options) (s :: previous :: earlier) R = .ok (reduced ++
        [.linear none ((matrix.keepRows R).keepColumns (usedColumns (matrix.keepRows R)))])) ∨
    keepChain (.standard options) (s :: previous :: earlier) R =
      .ok (((previous :: earlier).map TargetStep.step).reverse ++
        [.linear none (matrix.keepRows R)]) := by
  by_cases hnil : usedColumns (matrix.keepRows R) = []
  · exact .inr (keepChain_wide hstep hfits hR rfl (.inl hnil))
  · by_cases hlt : (usedColumns (matrix.keepRows R)).length < matrix.cols - 1
    · rcases hrest with ⟨reduced, hreduced⟩ | herror
      · exact .inl ⟨hnil, reduced, hreduced,
          keepChain_narrowed hstep hfits hR rfl hnil hlt hreduced⟩
      · exact .inr (keepChain_wide hstep hfits hR rfl (.inr (.inr herror)))
    · exact .inr (keepChain_wide hstep hfits hR rfl (.inr (.inl (Nat.le_of_not_lt hlt))))

/-- The columns that some rows of a linear transform use, as inputs of it. -/
theorem increasing_usedColumns_keepRows {id : NodeId} {matrix : DenseMatrix α}
    (h : Fits P n (.linear id matrix : Transform κ α) m) (R : List Nat) :
    Increasing (usedColumns (matrix.keepRows R)) n := by
  have hincreasing := increasing_usedColumns (matrix.keepRows R)
  rwa [DenseMatrix.cols_keepRows, h.linear.2.2.1, Nat.add_sub_cancel] at hincreasing

omit [LawfulScalar α] in
/-- A chain can be reduced or cannot be separated. -/
theorem keepChain_cases_of (hsteps : ∀ s ∈ steps, s.Reducible options P)
    (hlinked : Linked P n (steps.map TargetStep.step).reverse m)
    (h : (endsInKernel (steps.map TargetStep.step).reverse = true → isFull R m = true) →
      ∃ parts, keepChain (.standard options) steps R = .ok parts ∧
        TargetParts options P n (steps.map TargetStep.step).reverse R parts) :
    (∃ parts, keepChain (.standard options) steps R = .ok parts ∧
      TargetParts options P n (steps.map TargetStep.step).reverse R parts) ∨
    ∃ obstacle, keepChain (.standard options) steps R = .error (.cannotSeparate obstacle) := by
  by_cases hopen : endsInKernel (steps.map TargetStep.step).reverse = true → isFull R m = true
  · exact .inl (h hopen)
  · obtain ⟨hend, hfull⟩ := Classical.not_imp.mp hopen
    obtain ⟨_, _, -, herror⟩ :=
      keepChain_eq_error _ hsteps hlinked hend (Bool.eq_false_iff.mpr hfull)
    exact .inr ⟨_, herror⟩

variable (options) in
/-- A chain can be reduced to any of its outputs, unless it ends in a kernel. -/
theorem keepChain_eq_ok (hsteps : ∀ s ∈ steps, s.Reducible options P) (hne : steps ≠ [])
    (hlinked : Linked P n (steps.map TargetStep.step).reverse m) (hR : Increasing R m)
    (hend : endsInKernel (steps.map TargetStep.step).reverse = true → isFull R m = true) :
    ∃ parts, keepChain (.standard options) steps R = .ok parts ∧
      TargetParts options P n (steps.map TargetStep.step).reverse R parts := by
  induction steps generalizing m R with
  | nil => exact absurd rfl hne
  | cons s rest ih =>
      have hs := hsteps s List.mem_cons_self
      have hrest := fun s' hs' => hsteps s' (List.mem_cons_of_mem s hs')
      rw [List.map_cons, List.reverse_cons] at hlinked hend ⊢
      obtain ⟨l, hearlier, hlast⟩ := linked_append.mp hlinked
      have hfits := linked_singleton.mp hlast
      rw [endsInKernel_append _ (List.cons_ne_nil _ _)] at hend
      cases rest with
      | nil =>
          obtain rfl : n = l := hearlier
          obtain ⟨t', hkeep, hpart⟩ := hs.keep_eq_ok hfits hR hend
          refine ⟨[t'], ?_, hpart.singleton⟩
          rw [keepChain, hkeep]
          rfl
      | cons previous earlier =>
          by_cases hlinear : ∃ id matrix, s.step = .linear id matrix
          · obtain ⟨id, matrix, hstep⟩ := hlinear
            have hlinear := hfits
            rw [hstep] at hlinear ⊢
            have hused := increasing_usedColumns_keepRows hlinear R
            have hprevious := keepChain_cases_of (R := usedColumns (matrix.keepRows R)) hrest
              hearlier (ih hrest (List.cons_ne_nil _ _) hearlier hused)
            rcases keepChain_linear hstep hfits hR
              (hprevious.imp_left fun ⟨reduced, hreduced, _⟩ => ⟨reduced, hreduced⟩) with
              ⟨hne, reduced, hreduced, hkeep⟩ | hkeep
            · rcases hprevious with ⟨reduced', hreduced', hparts⟩ | ⟨obstacle, herror⟩
              · obtain rfl : reduced' = reduced := Except.ok.inj (hreduced'.symm.trans hreduced)
                exact ⟨_, hkeep, (targetParts_narrowed hlinear hR rfl hne hparts).2⟩
              · rw [herror] at hreduced
                cases hreduced
            · exact ⟨_, hkeep, targetParts_last hearlier
                (targetPart_rows options hlinear hR).2⟩
          · have hlinear : ∀ id matrix, s.step ≠ .linear id matrix :=
              fun id matrix h => hlinear ⟨id, matrix, h⟩
            obtain ⟨t', hkeep, hpart⟩ := hs.keep_eq_ok hfits hR hend
            refine ⟨_, ?_, targetParts_last hearlier hpart⟩
            rw [keepChain_other hlinear, hkeep]
            rfl

end Chains

section Selections

variable {κ α : Type} [Kernel κ α] [Scalar α] [LawfulScalar α] {options : AssemblyOptions}
  {P : κ → Prop} {n m : Nat} {picked : List Nat} {t : Transform κ α}

theorem fits_selectionMatrix (hcount : picked.length = m) (hn : 0 < n) :
    Fits P n (linear none (selectionMatrix picked n) : Transform κ α) m :=
  fits_linear isAffine_selectionMatrix (by simp [selectionMatrix, hcount]) rfl hn

omit [Kernel κ α] in
theorem ofMatrix_selectionMatrix (hn : 0 < n) :
    ofMatrix (selectionMatrix picked n) =
      .ok (linear none (selectionMatrix picked n) : Transform κ α) :=
  ofMatrix_eq_ok isAffine_selectionMatrix (by simp [selectionMatrix]; omega)

variable (options) in
/-- A selection behind a transform picks among its outputs. -/
theorem concatenateWith_selectionMatrix (ht : Fits P n t m) (hm : 0 < m)
    (hbound : ∀ d ∈ picked, d < m) :
    ∃ t', concatenateWith options t (linear none (selectionMatrix picked m)) = .ok t' ∧
      TargetPart options P n t.steps picked t' := by
  have hselection : Fits P m (linear none (selectionMatrix picked m) : Transform κ α)
      picked.length := fits_selectionMatrix rfl hm
  obtain ⟨t', ht', hfits, _⟩ := concatenateWith_eq_ok options ht hselection
  refine ⟨t', ht', hfits, fun hP p v hv => ?_⟩
  have happly := (apply_iff_runs ht.admissible.wellFormed).mpr hv
  have hlen : v.length = m := (length_apply happly).trans ht.target
  obtain ⟨w, hw, hsame⟩ := runs_concatenateWith ht hselection hP ht'
    (runs_append.mpr ⟨v, hv, runs_singleton.mpr (apply_linear_iff.mpr ⟨hlen, rfl⟩)⟩)
  refine ⟨w, (apply_iff_runs hfits.admissible.wellFormed).mpr hw, hsame.symm.trans ?_⟩
  rw [← hlen]
  exact samePoint_selectionMatrix fun d hd => hlen ▸ hbound d hd

end Selections

section PassThroughs

variable {κ α : Type} [Kernel κ α] [Scalar α] [LawfulScalar α] {options : AssemblyOptions}
  {P : κ → Prop} {k s c n : Nat} {R kept : List Nat} {inner wrapper whole : Transform κ α}
  {keep : List Nat → Except TransformError (Transform κ α)}

/-- A transform that copies coordinates around those of the inner one, of which it gives `kept`. -/
structure Wraps (options : AssemblyOptions) (P : κ → Prop) (k s : Nat) (inner : Transform κ α)
    (n : Nat) (kept : List Nat) (wrapper : Transform κ α) : Prop where
  fits : Fits P (k + s + n) wrapper (k + kept.length + n)
  computes : Faithful (α := α) options P → ∀ p w, p.length = k + s + n →
    inner.apply ((p.drop k).take s) = .ok w →
    ∃ v, wrapper.apply p = .ok v ∧ SamePoint v (p.take k ++ pick w kept ++ p.drop (k + s))

/-- The requested coordinates selected from those that a wrapper gives. -/
def selectWrapped (options : AssemblyOptions) (k c n : Nat) (R kept : List Nat)
    (wrapper : Transform κ α) : Except TransformError (Transform κ α) :=
  let rows := R.map (reducedPosition k c kept)
  let outputs := k + kept.length + n
  if isFull rows outputs then .ok wrapper
  else do
    let matrix ← selectCoordinates rows outputs
    let selection ← ofMatrix matrix
    concatenateWith options wrapper selection

omit [LawfulScalar α] in
/-- A selection from a wrapper is the wrapper itself, or a step behind it. -/
theorem selectWrapped_cases {t : Transform κ α}
    (h : selectWrapped options k c n R kept wrapper = .ok t) :
    isFull (R.map (reducedPosition k c kept)) (k + kept.length + n) = true ∧ t = wrapper ∨
      ∃ selection, concatenateWith options wrapper selection = .ok t := by
  unfold selectWrapped at h
  dsimp only at h
  split at h
  · rename_i hfull
    exact .inl ⟨hfull, (Except.ok.inj h).symm⟩
  · obtain ⟨matrix, _, h⟩ := bind_eq_ok_iff.mp h
    obtain ⟨selection, _, h⟩ := bind_eq_ok_iff.mp h
    exact .inr ⟨selection, h⟩

/-- Copied coordinates are inputs as well. -/
theorem copiedPosition_lt (hR : Increasing R (k + c + n)) (hnil : inside k c R = []) :
    ∀ d ∈ R.map (fun t => if t < k then t else t - c + s), d < k + s + n := by
  intro d hd
  obtain ⟨t, ht, rfl⟩ := List.mem_map.mp hd
  have hbound := hR.bounded t ht
  have houtside := outside_of_inside_eq_nil hnil ht
  split <;> omega

omit [LawfulScalar α] in
/-- A pass-through of which only copied coordinates are requested. -/
theorem keepPassThrough_copied (hR : Increasing R (k + inner.targetDimensions + n))
    (hnil : inside k inner.targetDimensions R = []) :
    keepPassThrough (.standard options) whole k inner n keep R =
      ofMatrix (selectionMatrix
        (R.map fun t => if t < k then t else t - inner.targetDimensions + inner.sourceDimensions)
        (k + inner.sourceDimensions + n)) := by
  have hselect := selectCoordinates_eq_ok (α := α)
    (copiedPosition_lt (s := inner.sourceDimensions) hR hnil)
  unfold inside at hnil
  unfold keepPassThrough
  simp only [hnil, List.isEmpty_nil, if_true, hselect, ok_bind]
  rfl

omit [LawfulScalar α] in
/-- A pass-through whose inner transform stays as it is. -/
theorem keepPassThrough_whole (hne : inside k inner.targetDimensions R ≠ [])
    (hwhole : isFull (inside k inner.targetDimensions R) inner.targetDimensions = true ∨
      ∃ obstacle, keep (inside k inner.targetDimensions R) = .error (.cannotSeparate obstacle)) :
    keepPassThrough (.standard options) whole k inner n keep R =
      selectWrapped options k inner.targetDimensions n R (List.range inner.targetDimensions)
        whole := by
  have hempty : (inside k inner.targetDimensions R).isEmpty = false := by simpa using hne
  unfold inside at hwhole hempty
  unfold keepPassThrough
  simp only [hempty, Bool.false_eq_true, if_false]
  split
  · rename_i hfull
    rw [isFull_iff.mp hfull]
    rfl
  · rename_i hfull
    obtain ⟨obstacle, hobstacle⟩ := hwhole.resolve_left hfull
    simp only [hobstacle]
    rfl

omit [LawfulScalar α] in
/-- A pass-through whose inner transform is reduced. -/
theorem keepPassThrough_reduced (hne : inside k inner.targetDimensions R ≠ [])
    (hfull : isFull (inside k inner.targetDimensions R) inner.targetDimensions = false)
    {reduced : Transform κ α} (hkeep : keep (inside k inner.targetDimensions R) = .ok reduced)
    (hwrapper : passThroughSimplified k reduced n = .ok wrapper) :
    keepPassThrough (.standard options) whole k inner n keep R =
      selectWrapped options k inner.targetDimensions n R (inside k inner.targetDimensions R)
        wrapper := by
  have hempty : (inside k inner.targetDimensions R).isEmpty = false := by simpa using hne
  have hwrapper : (Assembler.standard options).passThrough k reduced n = .ok wrapper := hwrapper
  unfold inside at hfull hempty hkeep
  unfold keepPassThrough
  simp only [hempty, hfull, hkeep, hwrapper, Bool.false_eq_true, if_false, ok_bind, pure_eq_ok]
  rfl

omit [LawfulScalar α] in
/-- A reduced pass-through selects from the coordinates before it, or from what the whole
pass-through gives, or from what one around the reduced inner transform gives. -/
theorem keepPassThrough_cases {t : Transform κ α}
    (h : keepPassThrough (.standard options) whole k inner n keep R = .ok t) :
    (∃ matrix, ofMatrix matrix = .ok t) ∨
      ∃ kept wrapper, selectWrapped options k inner.targetDimensions n R kept wrapper = .ok t ∧
        (wrapper = whole ∨ ∃ reduced, isFull kept inner.targetDimensions = false ∧
          keep kept = .ok reduced ∧ passThroughSimplified k reduced n = .ok wrapper) := by
  unfold keepPassThrough at h
  dsimp only at h
  split at h
  · obtain ⟨matrix, _, h⟩ := bind_eq_ok_iff.mp h
    exact .inl ⟨matrix, h⟩
  · refine .inr ?_
    split at h
    · exact ⟨_, whole, h, .inl rfl⟩
    · rename_i hproper
      split at h
      · rename_i reduced hreduced
        obtain ⟨wrapper, hwrapper, h⟩ := bind_eq_ok_iff.mp h
        exact ⟨_, wrapper, h, .inr ⟨reduced, Bool.eq_false_iff.mpr hproper, hreduced, hwrapper⟩⟩
      · exact ⟨_, whole, h, .inl rfl⟩
      · cases h

theorem wraps_whole (id : NodeId) (h : Fits P s inner c) :
    Wraps options P k s inner n (List.range c) (passThrough id k inner n) := by
  refine ⟨by simpa using h.passThrough k n, fun _ p w hp hw => ?_⟩
  have hlen := (length_apply hw).trans h.target
  obtain rfl := h.source
  exact ⟨_, apply_passThrough_iff.mpr ⟨hp, w, hw, rfl⟩,
    by rw [pick_range hlen]; exact SamePoint.refl _⟩

theorem wraps_reduced {reduced : Transform κ α} (h : Fits P s inner c)
    (hpart : TargetPart options P s inner.steps kept reduced)
    (hwrapper : passThroughSimplified k reduced n = .ok wrapper) :
    Wraps options P k s inner n kept wrapper := by
  obtain ⟨wrapper', hwrapper', hfits, _⟩ := passThroughSimplified_eq_ok hpart.fits k n
  obtain rfl : wrapper' = wrapper := Except.ok.inj (hwrapper'.symm.trans hwrapper)
  refine ⟨hfits, fun hP p w hp hw => ?_⟩
  obtain ⟨u, hu, hsame⟩ := hpart.computes hP _ w ((apply_iff_runs h.admissible.wellFormed).mp hw)
  obtain ⟨v, hv, hsame'⟩ := apply_passThroughSimplified hpart.fits hwrapper hp hu
  exact ⟨v, hv, hsame'.trans (((SamePoint.refl _).append hsame).append (SamePoint.refl _))⟩

theorem reducedPosition_lt (hR : Increasing R (k + c + n))
    (hkept : ∀ d ∈ inside k c R, d ∈ kept) :
    ∀ d ∈ R.map (reducedPosition k c kept), d < k + kept.length + n := by
  intro d hd
  obtain ⟨t, ht, rfl⟩ := List.mem_map.mp hd
  have hbound := hR.bounded t ht
  unfold reducedPosition
  split
  · omega
  · split
    · have := List.idxOf_lt_length_of_mem
        (hkept (t - k) (sub_mem_inside ht (by omega) (by omega)))
      omega
    · omega

/-- The requested coordinates stand where they are looked for. -/
theorem pick_reducedPosition {β : Type} [Zero β] {p w : List β} (hk : k ≤ p.length)
    (hw : w.length = c) (hkept : ∀ d ∈ inside k c R, d ∈ kept) :
    pick (p.take k ++ pick w kept ++ p.drop (k + s)) (R.map (reducedPosition k c kept)) =
      pick (p.take k ++ w ++ p.drop (k + s)) R := by
  refine pick_map_congr fun t hmem => ?_
  rw [getD_around hk, getD_around hk, length_pick, hw]
  unfold reducedPosition
  by_cases hlead : t < k
  · simp [hlead]
  · by_cases hinner : t < k + c
    · have hd : t - k ∈ kept :=
        hkept (t - k) (sub_mem_inside hmem (by omega) hinner)
      have hlt := List.idxOf_lt_length_of_mem hd
      simp only [hlead, hinner, if_false, if_true]
      rw [if_neg (by omega), if_pos (by omega), Nat.add_sub_cancel_left]
      exact getD_pick_idxOf hd
    · simp only [hlead, hinner, if_false]
      rw [if_neg (by omega), if_neg (by omega)]
      congr 1
      omega

/-- A wrapper gives the requested outputs of the pass-through where they are looked for. -/
theorem Wraps.apply_of_runs {id : NodeId} {p v : List α}
    (h : Wraps options P k s inner n kept wrapper) (hinner : Fits P s inner c)
    (hkept : ∀ d ∈ inside k c R, d ∈ kept) (hP : Faithful (α := α) options P)
    (hv : Runs [passThrough id k inner n] p v) :
    ∃ u, wrapper.apply p = .ok u ∧
      SamePoint (pick u (R.map (reducedPosition k c kept))) (pick v R) := by
  obtain ⟨hp, w, hw, rfl⟩ := apply_passThrough_iff.mp (runs_singleton.mp hv)
  have hlen := (length_apply hw).trans hinner.target
  obtain rfl := hinner.source
  obtain ⟨u, hu, hsame⟩ := h.computes hP p w hp hw
  refine ⟨u, hu, ?_⟩
  rw [← pick_reducedPosition (by omega) hlen hkept]
  exact hsame.pick _

variable (options) in
/-- A selection from a wrapper gives the requested outputs of the pass-through. -/
theorem selectWrapped_eq_ok (id : NodeId) (hinner : Fits P s inner c)
    (hR : Increasing R (k + c + n)) (hkept : ∀ d ∈ inside k c R, d ∈ kept) (hne : kept ≠ [])
    (hwraps : Wraps options P k s inner n kept wrapper) :
    ∃ t', selectWrapped options k c n R kept wrapper = .ok t' ∧
      TargetPart options P (k + s + n) [passThrough id k inner n] R t' := by
  have hpos : 0 < kept.length := List.length_pos_iff.mpr hne
  have hbound := reducedPosition_lt hR hkept
  unfold selectWrapped
  dsimp only
  split
  · rename_i hfull
    have hrows := isFull_iff.mp hfull
    have hcount : R.length = k + kept.length + n := by
      rw [← List.length_map (reducedPosition k c kept), hrows, List.length_range]
    refine ⟨wrapper, rfl, by rw [hcount]; exact hwraps.fits, fun hP p v hv => ?_⟩
    obtain ⟨u, hu, hsame⟩ := hwraps.apply_of_runs hinner hkept hP hv
    rw [hrows, pick_range ((length_apply hu).trans hwraps.fits.target)] at hsame
    exact ⟨u, hu, hsame⟩
  · rw [selectCoordinates_eq_ok hbound, ok_bind, ofMatrix_selectionMatrix (by omega), ok_bind]
    obtain ⟨t', ht', hpart⟩ :=
      concatenateWith_selectionMatrix options hwraps.fits (by omega) hbound
    refine ⟨t', ht', List.length_map (reducedPosition k c kept) ▸ hpart.fits, fun hP p v hv => ?_⟩
    obtain ⟨u, hu, hsame⟩ := hwraps.apply_of_runs hinner hkept hP hv
    obtain ⟨w, hw, hsame'⟩ := hpart.computes hP p u
      ((apply_iff_runs hwraps.fits.admissible.wellFormed).mp hu)
    exact ⟨w, hw, hsame'.trans hsame⟩

/-- Copied coordinates stand in the input where they are looked for. -/
theorem pick_copiedPosition {β : Type} [Zero β] {p w : List β} (hk : k ≤ p.length)
    (hw : w.length = c) (hnil : inside k c R = []) :
    pick p (R.map fun t => if t < k then t else t - c + s) =
      pick (p.take k ++ w ++ p.drop (k + s)) R := by
  refine pick_map_congr fun t ht => ?_
  have houtside := outside_of_inside_eq_nil hnil ht
  rw [getD_around hk, hw]
  by_cases hlead : t < k
  · simp [hlead]
  · simp only [hlead, if_false]
    rw [if_neg (by omega)]

/-- Only copied coordinates are requested. -/
theorem targetPart_copied {id : NodeId} (hinner : Fits P s inner c)
    (hR : Increasing R (k + c + n)) (hnil : inside k c R = []) :
    ∃ t', ofMatrix (selectionMatrix (R.map fun t => if t < k then t else t - c + s)
        (k + s + n)) = .ok t' ∧
      TargetPart options P (k + s + n) [passThrough id k inner n] R t' := by
  have hpos := hinner.source_pos
  refine ⟨_, ofMatrix_selectionMatrix (by omega),
    fits_selectionMatrix (List.length_map _) (by omega), fun _ p v hv => ?_⟩
  obtain ⟨hp, w, hw, rfl⟩ := apply_passThrough_iff.mp (runs_singleton.mp hv)
  have hlen := (length_apply hw).trans hinner.target
  obtain rfl := hinner.source
  refine ⟨_, apply_linear_iff.mpr ⟨hp, rfl⟩, ?_⟩
  rw [← pick_copiedPosition (by omega) hlen hnil, ← hp]
  exact samePoint_selectionMatrix fun d hd => hp ▸ copiedPosition_lt hR hnil d hd

end PassThroughs

section Whole

variable {κ α : Type} [Kernel κ α] [Scalar α] [LawfulScalar α] {options : AssemblyOptions}
  {P : κ → Prop} {n m : Nat} {R : List Nat} {t : Transform κ α}

omit [LawfulScalar α] in
theorem map_step_targetSteps (assembler : Assembler κ α) (t : Transform κ α) :
    (t.targetSteps assembler).map TargetStep.step = t.steps := by
  induction t with
  | chain id a b iha ihb => rw [targetSteps, List.map_append, iha, ihb, steps]
  | _ => rfl

omit [LawfulScalar α] in
theorem reverse_step_targetSteps (assembler : Assembler κ α) (t : Transform κ α) :
    ((t.targetSteps assembler).reverse.map TargetStep.step).reverse = t.steps := by
  rw [List.map_reverse, List.reverse_reverse, map_step_targetSteps]

omit [LawfulScalar α] in
theorem targetSteps_ne_nil (assembler : Assembler κ α) (t : Transform κ α) :
    t.targetSteps assembler ≠ [] := by
  intro hnil
  have hmap := map_step_targetSteps assembler t
  rw [hnil] at hmap
  exact t.steps_ne_nil hmap.symm

omit [LawfulScalar α] in
theorem keepTargets_whole {assembler : Assembler κ α} (hfull : isFull R t.targetDimensions = true) :
    t.keepTargets assembler R = .ok t := by
  unfold keepTargets keepSteps
  rw [hfull, if_pos rfl]

omit [LawfulScalar α] in
theorem keepTargets_singleton {assembler : Assembler κ α} {only : TargetStep κ α}
    (honly : t.targetSteps assembler = [only]) (hfull : isFull R t.targetDimensions = false) :
    t.keepTargets assembler R = only.reduce R := by
  unfold keepTargets keepSteps
  rw [hfull, if_neg Bool.false_ne_true, honly]

omit [LawfulScalar α] in
/-- A transform that is not kept whole is made of the parts that the walk from its last step
finds. -/
theorem keepTargets_eq {assembler : Assembler κ α} (hfull : isFull R t.targetDimensions = false) :
    t.keepTargets assembler R =
      (keepChain assembler (t.targetSteps assembler).reverse R >>= assembler.compose) := by
  unfold keepTargets keepSteps
  rw [hfull, if_neg Bool.false_ne_true]
  split
  · rename_i only honly
    have hmap := map_step_targetSteps assembler t
    rw [honly, List.map_cons, List.map_nil] at hmap
    obtain rfl : t = only.step := eq_of_steps_singleton hmap.symm
    have hkeep : only.keep R = only.reduce R := by
      rw [TargetStep.keep, hfull, if_neg Bool.false_ne_true]
    rw [honly, List.reverse_singleton, keepChain, hkeep]
    cases only.reduce R with
    | error e => rfl
    | ok reduced => rfl
  · rfl

theorem keepTargets_of_reducible
    (hsteps : ∀ s ∈ t.targetSteps (.standard options), s.Reducible options P)
    (h : Fits P n t m) (hR : Increasing R m)
    (hend : endsInKernel t.steps = true → isFull R m = true) :
    ∃ t', t.keepTargets (.standard options) R = .ok t' ∧
      TargetPart options P n t.steps R t' := by
  cases hfull : isFull R m with
  | true =>
      exact ⟨t, keepTargets_whole (by rwa [h.target]), h.targetPart_whole hfull fun _ _ =>
        (apply_iff_runs h.admissible.wellFormed).mpr⟩
  | false =>
      have hopen : endsInKernel t.steps = false := by
        by_contra hkernel
        rw [hend (Bool.eq_true_of_not_eq_false hkernel)] at hfull
        cases hfull
      have hreverse := reverse_step_targetSteps (.standard options) t
      obtain ⟨parts, hkeep, hparts⟩ := keepChain_eq_ok options
        (fun s hs => hsteps s (List.mem_reverse.mp hs))
        (List.reverse_ne_nil_iff.mpr (targetSteps_ne_nil _ t)) (hreverse ▸ h.linked_steps) hR
        (by rw [hreverse, hopen]; exact nofun)
      rw [hreverse] at hparts
      obtain ⟨t', ht', hpart⟩ := hparts.compose
      refine ⟨t', ?_, hpart⟩
      rw [keepTargets_eq (by rwa [h.target]), hkeep]
      exact ht'

omit [LawfulScalar α] in
theorem keepTargets_error_of_reducible
    (hsteps : ∀ s ∈ t.targetSteps (.standard options), s.Reducible options P)
    (h : Fits P n t m) (hend : endsInKernel t.steps = true) (hfull : isFull R m = false) :
    ∃ id k, t.steps.getLast? = some (kernel id k) ∧ t.keepTargets (.standard options) R =
      .error (.cannotSeparate (.kernelTargets (Kernel.name k) R)) := by
  have hreverse := reverse_step_targetSteps (.standard options) t
  obtain ⟨id, k, hlast, herror⟩ := keepChain_eq_error options
    (fun s hs => hsteps s (List.mem_reverse.mp hs)) (hreverse ▸ h.linked_steps)
    (by rwa [hreverse]) hfull
  refine ⟨id, k, hreverse ▸ hlast, ?_⟩
  rw [keepTargets_eq (by rwa [h.target]), herror]
  rfl

/-- What is kept of a pass-through: copied coordinates only, or a selection from the whole
pass-through or from one around what is kept of the inner transform. -/
theorem keepPassThrough_split {k j : Nat} {inner : Transform κ α}
    (hsteps : ∀ s ∈ inner.targetSteps (.standard options), s.Reducible options P)
    (h : inner.Admissible P) (hR : Increasing R (k + inner.targetDimensions + j))
    (whole : Transform κ α) :
    inside k inner.targetDimensions R = [] ∧
        keepPassThrough (.standard options) whole k inner j
          (inner.keepTargets (.standard options)) R =
        ofMatrix (selectionMatrix
          (R.map fun t => if t < k then t else t - inner.targetDimensions + inner.sourceDimensions)
          (k + inner.sourceDimensions + j)) ∨
      ∃ kept wrapper, (∀ d ∈ inside k inner.targetDimensions R, d ∈ kept) ∧ kept ≠ [] ∧
        keepPassThrough (.standard options) whole k inner j
          (inner.keepTargets (.standard options)) R =
        selectWrapped options k inner.targetDimensions j R kept wrapper ∧
        (kept = List.range inner.targetDimensions ∧ wrapper = whole ∨
          ∃ reduced, Increasing kept inner.targetDimensions ∧
            inner.keepTargets (.standard options) kept = .ok reduced ∧
            TargetPart options P inner.sourceDimensions inner.steps kept reduced ∧
            passThroughSimplified k reduced j = .ok wrapper) := by
  by_cases hnil : inside k inner.targetDimensions R = []
  · exact .inl ⟨hnil, keepPassThrough_copied hR hnil⟩
  · have hincreasing : Increasing (inside k inner.targetDimensions R) inner.targetDimensions :=
      increasing_inside hR
    have hrange : ∀ d ∈ inside k inner.targetDimensions R, d ∈ List.range inner.targetDimensions :=
      fun d hd => List.mem_range.mpr (hincreasing.bounded d hd)
    have hrange_ne : List.range inner.targetDimensions ≠ [] := ne_nil_of_forall_mem hnil hrange
    refine .inr ?_
    cases hfull : isFull (inside k inner.targetDimensions R) inner.targetDimensions with
    | true =>
        exact ⟨_, whole, hrange, hrange_ne, keepPassThrough_whole hnil (.inl hfull),
          .inl ⟨rfl, rfl⟩⟩
    | false =>
        cases hend : endsInKernel inner.steps with
        | true =>
            obtain ⟨_, _, -, herror⟩ := keepTargets_error_of_reducible hsteps h.fits hend hfull
            exact ⟨_, whole, hrange, hrange_ne, keepPassThrough_whole hnil (.inr ⟨_, herror⟩),
              .inl ⟨rfl, rfl⟩⟩
        | false =>
            obtain ⟨reduced, hkeep, hpart⟩ := keepTargets_of_reducible hsteps h.fits hincreasing
              (by rw [hend]; exact nofun)
            obtain ⟨wrapper, hwrapper, _⟩ := passThroughSimplified_eq_ok hpart.fits k j
            exact ⟨_, wrapper, fun _ hd => hd, hnil,
              keepPassThrough_reduced hnil hfull hkeep hwrapper,
              .inr ⟨reduced, hincreasing, hkeep, hpart, hwrapper⟩⟩

/-- A pass-through can be reduced to any of its outputs, given that its inner transform can be as
long as it does not end in a kernel. -/
theorem keepPassThrough_eq_ok {id : NodeId} {k j : Nat} {inner : Transform κ α}
    (hsteps : ∀ s ∈ inner.targetSteps (.standard options), s.Reducible options P)
    (h : Fits P n (passThrough id k inner j) m) (hR : Increasing R m) :
    ∃ t', keepPassThrough (.standard options) (passThrough id k inner j) k inner j
        (inner.keepTargets (.standard options)) R = .ok t' ∧
      TargetPart options P n [passThrough id k inner j] R t' := by
  obtain ⟨hadmissible, rfl, rfl⟩ := h
  have hinner : inner.Admissible P := hadmissible
  have hR : Increasing R (k + inner.targetDimensions + j) := hR
  rcases keepPassThrough_split hsteps hinner hR (passThrough id k inner j) with
    ⟨hnil, hkeep⟩ | ⟨kept, wrapper, hkept, hne, hkeep, ⟨rfl, rfl⟩ |
      ⟨reduced, _, _, hpart, hwrapper⟩⟩
  · rw [hkeep]
    exact targetPart_copied hinner.fits hR hnil
  · rw [hkeep]
    exact selectWrapped_eq_ok options id hinner.fits hR hkept hne (wraps_whole id hinner.fits)
  · rw [hkeep]
    exact selectWrapped_eq_ok options id hinner.fits hR hkept hne
      (wraps_reduced hinner.fits hpart hwrapper)

/-- Every step can be reduced to any of its outputs, unless it is a kernel. -/
theorem reducible_targetSteps (options : AssemblyOptions) (P : κ → Prop) (t : Transform κ α) :
    ∀ s ∈ t.targetSteps (.standard options), s.Reducible options P := by
  induction t with
  | linear id matrix =>
      intro s hs
      obtain rfl := List.mem_singleton.mp hs
      refine ⟨nofun, fun _ n m R h hR => ?_⟩
      obtain ⟨haffine, hrows, _⟩ := h.linear
      obtain ⟨hmade, hpart⟩ := targetPart_rows options h hR
      refine ⟨_, ?_, hpart⟩
      show (targetRows matrix R >>= ofMatrix) = _
      rw [targetRows_eq_ok haffine (by rwa [hrows, Nat.add_sub_cancel])]
      exact hmade
  | chain id a b iha ihb =>
      intro s hs
      exact (List.mem_append.mp hs).elim (iha s) (ihb s)
  | passThrough id k inner j ih =>
      intro s hs
      obtain rfl := List.mem_singleton.mp hs
      exact ⟨nofun, fun _ n m R h hR => keepPassThrough_eq_ok ih h hR⟩
  | kernel id k =>
      intro s hs
      obtain rfl := List.mem_singleton.mp hs
      refine ⟨fun id' k' hstep R => ?_, fun hend => by cases hend⟩
      cases hstep
      rfl

variable (options) in
/-- Any outputs of a transform can be kept, unless it ends in a kernel. -/
theorem keepTargets_eq_ok (h : Fits P n t m) (hR : Increasing R m)
    (hend : endsInKernel t.steps = true → isFull R m = true) :
    ∃ t', t.keepTargets (.standard options) R = .ok t' ∧ TargetPart options P n t.steps R t' :=
  keepTargets_of_reducible (reducible_targetSteps options P t) h hR hend

variable (options) in
/-- Of a transform that ends in a kernel all outputs must be kept. -/
theorem keepTargets_eq_error (h : Fits P n t m) (hend : endsInKernel t.steps = true)
    (hfull : isFull R m = false) :
    ∃ id k, t.steps.getLast? = some (kernel id k) ∧ t.keepTargets (.standard options) R =
      .error (.cannotSeparate (.kernelTargets (Kernel.name k) R)) :=
  keepTargets_error_of_reducible (reducible_targetSteps options P t) h hend hfull

end Whole

end Transform
end SeparableTransforms
