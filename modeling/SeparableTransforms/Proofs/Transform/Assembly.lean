import SeparableTransforms.Proofs.Transform.Evaluation
import SeparableTransforms.Transform.Assembly

/-!
# Assembling transforms that fit

A list of steps is *linked* if each step takes as many coordinates as the one
before it gives.  The standard assembler makes a transform out of any linked
list, whatever it simplifies: folding multiplies affine matrices that fit, and
an identity can be left out because it has as many sources as targets.
-/

namespace SeparableTransforms
namespace Transform

open Outcome

section Making

variable {κ α : Type}

theorem ofMatrix_eq_ok [Scalar α] {matrix : DenseMatrix α} (h : matrix.isAffine = true)
    (hcols : 2 ≤ matrix.cols) : ofMatrix matrix = .ok (linear none matrix : Transform κ α) := by
  unfold ofMatrix
  rw [h, Bool.not_true, if_neg Bool.false_ne_true, if_neg (by omega)]

theorem eq_of_ofMatrix [Scalar α] {matrix : DenseMatrix α} {t : Transform κ α}
    (h : ofMatrix matrix = .ok t) : t = linear none matrix := by
  unfold ofMatrix at h
  split at h
  · cases h
  · split at h
    · cases h
    · exact (Except.ok.inj h).symm

theorem join_eq_ok [Kernel κ α] {s t : Transform κ α}
    (h : s.targetDimensions = t.sourceDimensions) :
    join s t = .ok (chain none s t) := by
  rw [join, if_neg (not_not.mpr h)]

/-- A transform with a single step is that step. -/
theorem eq_of_steps_singleton {s t : Transform κ α} (h : t.steps = [s]) : t = s := by
  cases t with
  | chain id a b =>
      have hlen := congrArg List.length h
      have ha := List.length_pos_iff.mpr a.steps_ne_nil
      have hb := List.length_pos_iff.mpr b.steps_ne_nil
      rw [steps, List.length_append, List.length_singleton] at hlen
      omega
  | _ => exact List.singleton_injective h

end Making

section Linked

variable {κ α : Type} [Kernel κ α] [Scalar α]

/-- An admissible transform with the given numbers of dimensions. -/
structure Fits (P : κ → Prop) (sources : Nat) (t : Transform κ α) (targets : Nat) : Prop where
  admissible : t.Admissible P
  source : t.sourceDimensions = sources
  target : t.targetDimensions = targets

/-- Admissible steps each of which takes what the one before it gives. -/
def Linked (P : κ → Prop) : Nat → List (Transform κ α) → Nat → Prop
  | n, [], m => n = m
  | n, s :: rest, m => ∃ l, Fits P n s l ∧ Linked P l rest m

variable {P : κ → Prop} {n m l : Nat} {s t : Transform κ α} {steps rest : List (Transform κ α)}

theorem Admissible.fits (h : t.Admissible P) : Fits P t.sourceDimensions t t.targetDimensions :=
  ⟨h, rfl, rfl⟩

theorem linked_append :
    Linked P n (steps ++ rest) m ↔ ∃ l, Linked P n steps l ∧ Linked P l rest m := by
  induction steps generalizing n with
  | nil => simp [Linked]
  | cons s steps ih =>
      simp only [List.cons_append, Linked, ih]
      constructor
      · rintro ⟨l, hs, l', hsteps, hrest⟩
        exact ⟨l', ⟨l, hs, hsteps⟩, hrest⟩
      · rintro ⟨l', ⟨l, hs, hsteps⟩, hrest⟩
        exact ⟨l, hs, l', hsteps, hrest⟩

theorem linked_singleton : Linked P n [t] m ↔ Fits P n t m := by
  constructor
  · rintro ⟨l, ht, rfl⟩
    exact ht
  · intro ht
    exact ⟨m, ht, rfl⟩

theorem Fits.linked_steps (h : Fits P n t m) : Linked P n t.steps m := by
  induction t generalizing n m with
  | chain id a b iha ihb =>
      obtain ⟨⟨ha, hb, hfit⟩, rfl, rfl⟩ := h
      exact linked_append.mpr ⟨a.targetDimensions, iha ha.fits, ihb ⟨hb, hfit.symm, rfl⟩⟩
  | _ => exact linked_singleton.mpr h

theorem fits_linear {id : NodeId} {matrix : DenseMatrix α} (h : matrix.isAffine = true)
    (hrows : matrix.rows = m + 1) (hcols : matrix.cols = n + 1) (hn : 0 < n) :
    Fits P n (linear id matrix : Transform κ α) m :=
  ⟨⟨h, by omega⟩, by simp [sourceDimensions, hcols], by simp [targetDimensions, hrows]⟩

theorem Fits.source_pos (h : Fits P n t m) : 0 < n :=
  h.source ▸ h.admissible.wellFormed.sourceDimensions_pos

/-- The matrix of a linear transform that fits. -/
theorem Fits.linear {id : NodeId} {matrix : DenseMatrix α}
    (h : Fits P n (linear id matrix : Transform κ α) m) [LawfulScalar α] :
    matrix.isAffine = true ∧ matrix.rows = m + 1 ∧ matrix.cols = n + 1 ∧ 0 < n := by
  obtain ⟨⟨haffine, hcols⟩, hs, ht⟩ := h
  have hrows := DenseMatrix.isAffine_rows_pos haffine
  simp only [sourceDimensions] at hs
  simp only [targetDimensions] at ht
  exact ⟨haffine, by omega, by omega, by omega⟩

theorem Linked.flatMap_steps (h : Linked P n steps m) :
    Linked P n (steps.flatMap Transform.steps) m := by
  induction steps generalizing n with
  | nil => exact h
  | cons s steps ih =>
      obtain ⟨l, hs, hsteps⟩ := h
      rw [List.flatMap_cons]
      exact linked_append.mpr ⟨l, hs.linked_steps, ih hsteps⟩

/-- Whole transforms and their steps map the same points. -/
theorem Linked.runs_flatMap (h : Linked P n steps m) {p v : List α} :
    Runs (steps.flatMap Transform.steps) p v ↔ Runs steps p v := by
  induction steps generalizing n p with
  | nil => rfl
  | cons s steps ih =>
      obtain ⟨l, hs, hsteps⟩ := h
      rw [List.flatMap_cons, runs_append]
      simp only [Runs, ih hsteps, apply_iff_runs hs.admissible.wellFormed]

end Linked

section Joining

variable {κ α : Type} [Kernel κ α] [Scalar α] {P : κ → Prop} {n m l : Nat}
  {s t : Transform κ α} {steps rest : List (Transform κ α)}

theorem Fits.chain (id : NodeId) (hs : Fits P n s l) (ht : Fits P l t m) :
    Fits P n (chain id s t) m :=
  ⟨⟨hs.admissible, ht.admissible, hs.target.trans ht.source.symm⟩, hs.source, ht.target⟩

omit [Scalar α] in
/-- A chain that is joined has the steps of its parts. -/
theorem steps_of_foldlM_join (h : rest.foldlM join s = .ok t) :
    t.steps = s.steps ++ rest.flatMap Transform.steps := by
  induction rest generalizing s with
  | nil =>
      cases h
      simp
  | cons next rest ih =>
      rw [List.foldlM_cons] at h
      obtain ⟨joined, hjoin, h⟩ := bind_eq_ok_iff.mp h
      rw [join] at hjoin
      split at hjoin
      · cases hjoin
      · cases hjoin
        rw [ih h]
        simp [steps]

/-- Linked steps can be joined, and the chain has their steps. -/
theorem foldlM_join (hs : Fits P n s l) (hrest : Linked P l rest m) :
    ∃ t, rest.foldlM join s = .ok t ∧ Fits P n t m ∧
      t.steps = s.steps ++ rest.flatMap Transform.steps := by
  suffices h : ∃ t, rest.foldlM join s = .ok t ∧ Fits P n t m by
    obtain ⟨t, ht, hfits⟩ := h
    exact ⟨t, ht, hfits, steps_of_foldlM_join ht⟩
  induction rest generalizing s l with
  | nil =>
      obtain rfl : l = m := hrest
      exact ⟨s, rfl, hs⟩
  | cons next rest ih =>
      obtain ⟨l', hnext, hrest⟩ := hrest
      rw [List.foldlM_cons, join_eq_ok (hs.target.trans hnext.source.symm)]
      exact ih (hs.chain none hnext) hrest

end Joining

section Ends

variable {κ α : Type} {steps steps' rest : List (Transform κ α)}

/-- Whether the last step is a kernel. -/
def endsInKernel (steps : List (Transform κ α)) : Bool :=
  match steps.getLast? with
  | some (.kernel _ _) => true
  | _ => false

theorem endsInKernel_iff_getLast :
    endsInKernel steps = true ↔ ∃ id k, steps.getLast? = some (kernel id k) := by
  constructor
  · intro h
    unfold endsInKernel at h
    split at h
    · rename_i id k hlast
      exact ⟨id, k, hlast⟩
    · cases h
  · rintro ⟨id, k, hlast⟩
    simp [endsInKernel, hlast]

theorem endsInKernel_iff :
    endsInKernel steps = true ↔ ∃ earlier id k, steps = earlier ++ [kernel id k] := by
  rw [endsInKernel_iff_getLast]
  constructor
  · rintro ⟨id, k, hlast⟩
    obtain ⟨earlier, rfl⟩ := List.getLast?_eq_some_iff.mp hlast
    exact ⟨earlier, id, k, rfl⟩
  · rintro ⟨earlier, id, k, rfl⟩
    exact ⟨id, k, List.getLast?_concat⟩

theorem endsInKernel_eq_false_iff :
    endsInKernel steps = false ↔ ∀ id k, steps.getLast? ≠ some (kernel id k) := by
  rw [← Bool.not_eq_true, endsInKernel_iff_getLast]
  simp only [not_exists, ne_eq]

variable (steps) in
theorem endsInKernel_append (h : rest ≠ []) :
    endsInKernel (steps ++ rest) = endsInKernel rest := by
  obtain ⟨earlier, last, rfl⟩ : ∃ earlier last, rest = earlier ++ [last] :=
    ⟨rest.dropLast, rest.getLast h, (List.dropLast_append_getLast h).symm⟩
  simp [endsInKernel, ← List.append_assoc]

theorem endsInKernel_append_congr (h : endsInKernel steps = endsInKernel steps') :
    endsInKernel (steps ++ rest) = endsInKernel (steps' ++ rest) := by
  by_cases hrest : rest = []
  · simpa [hrest] using h
  · rw [endsInKernel_append _ hrest, endsInKernel_append _ hrest]

end Ends

section Folding

variable {κ α : Type} [Kernel κ α] [Scalar α] {P : κ → Prop} {n m l : Nat}
  {s t : Transform κ α} {steps stack rest : List (Transform κ α)} {options : AssemblyOptions}

/-- Linked steps none of which is a chain. -/
structure Flat (P : κ → Prop) (n : Nat) (steps : List (Transform κ α)) (m : Nat) : Prop where
  linked : Linked P n steps m
  single : ∀ s ∈ steps, s.steps = [s]

theorem Fits.flat (h : Fits P n t m) : Flat P n t.steps m :=
  ⟨h.linked_steps, fun _ hs => steps_of_mem_steps hs⟩

theorem Flat.append (h : Flat P n steps l) (h' : Flat P l rest m) : Flat P n (steps ++ rest) m :=
  ⟨linked_append.mpr ⟨l, h.linked, h'.linked⟩, fun s hs =>
    (List.mem_append.mp hs).elim (h.single s) (h'.single s)⟩

variable [LawfulScalar α]

variable (options) in
/-- One more step on the stack, folded or not. -/
theorem pushStep_flat (hstack : Flat P n stack.reverse l) (hs : Fits P l s m)
    (hsingle : s.steps = [s]) :
    ∃ stack', pushStep options stack s = .ok stack' ∧ Flat P n stack'.reverse m ∧
      endsInKernel stack'.reverse = endsInKernel [s] := by
  obtain ⟨hlinked, hall⟩ := hstack
  unfold pushStep
  split
  · rename_i id previous earlier id' next _
    rw [List.reverse_cons] at hlinked hall
    obtain ⟨l', hearlier, hprevious⟩ := linked_append.mp hlinked
    obtain ⟨haffine, hrows, hcols, hpos⟩ := (linked_singleton.mp hprevious).linear
    obtain ⟨haffine', hrows', hcols', hpos'⟩ := hs.linear
    have hfit : next.cols = previous.rows := by omega
    have hproduct := DenseMatrix.isAffine_product haffine' haffine hfit
    rw [DenseMatrix.multiply_eq hfit, ofMatrix_ok, ok_bind,
      ofMatrix_eq_ok hproduct (by simp; omega), ok_bind]
    refine ⟨_, rfl, ⟨?_, ?_⟩, by simp [endsInKernel]⟩ <;> rw [List.reverse_cons]
    · exact linked_append.mpr ⟨l', hearlier, linked_singleton.mpr
        (fits_linear hproduct (by simpa using hrows') (by simpa using hcols) hpos)⟩
    · intro s hs
      rcases List.mem_append.mp hs with hs | hs
      · exact hall s (List.mem_append_left _ hs)
      · rw [List.mem_singleton.mp hs]
        rfl
  · refine ⟨_, rfl, ⟨?_, ?_⟩, by simp [endsInKernel]⟩ <;> rw [List.reverse_cons]
    · exact linked_append.mpr ⟨l, hlinked, linked_singleton.mpr hs⟩
    · intro s hs
      rcases List.mem_append.mp hs with hs | hs
      · exact hall s hs
      · rw [List.mem_singleton.mp hs]
        exact hsingle

variable (options) in
theorem foldlM_pushStep (hstack : Flat P n stack.reverse l) (hrest : Flat P l rest m) :
    ∃ stack', rest.foldlM (pushStep options) stack = .ok stack' ∧ Flat P n stack'.reverse m ∧
      endsInKernel stack'.reverse = endsInKernel (stack.reverse ++ rest) := by
  induction rest generalizing stack l with
  | nil =>
      obtain rfl : l = m := hrest.linked
      exact ⟨stack, rfl, hstack, by simp⟩
  | cons s rest ih =>
      obtain ⟨l', hs, hlinked⟩ := hrest.linked
      have hsingle := hrest.single s List.mem_cons_self
      obtain ⟨stack₁, hpush, hflat, hend⟩ := pushStep_flat options hstack hs hsingle
      obtain ⟨stack', hfold, hflat', hend'⟩ :=
        ih hflat ⟨hlinked, fun s' hs' => hrest.single s' (List.mem_cons_of_mem s hs')⟩
      refine ⟨stack', ?_, hflat', ?_⟩
      · rw [List.foldlM_cons, hpush]
        exact hfold
      · calc endsInKernel stack'.reverse = endsInKernel (stack₁.reverse ++ rest) := hend'
          _ = endsInKernel ([s] ++ rest) := endsInKernel_append_congr hend
          _ = endsInKernel (stack.reverse ++ s :: rest) :=
            (endsInKernel_append _ (List.cons_ne_nil s rest)).symm

variable (options) in
/-- Folding keeps steps linked and their last step a kernel or not. -/
theorem foldSteps_flat (h : Flat P n steps m) :
    ∃ folded, foldSteps options steps = .ok folded ∧ Flat P n folded m ∧
      endsInKernel folded = endsInKernel steps := by
  have hnil : Flat P n ([] : List (Transform κ α)).reverse n := ⟨rfl, by simp⟩
  obtain ⟨stack, hfold, hflat, hend⟩ := foldlM_pushStep options hnil h
  refine ⟨stack.reverse, ?_, hflat, by simpa using hend⟩
  rw [foldSteps, hfold]
  rfl

omit [LawfulScalar α] [Kernel κ α] in
/-- Without folding the steps stay as they are. -/
theorem foldSteps_unfolded (h : options.foldLinear = false) :
    foldSteps options steps = .ok steps := by
  have hpush : ∀ stack : List (Transform κ α), ∀ s,
      pushStep options stack s = .ok (s :: stack) := by
    intro stack s
    unfold pushStep
    split
    · rename_i hfold
      rw [h] at hfold
      cases hfold
    · rfl
  have hstack : ∀ stack : List (Transform κ α),
      steps.foldlM (pushStep options) stack = .ok (steps.reverse ++ stack) := by
    induction steps with
    | nil => intro stack; rfl
    | cons s steps ih =>
        intro stack
        rw [List.foldlM_cons, hpush, ok_bind, ih]
        simp
  rw [foldSteps, hstack]
  simp

end Folding

section Eliding

variable {κ α : Type} [Kernel κ α] [Scalar α] {P : κ → Prop} {n m : Nat}
  {s : Transform κ α} {steps : List (Transform κ α)} {options : AssemblyOptions}

/-- An identity has as many sources as targets. -/
theorem Fits.eq_of_isIdentity (h : Fits P n s m) (hs : s.isIdentity = true) : n = m := by
  cases s with
  | linear id matrix =>
      rw [← h.source, ← h.target, sourceDimensions, targetDimensions,
        DenseMatrix.rows_of_isIdentity hs]
  | _ => cases hs

theorem linked_filter (h : Linked P n steps m) :
    Linked P n (steps.filter fun s => !s.isIdentity) m := by
  induction steps generalizing n with
  | nil => exact h
  | cons s steps ih =>
      obtain ⟨l, hs, hsteps⟩ := h
      rw [List.filter_cons]
      split
      · exact ⟨l, hs, ih hsteps⟩
      · rename_i hid
        have hid : s.isIdentity = true := by simpa using hid
        rw [hs.eq_of_isIdentity hid]
        exact ih hsteps

variable (options) in
theorem elideSteps_flat (h : Flat P n steps m) : Flat P n (elideSteps options steps) m := by
  unfold elideSteps
  split
  · exact ⟨linked_filter h.linked, fun s hs => h.single s (List.mem_filter.mp hs).1⟩
  · exact h

variable (options) in
omit [Kernel κ α] in
/-- A kernel at the end is not left out. -/
theorem endsInKernel_elideSteps (h : endsInKernel steps = true) :
    endsInKernel (elideSteps options steps) = true := by
  unfold elideSteps
  split
  · obtain ⟨earlier, id, k, rfl⟩ := endsInKernel_iff.mp h
    rw [List.filter_append]
    exact endsInKernel_iff.mpr ⟨earlier.filter fun s => !s.isIdentity, id, k, rfl⟩
  · exact h

end Eliding

section MadeOf

variable {κ α : Type} [Scalar α] {n : Nat} {t : Transform κ α} {folded : List (Transform κ α)}
  {options : AssemblyOptions}

/-- What a chain is made of: the folded steps, or an identity if all of them are left out. -/
def MadeOf (options : AssemblyOptions) (n : Nat) (folded : List (Transform κ α))
    (t : Transform κ α) : Prop :=
  t.steps = elideSteps options folded ∨
    elideSteps options folded = [] ∧ t = linear none (DenseMatrix.identity (n + 1))

/-- The steps end in a kernel if `kernel` says so, and without elision only then. -/
def EndsAs (options : AssemblyOptions) (kernel : Bool) (steps : List (Transform κ α)) : Prop :=
  (kernel = true → endsInKernel steps = true) ∧
    (options.elideIdentity = false → endsInKernel steps = kernel)

omit [Scalar α] in
theorem EndsAs.refl (a : List (Transform κ α)) : EndsAs options (endsInKernel a) a :=
  ⟨id, fun _ => rfl⟩

omit [Scalar α] in
theorem EndsAs.trans {kernel : Bool} {a b : List (Transform κ α)} (h : EndsAs options kernel a)
    (h' : EndsAs options (endsInKernel a) b) : EndsAs options kernel b :=
  ⟨h'.1 ∘ h.1, fun ho => (h'.2 ho).trans (h.2 ho)⟩

omit [Scalar α] in
theorem EndsAs.append {a b : List (Transform κ α)} (h : EndsAs options (endsInKernel a) b)
    (rest : List (Transform κ α)) : EndsAs options (endsInKernel (a ++ rest)) (b ++ rest) := by
  by_cases hrest : rest = []
  · simpa [hrest] using h
  · rw [EndsAs, endsInKernel_append _ hrest, endsInKernel_append _ hrest]
    exact EndsAs.refl rest

theorem MadeOf.endsAs (h : MadeOf options n folded t) :
    EndsAs options (endsInKernel folded) t.steps := by
  constructor
  · intro hend
    have helided := endsInKernel_elideSteps options hend
    rcases h with h | ⟨h, _⟩
    · rwa [h]
    · rw [h] at helided
      cases helided
  · intro ho
    have hkeep : elideSteps options folded = folded := by
      rw [elideSteps, ho, if_neg Bool.false_ne_true]
    rw [MadeOf, hkeep] at h
    rcases h with h | ⟨h, rfl⟩
    · rw [h]
    · rw [h]
      rfl

theorem identity_eq_ok [LawfulScalar α] (hn : 0 < n) :
    (identity n : Except TransformError (Transform κ α)) =
      .ok (linear none (DenseMatrix.identity (n + 1))) :=
  ofMatrix_eq_ok (DenseMatrix.isAffine_identity n) (Nat.succ_le_succ hn)

end MadeOf

section Concatenating

variable {κ α : Type} [Kernel κ α] [Scalar α] [LawfulScalar α] {P : κ → Prop} {n m l : Nat}
  {a b t : Transform κ α} {steps folded rest : List (Transform κ α)} {options : AssemblyOptions}

theorem fits_identity (hn : 0 < n) :
    Fits P n (linear none (DenseMatrix.identity (n + 1)) : Transform κ α) n :=
  fits_linear (DenseMatrix.isAffine_identity n) rfl rfl hn

/-- Two transforms that fit are concatenated into one that is made of their folded steps. -/
theorem concatenateWith_made (ha : Fits P n a l) (hb : Fits P l b m)
    (hfold : foldSteps options (a.steps ++ b.steps) = .ok folded) (hfolded : Flat P n folded m) :
    ∃ t, concatenateWith options a b = .ok t ∧ Fits P n t m ∧ MadeOf options n folded t := by
  have hfit : a.targetDimensions = b.sourceDimensions := ha.target.trans hb.source.symm
  have helided := elideSteps_flat options hfolded
  unfold concatenateWith
  rw [if_neg (not_not.mpr hfit)]
  split
  · rename_i hverbatim
    simp only [Bool.and_eq_true, Bool.not_eq_true'] at hverbatim
    obtain rfl : a.steps ++ b.steps = folded := by
      rw [foldSteps_unfolded hverbatim.1] at hfold
      exact Except.ok.inj hfold
    refine ⟨chain none a b, join_eq_ok hfit, ha.chain none hb, .inl ?_⟩
    rw [elideSteps, hverbatim.2, if_neg Bool.false_ne_true]
    rfl
  · rw [hfold, ok_bind]
    cases hsteps : elideSteps options folded with
    | nil =>
        rw [hsteps] at helided
        obtain rfl : n = m := helided.linked
        refine ⟨linear none (DenseMatrix.identity (n + 1)), ?_, fits_identity ha.source_pos,
          .inr ⟨hsteps, rfl⟩⟩
        rw [joinAll, ok_bind, ha.source]
        exact identity_eq_ok ha.source_pos
    | cons first rest =>
        rw [hsteps] at helided
        obtain ⟨l', hfirst, hrest⟩ := helided.linked
        obtain ⟨t, hjoin, hfits, ht⟩ := foldlM_join hfirst hrest
        have hsingle : (first :: rest).flatMap Transform.steps = first :: rest := by
          have hmap := List.flatMap_congr helided.single
          simpa using hmap
        refine ⟨t, ?_, hfits, .inl ?_⟩
        · rw [joinAll, hjoin]
          rfl
        · rw [ht, hsteps]
          rwa [List.flatMap_cons] at hsingle

variable (options) in
/-- Two transforms that fit can be concatenated, with any options. -/
theorem concatenateWith_eq_ok (ha : Fits P n a l) (hb : Fits P l b m) :
    ∃ t, concatenateWith options a b = .ok t ∧ Fits P n t m ∧
      EndsAs options (endsInKernel b.steps) t.steps := by
  obtain ⟨folded, hfold, hfolded, hend⟩ :=
    foldSteps_flat options (ha.flat.append hb.flat)
  rw [endsInKernel_append _ b.steps_ne_nil] at hend
  obtain ⟨t, ht, hfits, hmade⟩ := concatenateWith_made ha hb hfold hfolded
  exact ⟨t, ht, hfits, hend ▸ hmade.endsAs⟩

variable (options) in
/-- Linked transforms can be composed through the standard assembler. -/
theorem compose_eq_ok (hlinked : Linked P n steps m) (hne : steps ≠ []) :
    ∃ t, (Assembler.standard options).compose steps = .ok t ∧ Fits P n t m ∧
      EndsAs options (endsInKernel (steps.flatMap Transform.steps)) t.steps := by
  cases steps with
  | nil => exact absurd rfl hne
  | cons first rest =>
      obtain ⟨l, hfirst, hrest⟩ := hlinked
      clear hne
      induction rest generalizing first l with
      | nil =>
          obtain rfl : l = m := hrest
          exact ⟨first, rfl, hfirst, by simpa using EndsAs.refl _⟩
      | cons next rest ih =>
          obtain ⟨l', hnext, hrest⟩ := hrest
          obtain ⟨t₁, hconcat, hfits, hend⟩ := concatenateWith_eq_ok options hfirst hnext
          obtain ⟨t, ht, hfits', hend'⟩ := ih t₁ l' hfits hrest
          refine ⟨t, ?_, hfits', ?_⟩
          · show (next :: rest).foldlM (concatenateWith options) first = .ok t
            rw [List.foldlM_cons, hconcat]
            exact ht
          · have hpair : EndsAs options (endsInKernel (first.steps ++ next.steps)) t₁.steps := by
              rwa [endsInKernel_append _ next.steps_ne_nil]
            refine EndsAs.trans ?_ hend'
            simpa [List.append_assoc] using hpair.append (rest.flatMap Transform.steps)

end Concatenating

section Verbatim

variable {κ α : Type} [Kernel κ α] [Scalar α] {t : Transform κ α} {parts : List (Transform κ α)}

/-- Without simplification transforms are joined as they are. -/
theorem concatenateWith_verbatim (a b : Transform κ α) :
    concatenateWith .verbatim a b = join a b := by
  unfold concatenateWith join
  split
  · rfl
  · rfl

theorem steps_of_compose_verbatim (h : (Assembler.standard .verbatim).compose parts = .ok t) :
    t.steps = parts.flatMap Transform.steps := by
  cases parts with
  | nil => cases h
  | cons first rest =>
      have hjoin : (concatenateWith .verbatim : Transform κ α → Transform κ α → _) = join :=
        funext₂ concatenateWith_verbatim
      change rest.foldlM (concatenateWith .verbatim) first = .ok t at h
      rw [hjoin] at h
      exact steps_of_foldlM_join h

end Verbatim

section PassingThrough

variable {κ α : Type} {k n : Nat} {t : Transform κ α}

theorem endsInKernel_passThrough_iff {id : NodeId} {q : Prop} (h : ¬(k = 0 ∧ n = 0)) :
    endsInKernel (passThrough id k t n).steps = true ↔ k = 0 ∧ n = 0 ∧ q := by
  constructor
  · intro hend
    cases hend
  · rintro ⟨hk, hn, _⟩
    exact absurd ⟨hk, hn⟩ h

variable [Kernel κ α] [Scalar α] {P : κ → Prop} {s m : Nat}

omit [Kernel κ α] in
theorem passThroughSimplified_zero (t : Transform κ α) : passThroughSimplified 0 t 0 = .ok t := by
  cases t <;> simp [passThroughSimplified]

theorem Fits.passThrough {id : NodeId} (h : Fits P s t m) (k n : Nat) :
    Fits P (k + s + n) (passThrough id k t n) (k + m + n) :=
  ⟨h.admissible, by rw [sourceDimensions, h.source], by rw [targetDimensions, h.target]⟩

variable [LawfulScalar α]

omit [Kernel κ α] in
/-- The simplest form of a wrapper around a matrix is the expanded matrix. -/
theorem passThroughSimplified_linear (id : NodeId) (m : DenseMatrix α) (h : ¬(k = 0 ∧ n = 0)) :
    passThroughSimplified k (linear id m : Transform κ α) n = .ok (linear none (expand k m n)) := by
  have hcols : 2 ≤ (expand k m n).cols := by
    rw [cols_expand]
    omega
  rw [passThroughSimplified, if_neg h]
  exact ofMatrix_eq_ok isAffine_expand hcols

/-- A pass-through has a simplest form, which ends in a kernel only if nothing is copied. -/
theorem passThroughSimplified_eq_ok (h : Fits P s t m) (k n : Nat) :
    ∃ t', passThroughSimplified k t n = .ok t' ∧ Fits P (k + s + n) t' (k + m + n) ∧
      (endsInKernel t'.steps = true ↔ k = 0 ∧ n = 0 ∧ endsInKernel t.steps = true) := by
  fun_induction passThroughSimplified k t n generalizing s m with
  | case1 k n t hnone =>
      obtain ⟨rfl, rfl⟩ := hnone
      exact ⟨_, rfl, by simpa using h, by simp⟩
  | case2 k n hsome id matrix =>
      obtain ⟨haffine, hrows, hcols, hpos⟩ := h.linear
      refine ⟨_, ofMatrix_eq_ok isAffine_expand ?_,
        fits_linear isAffine_expand ?_ ?_ ?_, by simp [steps, endsInKernel]⟩
      · rw [cols_expand]
        omega
      · rw [rows_expand, hrows, Nat.add_sub_cancel]
      · rw [cols_expand, hcols, Nat.add_sub_cancel]
      · omega
  | case3 k n hsome id k' inner n' ih =>
      obtain ⟨t', ht', hfits, hend⟩ := ih (Admissible.fits h.admissible)
      refine ⟨t', ht', ?_, ?_⟩
      · have hs := h.source
        have ht := h.target
        simp only [sourceDimensions, targetDimensions] at hs ht
        convert hfits using 1 <;> omega
      · rw [hend]
        simp only [steps, endsInKernel, List.getLast?_singleton, Bool.false_eq_true, and_false,
          iff_false]
        omega
  | case4 k n hsome t => exact ⟨_, rfl, h.passThrough k n, endsInKernel_passThrough_iff hsome⟩

end PassingThrough

end Transform
end SeparableTransforms
