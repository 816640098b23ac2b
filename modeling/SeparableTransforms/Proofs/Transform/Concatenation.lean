import SeparableTransforms.Proofs.Kernels.Synthetic
import SeparableTransforms.Proofs.Transform.Spanning

/-!
# What a concatenation is made of

Coherent transforms can be concatenated as soon as they fit.  The product of two affine
matrices is affine, whatever their coefficients are, and so a matrix that comes out of
folding is never refused.  On steps in sequence folding is therefore a function without
errors, `merged`, and a concatenation consists of the merged steps, or of one identity if
all of them are left out.

The result is in normal form.  Its dimensions are those that are left open by the two
parts.  With folding no linear step follows another, and with elision no step is an
identity, unless an identity is all there is.  The steps that are not linear are the same
nodes as before, in the same order.
-/

namespace SeparableTransforms
namespace Transform

open Outcome

section Merging

variable {κ α : Type} [Scalar α] {options : AssemblyOptions}

/-- One more step on the stack, which lists the steps from last to first.  Two linear steps become
one if the options say so. -/
def merge (options : AssemblyOptions) (stack : List (Transform κ α)) (s : Transform κ α) :
    List (Transform κ α) :=
  match options.foldLinear, stack, s with
  | true, linear _ previous :: earlier, linear _ next =>
      linear none (next.product previous) :: earlier
  | _, _, _ => s :: stack

/-- The steps of a chain with neighbouring linear steps made one, if the options say so. -/
def merged (options : AssemblyOptions) (steps : List (Transform κ α)) : List (Transform κ α) :=
  (steps.foldl (merge options) []).reverse

theorem merge_linear {id id' : NodeId} {previous next : DenseMatrix α}
    {earlier : List (Transform κ α)} (hfold : options.foldLinear = true) :
    merge options (linear id previous :: earlier) (linear id' next) =
      linear none (next.product previous) :: earlier := by
  simp [merge, hfold]

theorem merged_snoc (options : AssemblyOptions) (steps : List (Transform κ α))
    (s : Transform κ α) :
    merged options (steps ++ [s]) = (merge options (merged options steps).reverse s).reverse := by
  simp [merged]

/-- A step is put on the stack, or it is linear and made one with the linear step on top. -/
theorem merge_cases (options : AssemblyOptions) (stack : List (Transform κ α))
    (s : Transform κ α) :
    (merge options stack s = s :: stack ∧ pushStep options stack s = .ok (s :: stack) ∧
        (options.foldLinear = true →
          ∀ top ∈ stack.head?, top.isLinear = true → s.isLinear = false)) ∨
      options.foldLinear = true ∧ ∃ id previous earlier id' next,
        stack = linear id previous :: earlier ∧ s = linear id' next := by
  by_cases hlinear : options.foldLinear = true ∧ ∃ id previous earlier id' next,
      stack = linear id previous :: earlier ∧ s = linear id' next
  · exact .inr hlinear
  · have hpush : pushStep options stack s = .ok (s :: stack) := by
      unfold pushStep
      split
      · rename_i hfold
        exact absurd ⟨hfold, _, _, _, _, _, rfl, rfl⟩ hlinear
      · rfl
    refine .inl ⟨?_, hpush, ?_⟩
    · unfold merge
      split
      · rename_i hfold
        exact absurd ⟨hfold, _, _, _, _, _, rfl, rfl⟩ hlinear
      · rfl
    · rcases pushStep_cases hpush with ⟨-, hhead⟩ | ⟨-, -, top, earlier, _, -, rfl, hstack⟩
      · exact hhead
      · exact absurd (congrArg List.length hstack) (by simp)

end Merging

section Succeeding

variable {κ α : Type} [Kernel κ α] [Scalar α] [LawfulScalar α] {options : AssemblyOptions}
  {n m l : Nat} {a b s : Transform κ α} {stack steps : List (Transform κ α)}

/-- A linear step that fits can be multiplied with the one on top of the stack. -/
theorem product_fits {id id' : NodeId} {previous next : DenseMatrix α}
    (hstack : Sequenced n (linear id previous :: stack).reverse l)
    (hs : Spans l (linear id' next : Transform κ α) m) :
    previous.isAffine = true ∧ next.cols = previous.rows := by
  rw [List.reverse_cons] at hstack
  obtain ⟨l', -, ⟨haffine, -⟩, -, hfit⟩ := sequenced_append.mp hstack
  have hrows := DenseMatrix.isAffine_rows_pos haffine
  have hcols := hs.coherent.2
  have hsource := hs.source
  simp only [Sequenced, sourceDimensions, targetDimensions] at hfit hsource
  exact ⟨haffine, by omega⟩

variable (options) in
/-- A step that fits can be put on the stack, and nothing else happens than that it is merged. -/
theorem pushStep_eq_ok (hstack : Sequenced n stack.reverse l) (hs : Spans l s m) :
    pushStep options stack s = .ok (merge options stack s) ∧
      Sequenced n (merge options stack s).reverse m := by
  suffices hpush : pushStep options stack s = .ok (merge options stack s) by
    have haccepts : Accepts _ (pushStep options stack s) := accepts_pushStep hstack hs
    rw [hpush] at haccepts
    exact ⟨hpush, haccepts⟩
  rcases merge_cases options stack s with
    ⟨hmerge, hpush, -⟩ | ⟨hfold, id, previous, earlier, id', next, rfl, rfl⟩
  · rw [hmerge, hpush]
  · obtain ⟨haffine, hmiddle⟩ := product_fits hstack hs
    have hproduct : (next.product previous).isAffine = true :=
      DenseMatrix.isAffine_product hs.coherent.1 haffine hmiddle
    rw [List.reverse_cons] at hstack
    obtain ⟨-, -, ⟨-, hcols⟩, -, -⟩ := sequenced_append.mp hstack
    simp only [merge_linear hfold, pushStep, hfold, DenseMatrix.multiply_eq_product hmiddle,
      ofMatrix_ok, ok_bind, ofMatrix_eq_ok hproduct hcols, pure_eq_ok]

omit [LawfulScalar α] [Kernel κ α] in
theorem foldSteps_snoc :
    foldSteps options (steps ++ [s]) =
      foldSteps options steps >>= fun folded =>
        List.reverse <$> pushStep options folded.reverse s := by
  unfold foldSteps
  rw [List.foldlM_append]
  cases steps.foldlM (pushStep options) [] with
  | error e => rfl
  | ok stack =>
      cases hpush : pushStep options stack s with
      | error e => simp [hpush]
      | ok stack' => simp [hpush]

variable (options) in
/-- Steps in sequence can be folded. -/
theorem foldSteps_eq_ok (h : Sequenced n steps m) :
    foldSteps options steps = .ok (merged options steps) ∧
      Sequenced n (merged options steps) m := by
  induction steps using List.reverseRecOn generalizing m with
  | nil => exact ⟨rfl, h⟩
  | append_singleton steps s ih =>
      obtain ⟨l, hsteps, hs⟩ := sequenced_append.mp h
      obtain ⟨hfold, hmerged⟩ := ih hsteps
      have hspans : Spans l s m := sequenced_singleton.mp hs
      rw [← List.reverse_reverse (merged options steps)] at hmerged
      obtain ⟨hpush, hsequenced⟩ := pushStep_eq_ok options hmerged hspans
      rw [foldSteps_snoc, hfold, ok_bind, hpush, merged_snoc]
      exact ⟨rfl, hsequenced⟩

variable (options) in
/-- Coherent transforms that fit can be concatenated, and the result is made of the merged steps. -/
theorem concatenateWith_merged (ha : Spans n a l) (hb : Spans l b m) :
    ∃ t, concatenateWith options a b = .ok t ∧ Spans n t m ∧
      MadeOf options n (merged options (a.steps ++ b.steps)) t := by
  have hsteps : Sequenced n (a.steps ++ b.steps) m :=
    sequenced_append.mpr ⟨l, ha.sequenced_steps, hb.sequenced_steps⟩
  have hfit : a.targetDimensions = b.sourceDimensions := ha.target.trans hb.source.symm
  obtain ⟨hfold, hmerged⟩ := foldSteps_eq_ok options hsteps
  have hne := foldSteps_ne_nil
    (List.append_ne_nil_of_left_ne_nil a.steps_ne_nil b.steps) hfold
  rw [← ha.source, ← hb.target] at hmerged
  obtain ⟨t, ht, -, -, hmade⟩ :=
    concatenateWith_coherent ha.coherent hb.coherent hfit hfold hmerged hne
  have hspans := accepts_concatenateWith options ha hb
  rw [ht] at hspans
  exact ⟨t, ht, hspans, ha.source ▸ hmade⟩

end Succeeding

section Keeping

variable {κ α : Type} [Scalar α] {options : AssemblyOptions} {s t : Transform κ α}
  {steps rest : List (Transform κ α)} {n : Nat}

/-- The steps that are not linear. -/
def nonlinear (steps : List (Transform κ α)) : List (Transform κ α) :=
  steps.filter fun s => !s.isLinear

omit [Scalar α] in
theorem nonlinear_append : nonlinear (steps ++ rest) = nonlinear steps ++ nonlinear rest :=
  List.filter_append _ _

omit [Scalar α] in
theorem nonlinear_singleton (h : s.isLinear = true) : nonlinear [s] = [] := by
  simp [nonlinear, h]

theorem nonlinear_merge (options : AssemblyOptions) (stack : List (Transform κ α))
    (s : Transform κ α) :
    nonlinear (merge options stack s).reverse = nonlinear (stack.reverse ++ [s]) := by
  rcases merge_cases options stack s with
    ⟨hpush, -⟩ | ⟨hfold, id, previous, earlier, id', next, rfl, rfl⟩
  · rw [hpush, List.reverse_cons]
  · have hlinear : ∀ (id : NodeId) (matrix : DenseMatrix α),
        nonlinear [(linear id matrix : Transform κ α)] = [] :=
      fun _ _ => nonlinear_singleton rfl
    rw [merge_linear hfold, List.reverse_cons, List.reverse_cons]
    simp only [nonlinear_append, hlinear, List.append_nil]

/-- Merging keeps the steps that are not linear. -/
theorem nonlinear_merged (options : AssemblyOptions) (steps : List (Transform κ α)) :
    nonlinear (merged options steps) = nonlinear steps := by
  induction steps using List.reverseRecOn with
  | nil => rfl
  | append_singleton steps s ih =>
      rw [merged_snoc, nonlinear_merge, List.reverse_reverse, nonlinear_append, ih,
        nonlinear_append]

/-- So does leaving out identities, which are linear. -/
theorem nonlinear_elideSteps (options : AssemblyOptions) (steps : List (Transform κ α)) :
    nonlinear (elideSteps options steps) = nonlinear steps := by
  unfold elideSteps
  split
  · rw [nonlinear, List.filter_filter]
    refine List.filter_congr fun s _ => ?_
    cases hid : s.isIdentity with
    | true => simp [isLinear_of_isIdentity hid]
    | false => simp
  · rfl

theorem isIdentity_of_mem_elideSteps (helide : options.elideIdentity = true)
    (h : s ∈ elideSteps options steps) : s.isIdentity = false := by
  rw [elideSteps, if_pos helide] at h
  simpa using (List.mem_filter.mp h).2

/-- What is made of steps keeps those that are not linear. -/
theorem MadeOf.nonlinear_eq (h : MadeOf options n steps t) :
    nonlinear t.steps = nonlinear steps := by
  rw [← nonlinear_elideSteps options steps]
  rcases h with h | ⟨hnil, rfl⟩
  · rw [h]
  · rw [hnil]
    exact nonlinear_singleton rfl

/-- With elision no step is an identity, or the whole is one. -/
theorem MadeOf.isIdentity [LawfulScalar α] (helide : options.elideIdentity = true)
    (h : MadeOf options n steps t) :
    t.isIdentity = true ∨ ∀ s ∈ t.steps, s.isIdentity = false := by
  rcases h with h | ⟨-, rfl⟩
  · exact .inr fun s hs => isIdentity_of_mem_elideSteps helide (h ▸ hs)
  · exact .inl (isIdentity_identity (n + 1))

end Keeping

section Normal

variable {κ α : Type} [Kernel κ α] [Scalar α]

/-- The normal form of a concatenation of `a` and `b`. -/
structure NormalConcatenation (options : AssemblyOptions) (a b t : Transform κ α) : Prop where
  source : t.sourceDimensions = a.sourceDimensions
  target : t.targetDimensions = b.targetDimensions
  /-- With folding no linear step follows another one. -/
  folded : options.foldLinear = true → Unpaired t.steps
  /-- With elision the whole is an identity, or no step is. -/
  elided : options.elideIdentity = true →
    t.isIdentity = true ∨ ∀ s ∈ t.steps, s.isIdentity = false
  /-- The steps that are not linear are those of the parts. -/
  kept : nonlinear t.steps = nonlinear (a.steps ++ b.steps)

end Normal

section Binary64

variable {κ : Type} [Kernel κ Float] {a b : Transform κ Float}

/-- Coherent transforms can be concatenated exactly if they fit, whatever their coefficients are,
and are otherwise refused for their dimensions.  What is built is in normal form. -/
theorem standard_concatenate_normal (options : AssemblyOptions) (ha : a.Coherent)
    (hb : b.Coherent) :
    ((∃ t, (Assembler.standard options).concatenate a b = .ok t) ↔
      a.targetDimensions = b.sourceDimensions) ∧
    (∀ e, (Assembler.standard options).concatenate a b = .error e →
      e = .dimensionMismatch .concatenation a.targetDimensions b.sourceDimensions) ∧
    ∀ t, (Assembler.standard options).concatenate a b = .ok t →
      NormalConcatenation options a b t := by
  show ((∃ t, concatenateWith options a b = .ok t) ↔ _) ∧
    (∀ e, concatenateWith options a b = .error e → _) ∧
      ∀ t, concatenateWith options a b = .ok t → _
  by_cases hfit : a.targetDimensions = b.sourceDimensions
  · have hspans : Spans a.targetDimensions b b.targetDimensions := ⟨hb, hfit.symm, rfl⟩
    obtain ⟨t, ht, ⟨-, hsource, htarget⟩, hmade⟩ := concatenateWith_merged options ha.spans hspans
    have hkept : nonlinear t.steps = nonlinear (a.steps ++ b.steps) :=
      hmade.nonlinear_eq.trans (nonlinear_merged options _)
    refine ⟨iff_of_true ⟨t, ht⟩ hfit, fun e he => ?_, fun t' ht' => ?_⟩
    · rw [ht] at he
      cases he
    · obtain rfl : t = t' := Except.ok.inj (ht.symm.trans ht')
      exact ⟨hsource, htarget, fun hfold => unpaired_concatenateWith hfold ht,
        fun helide => hmade.isIdentity helide, hkept⟩
  · have hrefused : concatenateWith options a b =
        .error (.dimensionMismatch .concatenation a.targetDimensions b.sourceDimensions) :=
      if_pos hfit
    rw [hrefused]
    refine ⟨iff_of_false ?_ hfit, fun e he => (Except.error.inj he).symm, ?_⟩
    · rintro ⟨t, ht⟩
      cases ht
    · intro t ht
      cases ht

/-- A kernel of two coordinates, one of which is then shifted by an undetermined amount and the
other one doubled. -/
def shiftedAnyhow : Transform SyntheticKernel Float :=
  chain none (kernel (some 1) (.make "bend" 2 2 0.5 2 .declared none none))
    (chain none (linear (some 2) ⟨3, 3, #[1, 0, Binary64.nan, 0, 2, 0, 0, 0, 1], rfl⟩)
      (linear (some 3) (DenseMatrix.identity 3)))

/-- Infinitely large coefficients, and a kernel with a coordinate in front of it. -/
def stretchedAnyhow : Transform SyntheticKernel Float :=
  chain none (linear (some 4) ⟨3, 3, #[1 / 0, 0, 0, 0, 0.5, -1 / 0, 0, 0, 1], rfl⟩)
    (passThrough (some 5) 1 (kernel (some 6) (.make "fork" 1 2 0 2 .missing none none)) 0)

/-- The three linear steps in the middle are folded into one, whose coefficients are not all
determined. -/
theorem concatenate_shiftedAnyhow :
    ∃ t, (Assembler.standard ⟨true, true⟩).concatenate shiftedAnyhow stretchedAnyhow = .ok t ∧
      t.steps.length = 3 ∧ NormalConcatenation ⟨true, true⟩ shiftedAnyhow stretchedAnyhow t := by
  obtain ⟨hiff, -, hnormal⟩ := standard_concatenate_normal ⟨true, true⟩ (a := shiftedAnyhow)
    (b := stretchedAnyhow) (by decide +kernel) (by decide +kernel)
  obtain ⟨t, ht⟩ := hiff.mpr rfl
  have hlength : (Except.map (fun t => t.steps.length)
      ((Assembler.standard ⟨true, true⟩).concatenate shiftedAnyhow stretchedAnyhow)).toOption =
        some 3 := by
    decide +kernel
  rw [ht] at hlength
  exact ⟨t, ht, Option.some.inj hlength, hnormal t ht⟩

end Binary64

end Transform
end SeparableTransforms
