import SeparableTransforms.Proofs.Transform.Sequencing

/-!
# Assembling coherent transforms

What the standard assembler builds out of coherent parts is coherent, with the
dimensions that were asked for, or it is refused for another reason than an argument:
because parts do not fit, or because a matrix cannot be used.  The only argument the
assembler could complain about is a matrix that takes no coordinate, and none of its
own making is such a matrix.

A transform *spans* two numbers of dimensions if it is coherent and takes and gives as
many coordinates.
-/

namespace SeparableTransforms

/-- The error does not blame an argument. -/
def TransformError.Blameless : TransformError → Prop
  | .illegalArgument _ => False
  | _ => True

namespace Outcome

section Blameless

variable {β : Type} {P : β → Prop}

/-- An outcome that does not blame an argument, and whose result satisfies a predicate. -/
abbrev Accepts (P : β → Prop) : Except TransformError β → Prop :=
  Ensures TransformError.Blameless P

/-- Errors of matrices blame no argument. -/
theorem accepts_ofMatrix {x : Except MatrixError β} (h : ∀ b, x = .ok b → P b) :
    Accepts P (TransformError.ofMatrix x) := by
  cases x with
  | error e => trivial
  | ok b => exact h b rfl

end Blameless

end Outcome

namespace Transform

open Outcome

section Spans

variable {κ α : Type} [Kernel κ α] [Scalar α] {n m l : Nat} {s t : Transform κ α}
  {steps : List (Transform κ α)}

/-- A coherent transform from `n` coordinates to `m`. -/
structure Spans (n : Nat) (t : Transform κ α) (m : Nat) : Prop where
  coherent : t.Coherent
  source : t.sourceDimensions = n
  target : t.targetDimensions = m

theorem Coherent.spans (h : t.Coherent) : Spans t.sourceDimensions t t.targetDimensions :=
  ⟨h, rfl, rfl⟩

theorem sequenced_singleton : Sequenced n [t] m ↔ Spans n t m :=
  ⟨fun ⟨hcoherent, hsource, htarget⟩ => ⟨hcoherent, hsource, htarget⟩,
    fun ⟨hcoherent, hsource, htarget⟩ => ⟨hcoherent, hsource, htarget⟩⟩

theorem Spans.sequenced_steps (h : Spans n t m) : Sequenced n t.steps m := by
  obtain ⟨hcoherent, rfl, rfl⟩ := h
  exact hcoherent.sequenced

theorem Sequenced.snoc (hsteps : Sequenced n steps l) (ht : Spans l t m) :
    Sequenced n (steps ++ [t]) m :=
  sequenced_append.mpr ⟨l, hsteps, sequenced_singleton.mpr ht⟩

/-- A linear transform that is accepted spans the dimensions of its matrix. -/
theorem accepts_ofMatrix_spans (matrix : DenseMatrix α) (hcols : 2 ≤ matrix.cols) :
    Accepts (fun t : Transform κ α => Spans (matrix.cols - 1) t (matrix.rows - 1))
      (ofMatrix matrix) := by
  unfold ofMatrix
  split
  · trivial
  · rename_i haffine
    rw [if_neg (by omega)]
    exact ⟨⟨by simpa using haffine, hcols⟩, rfl, rfl⟩

theorem accepts_join (hs : Spans n s l) (ht : Spans l t m) :
    Accepts (Spans n · m) (join s t) := by
  have hfit : s.targetDimensions = t.sourceDimensions := hs.target.trans ht.source.symm
  rw [join_eq_ok hfit]
  exact ⟨⟨hs.coherent, ht.coherent, hfit⟩, hs.source, ht.target⟩

end Spans

section Assembling

variable {κ α : Type} [Kernel κ α] [Scalar α] {options : AssemblyOptions} {n m l k c : Nat}
  {a b s t : Transform κ α} {steps rest stack : List (Transform κ α)}

/-- A fold over steps in sequence, where each step takes what has been reached before it. -/
theorem accepts_foldlM {γ : Type} {J : γ → Nat → Prop}
    {f : γ → Transform κ α → Except TransformError γ}
    (hf : ∀ {c l s m}, J c l → Spans l s m → Accepts (J · m) (f c s)) {c : γ} (hc : J c l)
    (hrest : Sequenced l rest m) : Accepts (J · m) (rest.foldlM f c) := by
  induction rest generalizing c l with
  | nil =>
      obtain rfl : l = m := hrest
      exact hc
  | cons next rest ih =>
      obtain ⟨hnext, hsource, hrest⟩ := hrest
      rw [List.foldlM_cons]
      exact (hf hc ⟨hnext, hsource, rfl⟩).bind fun c' hc' => ih hc' hrest

/-- One more step on the stack, folded or not. -/
theorem accepts_pushStep (hstack : Sequenced n stack.reverse l) (hs : Spans l s m) :
    Accepts (fun stack' => Sequenced n stack'.reverse m) (pushStep options stack s) := by
  have hpushed : Sequenced n (s :: stack).reverse m := by
    rw [List.reverse_cons]
    exact hstack.snoc hs
  unfold pushStep
  split
  · rename_i id previous earlier id' next _
    rw [List.reverse_cons] at hstack
    obtain ⟨l', hearlier, ⟨haffine, hcols⟩, rfl, hfit⟩ := sequenced_append.mp hstack
    refine (accepts_ofMatrix (P := fun product => product.rows = next.rows ∧
      product.cols = previous.cols) fun product => shape_of_multiply).bind ?_
    rintro product ⟨hrows, hcols'⟩
    refine (accepts_ofMatrix_spans product (hcols' ▸ hcols)).bind fun folded hfolded => ?_
    have htarget : next.rows - 1 = m := hs.target
    rw [hrows, hcols', htarget] at hfolded
    show Sequenced n (folded :: earlier).reverse m
    rw [List.reverse_cons]
    exact hearlier.snoc hfolded
  · exact hpushed

variable (options) in
theorem accepts_foldSteps (h : Sequenced n steps m) :
    Accepts (Sequenced n · m) (foldSteps options steps) := by
  have hnil : Sequenced n ([] : List (Transform κ α)).reverse n := rfl
  exact (accepts_foldlM (J := fun stack l => Sequenced n stack.reverse l) accepts_pushStep hnil
    h).map fun _ => id

theorem accepts_joinAll {first : Transform κ α} (h : Sequenced n (first :: rest) m) :
    Accepts (Spans n · m) (rest.foldlM join first) := by
  obtain ⟨hfirst, hsource, hrest⟩ := h
  exact accepts_foldlM (J := Spans n) accepts_join ⟨hfirst, hsource, rfl⟩ hrest

/-- What the folded steps are joined to spans what they span together. -/
theorem accepts_joinElided (hfolded : Sequenced n steps m) (hne : steps ≠ []) :
    Accepts (Spans n · m) (do
      match ← joinAll (elideSteps options steps) with
      | some result => return result
      | none => identity n) := by
  have helided := hfolded.elideSteps options
  cases hsteps : elideSteps options steps with
  | cons first rest =>
      rw [hsteps] at helided
      exact ((accepts_joinAll helided).map fun _ => id).bind fun result hresult => hresult
  | nil =>
      have hpos := hfolded.pos_of_elideSteps hne hsteps
      rw [hsteps] at helided
      obtain rfl : n = m := helided
      exact accepts_ofMatrix_spans (DenseMatrix.identity (n + 1)) (Nat.succ_le_succ hpos)

variable (options) in
/-- A concatenation of parts that fit spans what they span together. -/
theorem accepts_concatenateWith (ha : Spans n a l) (hb : Spans l b m) :
    Accepts (Spans n · m) (concatenateWith options a b) := by
  unfold concatenateWith
  split
  · trivial
  · split
    · exact accepts_join ha hb
    · have hsteps := sequenced_append.mpr ⟨l, ha.sequenced_steps, hb.sequenced_steps⟩
      have haccepts := accepts_foldSteps options hsteps
      cases hfold : foldSteps options (a.steps ++ b.steps) with
      | error e =>
          rw [hfold] at haccepts
          exact haccepts
      | ok folded =>
          rw [hfold] at haccepts
          have hne := foldSteps_ne_nil
            (List.append_ne_nil_of_left_ne_nil a.steps_ne_nil b.steps) hfold
          rw [ha.source]
          exact accepts_joinElided haccepts hne

/-- A pass-through in its simplest form spans the copied coordinates as well. -/
theorem accepts_passThroughSimplified (h : Spans n t m) (k c : Nat) :
    Accepts (Spans (k + n + c) · (k + m + c)) (passThroughSimplified k t c) := by
  fun_induction passThroughSimplified k t c generalizing n m with
  | case1 k t c hnone =>
      obtain ⟨rfl, rfl⟩ := hnone
      rw [Nat.zero_add, Nat.zero_add]
      exact h
  | case2 k c hsome id matrix =>
      obtain ⟨⟨haffine, hcols⟩, rfl, rfl⟩ := h
      have hwide : 2 ≤ (expand k matrix c).cols := by
        rw [cols_expand]
        omega
      have hexpand := accepts_ofMatrix_spans (κ := κ) (expand k matrix c) hwide
      rwa [rows_expand, cols_expand, Nat.add_sub_cancel, Nat.add_sub_cancel] at hexpand
  | case3 k c hsome id k' inner c' ih =>
      -- the copied coordinates of both wrappers are counted together
      obtain ⟨hcoherent, rfl, rfl⟩ := h
      have hinner := ih (Coherent.spans hcoherent)
      have hsource : k + (k' + inner.sourceDimensions + c') + c =
          k + k' + inner.sourceDimensions + (c + c') := by omega
      have htarget : k + (k' + inner.targetDimensions + c') + c =
          k + k' + inner.targetDimensions + (c + c') := by omega
      rw [sourceDimensions, targetDimensions, hsource, htarget]
      exact hinner
  | case4 k c hsome t =>
      obtain ⟨hcoherent, rfl, rfl⟩ := h
      exact ⟨hcoherent, rfl, rfl⟩

end Assembling

end Transform

section Assemblers

open Outcome Transform

variable {κ α : Type} [Kernel κ α] [Scalar α] {assembler : Assembler κ α}

/-- An assembler that makes transforms which span what was asked for, and blames no argument if
matrices take a coordinate and parts fit. -/
structure Assembler.KeepsSpans (assembler : Assembler κ α) : Prop where
  affine (matrix : DenseMatrix α) (hcols : 2 ≤ matrix.cols) :
    Accepts (fun t => Spans (matrix.cols - 1) t (matrix.rows - 1)) (assembler.affine matrix)
  concatenate {a b : Transform κ α} {n l m : Nat} (ha : Spans n a l) (hb : Spans l b m) :
    Accepts (Spans n · m) (assembler.concatenate a b)
  passThrough {t : Transform κ α} {n m : Nat} (ht : Spans n t m) (k c : Nat) :
    Accepts (Spans (k + n + c) · (k + m + c)) (assembler.passThrough k t c)

/-- A matrix for some coordinates, with its last row and column. -/
theorem Assembler.KeepsSpans.affine_of {matrix : DenseMatrix α} {n m : Nat}
    (h : assembler.KeepsSpans) (hrows : matrix.rows = m + 1) (hcols : matrix.cols = n + 1)
    (hn : 0 < n) : Accepts (Spans n · m) (assembler.affine matrix) := by
  have haffine := h.affine matrix (by omega)
  rwa [hrows, hcols] at haffine

theorem Assembler.KeepsSpans.compose {parts : List (Transform κ α)} {n m : Nat}
    (h : assembler.KeepsSpans) (hparts : Sequenced n parts m) :
    Accepts (Spans n · m) (assembler.compose parts) := by
  cases parts with
  | nil => trivial
  | cons first rest =>
      obtain ⟨hfirst, hsource, hrest⟩ := hparts
      exact accepts_foldlM h.concatenate ⟨hfirst, hsource, rfl⟩ hrest

theorem Assembler.standard_keepsSpans (options : AssemblyOptions) :
    (Assembler.standard options : Assembler κ α).KeepsSpans where
  affine := accepts_ofMatrix_spans
  concatenate := accepts_concatenateWith options
  passThrough := accepts_passThroughSimplified

end Assemblers

end SeparableTransforms
