import SeparableTransforms.Proofs.DenseMatrix.Agreement
import SeparableTransforms.Transform.Assembly
import SeparableTransforms.Transform.Descriptor

/-!
# Transforms with equal descriptors

Two transforms *resemble* each other if they are trees of the same form: with
matrices that are stored as equal in the same places, as many coordinates copied, and
kernels of the same name and dimensions.  Nodes may have any identities, and kernels
may compute anything.  This is what equality of descriptors says.

The standard assembler does not tell such transforms apart.  It looks at dimensions,
at products of matrices and at whether a matrix is an identity, and never at a node's
identity or into a kernel.  Given parts that resemble each other it either builds
transforms that do, or refuses both with the same error.
-/

namespace SeparableTransforms
namespace Transform

open Outcome

section Resemblance

variable {κ κ' α : Type} [Kernel κ α] [Kernel κ' α] [Scalar α]

/-- Trees of the same form, with equal matrices and kernels that go by the same name. -/
inductive Resembles : Transform κ α → Transform κ' α → Prop
  | linear {id id' : NodeId} {m m' : DenseMatrix α} (matrix : (m == m') = true) :
      Resembles (.linear id m) (.linear id' m')
  | chain {id id' : NodeId} {a b : Transform κ α} {a' b' : Transform κ' α}
      (first : Resembles a a') (second : Resembles b b') :
      Resembles (.chain id a b) (.chain id' a' b')
  | passThrough {id id' : NodeId} {k n : Nat} {t : Transform κ α} {t' : Transform κ' α}
      (inner : Resembles t t') : Resembles (.passThrough id k t n) (.passThrough id' k t' n)
  | kernel {id id' : NodeId} {k : κ} {k' : κ'} (name : Kernel.name k = Kernel.name k')
      (source : Kernel.sourceDimensions k = Kernel.sourceDimensions k')
      (target : Kernel.targetDimensions k = Kernel.targetDimensions k') :
      Resembles (.kernel id k) (.kernel id' k')

variable {t : Transform κ α} {t' : Transform κ' α}

/-- Transforms resemble each other if their descriptors are equal. -/
theorem resembles_iff_describe : t.Resembles t' ↔ (t.describe == t'.describe) = true := by
  show _ ↔ t.describe.same t'.describe = true
  constructor
  · intro h
    induction h with
    | linear matrix => exact matrix
    | chain _ _ iha ihb => simp [describe, Descriptor.same, iha, ihb]
    | passThrough _ ih => simp [describe, Descriptor.same, ih]
    | kernel name source target => simp [describe, Descriptor.same, name, source, target]
  · intro h
    induction t generalizing t' with
    | linear id m =>
        cases t' with
        | linear id' m' => exact .linear h
        | _ => cases h
    | chain id a b iha ihb =>
        cases t' with
        | chain id' a' b' =>
            obtain ⟨ha, hb⟩ := Bool.and_eq_true_iff.mp h
            exact .chain (iha ha) (ihb hb)
        | _ => cases h
    | passThrough id k inner n ih =>
        cases t' with
        | passThrough id' k' inner' n' =>
            simp only [describe, Descriptor.same, Bool.and_eq_true, beq_iff_eq] at h
            obtain ⟨⟨rfl, hinner⟩, rfl⟩ := h
            exact .passThrough (ih hinner)
        | _ => cases h
    | kernel id k =>
        cases t' with
        | kernel id' k' =>
            simp only [describe, Descriptor.same, Bool.and_eq_true, beq_iff_eq] at h
            exact .kernel h.1.1 h.1.2 h.2
        | _ => cases h

theorem Resembles.source (h : t.Resembles t') : t.sourceDimensions = t'.sourceDimensions := by
  induction h with
  | linear matrix => exact congrArg (· - 1) (DenseMatrix.cols_congr matrix)
  | chain _ _ iha _ => exact iha
  | passThrough _ ih => simp only [sourceDimensions, ih]
  | kernel _ source _ => exact source

theorem Resembles.target (h : t.Resembles t') : t.targetDimensions = t'.targetDimensions := by
  induction h with
  | linear matrix => exact congrArg (· - 1) (DenseMatrix.rows_congr matrix)
  | chain _ _ _ ihb => exact ihb
  | passThrough _ ih => simp only [targetDimensions, ih]
  | kernel _ _ target => exact target

/-- Transforms that resemble each other do so step by step. -/
theorem Resembles.steps (h : t.Resembles t') : List.Forall₂ Resembles t.steps t'.steps := by
  induction h with
  | chain _ _ iha ihb => exact List.rel_append iha ihb
  | linear matrix => exact .cons (.linear matrix) .nil
  | passThrough inner _ => exact .cons (.passThrough inner) .nil
  | kernel name source target => exact .cons (.kernel name source target) .nil

theorem Resembles.isIdentity [LawfulScalar α] (h : t.Resembles t') :
    t.isIdentity = t'.isIdentity := by
  cases h with
  | linear matrix => exact DenseMatrix.isIdentity_congr matrix
  | _ => rfl

end Resemblance

section Chains

variable {κ κ' α : Type} [Kernel κ α] [Kernel κ' α] [Scalar α] [LawfulScalar α]
  {options : AssemblyOptions} {m m' : DenseMatrix α} {a b s : Transform κ α}
  {a' b' s' : Transform κ' α} {steps stack : List (Transform κ α)}
  {steps' stack' : List (Transform κ' α)}

theorem ofMatrix_resembles (h : (m == m') = true) :
    Matches Resembles (ofMatrix m : Except TransformError (Transform κ α))
      (ofMatrix m' : Except TransformError (Transform κ' α)) := by
  unfold ofMatrix
  rw [DenseMatrix.isAffine_congr h, DenseMatrix.cols_congr h]
  split
  · exact .error _
  · split
    · exact .error _
    · exact .ok (.linear h)

theorem identity_resembles (n : Nat) :
    Matches Resembles (identity n : Except TransformError (Transform κ α))
      (identity n : Except TransformError (Transform κ' α)) :=
  ofMatrix_resembles (DenseMatrix.beq_refl _)

omit [LawfulScalar α] in
theorem join_resembles (ha : a.Resembles a') (hb : b.Resembles b') :
    Matches Resembles (join a b) (join a' b') := by
  unfold join
  rw [ha.target, hb.source]
  split
  · exact .error _
  · exact .ok (.chain ha hb)

omit [LawfulScalar α] in
theorem joinAll_resembles (h : List.Forall₂ Resembles steps steps') :
    Matches (Option.Rel Resembles) (joinAll steps) (joinAll steps') := by
  cases h with
  | nil => exact .ok .none
  | cons hfirst hrest =>
      have hjoined := Matches.foldlM hrest (fun _ _ _ _ => join_resembles) hfirst
      exact hjoined.map fun _ _ => .some

theorem pushStep_resembles (hstack : List.Forall₂ Resembles stack stack')
    (hs : s.Resembles s') : Matches (List.Forall₂ Resembles) (pushStep options stack s)
      (pushStep options stack' s') := by
  have hpush : Matches (ε := TransformError) (List.Forall₂ Resembles) (.ok (s :: stack))
      (.ok (s' :: stack')) := .ok (.cons hs hstack)
  obtain ⟨foldLinear, elideIdentity⟩ := options
  cases foldLinear with
  | false => exact hpush
  | true =>
      cases hstack with
      | nil => exact hpush
      | cons htop hearlier =>
          cases htop with
          | linear hprevious =>
              cases hs with
              | linear hnext =>
                  refine (DenseMatrix.multiply_congr hnext hprevious).ofMatrix.bind
                    fun _ _ hproduct => ?_
                  refine (ofMatrix_resembles hproduct).bind fun _ _ hfolded => ?_
                  exact .ok (.cons hfolded hearlier)
              | _ => exact hpush
          | _ => exact hpush

theorem foldSteps_resembles (h : List.Forall₂ Resembles steps steps') :
    Matches (List.Forall₂ Resembles) (foldSteps options steps) (foldSteps options steps') := by
  have hfolded := Matches.foldlM h (f := pushStep options) (g := pushStep options)
    (fun _ _ _ _ => pushStep_resembles) (List.Forall₂.nil (R := Resembles))
  exact hfolded.map fun _ _ hstack => List.rel_reverse hstack

theorem elideSteps_resembles (h : List.Forall₂ Resembles steps steps') :
    List.Forall₂ Resembles (elideSteps options steps) (elideSteps options steps') := by
  unfold elideSteps
  split
  · exact List.rel_filter (fun _ _ hs => by simp [hs.isIdentity]) h
  · exact h

/-- Concatenations of transforms that resemble each other do so as well. -/
theorem concatenateWith_resembles (ha : a.Resembles a') (hb : b.Resembles b') :
    Matches Resembles (concatenateWith options a b) (concatenateWith options a' b') := by
  unfold concatenateWith
  rw [ha.target, hb.source, ha.source]
  split
  · exact .error _
  · split
    · exact join_resembles ha hb
    · refine (foldSteps_resembles (List.rel_append ha.steps hb.steps)).bind fun _ _ hfolded => ?_
      refine (joinAll_resembles (elideSteps_resembles hfolded)).bind fun _ _ hjoined => ?_
      cases hjoined with
      | none => exact identity_resembles _
      | some hresult => exact .ok hresult

end Chains

section PassThrough

variable {κ κ' α : Type} [Kernel κ α] [Kernel κ' α] [Scalar α] [LawfulScalar α]
  {m m' : DenseMatrix α} {t : Transform κ α} {t' : Transform κ' α}

theorem expand_congr (h : (m == m') = true) (k n : Nat) :
    (expand k m n == expand k m' n) = true := by
  unfold expand
  rw [DenseMatrix.rows_congr h, DenseMatrix.cols_congr h]
  refine DenseMatrix.beq_ofFn fun r c _ _ => ?_
  split_ifs <;> first | exact Same.refl _ | exact DenseMatrix.entry_congr h _ _

/-- So do their pass-throughs in simplest form. -/
theorem passThroughSimplified_resembles (h : t.Resembles t') (k n : Nat) :
    Matches Resembles (passThroughSimplified k t n) (passThroughSimplified k t' n) := by
  induction h generalizing k n with
  | linear matrix =>
      unfold passThroughSimplified
      split
      · exact .ok (.linear matrix)
      · exact ofMatrix_resembles (expand_congr matrix k n)
  | chain first second _ _ =>
      unfold passThroughSimplified
      split
      · exact .ok (.chain first second)
      · exact .ok (.passThrough (.chain first second))
  | passThrough inner ih =>
      unfold passThroughSimplified
      split
      · exact .ok (.passThrough inner)
      · exact ih _ _
  | kernel name source target =>
      unfold passThroughSimplified
      split
      · exact .ok (.kernel name source target)
      · exact .ok (.passThrough (.kernel name source target))

end PassThrough

end Transform

section Assemblers

open Outcome Transform

variable {κ κ' α : Type} [Kernel κ α] [Kernel κ' α] [Scalar α]

/-- Two assemblers that build transforms which resemble each other out of parts that do. -/
structure Assembler.Resembles (assembler : Assembler κ α) (assembler' : Assembler κ' α) :
    Prop where
  affine {m m' : DenseMatrix α} (h : (m == m') = true) :
    Matches Transform.Resembles (assembler.affine m) (assembler'.affine m')
  concatenate {a b : Transform κ α} {a' b' : Transform κ' α} (ha : a.Resembles a')
    (hb : b.Resembles b') :
    Matches Transform.Resembles (assembler.concatenate a b) (assembler'.concatenate a' b')
  passThrough {t : Transform κ α} {t' : Transform κ' α} (h : t.Resembles t') (k n : Nat) :
    Matches Transform.Resembles (assembler.passThrough k t n) (assembler'.passThrough k t' n)

theorem Assembler.Resembles.compose {assembler : Assembler κ α} {assembler' : Assembler κ' α}
    (hassembler : assembler.Resembles assembler') {parts : List (Transform κ α)}
    {parts' : List (Transform κ' α)} (h : List.Forall₂ Transform.Resembles parts parts') :
    Matches Transform.Resembles (assembler.compose parts) (assembler'.compose parts') := by
  cases h with
  | nil => exact .error _
  | cons hfirst hrest =>
      exact .foldlM hrest (fun _ _ _ _ => hassembler.concatenate) hfirst

/-- The standard assembler sees nothing that a descriptor does not show. -/
theorem Assembler.standard_resembles [LawfulScalar α] (options : AssemblyOptions) :
    (Assembler.standard options : Assembler κ α).Resembles
      (Assembler.standard options : Assembler κ' α) where
  affine := ofMatrix_resembles
  concatenate := concatenateWith_resembles
  passThrough := passThroughSimplified_resembles

end Assemblers

end SeparableTransforms
