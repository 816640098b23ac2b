import SeparableTransforms.Proofs.Transform.ExactFolding
import SeparableTransforms.Proofs.Transform.Reduction

/-!
# Grouping does not matter

Several transforms can be concatenated in different orders, as if parentheses were put
around them.  On the way a group may collapse to an identity, be folded with its
neighbour or be left alone.  Whatever it becomes, it reduces alike to the steps it has
been made of.  The result of a last concatenation is reduced, or it is an identity that
stands for no step at all.  So the results of two groupings of the same transforms have
steps with equal descriptors.

Without folding this is true of any scalars.  With folding it takes an associative product
of matrices, as there is in exact arithmetic.
-/

namespace SeparableTransforms

section Groupings

variable {κ α : Type}

/-- Transforms in the order in which they apply, with parentheses around them. -/
inductive Grouping (κ α : Type) where
  | single (t : Transform κ α)
  | pair (first second : Grouping κ α)

/-- The transforms without the parentheses. -/
def Grouping.parts : Grouping κ α → List (Transform κ α)
  | single t => [t]
  | pair first second => first.parts ++ second.parts

/-- The concatenation, made by an assembler from the innermost parentheses outwards. -/
def Grouping.concatenate (assembler : Assembler κ α) :
    Grouping κ α → Except TransformError (Transform κ α)
  | single t => .ok t
  | pair first second => do
      let a ← first.concatenate assembler
      let b ← second.concatenate assembler
      assembler.concatenate a b

theorem Grouping.parts_ne_nil (g : Grouping κ α) : g.parts ≠ [] := by
  cases g with
  | single t => exact List.cons_ne_nil t []
  | pair first second => exact List.append_ne_nil_of_left_ne_nil first.parts_ne_nil _

/-- There are no parentheses to put around a single transform. -/
theorem Grouping.eq_single {g : Grouping κ α} {t : Transform κ α} (h : g.parts = [t]) :
    g = single t := by
  cases g with
  | single s => exact congrArg single (List.cons.inj h).1
  | pair first second =>
      rcases List.append_eq_singleton_iff.mp h with ⟨hnil, -⟩ | ⟨-, hnil⟩
      · exact absurd hnil first.parts_ne_nil
      · exact absurd hnil second.parts_ne_nil

/-- However the given transforms are grouped, they can be concatenated, and the results have steps
with equal descriptors. -/
def GroupsAlike [Kernel κ α] [Scalar α] (options : AssemblyOptions)
    (parts : List (Transform κ α)) : Prop :=
  ∀ g h : Grouping κ α, g.parts = parts → h.parts = parts →
    ∃ t u, g.concatenate (.standard options) = .ok t ∧ h.concatenate (.standard options) = .ok u ∧
      List.Forall₂ (fun s s' => (s.describe == s'.describe) = true) t.steps u.steps

end Groupings

namespace Transform

open Outcome

section Settled

variable {κ α : Type} [Kernel κ α] [Scalar α] [LawfulScalar α] {options : AssemblyOptions}
  {n m : Nat} {t u : Transform κ α} {parts folded : List (Transform κ α)}

/-- The steps are reduced, or there is an identity in place of none. -/
def Settled (options : AssemblyOptions) (n : Nat) (t : Transform κ α) : Prop :=
  (∃ m, ReducedStack options n t.steps.reverse m) ∨
    options.elideIdentity = true ∧ t = linear none (DenseMatrix.identity (n + 1))

omit [Kernel κ α] in
theorem elideSteps_identity (helide : options.elideIdentity = true) (id : NodeId) (n : Nat) :
    elideSteps options [(linear id (DenseMatrix.identity n) : Transform κ α)] = [] := by
  have hid : (linear id (DenseMatrix.identity n) : Transform κ α).isIdentity = true :=
    isIdentity_identity n
  simp [elideSteps, helide, hid]

omit [Kernel κ α] [LawfulScalar α] in
/-- Nothing but identities is left out. -/
theorem elideIdentity_of_elideSteps_eq_nil (hne : folded ≠ [])
    (hnil : elideSteps options folded = []) : options.elideIdentity = true := by
  unfold elideSteps at hnil
  split at hnil
  · assumption
  · exact absurd hnil hne

omit [LawfulScalar α] in
theorem settled_of_madeOf (hfolded : Sequenced n folded m) (hne : folded ≠ [])
    (hunpaired : options.foldLinear = true → Unpaired folded) (h : MadeOf options n folded t) :
    Settled options n t := by
  rcases h with hsteps | ⟨hnil, rfl⟩
  · refine .inl ⟨m, ?_, fun hfold => ?_, fun helide s hs => ?_⟩
    · rw [List.reverse_reverse, hsteps]
      exact hfolded.elideSteps options
    · rw [hsteps]
      exact unpaired_reverse (unpaired_elideSteps (hunpaired hfold))
    · rw [hsteps, List.mem_reverse] at hs
      exact isIdentity_of_mem_elideSteps helide hs
  · exact .inr ⟨elideIdentity_of_elideSteps_eq_nil hne hnil, rfl⟩

/-- What is made of steps reduces alike to them. -/
theorem reduceAlike_of_madeOf (hfolded : Sequenced n folded m) (hne : folded ≠ [])
    (h : MadeOf options n folded t) : ReduceAlike options n t.steps folded := by
  have helided := reduceAlike_elideSteps options hfolded
  rcases h with hsteps | ⟨hnil, rfl⟩
  · rwa [hsteps]
  · have helide := elideIdentity_of_elideSteps_eq_nil hne hnil
    have hpos := hfolded.pos_of_elideSteps hne hnil
    have hidentity : Sequenced n [(linear none (DenseMatrix.identity (n + 1)) : Transform κ α)] n :=
      ⟨⟨DenseMatrix.isAffine_identity _, Nat.succ_le_succ hpos⟩, rfl, rfl⟩
    have hdropped := reduceAlike_elideSteps options hidentity
    rw [elideSteps_identity helide] at hdropped
    rw [hnil] at helided
    exact hdropped.symm.trans helided

theorem Settled.reduceSteps (h : Settled options n t) :
    reduceSteps options [] t.steps = t.steps.reverse ∨
      reduceSteps options [] t.steps = [] ∧ t = linear none (DenseMatrix.identity (n + 1)) := by
  rcases h with ⟨m, hreduced⟩ | ⟨helide, rfl⟩
  · have hsteps := reduceSteps_reverse hreduced
    rw [List.reverse_reverse] at hsteps
    exact .inl hsteps
  · refine .inr ⟨?_, rfl⟩
    show elideSteps options (merge options [] _) = []
    rw [merge_apart (fun top htop => by cases htop)]
    exact elideSteps_identity helide none (n + 1)

/-- Settled transforms whose steps reduce alike are alike. -/
theorem Settled.alike (ht : Settled options n t) (hu : Settled options n u)
    (h : ReduceAlike options n t.steps u.steps) : Alike t.steps u.steps := by
  have halike := h n [] (reduced_nil options n)
  have hne : ∀ t : Transform κ α, t.steps.reverse ≠ [] := fun t =>
    mt List.reverse_eq_nil_iff.mp t.steps_ne_nil
  rcases ht.reduceSteps with hsteps | ⟨hsteps, hidentity⟩
  · rcases hu.reduceSteps with hsteps' | ⟨hsteps', -⟩
    · rw [hsteps, hsteps'] at halike
      exact List.forall₂_reverse_iff.mp halike
    · rw [hsteps, hsteps'] at halike
      exact absurd (List.forall₂_nil_right_iff.mp halike) (hne t)
  · rcases hu.reduceSteps with hsteps' | ⟨-, hidentity'⟩
    · rw [hsteps, hsteps'] at halike
      exact absurd (List.forall₂_nil_left_iff.mp halike) (hne u)
    · rw [hidentity, hidentity']
      exact .refl _

omit [LawfulScalar α] in
theorem Sequenced.flatMap_steps (h : Sequenced n parts m) :
    Sequenced n (parts.flatMap Transform.steps) m := by
  induction parts generalizing n with
  | nil => exact h
  | cons t parts ih =>
      obtain ⟨ht, hsource, hparts⟩ := h
      have hspans : Spans n t t.targetDimensions := ⟨ht, hsource, rfl⟩
      exact sequenced_append.mpr ⟨t.targetDimensions, hspans.sequenced_steps, ih hparts⟩

end Settled

section Grouped

variable {κ α : Type} [Kernel κ α] [Scalar α] [LawfulScalar α] [CommutativeScalar α]
  {options : AssemblyOptions} {n m l : Nat} {a b : Transform κ α} {parts : List (Transform κ α)}

/-- A concatenation is settled, and it reduces alike to the steps of its parts. -/
theorem concatenateWith_settled (hassoc : FoldsAssociatively options α) (ha : Spans n a l)
    (hb : Spans l b m) :
    ∃ t, concatenateWith options a b = .ok t ∧ Spans n t m ∧ Settled options n t ∧
      ReduceAlike options n t.steps (a.steps ++ b.steps) := by
  obtain ⟨t, ht, hspans, hmade⟩ := concatenateWith_merged options ha hb
  have hsteps : Sequenced n (a.steps ++ b.steps) m :=
    sequenced_append.mpr ⟨l, ha.sequenced_steps, hb.sequenced_steps⟩
  obtain ⟨hfold, hmerged⟩ := foldSteps_eq_ok options hsteps
  have hne := foldSteps_ne_nil
    (List.append_ne_nil_of_left_ne_nil a.steps_ne_nil b.steps) hfold
  exact ⟨t, ht, hspans,
    settled_of_madeOf hmerged hne (fun hfolds => unpaired_foldSteps hfolds hfold) hmade,
    (reduceAlike_of_madeOf hmerged hne hmade).trans (reduceAlike_merged hassoc hsteps)⟩

/-- A grouping reduces alike to the steps of all its parts, and it is settled unless there is but
one part. -/
theorem concatenate_settled (hassoc : FoldsAssociatively options α) (g : Grouping κ α)
    (h : Sequenced n g.parts m) :
    ∃ t, g.concatenate (.standard options) = .ok t ∧ Spans n t m ∧
      ReduceAlike options n t.steps (g.parts.flatMap steps) ∧
      ((∃ s, g.parts = [s]) ∨ Settled options n t) := by
  induction g generalizing n m with
  | single t =>
      refine ⟨t, rfl, sequenced_singleton.mp h, ?_, .inl ⟨t, rfl⟩⟩
      rw [Grouping.parts, List.flatMap_singleton]
      exact .refl t.steps
  | pair first second ihfirst ihsecond =>
      obtain ⟨l, hfirst, hsecond⟩ := sequenced_append.mp h
      obtain ⟨a, ha, hspansa, halikea, -⟩ := ihfirst hfirst
      obtain ⟨b, hb, hspansb, halikeb, -⟩ := ihsecond hsecond
      obtain ⟨t, ht, hspans, hsettled, halike⟩ := concatenateWith_settled hassoc hspansa hspansb
      refine ⟨t, ?_, hspans, ?_, .inr hsettled⟩
      · rw [Grouping.concatenate, ha, hb]
        exact ht
      · rw [Grouping.parts, List.flatMap_append]
        exact halike.trans (halikea.append halikeb hspansa.sequenced_steps hfirst.flatMap_steps
          hspansb.sequenced_steps)

/-- If products are associative, or not made, grouping does not matter. -/
theorem groupsAlike_of_sequenced (hassoc : FoldsAssociatively options α)
    (hparts : Sequenced n parts m) : GroupsAlike options parts := by
  rintro g h rfl hsame
  have hparts' : Sequenced n h.parts m := hsame ▸ hparts
  obtain ⟨t, ht, -, halike, hsettled⟩ := concatenate_settled hassoc g hparts
  obtain ⟨u, hu, -, halike', hsettled'⟩ := concatenate_settled hassoc h hparts'
  have hsteps : Alike t.steps u.steps := by
    by_cases hsingle : ∃ s, g.parts = [s]
    · obtain ⟨s, hs⟩ := hsingle
      have hgroup : g = h := (Grouping.eq_single hs).trans (Grouping.eq_single (hsame ▸ hs)).symm
      obtain rfl : t = u := Except.ok.inj (ht.symm.trans (hgroup ▸ hu))
      exact .refl t.steps
    · have hsingle' : ¬∃ s, h.parts = [s] := hsame ▸ hsingle
      rw [hsame] at halike'
      exact (hsettled.resolve_left hsingle).alike (hsettled'.resolve_left hsingle')
        (halike.trans halike'.symm)
  exact ⟨t, u, ht, hu, hsteps.imp fun _ _ => resembles_iff_describe.mp⟩

end Grouped

section Arithmetic

variable {κ κ' : Type} [Kernel κ Float] [Kernel κ' Rat] {n m n' m' : Nat}
  {parts : List (Transform κ Float)} {exactParts : List (Transform κ' Rat)}

theorem foldsAssociatively_rat (options : AssemblyOptions) : FoldsAssociatively options Rat := by
  intro _ a b c hfit
  rw [DenseMatrix.product_assoc hfit]
  exact DenseMatrix.beq_refl _

/-- Without folding the results of any two groupings have steps with equal descriptors.  With
folding this is so if products are exact. -/
theorem standard_groups_alike (options : AssemblyOptions) (hparts : Sequenced n parts m)
    (hexact : Sequenced n' exactParts m') :
    (options.foldLinear = false → GroupsAlike options parts) ∧ GroupsAlike options exactParts := by
  refine ⟨fun hfold => groupsAlike_of_sequenced (fun hfolds => ?_) hparts,
    groupsAlike_of_sequenced (foldsAssociatively_rat options) hexact⟩
  rw [hfold] at hfolds
  cases hfolds

/-- Exchanges two coordinates. -/
def swappedPair : Transform ExactKernel Rat :=
  linear none ⟨3, 3, #[0, 1, 0, 1, 0, 0, 0, 0, 1], rfl⟩

/-- The first two transforms of the first list cancel in one grouping and are folded with others in
another one.  The second list has an identity between steps that stay. -/
theorem groupsAlike_swappedPair :
    GroupsAlike ⟨true, true⟩ [swappedPair, swappedPair, scaledPair, unscaledProduct] ∧
      GroupsAlike ⟨false, true⟩
        [shiftedAnyhow, linear (some 7) (DenseMatrix.identity 3), stretchedAnyhow] := by
  have hexact : Sequenced 2 [swappedPair, swappedPair, scaledPair, unscaledProduct] 1 :=
    ⟨by decide +kernel, rfl, by decide +kernel, rfl, by decide +kernel, rfl, by decide +kernel,
      rfl, rfl⟩
  have hparts : Sequenced 2
      [shiftedAnyhow, linear (some 7) (DenseMatrix.identity 3), stretchedAnyhow] 3 :=
    ⟨by decide +kernel, rfl, by decide +kernel, rfl, by decide +kernel, rfl, rfl⟩
  exact ⟨(standard_groups_alike ⟨true, true⟩ hparts hexact).2,
    (standard_groups_alike ⟨false, true⟩ hparts hexact).1 rfl⟩

end Arithmetic

end Transform
end SeparableTransforms
