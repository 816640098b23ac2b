import SeparableTransforms.Proofs.DenseMatrix.Neutral
import SeparableTransforms.Proofs.Transform.Concatenation
import SeparableTransforms.Proofs.Transform.Resemblance

/-!
# Reducing steps one at a time

A concatenation folds all steps first and then leaves out identities.  The same can be done
step by step: a step is put on a stack of reduced steps, which lists them from last to
first, merged with the one on top if both are linear, and what comes of it is dropped if
it is an identity.

Two lists of steps *reduce alike* if they have the same effect on every reduced stack.
If products are associative, it makes no difference whether two linear steps are put on
the stack one after the other or as their product, and identities have no effect at all.
So merging steps and leaving out identities keep the effect, and a list that is reduced
already is determined by its effect on the empty stack.

Stacks are compared up to resemblance, because a product of matrices remembers no node.
-/

namespace SeparableTransforms
namespace Transform

open Outcome

section Resembling

variable {κ α : Type} [Kernel κ α] [Scalar α] [LawfulScalar α] {s t u : Transform κ α}
  {steps rest others : List (Transform κ α)}

theorem Resembles.refl (t : Transform κ α) : t.Resembles t := by
  induction t with
  | linear id matrix => exact .linear (DenseMatrix.beq_refl matrix)
  | chain id a b iha ihb => exact .chain iha ihb
  | passThrough id k inner n ih => exact .passThrough ih
  | kernel id k => exact .kernel rfl rfl rfl

theorem Resembles.symm (h : s.Resembles t) : t.Resembles s := by
  induction h with
  | linear matrix => exact .linear (DenseMatrix.beq_symm matrix)
  | chain _ _ iha ihb => exact .chain iha ihb
  | passThrough _ ih => exact .passThrough ih
  | kernel name source target => exact .kernel name.symm source.symm target.symm

theorem Resembles.trans (h : s.Resembles t) (h' : t.Resembles u) : s.Resembles u := by
  induction h generalizing u with
  | linear matrix =>
      cases h' with
      | linear matrix' => exact .linear (DenseMatrix.beq_trans matrix matrix')
  | chain _ _ iha ihb =>
      cases h' with
      | chain first second => exact .chain (iha first) (ihb second)
  | passThrough _ ih =>
      cases h' with
      | passThrough inner => exact .passThrough (ih inner)
  | kernel name source target =>
      cases h' with
      | kernel name' source' target' =>
          exact .kernel (name.trans name') (source.trans source') (target.trans target')

/-- Steps that resemble each other one by one. -/
abbrev Alike (steps rest : List (Transform κ α)) : Prop :=
  List.Forall₂ Resembles steps rest

theorem Alike.refl (steps : List (Transform κ α)) : Alike steps steps :=
  List.forall₂_same.mpr fun s _ => .refl s

theorem Alike.symm (h : Alike steps rest) : Alike rest steps :=
  (h.imp fun _ _ => Resembles.symm).flip

theorem Alike.trans (h : Alike steps rest) (h' : Alike rest others) : Alike steps others := by
  induction h generalizing others with
  | nil => exact h'
  | cons hs _ ih =>
      cases h' with
      | cons hs' hrest => exact .cons (hs.trans hs') (ih hrest)

end Resembling

section Reduced

variable {κ α : Type} [Kernel κ α] [Scalar α] {options : AssemblyOptions} {n m l : Nat}
  {s : Transform κ α} {steps stack below : List (Transform κ α)}

/-- One more step on the stack, without the identity that may come of it. -/
def reduceStep (options : AssemblyOptions) (stack : List (Transform κ α)) (s : Transform κ α) :
    List (Transform κ α) :=
  elideSteps options (merge options stack s)

/-- More steps on the stack, one at a time. -/
def reduceSteps (options : AssemblyOptions) (stack steps : List (Transform κ α)) :
    List (Transform κ α) :=
  steps.foldl (reduceStep options) stack

/-- A stack of steps from `n` coordinates to `m` that has nothing left to reduce. -/
structure ReducedStack (options : AssemblyOptions) (n : Nat) (stack : List (Transform κ α))
    (m : Nat) : Prop where
  sequenced : Sequenced n stack.reverse m
  unpaired : options.foldLinear = true → Unpaired stack
  elided : options.elideIdentity = true → ∀ s ∈ stack, s.isIdentity = false

theorem reduced_nil (options : AssemblyOptions) (n : Nat) :
    ReducedStack options n ([] : List (Transform κ α)) n :=
  ⟨rfl, fun _ => List.isChain_nil, fun _ _ hs => absurd hs List.not_mem_nil⟩

theorem ReducedStack.tail (h : ReducedStack options n (s :: below) m) :
    ∃ l, ReducedStack options n below l ∧ Spans l s m := by
  have hsequenced := h.sequenced
  rw [List.reverse_cons] at hsequenced
  obtain ⟨l, hbelow, hs⟩ := sequenced_append.mp hsequenced
  exact ⟨l, ⟨hbelow, fun hfold => (unpaired_cons.mp (h.unpaired hfold)).2,
    fun helide s hs => h.elided helide s (List.mem_cons_of_mem _ hs)⟩, sequenced_singleton.mp hs⟩

omit [Kernel κ α] in
/-- What contains no identity is left as it is. -/
theorem elideSteps_eq_self
    (h : options.elideIdentity = true → ∀ s ∈ steps, s.isIdentity = false) :
    elideSteps options steps = steps := by
  unfold elideSteps
  split
  · rename_i helide
    exact List.filter_eq_self.mpr fun s hs => by rw [h helide s hs]; rfl
  · rfl

omit [Kernel κ α] in
theorem elideSteps_reverse (options : AssemblyOptions) (steps : List (Transform κ α)) :
    elideSteps options steps.reverse = (elideSteps options steps).reverse := by
  unfold elideSteps
  split
  · exact List.filter_reverse
  · rfl

omit [Kernel κ α] in
/-- An identity is dropped if the options say so, and all other steps stay. -/
theorem elideSteps_cons (options : AssemblyOptions) (s : Transform κ α)
    (steps : List (Transform κ α)) :
    options.elideIdentity = true ∧ s.isIdentity = true ∧
        elideSteps options (s :: steps) = elideSteps options steps ∨
      elideSteps options (s :: steps) = s :: elideSteps options steps := by
  unfold elideSteps
  split
  · rename_i helide
    cases hid : s.isIdentity with
    | true => exact .inl ⟨helide, rfl, by simp [hid]⟩
    | false => exact .inr (by simp [hid])
  · exact .inr rfl

omit [Kernel κ α] in
theorem unpaired_merge (hfold : options.foldLinear = true) (h : Unpaired stack)
    (s : Transform κ α) : Unpaired (merge options stack s) := by
  rcases merge_cases options stack s with
    ⟨hmerge, -, hhead⟩ | ⟨-, id, previous, earlier, id', next, rfl, rfl⟩
  · rw [hmerge]
    refine unpaired_cons.mpr ⟨fun top htop hs => ?_, h⟩
    cases hlinear : top.isLinear with
    | false => rfl
    | true => exact absurd (hs.symm.trans (hhead hfold top htop hlinear)) (by simp)
  · obtain ⟨hnext, hearlier⟩ := unpaired_cons.mp h
    rw [merge_linear hfold]
    exact unpaired_cons.mpr ⟨fun top htop _ => hnext top htop rfl, hearlier⟩

omit [Kernel κ α] in
/-- A linear step stays apart from a step that is not linear. -/
theorem merge_apart (h : ∀ top ∈ stack.head?, top.isLinear = false) (s : Transform κ α) :
    merge options stack s = s :: stack := by
  rcases merge_cases options stack s with
    ⟨hmerge, -, -⟩ | ⟨-, id, previous, earlier, -, -, rfl, -⟩
  · exact hmerge
  · exact absurd (h (linear id previous) rfl) (by simp [isLinear])

end Reduced

section Reducing

variable {κ α : Type} [Kernel κ α] [Scalar α] [LawfulScalar α] {options : AssemblyOptions}
  {n m l : Nat} {s : Transform κ α} {steps stack stack' : List (Transform κ α)}

theorem ReducedStack.push (h : ReducedStack options n stack l) (hs : Spans l s m) :
    ReducedStack options n (reduceStep options stack s) m where
  sequenced := by
    rw [reduceStep, ← elideSteps_reverse]
    exact (pushStep_eq_ok options h.sequenced hs).2.elideSteps options
  unpaired hfold := unpaired_elideSteps (unpaired_merge hfold (h.unpaired hfold) s)
  elided helide _ hmem := isIdentity_of_mem_elideSteps helide hmem

theorem ReducedStack.pushAll (h : ReducedStack options n stack l) (hsteps : Sequenced l steps m) :
    ReducedStack options n (reduceSteps options stack steps) m := by
  induction steps generalizing stack l with
  | nil =>
      obtain rfl : l = m := hsteps
      exact h
  | cons s steps ih =>
      obtain ⟨hs, hsource, hsteps⟩ := hsteps
      exact ih (h.push ⟨hs, hsource, rfl⟩) hsteps

/-- Stacks that are alike stay so. -/
theorem reduceStep_congr (hstack : ReducedStack options n stack l)
    (hstack' : ReducedStack options n stack' l) (hs : Spans l s m) (h : Alike stack stack') :
    Alike (reduceStep options stack s) (reduceStep options stack' s) := by
  have hpush : Matches Alike (pushStep options stack s) (pushStep options stack' s) :=
    pushStep_resembles h (.refl s)
  rw [(pushStep_eq_ok options hstack.sequenced hs).1,
    (pushStep_eq_ok options hstack'.sequenced hs).1] at hpush
  cases hpush with
  | ok hmerged => exact elideSteps_resembles hmerged

theorem reduceSteps_congr (hstack : ReducedStack options n stack l)
    (hstack' : ReducedStack options n stack' l) (hsteps : Sequenced l steps m)
    (h : Alike stack stack') :
    Alike (reduceSteps options stack steps) (reduceSteps options stack' steps) := by
  induction steps generalizing stack stack' l with
  | nil => exact h
  | cons s steps ih =>
      obtain ⟨hs, hsource, hsteps⟩ := hsteps
      have hspans : Spans l s s.targetDimensions := ⟨hs, hsource, rfl⟩
      exact ih (hstack.push hspans) (hstack'.push hspans) hsteps
        (reduceStep_congr hstack hstack' hspans h)

omit [LawfulScalar α] in
/-- Reduced steps are found again on the stack. -/
theorem reduceSteps_reverse (h : ReducedStack options n stack m) :
    reduceSteps options [] stack.reverse = stack := by
  induction stack generalizing m with
  | nil => rfl
  | cons s below ih =>
      obtain ⟨l, hbelow, -⟩ := h.tail
      have hmerge : merge options below s = s :: below := by
        rcases merge_cases options below s with
          ⟨hmerge, -, -⟩ | ⟨hfold, id, previous, earlier, id', next, rfl, rfl⟩
        · exact hmerge
        · -- a linear step on top of another one would have been merged with it
          have hpair := (unpaired_cons.mp (h.unpaired hfold)).1 (linear id previous) rfl rfl
          cases hpair
      rw [List.reverse_cons, reduceSteps, List.foldl_append]
      show reduceStep options (reduceSteps options [] below.reverse) s = s :: below
      rw [ih hbelow, reduceStep, hmerge]
      exact elideSteps_eq_self h.elided

/-- An identity on the stack has no effect. -/
theorem reduceStep_of_isIdentity (helide : options.elideIdentity = true)
    (hs : s.isIdentity = true) (hstack : ReducedStack options n stack l) (hspans : Spans l s m) :
    Alike (reduceStep options stack s) stack := by
  have hself : elideSteps options stack = stack := elideSteps_eq_self hstack.elided
  unfold reduceStep
  rcases merge_cases options stack s with
    ⟨hmerge, -, -⟩ | ⟨hfold, id, previous, earlier, id', next, rfl, rfl⟩
  · have hdropped : elideSteps options (s :: stack) = elideSteps options stack := by
      simp [elideSteps, helide, hs]
    rw [hmerge, hdropped, hself]
    exact .refl stack
  · obtain ⟨-, hfit⟩ := product_fits hstack.sequenced hspans
    have hproduct : (next.product previous == previous) = true :=
      DenseMatrix.product_of_isIdentity_left hs hfit
    have halike : Alike (linear none (next.product previous) :: earlier)
        (linear id previous :: earlier) := .cons (.linear hproduct) (Alike.refl earlier)
    have helided : Alike (elideSteps options _) (elideSteps options _) :=
      elideSteps_resembles halike
    rwa [hself, ← merge_linear hfold] at helided

end Reducing

section Products

variable {κ α : Type} [Kernel κ α] [Scalar α] [LawfulScalar α] [CommutativeScalar α]
  {options : AssemblyOptions} {n l : Nat} {id id' : NodeId} {b c : DenseMatrix α}
  {stack below : List (Transform κ α)}

/-- With folding the products of matrices are associative. -/
def FoldsAssociatively (options : AssemblyOptions) (α : Type) [Scalar α] : Prop :=
  options.foldLinear = true → ∀ a b c : DenseMatrix α, a.cols = b.rows →
    ((a.product b).product c == a.product (b.product c)) = true

/-- A matrix on top of a step that is not linear may be dropped before it is multiplied. -/
theorem reduceStep_product_apart (hfold : options.foldLinear = true) (hfit : c.cols = b.rows)
    (hbelow : elideSteps options below = below)
    (hhead : ∀ top ∈ below.head?, top.isLinear = false) :
    Alike (reduceStep options (elideSteps options (linear id b :: below)) (linear id' c))
      (elideSteps options (linear none (c.product b) :: below)) := by
  rcases elideSteps_cons options (linear id b) below with ⟨-, hid, hdropped⟩ | hkept
  · have hproduct : (c.product b == c) = true := DenseMatrix.product_of_isIdentity_right hid hfit
    have halike : Alike (linear id' c :: below) (linear none (c.product b) :: below) :=
      .cons (.linear (DenseMatrix.beq_symm hproduct)) (Alike.refl below)
    rw [hdropped, hbelow, reduceStep, merge_apart hhead]
    exact elideSteps_resembles halike
  · rw [hkept, hbelow, reduceStep, merge_linear hfold]
    exact .refl _

/-- Two linear steps one after the other have the effect of their product. -/
theorem reduceStep_product (hassoc : FoldsAssociatively options α)
    (hfold : options.foldLinear = true) (hfit : c.cols = b.rows)
    (hstack : ReducedStack options n stack l) :
    Alike (reduceStep options (reduceStep options stack (linear id b)) (linear id' c))
      (reduceStep options stack (linear none (c.product b))) := by
  have hself : elideSteps options stack = stack := elideSteps_eq_self hstack.elided
  by_cases htop : ∃ id₀ a below, stack = linear id₀ a :: below
  · obtain ⟨id₀, a, below, rfl⟩ := htop
    obtain ⟨_, hbelow, -⟩ := hstack.tail
    have hhead : ∀ top ∈ below.head?, top.isLinear = false := fun top htop =>
      (unpaired_cons.mp (hstack.unpaired hfold)).1 top htop rfl
    have hproduct : ((c.product b).product a == c.product (b.product a)) = true :=
      hassoc hfold c b a hfit
    have halike : Alike (linear none (c.product (b.product a)) :: below)
        (linear none ((c.product b).product a) :: below) :=
      .cons (.linear (DenseMatrix.beq_symm hproduct)) (Alike.refl below)
    have hlast : Alike
        (reduceStep options (elideSteps options (linear none (b.product a) :: below)) (linear id' c))
        (elideSteps options (linear none (c.product (b.product a)) :: below)) :=
      reduceStep_product_apart hfold hfit (elideSteps_eq_self hbelow.elided) hhead
    rw [reduceStep.eq_1 options _ (linear id b), reduceStep.eq_1 options _ (linear none _),
      merge_linear hfold, merge_linear hfold]
    exact hlast.trans (elideSteps_resembles halike)
  · have hhead : ∀ top ∈ stack.head?, top.isLinear = false := by
      intro top hmem
      obtain ⟨below, rfl⟩ := List.head?_eq_some_iff.mp hmem
      cases hlinear : top.isLinear with
      | false => rfl
      | true =>
          obtain ⟨id₀, a, rfl⟩ := isLinear_iff.mp hlinear
          exact absurd ⟨id₀, a, below, rfl⟩ htop
    rw [reduceStep.eq_1 options stack (linear id b), reduceStep.eq_1 options stack (linear none _),
      merge_apart hhead, merge_apart hhead]
    exact reduceStep_product_apart hfold hfit hself hhead

end Products

section Acting

variable {κ α : Type} [Kernel κ α] [Scalar α] {options : AssemblyOptions} {n m l : Nat}
  {s : Transform κ α} {steps rest others steps' rest' stack : List (Transform κ α)}

/-- Two lists of steps from `n` coordinates have the same effect on every reduced stack. -/
def ReduceAlike (options : AssemblyOptions) (n : Nat) (steps rest : List (Transform κ α)) : Prop :=
  ∀ k stack, ReducedStack options k stack n →
    Alike (reduceSteps options stack steps) (reduceSteps options stack rest)

variable [LawfulScalar α]

theorem ReduceAlike.refl (steps : List (Transform κ α)) : ReduceAlike options n steps steps :=
  fun _ _ _ => .refl _

theorem ReduceAlike.symm (h : ReduceAlike options n steps rest) :
    ReduceAlike options n rest steps :=
  fun k stack hstack => (h k stack hstack).symm

theorem ReduceAlike.trans (h : ReduceAlike options n steps rest)
    (h' : ReduceAlike options n rest others) : ReduceAlike options n steps others :=
  fun k stack hstack => (h k stack hstack).trans (h' k stack hstack)

/-- Parts may be replaced by parts that reduce alike. -/
theorem ReduceAlike.append (h : ReduceAlike options n steps steps')
    (h' : ReduceAlike options l rest rest') (hsteps : Sequenced n steps l)
    (hsteps' : Sequenced n steps' l) (hrest : Sequenced l rest m) :
    ReduceAlike options n (steps ++ rest) (steps' ++ rest') := by
  intro k stack hstack
  have hreduced := hstack.pushAll hsteps
  have hreduced' := hstack.pushAll hsteps'
  unfold reduceSteps
  rw [List.foldl_append, List.foldl_append]
  exact (reduceSteps_congr hreduced hreduced' hrest (h k stack hstack)).trans (h' k _ hreduced')

variable (options) in
/-- Leaving out identities keeps the effect. -/
theorem reduceAlike_elideSteps (h : Sequenced n steps m) :
    ReduceAlike options n (elideSteps options steps) steps := by
  induction steps generalizing n with
  | nil =>
      rw [elideSteps_eq_self fun _ _ hs => absurd hs List.not_mem_nil]
      exact .refl []
  | cons s steps ih =>
      obtain ⟨hs, rfl, hsteps⟩ := h
      intro k stack hstack
      have hreduced := hstack.push hs.spans
      rcases elideSteps_cons options s steps with ⟨helide, hid, hdropped⟩ | hkept
      · have hfixed := (hs.dimensions_of_isIdentity hid).1
        rw [hdropped]
        rw [← hfixed] at hsteps hreduced
        have hstep := reduceStep_of_isIdentity helide hid hstack hs.spans
        exact (ih hsteps k stack hstack).trans
          (reduceSteps_congr hstack hreduced hsteps hstep.symm)
      · rw [hkept]
        exact ih hsteps k _ hreduced

variable [CommutativeScalar α]

/-- Merging a step keeps the effect. -/
theorem reduceAlike_merge (hassoc : FoldsAssociatively options α)
    (hstack : Sequenced n stack.reverse l) (hs : Spans l s m) :
    ReduceAlike options n (merge options stack s).reverse (stack.reverse ++ [s]) := by
  rcases merge_cases options stack s with
    ⟨hmerge, -, -⟩ | ⟨hfold, id, previous, earlier, id', next, rfl, rfl⟩
  · rw [hmerge, List.reverse_cons]
    exact .refl _
  · obtain ⟨-, hfit⟩ := product_fits hstack hs
    obtain ⟨-, hmerged⟩ := pushStep_eq_ok options hstack hs
    rw [merge_linear hfold, List.reverse_cons] at hmerged ⊢
    rw [List.reverse_cons] at hstack ⊢
    obtain ⟨i, hearlier, hproduct⟩ := sequenced_append.mp hmerged
    rw [List.append_assoc]
    have hlast : ReduceAlike options i [linear none (next.product previous)]
        ([linear id previous] ++ [(linear id' next : Transform κ α)]) := fun k below hbelow =>
      (reduceStep_product hassoc hfold hfit hbelow).symm
    exact .append (.refl _) hlast hearlier hearlier hproduct

/-- Merging all steps keeps the effect. -/
theorem reduceAlike_merged (hassoc : FoldsAssociatively options α) (h : Sequenced n steps m) :
    ReduceAlike options n (merged options steps) steps := by
  induction steps using List.reverseRecOn generalizing m with
  | nil => exact .refl []
  | append_singleton steps s ih =>
      obtain ⟨l, hsteps, hs⟩ := sequenced_append.mp h
      obtain ⟨-, hmerged⟩ := foldSteps_eq_ok options hsteps
      have hlast : ReduceAlike options n (merged options steps ++ [s]) (steps ++ [s]) :=
        (ih hsteps).append (.refl [s]) hmerged hsteps hs
      rw [← List.reverse_reverse (merged options steps)] at hmerged
      have hmerge := reduceAlike_merge hassoc hmerged (sequenced_singleton.mp hs)
      rw [List.reverse_reverse] at hmerge
      rw [merged_snoc]
      exact hmerge.trans hlast

end Acting

end Transform
end SeparableTransforms
