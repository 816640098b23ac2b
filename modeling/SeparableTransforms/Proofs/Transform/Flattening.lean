import SeparableTransforms.Proofs.Kernels.Synthetic
import SeparableTransforms.Proofs.Transform.Sequencing

/-!
# Flattened chains

The steps of a coherent transform stand for it, however its chains are nested.  A chain
checks the length of its point before its parts do, but its first step asks for the same
length, and so the error is the same as well (`isFlattening_steps`).

Without folding the standard assembler keeps every step of the transforms that it
concatenates, except for identities.  It lists the steps of both, leaves the
identities out if its options say so, and nests the rest anew, from left to right.
The kernels are called in the same order as before, so that the first one to fail is
the same.

An identity copies its point up to the sign of zero, for every float: the terms with a
zero coefficient are never added, and one times a coordinate is that coordinate, be it
infinite, subnormal or `NaN`.  What a kernel makes of a zero of the other sign is its
own affair, so the kernels are asked to be *stable*: to give the same outcome for the
same points.
-/

namespace SeparableTransforms
namespace Transform

open Outcome

section Stable

variable {κ α : Type} [Kernel κ α] [Scalar α] [LawfulScalar α] {s t : Transform κ α}

/-- A coherent transform is stable if its kernels are. -/
theorem stable_of_kernels (ht : t.Coherent)
    (hk : ∀ node ∈ t.kernels, (kernel node.1 node.2 : Transform κ α).Stable) : t.Stable := by
  induction t with
  | linear id m =>
      refine stable_of_length fun p q hp hq hpq => ?_
      rw [apply_linear hp, apply_linear hq]
      exact .ok (samePoint_applyAffine hpq hp)
  | chain id a b iha ihb =>
      obtain ⟨ha, hb, hfit⟩ := ht
      obtain ⟨hka, hkb⟩ := List.forall_mem_append.mp hk
      intro p q hpq
      rw [apply_chain hfit, apply_chain hfit]
      exact (iha ha hka p q hpq).bind fun v w _ => ihb hb hkb v w
  | passThrough id k inner n ih =>
      refine stable_of_length fun p q hp hq hpq => ?_
      rw [apply_passThrough hp, apply_passThrough hq]
      have hinner := ih ht hk _ _ ((hpq.drop k).take inner.sourceDimensions)
      exact hinner.map fun v w hvw => ((hpq.take k).append hvw).append (hpq.drop _)
  | kernel id k => exact hk (id, k) List.mem_cons_self

theorem stable_of_mem_steps (ht : t.Coherent)
    (hk : ∀ node ∈ t.kernels, (kernel node.1 node.2 : Transform κ α).Stable) (hs : s ∈ t.steps) :
    s.Stable := by
  induction t with
  | chain id a b iha ihb =>
      obtain ⟨hka, hkb⟩ := List.forall_mem_append.mp hk
      rcases List.mem_append.mp hs with hs | hs
      · exact iha ht.1 hka hs
      · exact ihb ht.2.1 hkb hs
  | _ =>
      rw [List.mem_singleton.mp hs]
      exact stable_of_kernels ht hk

end Stable

section Eliding

variable {κ α : Type} [Kernel κ α] [Scalar α] [LawfulScalar α] {s : Transform κ α} {n m : Nat}
  {steps : List (Transform κ α)} {p q : List α}

omit [LawfulScalar α] in
theorem sameImage_applySteps (hstable : ∀ s ∈ steps, s.Stable) (hpq : SamePoint p q) :
    SameImage (applySteps steps p) (applySteps steps q) := by
  induction steps generalizing p q with
  | nil => exact .ok hpq
  | cons s steps ih =>
      rw [applySteps_cons, applySteps_cons]
      exact (hstable s List.mem_cons_self p q hpq).bind fun v w _ hvw =>
        ih (fun s' hs' => hstable s' (List.mem_cons_of_mem s hs')) hvw

/-- An identity step copies its point. -/
theorem apply_of_isIdentity (hs : s.isIdentity = true) (hlen : p.length = s.sourceDimensions) :
    ∃ v, s.apply p = .ok v ∧ SamePoint v p := by
  cases s with
  | linear id matrix => exact ⟨_, apply_linear hlen, samePoint_of_isIdentity hs hlen⟩
  | _ => cases hs

variable (options : AssemblyOptions) in
/-- Leaving out identities changes no outcome. -/
theorem sameImage_elideSteps (hsteps : Sequenced n steps m) (hstable : ∀ s ∈ steps, s.Stable)
    (hlen : q.length = n) (hpq : SamePoint p q) :
    SameImage (applySteps (elideSteps options steps) p) (applySteps steps q) := by
  unfold elideSteps
  split
  · induction steps generalizing n p q with
    | nil => exact .ok hpq
    | cons s steps ih =>
        obtain ⟨hs, hn, hsteps⟩ := hsteps
        have hstable' : ∀ s' ∈ steps, s'.Stable := fun s' hs' =>
          hstable s' (List.mem_cons_of_mem s hs')
        have hq : q.length = s.sourceDimensions := hlen.trans hn.symm
        rw [List.filter_cons]
        split
        · rw [applySteps_cons, applySteps_cons]
          exact (hstable s List.mem_cons_self p q hpq).bind fun v w hw hvw =>
            ih hsteps hstable' (length_apply hw) hvw
        · -- only one of the two runs goes through the identity, which gives it the same point
          rename_i hid
          have hid : s.isIdentity = true := by simpa using hid
          obtain ⟨w, hw, hsame⟩ := apply_of_isIdentity hid hq
          rw [applySteps_cons, hw, ok_bind]
          exact ih hsteps hstable' (length_apply hw) (hpq.trans hsame.symm)
  · exact sameImage_applySteps hstable hpq

end Eliding

section Flattening

variable {κ α : Type} [Kernel κ α] [Scalar α] [LawfulScalar α] {t : Transform κ α}
  {steps : List (Transform κ α)} {n m : Nat} {options : AssemblyOptions} {p : List α}

/-- What is made of steps without folding gives the outcome of the steps. -/
theorem sameImage_of_madeOf (ht : t.Coherent) (hsource : t.sourceDimensions = n)
    (hmade : MadeOf options n steps t) (hsteps : Sequenced n steps m)
    (hstable : ∀ s ∈ steps, s.Stable) (hlen : p.length = n) :
    SameImage (t.apply p) (applySteps steps p) := by
  have helided := sameImage_elideSteps options hsteps hstable hlen (SamePoint.refl p)
  rcases hmade with hmade | ⟨hnone, rfl⟩
  · rwa [apply_eq_applySteps ht, hmade]
  · -- all steps have been left out, and the identity in their place copies the point once more
    rw [hnone] at helided
    obtain ⟨w, hw, hsame⟩ := helided.exists_ok
    have hid : (linear none (DenseMatrix.identity (n + 1)) : Transform κ α).isIdentity = true :=
      isIdentity_identity (n + 1)
    obtain ⟨v, hv, hcopy⟩ := apply_of_isIdentity hid (hlen.trans hsource.symm)
    rw [hv, hw]
    exact .ok (hcopy.trans hsame)

end Flattening

section Binary64

variable {κ : Type} [Kernel κ Float] {a b : Transform κ Float}

/-- Without folding, flattening a chain and leaving out its identities is exact: a concatenation
gives the outcome of the second part at what the first part gives, at any point. -/
theorem standard_concatenate_unfolded (options : AssemblyOptions)
    (hunfolded : options.foldLinear = false) (ha : a.Coherent) (hb : b.Coherent)
    (hfit : a.targetDimensions = b.sourceDimensions)
    (hka : ∀ node ∈ a.kernels, (kernel node.1 node.2 : Transform κ Float).Stable)
    (hkb : ∀ node ∈ b.kernels, (kernel node.1 node.2 : Transform κ Float).Stable) :
    ∃ t, (Assembler.standard options).concatenate a b = .ok t ∧
      ∀ p, SameImage (t.apply p) (a.apply p >>= b.apply) := by
  have hchain : (chain none a b : Transform κ Float).Coherent := ⟨ha, hb, hfit⟩
  have hsteps : Sequenced a.sourceDimensions (a.steps ++ b.steps) b.targetDimensions :=
    hchain.sequenced
  have hstable : ∀ s ∈ a.steps ++ b.steps, s.Stable := fun s hs =>
    (List.mem_append.mp hs).elim (stable_of_mem_steps ha hka) (stable_of_mem_steps hb hkb)
  obtain ⟨t, ht, hcoherent, hsource, hmade⟩ :=
    concatenateWith_coherent ha hb hfit (foldSteps_unfolded hunfolded) hsteps
      (List.append_ne_nil_of_left_ne_nil a.steps_ne_nil b.steps)
  refine ⟨t, ht, fun p => ?_⟩
  by_cases hlen : p.length = a.sourceDimensions
  · have happly : (chain none a b).apply p = a.apply p >>= b.apply := apply_chain hfit
    rw [← happly, apply_eq_applySteps hchain]
    exact sameImage_of_madeOf hcoherent hsource hmade hsteps hstable hlen
  · rw [apply_of_length_ne (hsource ▸ hlen), apply_of_length_ne hlen, hsource]
    exact .error _

/-- An identity, and a kernel of two coordinates with another one copied in front of it. -/
def leadingIdentity : Transform SyntheticKernel Float :=
  chain none (linear none (DenseMatrix.identity 4))
    (passThrough none 1 (kernel none (.make "curve" 2 1 0.5 1 .declared none none)) 0)

/-- A kernel, an identity and a kernel that fails, nested to the right. -/
def trailingFailure : Transform SyntheticKernel Float :=
  chain none (kernel none (.make "spread" 2 3 0 3 .missing none none))
    (chain none (linear none (DenseMatrix.identity 4))
      (kernel none (.make "stop" 3 1 0 1 .declared (some "no value") none)))

/-- The identities are left out, and the last kernel still fails at a point with `NaN`, infinite
and negative zero coordinates. -/
theorem concatenate_trailingFailure :
    ∃ t, (Assembler.standard ⟨false, true⟩).concatenate leadingIdentity trailingFailure = .ok t ∧
      SameImage (t.apply [-0, Binary64.nan, 1 / 0])
        (leadingIdentity.apply [-0, Binary64.nan, 1 / 0] >>= trailingFailure.apply) := by
  obtain ⟨t, ht, hsame⟩ := standard_concatenate_unfolded ⟨false, true⟩ rfl
    (a := leadingIdentity) (b := trailingFailure) (by decide +kernel) (by decide +kernel)
    (by decide +kernel) (fun node _ => SyntheticKernel.stable node.1 node.2)
    (fun node _ => SyntheticKernel.stable node.1 node.2)
  exact ⟨t, ht, hsame [-0, Binary64.nan, 1 / 0]⟩

end Binary64

section Faithful

variable {κ α : Type} [Kernel κ α] {t : Transform κ α} {steps : List (Transform κ α)} {n m : Nat}

/-- Steps that can stand for a transform: none of them is a chain, each takes what the one before
it gives, and they map every list of coordinates as the transform does, or fail with its error. -/
structure IsFlattening [Scalar α] (t : Transform κ α) (steps : List (Transform κ α)) : Prop where
  nonempty : steps ≠ []
  not_chain : ∀ s ∈ steps, ∀ id a b, s ≠ chain id a b
  neighbours : steps.IsChain fun s s' => s.targetDimensions = s'.sourceDimensions
  source : steps.head?.map sourceDimensions = some t.sourceDimensions
  target : steps.getLast?.map targetDimensions = some t.targetDimensions
  apply_eq : ∀ p, t.apply p = applySteps steps p

omit [Kernel κ α] in
theorem ne_chain_of_mem_steps {s : Transform κ α} (h : s ∈ t.steps) (id : NodeId)
    (a b : Transform κ α) : s ≠ chain id a b := by
  induction t with
  | chain id' a' b' iha ihb => exact (List.mem_append.mp h).elim iha ihb
  | _ =>
      rw [List.mem_singleton.mp h]
      nofun

variable [Scalar α]

theorem Sequenced.source_of_head (h : Sequenced n steps m) (hne : steps ≠ []) :
    steps.head?.map sourceDimensions = some n := by
  obtain ⟨first, rest, rfl⟩ := List.exists_cons_of_ne_nil hne
  exact congrArg some h.2.1

theorem Sequenced.target_of_last (h : Sequenced n steps m) (hne : steps ≠ []) :
    steps.getLast?.map targetDimensions = some m := by
  induction steps generalizing n with
  | nil => exact absurd rfl hne
  | cons s rest ih =>
      obtain ⟨-, -, hrest⟩ := h
      cases rest with
      | nil => exact congrArg some hrest
      | cons s' rest => exact ih hrest (List.cons_ne_nil s' rest)

theorem Sequenced.neighbours (h : Sequenced n steps m) :
    steps.IsChain fun s s' => s.targetDimensions = s'.sourceDimensions := by
  induction steps generalizing n with
  | nil => exact .nil
  | cons s rest ih =>
      obtain ⟨-, -, hrest⟩ := h
      cases rest with
      | nil => exact .singleton s
      | cons s' rest => exact .cons_cons hrest.2.1.symm (ih hrest)

/-- Flattening is faithful: the steps of a coherent transform, and so of every well-formed one, can
stand for it, whatever the nesting of its chains is. -/
theorem isFlattening_steps (ht : t.Coherent) : IsFlattening t t.steps where
  nonempty := t.steps_ne_nil
  not_chain _ hs := ne_chain_of_mem_steps hs
  neighbours := ht.sequenced.neighbours
  source := ht.sequenced.source_of_head t.steps_ne_nil
  target := ht.sequenced.target_of_last t.steps_ne_nil
  apply_eq := apply_eq_applySteps ht

/-- A chain of two chains, one of which is nested to the right, and whose last step fails. -/
theorem isFlattening_nestedBothWays :
    (chain none leadingIdentity trailingFailure).Coherent ∧
      IsFlattening (chain none leadingIdentity trailingFailure)
        (leadingIdentity.steps ++ trailingFailure.steps) :=
  have hcoherent : (chain none leadingIdentity trailingFailure).Coherent := by decide +kernel
  ⟨hcoherent, isFlattening_steps hcoherent⟩

end Faithful

end Transform
end SeparableTransforms
