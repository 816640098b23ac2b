import SeparableTransforms.Proofs.Separation.Sources
import SeparableTransforms.Proofs.Transform.Jets

/-!
# Keeping some inputs of a derivative

In exact arithmetic what is kept of the inputs `S` of a transform carries the jets at
these inputs over to those at the outputs that remain.  The excluded inputs have
coefficients of zero there, so that their coordinates and slopes do not count.

The walk goes through the tree as the steps are walked, from the first to the last.
-/

namespace SeparableTransforms
namespace Transform

open Outcome

section Parts

variable {κ : Type} [Kernel κ Rat]

/-- From the jets at the inputs `S` the parts come to those at the outputs `R` of what the transform
carries all jets over to. -/
def CarriesSources (t : Transform κ Rat) (S R : List Nat) (parts : List (Transform κ Rat)) : Prop :=
  ∀ x y, t.Carries x y → CarriesAll parts (pick x S) (pick y R)

variable {options : AssemblyOptions} {P : κ → Prop} {n m k s c : Nat} {S T R : List Nat}
  {id : NodeId} {a b t t' inner reduced : Transform κ Rat} {parts parts' : List (Transform κ Rat)}
  {matrix : DenseMatrix Rat}

theorem Fits.carriesSources_whole (h : Fits P n t m) :
    CarriesSources t (List.range n) (List.range m) [t] := by
  intro x y hy
  rw [pick_range ((length_of_carries hy).trans h.source),
    pick_range ((length_carries hy).trans h.target)]
  exact carriesAll_singleton.mpr hy

theorem CarriesSources.append (hfit : a.targetDimensions = b.sourceDimensions)
    (ha : CarriesSources a S T parts) (hb : CarriesSources b T R parts') :
    CarriesSources (chain id a b) S R (parts ++ parts') := by
  intro x y hy
  obtain ⟨z, hz, hy⟩ := (carries_chain_iff hfit).mp hy
  exact carriesAll_append.mpr ⟨pick z T, ha x z hz, hb z y hy⟩

/-- What remains of a linear transform. -/
theorem carriesSources_linear (h : Fits P n (linear id matrix : Transform κ Rat) m)
    (hS : Increasing S n) :
    CarriesSources (linear id matrix : Transform κ Rat) S (determinedRows matrix S)
      [linear none ((matrix.keepRows (determinedRows matrix S)).keepColumns S)] := by
  obtain ⟨haffine, hrows, hcols, hpos⟩ := h.linear
  have hS : Increasing S (matrix.cols - 1) := by rwa [hcols, Nat.add_sub_cancel]
  intro x y hy
  obtain ⟨hx, rfl⟩ := carries_linear_iff.mp hy
  refine carriesAll_singleton.mpr (carries_linear_iff.mpr ⟨by simp, ?_⟩)
  have hzero : ∀ r, r < (matrix.keepRows (determinedRows matrix S)).rows - 1 →
      ∀ c, c < (matrix.keepRows (determinedRows matrix S)).cols - 1 → c ∉ S →
      ((matrix.keepRows (determinedRows matrix S)).entry r c == 0) = true := by
    intro r hr c hc hout
    rw [DenseMatrix.rows_keepRows, Nat.add_sub_cancel] at hr
    rw [DenseMatrix.cols_keepRows] at hc
    rw [DenseMatrix.entry_keepRows hr (by omega)]
    exact (mem_determinedRows_iff.mp (List.getElem_mem hr)).2 c hc hout
  rw [affineJets_keepColumns (m := matrix.keepRows (determinedRows matrix S)) hS hzero,
    affineJets_keepRows (by omega) fun r hr => (mem_determinedRows_iff.mp hr).1]

/-- Only copied coordinates are kept. -/
theorem carriesSources_outside (hinner : Fits P s inner c) (hS : Increasing S (k + s + n))
    (hnil : inside k s S = []) :
    CarriesSources (passThrough id k inner n) S (copyAround k s c S [])
      [linear none (DenseMatrix.identity (S.length + 1))] := by
  intro x y hy
  obtain ⟨hx, z, hz, rfl⟩ := carries_passThrough_iff.mp hy
  have hlen := (length_carries hz).trans hinner.target
  obtain rfl := hinner.source
  refine carriesAll_singleton.mpr (carries_linear_iff.mpr ⟨length_pick, ?_⟩)
  rw [affineJets_identity length_pick, pick_copyAround (by omega) hlen (by simp),
    pick_inside hx hS, hnil]
  rfl

/-- The inner transform is reduced, with the kept coordinates copied around it. -/
theorem carriesSources_inside (hinner : Fits P s inner c) (hS : Increasing S (k + s + n))
    (hT : Increasing T c) (hreduced : CarriesSources inner (inside k s S) T [reduced])
    (hsource : reduced.sourceDimensions = (inside k s S).length)
    (hmade : passThroughSimplified (S.filter fun d => d < k).length reduced
      (S.filter fun d => k + s ≤ d).length = .ok t') :
    CarriesSources (passThrough id k inner n) S (copyAround k s c S T) [t'] := by
  intro x y hy
  obtain ⟨hx, z, hz, rfl⟩ := carries_passThrough_iff.mp hy
  have hlen := (length_carries hz).trans hinner.target
  obtain rfl := hinner.source
  have hwhole := length_copyAround (k := k) (c := inner.sourceDimensions)
    (s := inner.sourceDimensions) (S := S) (T := inside k inner.sourceDimensions S)
  rw [copyAround_inside hS] at hwhole
  refine carriesAll_singleton.mpr ((carries_passThroughSimplified_iff hmade).mpr
    ⟨by rw [length_pick, hsource, hwhole], pick z T, ?_, ?_⟩)
  · rw [hsource, take_drop_pick hx hS]
    exact carriesAll_singleton.mp (hreduced _ z hz)
  · rw [hsource, take_pick hx hS, drop_pick hx hS, pick_copyAround (by omega) hlen hT.bounded]

end Parts

section Walks

variable {κ : Type} [Kernel κ Rat] {options : AssemblyOptions} {P : κ → Prop} {n m i : Nat}
  {S R : List Nat} {t t' : Transform κ Rat} {parts : List (Transform κ Rat)}

/-- A single step is kept whole or reduced. -/
theorem carriesSources_singleton {reduce : List Nat → Except TransformError (Reduced κ Rat)}
    (h : Fits P n t m)
    (hreduce : isFull S n = false → ∀ t' R, reduce S = .ok (t', R) → CarriesSources t S R [t'])
    (hwalk : keepForward [⟨t, reduce⟩] i S = .ok (parts, R)) : CarriesSources t S R parts := by
  rw [keepForward_singleton] at hwalk
  obtain ⟨⟨t', R'⟩, hkeep, hpair⟩ := map_eq_ok_iff.mp hwalk
  cases hpair
  unfold SourceStep.keep at hkeep
  split at hkeep
  · rename_i hfull
    cases hkeep
    rw [h.source] at hfull
    rw [isFull_iff.mp hfull, h.target]
    exact h.carriesSources_whole
  · rename_i hproper
    exact hreduce (by rwa [h.source, Bool.not_eq_true] at hproper) _ _ hkeep

/-- The parts of a walk make up a transform that carries over the same jets. -/
theorem carriesSources_keepSourceSteps (h : Fits P n t m) (hS : Increasing S n) (hne : S ≠ [])
    (hcarries : ∀ parts R, keepForward (t.sourceSteps (.standard options)) 0 S = .ok (parts, R) →
      CarriesSources t S R parts)
    (hkeep : keepSourceSteps (.standard options) t (t.sourceSteps (.standard options)) S =
      .ok (t', R)) : CarriesSources t S R [t'] := by
  cases hfull : isFull S t.sourceDimensions with
  | true =>
      unfold keepSourceSteps at hkeep
      rw [hfull, if_pos rfl] at hkeep
      cases hkeep
      rw [isFull_iff.mp hfull]
      exact h.admissible.fits.carriesSources_whole
  | false =>
      rw [keepSourceSteps_eq hfull fun only honly => by rw [sourceStep_of_sourceSteps honly]]
        at hkeep
      obtain ⟨⟨parts, R'⟩, hwalk, hkeep⟩ := bind_eq_ok_iff.mp hkeep
      obtain ⟨t'', hcompose, hkeep⟩ := bind_eq_ok_iff.mp hkeep
      cases hkeep
      obtain ⟨_, hparts⟩ := (walks_sourceSteps h hS hne).of_keepForward hwalk
      intro x y hy
      exact carriesAll_singleton.mpr
        ((carries_compose_iff hparts.linked hcompose).mpr (hcarries parts _ hwalk x y hy))

theorem carriesSources_keepForward (h : Fits P n t m) (hS : Increasing S n) (hne : S ≠ [])
    (hwalk : keepForward (t.sourceSteps (.standard options)) i S = .ok (parts, R)) :
    CarriesSources t S R parts := by
  induction t generalizing n m S R parts i with
  | linear id matrix =>
      obtain ⟨haffine, hrows, hcols, _⟩ := h.linear
      refine carriesSources_singleton h (fun _ t' R hreduce => ?_) hwalk
      rw [keepMatrixSources_eq haffine (by rwa [hcols, Nat.add_sub_cancel]) hne] at hreduce
      cases hreduce
      exact carriesSources_linear h hS
  | chain id a b iha ihb =>
      obtain ⟨⟨ha, hb, hfit⟩, rfl, rfl⟩ := h
      rw [sourceSteps,
        keepForward_append (sourceSteps_ne_nil _ a) (sourceSteps_ne_nil _ b)] at hwalk
      obtain ⟨⟨first, T⟩, hfirst, hwalk⟩ := bind_eq_ok_iff.mp hwalk
      cases T with
      | nil => cases hwalk
      | cons d T =>
          simp only [List.isEmpty_cons, Bool.false_eq_true, if_false] at hwalk
          obtain ⟨⟨second, R'⟩, hsecond, hwalk⟩ := bind_eq_ok_iff.mp hwalk
          cases hwalk
          obtain ⟨hT, _⟩ := (walks_sourceSteps ha.fits hS hne).of_keepForward hfirst
          have hT := increasing_determined ha.wellFormed hS hT
          exact (iha ha.fits hS hne hfirst).append hfit
            (ihb hb.fits (hfit ▸ hT) (List.cons_ne_nil d T) hsecond)
  | passThrough id k inner trailing ih =>
      have hinner : Fits P inner.sourceDimensions inner inner.targetDimensions :=
        Admissible.fits (t := inner) h.admissible
      refine carriesSources_singleton h (fun _ t' R hreduce => ?_) hwalk
      obtain ⟨_, rfl, rfl⟩ := h
      by_cases hnil : inside k inner.sourceDimensions S = []
      · rw [keepPassThroughSources_outside hS hne hnil] at hreduce
        cases hreduce
        exact carriesSources_outside hinner hS hnil
      · rw [keepPassThroughSources_inside hS hnil] at hreduce
        obtain ⟨⟨reduced, T⟩, hreduced, hreduce⟩ := bind_eq_ok_iff.mp hreduce
        obtain ⟨t'', hmade, hreduce⟩ := bind_eq_ok_iff.mp hreduce
        cases hreduce
        have hS : Increasing S (k + inner.sourceDimensions + trailing) := hS
        have hinside : Increasing (inside k inner.sourceDimensions S) inner.sourceDimensions :=
          increasing_inside hS
        obtain ⟨hT, hpart⟩ := (reduces_keepSources options hinner hinside hnil).of_ok hreduced
        exact carriesSources_inside hinner hS
          (increasing_determined hinner.admissible.wellFormed hinside hT)
          (carriesSources_keepSourceSteps hinner hinside hnil
            (fun _ _ => ih hinner hinside hnil) hreduced) hpart.fits.source hmade
  | kernel id kernel =>
      refine carriesSources_singleton h (fun _ t' R hreduce => ?_) hwalk
      cases hreduce

/-- What is kept of the sources carries over the jets at these sources. -/
theorem carries_keepSources (h : Fits P n t m) (hS : Increasing S n) (hne : S ≠ [])
    (hkeep : t.keepSources (.standard options) S = .ok (t', R)) {x y : List Jet}
    (hy : t.Carries x y) : t'.Carries (pick x S) (pick y R) :=
  carriesAll_singleton.mp (carriesSources_keepSourceSteps h hS hne
    (fun _ _ => carriesSources_keepForward h hS hne) hkeep x y hy)

end Walks

end Transform
end SeparableTransforms
