import Mathlib.Algebra.BigOperators.Ring.Finset
import SeparableTransforms.Proofs.Separation.Soundness
import SeparableTransforms.Proofs.Separation.SourceJets
import SeparableTransforms.Proofs.Separation.TargetJets

/-!
# Derivatives of a separation

In exact arithmetic the derivative of a separation is a submatrix of the derivative of
the whole transform: the rows are the targets that the separation reports, and the
columns are the sources.

Both halves of this are said of jets first.  A separation carries the jets at its
sources over to those at its targets of what the whole transform carries all jets over
to.  With a slope along a single axis this is a column of either derivative.
-/

namespace SeparableTransforms
namespace Transform

open Outcome

section Trimming

variable {κ : Type} [Kernel κ Rat] {options : AssemblyOptions} {P : κ → Prop} {n m : Nat}
  {t t' : Transform κ Rat} {kept : List Nat} {x y : List Jet}

/-- Trimming drops jets that the first step does not use. -/
theorem carries_trimSources (h : Fits P n t m)
    (htrim : t.trimSources (.standard options) = .ok (t', kept)) (hy : t.Carries x y) :
    t'.Carries (pick x kept) y := by
  have hwhole : t'.Carries (pick x (List.range t.sourceDimensions)) y ↔ t'.Carries x y := by
    rw [pick_range (length_of_carries hy)]
  unfold trimSources at htrim
  split at htrim
  · rename_i id matrix rest hsteps
    have hlinked := h.linked_steps
    rw [hsteps] at hlinked
    obtain ⟨l, hfirst, _⟩ := hlinked
    simp only [trimMatrix_eq_ok hfirst.linear.1, ok_bind] at htrim
    by_cases hkeep : usedColumns matrix = [] ∨ (usedColumns matrix).length = matrix.cols - 1
    · rw [if_pos hkeep] at htrim
      cases htrim
      exact hwhole.mpr hy
    · rw [if_neg hkeep] at htrim
      obtain ⟨head, hhead, htrim⟩ := bind_eq_ok_iff.mp htrim
      obtain rfl := eq_of_ofMatrix hhead
      obtain ⟨result, hresult, htrim⟩ := bind_eq_ok_iff.mp htrim
      cases htrim
      have hlinked := linked_narrowed hsteps h (not_or.mp hkeep).1
      rw [carries_iff_carriesAll h.admissible.wellFormed, hsteps] at hy
      obtain ⟨z, hz, hy⟩ := hy
      obtain ⟨_, rfl⟩ := carries_linear_iff.mp hz
      refine (carries_compose_iff hlinked hresult).mpr
        ⟨_, carries_linear_iff.mpr ⟨by simp, ?_⟩, hy⟩
      exact (affineJets_keepColumns (increasing_usedColumns _) fun _ hr _ hc hout =>
        isZero_of_not_mem_usedColumns hr hc hout).symm
  · cases htrim
    exact hwhole.mpr hy

end Trimming

section Axes

variable {κ : Type} [Kernel κ Rat] {t t' : Transform κ Rat} {x : List Jet} {p v : List Rat}
  {j : DenseMatrix Rat} {r c i : Nat} {R S : List Nat}

/-- A point that moves along one of its coordinates. -/
def axisJets (p : List Rat) (c : Nat) : List Jet :=
  (List.range p.length).map fun i => (p.getD i 0, if i = c then 1 else 0)

@[simp] theorem coordinates_axisJets : coordinates (axisJets p c) = p := by
  unfold coordinates axisJets
  rw [List.map_map]
  exact pick_range rfl

theorem getD_axisJets (hi : i < p.length) :
    (axisJets p c).getD i 0 = (p.getD i 0, if i = c then 1 else 0) := by
  simp [axisJets, hi]

/-- The slope of a row along an axis is an entry. -/
theorem slope_axis (hc : c < j.cols)
    (hx : ∀ k, k < j.cols → (x.getD k 0).2 = if k = c then 1 else 0) :
    slope j x r = j.entry r c := by
  have hterms : ∀ k ∈ Finset.range j.cols, j.entry r k * (x.getD k 0).2 =
      if k = c then j.entry r k else 0 := by
    intro k hk
    rw [hx k (Finset.mem_range.mp hk), mul_ite, mul_one, mul_zero]
  rw [slope, Finset.sum_congr rfl hterms, Finset.sum_ite_eq', if_pos (Finset.mem_range.mpr hc)]

theorem slope_axisJets (hcols : j.cols = p.length) (hc : c < p.length) :
    slope j (axisJets p c) r = j.entry r c :=
  slope_axis (hcols ▸ hc) fun k hk => by rw [getD_axisJets (hcols ▸ hk)]

/-- An axis that is picked is an axis of what is picked. -/
theorem slope_pick_axisJets (hS : Increasing S p.length) (hcols : j.cols = S.length)
    (hc : c < S.length) : slope j (pick (axisJets p S[c]) S) r = j.entry r c := by
  have hnodup : S.Nodup := hS.sorted.imp Nat.ne_of_lt
  refine slope_axis (hcols ▸ hc) fun k hk => ?_
  have hk : k < S.length := hcols ▸ hk
  have hplace : S.getD k 0 = S[k] := by simp [hk]
  rw [getD_pick hk, hplace, getD_axisJets (hS.bounded _ (List.getElem_mem hk))]
  simp only [hnodup.getElem_inj_iff]

theorem submatrix_eq_ok (hR : ∀ r ∈ R, r < j.rows) (hS : ∀ c ∈ S, c < j.cols) :
    j.submatrix R S = .ok ((j.takeRows R).takeColumns S) := by
  rw [DenseMatrix.submatrix, DenseMatrix.selectRows_eq_ok_iff.mpr hR]
  exact DenseMatrix.selectColumns_eq_ok_iff.mpr hS

section Restricted

variable (h : ∀ x y, t.Carries x y → t'.Carries (pick x S) (pick y R))

include h

/-- A transform that restricts how another one carries jets over has a derivative where the other
one has, and it moves the axes in the same way. -/
theorem evaluate_of_restricts (hj : t.evaluate p true = .ok ⟨v, some j⟩) :
    ∃ j', t'.evaluate (pick p S) true = .ok ⟨pick v R, some j'⟩ ∧
      ∀ c, pick (push v j (axisJets p c)) R = push (pick v R) j' (pick (axisJets p c) S) := by
  have haxis : ∀ c, ∃ j', t'.evaluate (pick p S) true = .ok ⟨pick v R, some j'⟩ ∧
      pick (push v j (axisJets p c)) R = push (pick v R) j' (pick (axisJets p c) S) := by
    intro c
    obtain ⟨v', j', hj', hpush⟩ := h (axisJets p c) (push v j (axisJets p c))
      ⟨v, j, by rwa [coordinates_axisJets], rfl⟩
    rw [coordinates_pick, coordinates_axisJets] at hj'
    have hpoint := congrArg coordinates hpush
    rw [coordinates_pick, coordinates_push, coordinates_push] at hpoint
    subst hpoint
    exact ⟨j', hj', hpush⟩
  obtain ⟨j', hj', _⟩ := haxis 0
  refine ⟨j', hj', fun c => ?_⟩
  -- the derivative is the same along all axes
  obtain ⟨j'', hj'', hpush⟩ := haxis c
  rw [hj'] at hj''
  cases hj''
  exact hpush

/-- Its derivative is a submatrix of the other one. -/
theorem derivative_of_restricts (hS : Increasing S t.sourceDimensions)
    (hR : Increasing R t.targetDimensions) (hj : t.applyWithDerivative p = .ok (v, j)) :
    ∃ j', j.submatrix R S = .ok j' ∧ t'.applyWithDerivative (pick p S) = .ok (pick v R, j') := by
  have hj := applyWithDerivative_eq_ok_iff.mp hj
  obtain ⟨j', hj', hpush⟩ := evaluate_of_restricts h hj
  obtain ⟨hv, hrows, hcols⟩ := shaped_of_evaluate hj
  obtain ⟨hv', hrows', hcols'⟩ := shaped_of_evaluate hj'
  have hp := length_of_evaluate hj
  have hp' := length_of_evaluate hj'
  rw [length_pick] at hp' hv'
  rw [← hp] at hS hcols
  rw [← hv] at hR hrows
  have hselected := submatrix_eq_ok (fun r hr => hrows j rfl ▸ hR.bounded r hr)
    fun c hc => hcols j rfl ▸ hS.bounded c hc
  refine ⟨j', ?_, applyWithDerivative_eq_ok_iff.mpr hj'⟩
  rw [hselected]
  refine congrArg Except.ok (DenseMatrix.ext_entry (hv'.trans (hrows' j' rfl).symm)
    (hp'.trans (hcols' j' rfl).symm) fun r c hr hc => ?_)
  have hr : r < R.length := hr
  have hc : c < S.length := hc
  have hrow := hR.bounded _ (List.getElem_mem hr)
  have hcol := hS.bounded _ (List.getElem_mem hc)
  have hplace : R.getD r 0 = R[r] := by simp [hr]
  have hjet := congrArg (fun y => (y.getD r (0 : Jet)).2) (hpush S[c])
  simp only [getD_pick hr, hplace, getD_push hrow, getD_push (v := pick v R) (x := pick _ S)
    (by rwa [length_pick])] at hjet
  calc ((j.takeRows R).takeColumns S).entry r c
      = j.entry R[r] S[c] := by
        rw [DenseMatrix.entry_takeColumns hr hc,
          DenseMatrix.entry_takeRows hr (hcols j rfl ▸ hcol)]
    _ = slope j (axisJets p S[c]) R[r] := (slope_axisJets (hcols j rfl) hcol).symm
    _ = slope j' (pick (axisJets p S[c]) S) r := hjet
    _ = j'.entry r c := slope_pick_axisJets hS ((hcols' j' rfl).trans hp'.symm) hc

end Restricted

end Axes

end Transform

namespace Separation

open Transform Outcome

section Restricting

variable {κ : Type} [Kernel κ Rat] {options : AssemblyOptions} {P : κ → Prop}
  {t : Transform κ Rat} {extra : SeparationOptions} {S R : List Nat}
  {targets : Option (List Nat)} {s : Separation κ Rat} {x y : List Jet}

theorem carries_byTargets (h : t.Admissible P) (hR : Increasing R t.targetDimensions)
    (hs : byTargets (.standard options) t R extra = .ok s) (hy : t.Carries x y) :
    s.transform.Carries (pick x s.sourceDimensions) (pick y s.targetDimensions) := by
  obtain ⟨_, _, t', hkeep, hend, _⟩ := separates_of_byTargets h hR hs
  obtain ⟨t'', hkeep', hpart⟩ := keepTargets_eq_ok options h.fits hR hend
  obtain rfl : t'' = t' := Except.ok.inj (hkeep'.symm.trans hkeep)
  have hkept := carries_keepTargets h.fits hR hkeep hy
  unfold byTargets at hs
  rw [hkeep, ok_bind] at hs
  split at hs
  · obtain ⟨⟨trimmed, kept⟩, htrim, hs⟩ := bind_eq_ok_iff.mp hs
    cases hs
    exact carries_trimSources hpart.fits htrim hkept
  · cases hs
    show t''.Carries (pick x (List.range t.sourceDimensions)) (pick y R)
    rwa [pick_range (length_of_carries hy)]

theorem carries_bySources (h : t.Admissible P) (hS : Increasing S t.sourceDimensions)
    (hne : S ≠ []) (hR : ∀ R ∈ targets, Increasing R t.targetDimensions)
    (hs : bySources (.standard options) t S targets = .ok s) (hy : t.Carries x y) :
    s.transform.Carries (pick x s.sourceDimensions) (pick y s.targetDimensions) := by
  obtain ⟨_, _, D, hD, hDne, _⟩ := separates_of_bySources h hS hne hR hs
  obtain ⟨reduced, hreduced, hpart⟩ := (reduces_keepSources options h.fits hS hne).found D hD
  have hDempty : D.isEmpty = false := by simpa using hDne
  have hkept := carries_keepSources h.fits hS hne hreduced hy
  unfold bySources at hs
  simp only [hreduced, hDempty, ok_bind, Bool.false_eq_true, if_false, pure_eq_ok] at hs
  cases targets with
  | none =>
      cases hs
      exact hkept
  | some R =>
      obtain ⟨positions, hpositions, hs⟩ := bind_eq_ok_iff.mp hs
      obtain ⟨result, hresult, hs⟩ := bind_eq_ok_iff.mp hs
      cases hs
      have hsub : ∀ d ∈ R, d ∈ D := by
        intro d hd
        by_contra hout
        obtain ⟨e, _, herror⟩ := positionsAmong_eq_error hd hout
        rw [herror] at hpositions
        cases hpositions
      rw [positionsAmong_eq_ok hsub] at hpositions
      obtain rfl := Except.ok.inj hpositions
      have hincreasing := increasing_positions (increasing_determined h.wellFormed hS hD)
        (hR R rfl) hsub
      show result.Carries (pick x S) (pick y R)
      rw [← pick_map_idxOf hsub]
      exact carries_keepTargets hpart.fits hincreasing hresult hkept

/-- A separation restricts how the transform carries jets over. -/
theorem carries_separate {sources : Option (List Nat)} (ht : t.WellFormed)
    (hs : separate (.standard options) t sources targets extra = .ok s) (hy : t.Carries x y) :
    s.transform.Carries (pick x s.sourceDimensions) (pick y s.targetDimensions) := by
  obtain ⟨hsources, htargets⟩ := increasing_of_separate hs
  rw [separate_eq hsources htargets] at hs
  split at hs
  · rename_i S hS
    obtain ⟨rfl, hne, _⟩ := properSources_eq_some_iff.mp hS
    exact carries_bySources ht.admissible hsources hne (increasing_of_mem_nonempty htargets) hs hy
  · exact carries_byTargets ht.admissible (increasing_requestedTargets htargets) hs hy

end Restricting

section Derivatives

variable {κ : Type} [Kernel κ Rat] {t : Transform κ Rat}

/-- Where the transform has a derivative, a separation has the submatrix of it with the targets of
the separation as rows and the sources as columns. -/
theorem separate_restricts_derivative (ht : t.WellFormed) {options : AssemblyOptions}
    {sources targets : Option (List Nat)} {extra : SeparationOptions} {s : Separation κ Rat}
    (hs : separate (.standard options) t sources targets extra = .ok s) {p v : List Rat}
    {j : DenseMatrix Rat} (hj : t.applyWithDerivative p = .ok (v, j)) :
    ∃ j', j.submatrix s.targetDimensions s.sourceDimensions = .ok j' ∧
      s.transform.applyWithDerivative (pick p s.sourceDimensions) =
        .ok (pick v s.targetDimensions, j') := by
  have hseparates := separates_of_separate ht.admissible hs
  exact derivative_of_restricts (fun _ _ => carries_separate ht hs) hseparates.sources
    hseparates.targets hj

/-- Five coordinates, of which the fourth one is lost in the first step.  A kernel multiplies two of
the others, and the last step mixes what is left. -/
def shieldedProduct : Transform ExactKernel Rat :=
  chain none
    (linear none ⟨5, 6, #[1, 0, 2, 0, 0, 1, 0, 3, 0, 0, 0, 0, 0, 0, 1, 0, -1, 2, 0, 0, 0, 0, 1, 0,
      0, 0, 0, 0, 0, 1], by decide +kernel⟩)
    (chain none
      (passThrough none 1 (kernel none .multiply) 1)
      (linear none ⟨3, 4, #[1, 0, 5, 0, 1 / 2, 3, 0, 1, 0, 0, 0, 1], by decide +kernel⟩))

/-- The second target of the shielded product, with its sources trimmed. -/
theorem separate_shieldedProduct :
    ∃ s v j j', separate (.standard {}) shieldedProduct none (some [1]) ⟨true⟩ = .ok s ∧
      s.sourceDimensions = [0, 1, 2, 4] ∧ s.targetDimensions = [1] ∧
      shieldedProduct.applyWithDerivative [1, 2, 3, 4, 5] = .ok (v, j) ∧
      j.submatrix s.targetDimensions s.sourceDimensions = .ok j' ∧
      s.transform.applyWithDerivative (pick [1, 2, 3, 4, 5] s.sourceDimensions) =
        .ok (pick v s.targetDimensions, j') := by
  have hwell : shieldedProduct.WellFormed := by decide +kernel
  have hfound : (fun s => (s.sourceDimensions, s.targetDimensions)) <$>
      separate (.standard {}) shieldedProduct none (some [1]) ⟨true⟩ =
        .ok ([0, 1, 2, 4], [1]) := by
    decide +kernel
  obtain ⟨s, hs, hdimensions⟩ := map_eq_ok_iff.mp hfound
  obtain ⟨hsource, htarget⟩ := Prod.mk.inj hdimensions
  obtain ⟨⟨v, j⟩, hj⟩ := exists_ok_of_isOk
    (x := shieldedProduct.applyWithDerivative [1, 2, 3, 4, 5]) (by decide +kernel)
  obtain ⟨j', hselected, hderivative⟩ := separate_restricts_derivative hwell hs hj
  exact ⟨s, v, j, j', hs, hsource, htarget, hj, hselected, hderivative⟩

end Derivatives

end Separation
end SeparableTransforms
