import SeparableTransforms.Proofs.Separation.Targets
import SeparableTransforms.Proofs.Transform.Jets

/-!
# Keeping some outputs of a derivative

In exact arithmetic what is kept of the outputs `R` of a transform carries jets over to
those that the transform carries them over to at `R`, whatever the assembler folds.

The induction is the one that shows that outputs can be kept: over the tree, and over
the steps of a chain from the last to the first.  A column that is dropped from a step
holds zeros, so neither the coordinate that it meets nor the slope of it counts.
-/

namespace SeparableTransforms
namespace Transform

open Outcome

section Parts

variable {κ : Type} [Kernel κ Rat]

/-- The parts carry jets over to those at the outputs `R` of what the steps carry them over to. -/
def CarriesTargets (steps : List (Transform κ Rat)) (R : List Nat)
    (parts : List (Transform κ Rat)) : Prop :=
  ∀ x y, CarriesAll steps x y → CarriesAll parts x (pick y R)

variable {options : AssemblyOptions} {P : κ → Prop} {n m l : Nat} {R used : List Nat}
  {id : NodeId} {s t t' : Transform κ Rat} {earlier reduced : List (Transform κ Rat)}
  {matrix : DenseMatrix Rat} {x y : List Jet}

theorem Fits.carriesTargets_whole (h : Fits P n t m) (hR : isFull R m = true) :
    CarriesTargets [t] R [t] := by
  obtain rfl := isFull_iff.mp hR
  intro x y hy
  rwa [pick_range ((length_carries (carriesAll_singleton.mp hy)).trans h.target)]

/-- The last step reduced on its own. -/
theorem CarriesTargets.last (h : CarriesTargets [s] R [t]) :
    CarriesTargets (earlier ++ [s]) R (earlier ++ [t]) := by
  intro x y hy
  obtain ⟨z, hz, hy⟩ := carriesAll_append.mp hy
  exact carriesAll_append.mpr ⟨z, hz, h z y hy⟩

/-- Selected rows of a linear transform. -/
theorem carriesTargets_rows (h : Fits P n (linear id matrix : Transform κ Rat) m)
    (hR : Increasing R m) :
    CarriesTargets [(linear id matrix : Transform κ Rat)] R
      [linear none (matrix.keepRows R)] := by
  obtain ⟨haffine, hrows, hcols, hpos⟩ := h.linear
  intro x y hy
  obtain ⟨hx, rfl⟩ := carries_linear_iff.mp (carriesAll_singleton.mp hy)
  refine carriesAll_singleton.mpr (carries_linear_iff.mpr ⟨hx, ?_⟩)
  exact (affineJets_keepRows (by omega) fun r hr => by have := hR.bounded r hr; omega).symm

/-- The unused columns of the last step dropped, and the steps before it reduced to the others. -/
theorem carriesTargets_narrowed (h : Fits P l (linear id matrix : Transform κ Rat) m)
    (hR : Increasing R m)
    (hreduced : CarriesTargets earlier (usedColumns (matrix.keepRows R)) reduced) :
    CarriesTargets (earlier ++ [linear id matrix]) R (reduced ++
      [linear none ((matrix.keepRows R).keepColumns (usedColumns (matrix.keepRows R)))]) := by
  obtain ⟨haffine, hrows, hcols, hpos⟩ := h.linear
  intro x y hy
  obtain ⟨z, hz, hy⟩ := carriesAll_append.mp hy
  obtain ⟨hlen, rfl⟩ := carries_linear_iff.mp (carriesAll_singleton.mp hy)
  refine carriesAll_append.mpr ⟨_, hreduced x z hz, carriesAll_singleton.mpr
    (carries_linear_iff.mpr ⟨by simp, ?_⟩)⟩
  rw [affineJets_keepColumns (increasing_usedColumns _) fun _ hr _ hc hout =>
      isZero_of_not_mem_usedColumns hr hc hout,
    affineJets_keepRows (by omega) fun r hr => by have := hR.bounded r hr; omega]

end Parts

section Chains

variable {κ : Type} [Kernel κ Rat] {options : AssemblyOptions} {P : κ → Prop} {n m : Nat}
  {R : List Nat} {s : TargetStep κ Rat} {steps : List (TargetStep κ Rat)}
  {t' : Transform κ Rat} {parts : List (Transform κ Rat)}

/-- A step that is reduced to outputs that it carries jets over to. -/
def TargetStep.CarriesOver (P : κ → Prop) (s : TargetStep κ Rat) : Prop :=
  ∀ n m R t', Fits P n s.step m → Increasing R m → s.reduce R = .ok t' →
    CarriesTargets [s.step] R [t']

theorem TargetStep.CarriesOver.keep (hs : s.CarriesOver P) (hfits : Fits P n s.step m)
    (hR : Increasing R m) (h : s.keep R = .ok t') : CarriesTargets [s.step] R [t'] := by
  unfold TargetStep.keep at h
  split at h
  · rename_i hfull
    obtain rfl : s.step = t' := Except.ok.inj h
    exact hfits.carriesTargets_whole (hfits.target ▸ hfull)
  · exact hs n m R t' hfits hR h

/-- A reduced chain carries jets over to the outputs it is reduced to. -/
theorem carriesTargets_keepChain (hreducible : ∀ s ∈ steps, s.Reducible options P)
    (hsteps : ∀ s ∈ steps, s.CarriesOver P) (hne : steps ≠ [])
    (hlinked : Linked P n (steps.map TargetStep.step).reverse m) (hR : Increasing R m)
    (h : keepChain (.standard options) steps R = .ok parts) :
    CarriesTargets (steps.map TargetStep.step).reverse R parts := by
  induction steps generalizing m R parts with
  | nil => exact absurd rfl hne
  | cons s rest ih =>
      have hs := hsteps s List.mem_cons_self
      have hrest := fun s' hs' => hsteps s' (List.mem_cons_of_mem s hs')
      have hreducible' := fun s' hs' => hreducible s' (List.mem_cons_of_mem s hs')
      rw [List.map_cons, List.reverse_cons] at hlinked ⊢
      obtain ⟨l, hearlier, hlast⟩ := linked_append.mp hlinked
      have hfits := linked_singleton.mp hlast
      cases rest with
      | nil =>
          obtain rfl : n = l := hearlier
          obtain ⟨t', hkeep, h⟩ := bind_eq_ok_iff.mp h
          obtain rfl : [t'] = parts := Except.ok.inj h
          exact hs.keep hfits hR hkeep
      | cons previous earlier =>
          by_cases hlinear : ∃ id matrix, s.step = .linear id matrix
          · obtain ⟨id, matrix, hstep⟩ := hlinear
            have hlinear := hfits
            rw [hstep] at hlinear ⊢
            have hused := increasing_usedColumns_keepRows hlinear R
            have hprevious := keepChain_cases_of (R := usedColumns (matrix.keepRows R))
              hreducible' hearlier
              (keepChain_eq_ok options hreducible' (List.cons_ne_nil _ _) hearlier hused)
            rcases keepChain_linear hstep hfits hR
              (hprevious.imp_left fun ⟨reduced, hreduced, _⟩ => ⟨reduced, hreduced⟩) with
              ⟨_, reduced, hreduced, hkeep⟩ | hkeep
            · obtain rfl := Except.ok.inj (hkeep.symm.trans h)
              exact carriesTargets_narrowed hlinear hR
                (ih hreducible' hrest (List.cons_ne_nil _ _) hearlier hused hreduced)
            · obtain rfl := Except.ok.inj (hkeep.symm.trans h)
              exact (carriesTargets_rows hlinear hR).last
          · rw [keepChain_other fun id matrix hstep => hlinear ⟨id, matrix, hstep⟩] at h
            obtain ⟨t', hkeep, h⟩ := bind_eq_ok_iff.mp h
            obtain rfl := Except.ok.inj h
            exact (hs.keep hfits hR hkeep).last

end Chains

section PassThroughs

variable {κ : Type} [Kernel κ Rat] {options : AssemblyOptions} {P : κ → Prop} {k s c n : Nat}
  {R kept : List Nat} {id : NodeId} {inner reduced wrapper t' : Transform κ Rat}

/-- The wrapper carries jets over around those at the outputs `kept` of the inner transform. -/
def CarriesAround (k s : Nat) (inner : Transform κ Rat) (kept : List Nat)
    (wrapper : Transform κ Rat) (length : Nat) : Prop :=
  ∀ x z, x.length = length → inner.Carries ((x.drop k).take s) z →
    wrapper.Carries x (x.take k ++ pick z kept ++ x.drop (k + s))

theorem carriesAround_whole (id : NodeId) (h : Fits P s inner c) :
    CarriesAround k s inner (List.range c) (passThrough id k inner n) (k + s + n) := by
  intro x z hx hz
  obtain rfl := h.source
  rw [pick_range ((length_carries hz).trans h.target)]
  exact carries_passThrough_iff.mpr ⟨hx, z, hz, rfl⟩

theorem carriesAround_reduced (h : Fits P s inner c) (hfits : Fits P s reduced kept.length)
    (hreduced : CarriesTargets [inner] kept [reduced])
    (hwrapper : passThroughSimplified k reduced n = .ok wrapper) :
    CarriesAround k s inner kept wrapper (k + s + n) := by
  intro x z hx hz
  obtain rfl := hfits.source
  exact (carries_passThroughSimplified_iff hwrapper).mpr ⟨hx, _,
    carriesAll_singleton.mp (hreduced _ z (carriesAll_singleton.mpr hz)), rfl⟩

/-- A selection from a wrapper carries jets over to the requested outputs of the pass-through. -/
theorem carriesTargets_selectWrapped (hinner : Fits P s inner c)
    (hR : Increasing R (k + c + n)) (hkept : ∀ d ∈ inside k c R, d ∈ kept) (hne : kept ≠ [])
    (hwrapper : Fits P (k + s + n) wrapper (k + kept.length + n))
    (haround : CarriesAround k s inner kept wrapper (k + s + n))
    (h : selectWrapped options k c n R kept wrapper = .ok t') :
    CarriesTargets [passThrough id k inner n] R [t'] := by
  have hpos : 0 < kept.length := List.length_pos_iff.mpr hne
  have hbound := reducedPosition_lt hR hkept
  intro x y hy
  obtain ⟨hx, z, hz, rfl⟩ := carries_passThrough_iff.mp (carriesAll_singleton.mp hy)
  have hlen := (length_carries hz).trans hinner.target
  obtain rfl := hinner.source
  have hcarries := haround x z hx hz
  have hpicked := pick_reducedPosition (s := inner.sourceDimensions)
    (by omega : k ≤ x.length) hlen hkept
  refine carriesAll_singleton.mpr ?_
  unfold selectWrapped at h
  dsimp only at h
  split at h
  · rename_i hfull
    obtain rfl := Except.ok.inj h
    rw [isFull_iff.mp hfull,
      pick_range ((length_carries hcarries).trans hwrapper.target)] at hpicked
    rwa [← hpicked]
  · rw [selectCoordinates_eq_ok hbound, ok_bind, ofMatrix_selectionMatrix (by omega), ok_bind] at h
    have hselection : Fits P (k + kept.length + n)
        (linear none (selectionMatrix (R.map (reducedPosition k c kept)) (k + kept.length + n)) :
          Transform κ Rat) R.length := fits_selectionMatrix (List.length_map _) (by omega)
    refine (carries_concatenateWith_iff hwrapper hselection h).mpr ⟨_, hcarries,
      carries_linear_iff.mpr ⟨(length_carries hcarries).trans hwrapper.target, ?_⟩⟩
    rw [affineJets_selectionMatrix hbound, hpicked]

/-- Only copied coordinates are requested. -/
theorem carriesTargets_copied (hinner : Fits P s inner c) (hR : Increasing R (k + c + n))
    (hnil : inside k c R = []) :
    CarriesTargets [passThrough id k inner n] R [linear none (selectionMatrix
      (R.map fun t => if t < k then t else t - c + s) (k + s + n))] := by
  intro x y hy
  obtain ⟨hx, z, hz, rfl⟩ := carries_passThrough_iff.mp (carriesAll_singleton.mp hy)
  have hlen := (length_carries hz).trans hinner.target
  obtain rfl := hinner.source
  refine carriesAll_singleton.mpr (carries_linear_iff.mpr ⟨hx, ?_⟩)
  rw [affineJets_selectionMatrix (copiedPosition_lt hR hnil),
    pick_copiedPosition (by omega) hlen hnil]

end PassThroughs

section Whole

variable {κ : Type} [Kernel κ Rat] {options : AssemblyOptions} {P : κ → Prop} {n m : Nat}
  {R : List Nat} {t t' : Transform κ Rat}

theorem carriesTargets_of_steps
    (hsteps : ∀ s ∈ t.targetSteps (.standard options), s.CarriesOver P)
    (h : Fits P n t m) (hR : Increasing R m) (hkeep : t.keepTargets (.standard options) R = .ok t') :
    CarriesTargets [t] R [t'] := by
  cases hfull : isFull R t.targetDimensions with
  | true =>
      rw [keepTargets_whole hfull] at hkeep
      obtain rfl := Except.ok.inj hkeep
      exact h.carriesTargets_whole (h.target ▸ hfull)
  | false =>
      have hreducible := fun s hs =>
        reducible_targetSteps options P t s (List.mem_reverse.mp hs)
      have hreverse := reverse_step_targetSteps (.standard options) t
      have hlinked := hreverse ▸ h.linked_steps
      have hne := List.reverse_ne_nil_iff.mpr (targetSteps_ne_nil (.standard options) t)
      rw [keepTargets_eq hfull] at hkeep
      obtain ⟨parts, hparts, hcompose⟩ := bind_eq_ok_iff.mp hkeep
      rcases keepChain_cases_of hreducible hlinked
        (keepChain_eq_ok options hreducible hne hlinked hR) with
        ⟨parts', hparts', hpart⟩ | ⟨obstacle, herror⟩
      · obtain rfl : parts' = parts := Except.ok.inj (hparts'.symm.trans hparts)
        have hcarries := carriesTargets_keepChain hreducible
          (fun s hs => hsteps s (List.mem_reverse.mp hs)) hne hlinked hR hparts
        rw [hreverse] at hcarries
        intro x y hy
        have hy := (carries_iff_carriesAll h.admissible.wellFormed).mp (carriesAll_singleton.mp hy)
        exact carriesAll_singleton.mpr
          ((carries_compose_iff hpart.linked hcompose).mpr (hcarries x y hy))
      · rw [herror] at hparts
        cases hparts

theorem carriesTargets_keepPassThrough {id : NodeId} {k j : Nat} {inner : Transform κ Rat}
    (hsteps : ∀ s ∈ inner.targetSteps (.standard options), s.CarriesOver P)
    (h : inner.Admissible P) (hR : Increasing R (k + inner.targetDimensions + j))
    (hkeep : keepPassThrough (.standard options) (passThrough id k inner j) k inner j
      (inner.keepTargets (.standard options)) R = .ok t') :
    CarriesTargets [passThrough id k inner j] R [t'] := by
  rcases keepPassThrough_split (reducible_targetSteps options P inner) h hR
    (passThrough id k inner j) with
    ⟨hnil, hcopied⟩ | ⟨kept, wrapper, hkept, hne, hselected, hwrapper⟩
  · rw [hcopied] at hkeep
    obtain rfl := eq_of_ofMatrix hkeep
    exact carriesTargets_copied h.fits hR hnil
  · rw [hselected] at hkeep
    rcases hwrapper with ⟨rfl, rfl⟩ | ⟨reduced, hincreasing, hreduced, hpart, hwrapper⟩
    · exact carriesTargets_selectWrapped h.fits hR hkept hne (by simpa using h.fits.passThrough k j)
        (carriesAround_whole id h.fits) hkeep
    · obtain ⟨wrapper', hwrapper', hfits, _⟩ := passThroughSimplified_eq_ok hpart.fits k j
      obtain rfl : wrapper' = wrapper := Except.ok.inj (hwrapper'.symm.trans hwrapper)
      exact carriesTargets_selectWrapped h.fits hR hkept hne hfits
        (carriesAround_reduced h.fits hpart.fits
          (carriesTargets_of_steps hsteps h.fits hincreasing hreduced) hwrapper) hkeep

theorem carriesOver_targetSteps (options : AssemblyOptions) (P : κ → Prop) (t : Transform κ Rat) :
    ∀ s ∈ t.targetSteps (.standard options), s.CarriesOver P := by
  induction t with
  | linear id matrix =>
      intro s hs n m R t' h hR hreduce
      obtain rfl := List.mem_singleton.mp hs
      obtain ⟨haffine, hrows, _⟩ := h.linear
      obtain ⟨rows, hrows', hmade⟩ := bind_eq_ok_iff.mp hreduce
      rw [targetRows_eq_ok haffine (by rwa [hrows, Nat.add_sub_cancel])] at hrows'
      obtain rfl := Except.ok.inj hrows'
      obtain rfl := eq_of_ofMatrix hmade
      exact carriesTargets_rows h hR
  | chain id a b iha ihb =>
      intro s hs
      exact (List.mem_append.mp hs).elim (iha s) (ihb s)
  | passThrough id k inner j ih =>
      intro s hs n m R t' h hR hreduce
      obtain rfl := List.mem_singleton.mp hs
      obtain ⟨hadmissible, rfl, rfl⟩ := h
      exact carriesTargets_keepPassThrough ih hadmissible hR hreduce
  | kernel id k =>
      intro s hs n m R t' h hR hreduce
      obtain rfl := List.mem_singleton.mp hs
      cases hreduce

/-- What is kept of the targets carries jets over to those at these targets. -/
theorem carries_keepTargets (h : Fits P n t m) (hR : Increasing R m)
    (hkeep : t.keepTargets (.standard options) R = .ok t') {x y : List Jet} (hy : t.Carries x y) :
    t'.Carries x (pick y R) :=
  carriesAll_singleton.mp (carriesTargets_of_steps (carriesOver_targetSteps options P t) h hR hkeep
    x y (carriesAll_singleton.mpr hy))

end Whole

end Transform
end SeparableTransforms
