import SeparableTransforms.Proofs.Transform.Assembly

/-!
# Computing the same points

As long as no matrices are multiplied, the standard assembler builds transforms
that map every point as the parts would, up to the sign of zero: an identity that
is left out gave its argument back, and a pass-through in its simplest form copies
and maps the same coordinates.

`Computes steps S R steps'` says that `steps'` does a part of the work of `steps`:
it takes the coordinates `S` of a point and gives the coordinates `R` of the image.
-/

namespace SeparableTransforms
namespace Transform

open Outcome

section Coordinates

variable {α : Type}

theorem take_take_drop (p : List α) (k : Nat) {i s : Nat} (h : i ≤ s) :
    p.take k ++ ((p.drop k).take s).take i = p.take (k + i) := by
  rw [List.take_take, Nat.min_eq_left h, List.take_add]

theorem drop_take_append (p : List α) (k : Nat) {i s : Nat} (h : i ≤ s) :
    ((p.drop k).take s).drop i ++ p.drop (k + s) = p.drop (k + i) := by
  have hrest : p.drop (k + s) = ((p.drop k).drop i).drop (s - i) := by
    rw [List.drop_drop, List.drop_drop]
    congr 1
    omega
  rw [List.drop_take, hrest, List.take_append_drop, List.drop_drop]

theorem drop_take_drop (p : List α) (k : Nat) {i c s : Nat} (h : i + c ≤ s) :
    (((p.drop k).take s).drop i).take c = (p.drop (k + i)).take c := by
  rw [List.drop_take, List.take_take, List.drop_drop, Nat.min_eq_left (by omega)]

end Coordinates

section Extensional

variable {κ α : Type} [Kernel κ α] [Scalar α]

/-- Nothing is folded, and the kernels map the same points to the same points. -/
structure Faithful (options : AssemblyOptions) (P : κ → Prop) : Prop where
  unfolded : options.foldLinear = false
  extensional : ∀ k, P k → ∀ id, (kernel id k : Transform κ α).Extensional

variable [LawfulScalar α] {options : AssemblyOptions} {P : κ → Prop} {n m l : Nat}
  {s t : Transform κ α} {steps rest : List (Transform κ α)} {p q v : List α}

theorem Fits.extensional (h : Fits P n t m) (hP : Faithful (α := α) options P) : t.Extensional := by
  obtain ⟨hwell, hkernels⟩ := admissible_iff.mp h.admissible
  exact extensional_of_kernels hwell fun node hnode =>
    hP.extensional node.2 (hkernels node hnode) node.1

/-- Linked steps map the same points to the same points. -/
theorem Linked.runs_congr (h : Linked P n steps m) (hP : Faithful (α := α) options P)
    (hpq : SamePoint p q) (hv : Runs steps p v) : ∃ w, Runs steps q w ∧ SamePoint v w := by
  induction steps generalizing n p q with
  | nil =>
      obtain rfl : v = p := hv
      exact ⟨q, rfl, hpq⟩
  | cons s steps ih =>
      obtain ⟨l, hs, hrest⟩ := h
      obtain ⟨u, hu, hv⟩ := hv
      obtain ⟨u', hu', hsame⟩ := hs.extensional hP p q u hpq hu
      obtain ⟨w, hw, hsame'⟩ := ih hrest hsame hv
      exact ⟨w, ⟨u', hu', hw⟩, hsame'⟩

theorem samePoint_of_isIdentity_apply (hs : s.isIdentity = true) (h : s.apply p = .ok v) :
    SamePoint v p := by
  cases s with
  | linear id matrix =>
      obtain ⟨hlen, rfl⟩ := apply_linear_iff.mp h
      exact samePoint_of_isIdentity hs hlen
  | _ => cases hs

/-- Identities may be left out. -/
theorem Linked.runs_filter (h : Linked P n steps m) (hP : Faithful (α := α) options P)
    (hpq : SamePoint p q) (hv : Runs steps p v) :
    ∃ w, Runs (steps.filter fun s => !s.isIdentity) q w ∧ SamePoint v w := by
  induction steps generalizing n p q with
  | nil =>
      obtain rfl : v = p := hv
      exact ⟨q, rfl, hpq⟩
  | cons s steps ih =>
      obtain ⟨l, hs, hrest⟩ := h
      obtain ⟨u, hu, hv⟩ := hv
      rw [List.filter_cons]
      split
      · obtain ⟨u', hu', hsame⟩ := hs.extensional hP p q u hpq hu
        obtain ⟨w, hw, hsame'⟩ := ih hrest hsame hv
        exact ⟨w, ⟨u', hu', hw⟩, hsame'⟩
      · rename_i hid
        have hid : s.isIdentity = true := by simpa using hid
        exact ih hrest ((samePoint_of_isIdentity_apply hid hu).trans hpq) hv

theorem Linked.runs_elideSteps (h : Linked P n steps m) (hP : Faithful (α := α) options P)
    (hv : Runs steps p v) : ∃ w, Runs (elideSteps options steps) p w ∧ SamePoint v w := by
  unfold elideSteps
  split
  · exact h.runs_filter hP (SamePoint.refl p) hv
  · exact ⟨v, hv, SamePoint.refl v⟩

end Extensional

section Assembling

variable {κ α : Type} [Kernel κ α] [Scalar α] [LawfulScalar α] {options : AssemblyOptions}
  {P : κ → Prop} {n m l k s : Nat} {a b t t' : Transform κ α} {steps rest : List (Transform κ α)}
  {p v : List α}

/-- A concatenation maps a point as its parts do. -/
theorem runs_concatenateWith (ha : Fits P n a l) (hb : Fits P l b m)
    (hP : Faithful (α := α) options P) (ht : concatenateWith options a b = .ok t)
    (hv : Runs (a.steps ++ b.steps) p v) : ∃ w, Runs t.steps p w ∧ SamePoint v w := by
  have hflat := ha.flat.append hb.flat
  obtain ⟨t', ht', _, hmade⟩ :=
    concatenateWith_made ha hb (foldSteps_unfolded hP.unfolded) hflat
  obtain rfl : t' = t := Except.ok.inj (ht'.symm.trans ht)
  obtain ⟨w, hw, hsame⟩ := hflat.linked.runs_elideSteps hP hv
  rcases hmade with hmade | ⟨hnil, rfl⟩
  · exact ⟨w, hmade ▸ hw, hsame⟩
  · rw [hnil] at hw
    obtain rfl : w = p := hw
    have hlen : w.length = n := by
      obtain ⟨u, hu, _⟩ := runs_append.mp hv
      rw [← ha.source]
      exact length_of_apply ((apply_iff_runs ha.admissible.wellFormed).mpr hu)
    have hid : (linear none (DenseMatrix.identity (n + 1)) : Transform κ α).apply w =
        .ok (applyAffine (DenseMatrix.identity (n + 1)) w) :=
      apply_linear_iff.mpr ⟨hlen, rfl⟩
    refine ⟨_, runs_singleton.mpr hid, hsame.trans ?_⟩
    exact (samePoint_of_isIdentity (isIdentity_identity _) hlen).symm

/-- A composition maps a point as its parts do. -/
theorem runs_compose (hlinked : Linked P n steps m) (hP : Faithful (α := α) options P)
    (ht : (Assembler.standard options).compose steps = .ok t)
    (hv : Runs (steps.flatMap Transform.steps) p v) : ∃ w, Runs t.steps p w ∧ SamePoint v w := by
  cases steps with
  | nil => cases ht
  | cons first rest =>
      obtain ⟨l, hfirst, hrest⟩ := hlinked
      rw [List.flatMap_cons] at hv
      induction rest generalizing first l v with
      | nil =>
          cases ht
          exact ⟨v, by simpa using hv, SamePoint.refl v⟩
      | cons next rest ih =>
          obtain ⟨l', hnext, hrest⟩ := hrest
          obtain ⟨t₁, hconcat, hfits, _⟩ := concatenateWith_eq_ok options hfirst hnext
          rw [List.flatMap_cons, ← List.append_assoc] at hv
          obtain ⟨u, hu, hv⟩ := runs_append.mp hv
          obtain ⟨u', hu', hsame⟩ := runs_concatenateWith hfirst hnext hP hconcat hu
          obtain ⟨v', hv', hsame'⟩ := hrest.flatMap_steps.runs_congr hP hsame hv
          have ht : (Assembler.standard options).compose (t₁ :: rest) = .ok t := by
            have ht : (next :: rest).foldlM (concatenateWith options) first = .ok t := ht
            rwa [List.foldlM_cons, hconcat] at ht
          obtain ⟨w, hw, hsame''⟩ := ih t₁ ht (runs_append.mpr ⟨u', hu', hv'⟩) l' hfits hrest
          exact ⟨w, hw, hsame'.trans hsame''⟩

/-- The coordinates that a pass-through gives if it copies none. -/
theorem apply_copyingNone (hp : p.length = s) {u : List α}
    (hu : t.apply ((p.drop 0).take s) = .ok u) :
    ∃ w, t.apply p = .ok w ∧ SamePoint w (p.take 0 ++ u ++ p.drop (0 + s)) := by
  rw [List.drop_zero, List.take_of_length_le (Nat.le_of_eq hp)] at hu
  refine ⟨u, hu, ?_⟩
  rw [List.drop_of_length_le (by omega), List.append_nil]
  exact SamePoint.refl u

theorem Fits.apply_passThrough (h : Fits P s t m) {u : List α} (hp : p.length = k + s + n)
    (hu : t.apply ((p.drop k).take s) = .ok u) :
    ∃ w, (Transform.passThrough none k t n).apply p = .ok w ∧
      SamePoint w (p.take k ++ u ++ p.drop (k + s)) := by
  obtain rfl := h.source
  exact ⟨_, apply_passThrough_iff.mpr ⟨hp, u, hu, rfl⟩, SamePoint.refl _⟩

/-- A pass-through in its simplest form maps a point as the pass-through does. -/
theorem apply_passThroughSimplified (h : Fits P s t m)
    (ht' : passThroughSimplified k t n = .ok t') {u : List α} (hp : p.length = k + s + n)
    (hu : t.apply ((p.drop k).take s) = .ok u) :
    ∃ w, t'.apply p = .ok w ∧ SamePoint w (p.take k ++ u ++ p.drop (k + s)) := by
  fun_induction passThroughSimplified k t n generalizing s m u with
  | case1 k n t hnone =>
      obtain ⟨rfl, rfl⟩ := hnone
      cases ht'
      exact apply_copyingNone (by omega) hu
  | case2 k n hsome id matrix =>
      obtain ⟨haffine, hrows, hcols, hpos⟩ := h.linear
      obtain rfl := eq_of_ofMatrix ht'
      obtain ⟨_, rfl⟩ := apply_linear_iff.mp hu
      obtain rfl : matrix.cols - 1 = s := by omega
      refine ⟨_, apply_linear_iff.mpr ⟨by rw [cols_expand]; omega, rfl⟩, ?_⟩
      exact samePoint_expand (by omega)
  | case3 k n hsome id k' inner n' ih =>
      obtain ⟨hlen, w, hw, rfl⟩ := apply_passThrough_iff.mp hu
      obtain rfl : k' + inner.sourceDimensions + n' = s := h.source
      -- the coordinates of the inner one, counted from the start of the whole point
      rw [drop_take_drop p k (by omega)] at hw
      obtain ⟨w', hw', hsame⟩ :=
        ih (Admissible.fits (t := inner) h.admissible) ht' (by omega) hw
      refine ⟨w', hw', ?_⟩
      have hfirst := take_take_drop p k (i := k') (s := k' + inner.sourceDimensions + n')
        (by omega)
      have hlast := drop_take_append p k (i := k' + inner.sourceDimensions)
        (s := k' + inner.sourceDimensions + n') (by omega)
      rw [← hfirst, Nat.add_assoc k k', ← hlast] at hsame
      simpa only [List.append_assoc] using hsame
  | case4 k n hsome t =>
      cases ht'
      exact h.apply_passThrough hp hu

end Assembling

end Transform
end SeparableTransforms
