import SeparableTransforms.Proofs.Transform.Jets

/-!
# Derivatives of affine trees

Over the rationals an affine map takes a point that has been shifted to the shifted image,
and the image is shifted by the linear part applied to the shift.  This is true however
large the shift is, and not only to first order.

In the language of jets: follow every jet along its slope, from the coordinate to the sum
of the two.  A transform *moves along* with jets if it has a derivative, and if the jets
which it carries over lead to the image of the point that the given jets lead to.  Linear
transforms and affine kernels do so, and through chains and pass-throughs it goes as the
jets go.  So the derivative of a tree of such parts is exact.
-/

namespace SeparableTransforms

section Shifts

variable {x : List Jet} {p h offset v : List Rat} {j : DenseMatrix Rat}

/-- A point that has been shifted. -/
def shift (p h : List Rat) : List Rat :=
  List.zipWith (· + ·) p h

@[simp] theorem length_shift : (shift p h).length = min p.length h.length :=
  List.length_zipWith

theorem getD_shift (hlen : p.length = h.length) (c : Nat) :
    (shift p h).getD c 0 = p.getD c 0 + h.getD c 0 := by
  by_cases hc : c < p.length
  · simp [shift, hc, hlen ▸ hc]
  · simp [shift, hc, hlen ▸ hc]

/-- One shift after another, in either order. -/
theorem shift_right_comm (p h q : List Rat) : shift (shift p h) q = shift (shift p q) h := by
  refine List.ext_getElem (by simp [min_right_comm]) fun i _ _ => ?_
  simp only [shift, List.getElem_zipWith]
  exact add_right_comm _ _ _

/-- A matrix applied to a point. -/
def linearImage (j : DenseMatrix Rat) (p : List Rat) : List Rat :=
  (List.range j.rows).map fun r => ∑ c ∈ Finset.range j.cols, j.entry r c * p.getD c 0

@[simp] theorem length_linearImage : (linearImage j p).length = j.rows := by
  simp [linearImage]

theorem linearImage_shift (hlen : p.length = h.length) :
    linearImage j (shift p h) = shift (linearImage j p) (linearImage j h) := by
  unfold linearImage
  refine List.ext_getElem (by simp) fun r hr _ => ?_
  simp only [shift, List.getElem_map, List.getElem_range, List.getElem_zipWith]
  rw [← Finset.sum_add_distrib]
  refine Finset.sum_congr rfl fun c _ => ?_
  rw [← mul_add, ← getD_shift hlen]
  rfl

/-- The slopes without the coordinates. -/
def slopes (x : List Jet) : List Rat :=
  x.map Prod.snd

@[simp] theorem length_slopes : (slopes x).length = x.length :=
  List.length_map _

/-- The point to which jets lead. -/
def moved (x : List Jet) : List Rat :=
  x.map fun jet => jet.1 + jet.2

@[simp] theorem length_moved : (moved x).length = x.length :=
  List.length_map _

theorem moved_eq_shift (x : List Jet) : moved x = shift (coordinates x) (slopes x) := by
  simp [moved, shift, coordinates, slopes, List.zipWith_map, List.zipWith_self]

theorem coordinates_zip (hlen : p.length = h.length) : coordinates (p.zip h) = p :=
  List.map_fst_zip hlen.le

theorem slopes_zip (hlen : p.length = h.length) : slopes (p.zip h) = h :=
  List.map_snd_zip hlen.ge

theorem slopes_push (hv : v.length = j.rows) : slopes (push v j x) = linearImage j (slopes x) := by
  have hrow : ∀ r, slope j x r = ∑ c ∈ Finset.range j.cols, j.entry r c * (slopes x).getD c 0 := by
    intro r
    refine Finset.sum_congr rfl fun c _ => congrArg (j.entry r c * ·) ?_
    by_cases hc : c < x.length
    · simp [slopes, hc]
    · simp [slopes, hc]
  unfold linearImage
  rw [slopes, push, List.map_map, hv]
  exact List.map_congr_left fun r _ => hrow r

/-- Jets that are pushed forward lead to the image, shifted by the derivative of the shift. -/
theorem moved_push (hv : v.length = j.rows) :
    moved (push v j x) = shift v (linearImage j (slopes x)) := by
  rw [moved_eq_shift, coordinates_push, slopes_push hv]

/-- For an affine map this is the image of the point that the jets lead to. -/
theorem moved_push_affine (hoffset : offset.length = j.rows) :
    moved (push (shift (linearImage j (coordinates x)) offset) j x) =
      shift (linearImage j (moved x)) offset := by
  rw [moved_push (by simp [hoffset]), moved_eq_shift, linearImage_shift (by simp),
    shift_right_comm]

theorem linearImage_zero (j : DenseMatrix Rat) (n : Nat) :
    linearImage j (List.replicate n 0) = List.replicate j.rows 0 := by
  have hzero : ∀ r, ∀ c ∈ Finset.range j.cols,
      j.entry r c * (List.replicate n (0 : Rat)).getD c 0 = 0 := by
    intro r c _
    by_cases hc : c < n
    · simp [hc]
    · simp [hc]
  refine List.ext_getElem (by simp) fun r _ _ => ?_
  simp only [linearImage, List.getElem_map, List.getElem_range, List.getElem_replicate]
  exact Finset.sum_eq_zero (hzero r)

theorem shift_zero (p : List Rat) : shift p (List.replicate p.length 0) = p := by
  refine List.ext_getElem (by simp) fun i _ _ => ?_
  simp [shift]

end Shifts

namespace Kernel

variable {κ : Type} [Kernel κ Rat]

/-- The kernel applies a matrix and adds an offset, and the derivative it reports is the matrix. -/
structure Computes (k : κ) (j : DenseMatrix Rat) (offset : List Rat) : Prop where
  rows : j.rows = Kernel.targetDimensions k
  cols : j.cols = Kernel.sourceDimensions k
  offsets : offset.length = Kernel.targetDimensions k
  evaluate (p : List Rat) (wanted : Bool) (hp : p.length = Kernel.sourceDimensions k) :
    ∃ jacobian, Kernel.evaluate k p wanted = .ok ⟨shift (linearImage j p) offset, jacobian⟩ ∧
      (wanted = true → jacobian = some j) ∧ ∀ j', jacobian = some j' → j' = j

/-- The kernel is an affine function that reports its own linear part. -/
def IsAffine (k : κ) : Prop :=
  ∃ j offset, Computes k j offset

end Kernel

namespace Transform

open Outcome

section Moving

variable {κ : Type} [Kernel κ Rat] {id : NodeId} {a b t : Transform κ Rat} {x : List Jet}
  {p h offset : List Rat} {j m : DenseMatrix Rat}

/-- There is a derivative, and the jets that it gives lead to the image of the point to which the
given jets lead. -/
def MovesAlong (t : Transform κ Rat) (x : List Jet) : Prop :=
  ∃ y, t.Carries x y ∧ t.apply (moved x) = .ok (moved y)

/-- An affine function moves along. -/
theorem movesAlong_of_affine (hoffset : offset.length = j.rows)
    (hevaluate : t.evaluate (coordinates x) true =
      .ok ⟨shift (linearImage j (coordinates x)) offset, some j⟩)
    (happly : t.apply (moved x) = .ok (shift (linearImage j (moved x)) offset)) :
    t.MovesAlong x := by
  refine ⟨_, ⟨_, j, hevaluate, rfl⟩, ?_⟩
  rw [happly, moved_push_affine hoffset]

/-- The last column of an affine matrix. -/
def offsets (m : DenseMatrix Rat) : List Rat :=
  (List.range (m.rows - 1)).map fun r => m.entry r (m.cols - 1)

theorem length_offsets (m : DenseMatrix Rat) : (offsets m).length = m.rows - 1 := by
  simp [offsets]

/-- A linear transform applies its coefficients and adds the offsets. -/
theorem applyAffine_eq_shift (hlen : p.length = m.cols - 1) :
    applyAffine m p = shift (linearImage (coefficients m) p) (offsets m) := by
  have hrows : (coefficients m).rows = m.rows - 1 := rfl
  refine List.ext_getElem (by simp [length_applyAffine, length_offsets, hrows]) fun r hr _ => ?_
  rw [length_applyAffine] at hr
  have hsum := DoubleDouble.foldl_range_rat
    (fun sum c => sum.addTerm (m.entry r c) (p.getD c 0)) (fun c => m.entry r c * p.getD c 0)
    (fun s c => DoubleDouble.addTerm_exact s _ _) (m.cols - 1) (m.entry r (m.cols - 1))
  have hterms : ∀ c ∈ Finset.range (m.cols - 1),
      (coefficients m).entry r c * p.getD c 0 = m.entry r c * p.getD c 0 := by
    intro c hc
    rw [entry_coefficients hr (Finset.mem_range.mp hc)]
  have hcols : (coefficients m).cols = m.cols - 1 := rfl
  simp only [applyAffine, shift, linearImage, offsets, List.getElem_map, List.getElem_range,
    List.getElem_zipWith]
  rw [affineCoordinate_eq hlen, weightedSum, hsum, hcols, Finset.sum_congr rfl hterms, add_comm]
  rfl

theorem movesAlong_linear (hlen : x.length = m.cols - 1) :
    (linear id m : Transform κ Rat).MovesAlong x := by
  have hpoint : (coordinates x).length = m.cols - 1 := by simpa using hlen
  have hmoved : (moved x).length = m.cols - 1 := by simpa using hlen
  refine movesAlong_of_affine (j := coefficients m) (length_offsets m) ?_ ?_
  · rw [evaluate_linear_eq_ok hpoint, applyAffine_eq_shift hpoint]
    rfl
  · rw [apply_linear hmoved, applyAffine_eq_shift hmoved]

theorem movesAlong_kernel {k : κ} (hk : Kernel.IsAffine k)
    (hlen : x.length = Kernel.sourceDimensions k) : (kernel id k : Transform κ Rat).MovesAlong x := by
  obtain ⟨j, offset, hrows, hcols, hoffset, hcomputes⟩ := hk
  have hchecked : ∀ p wanted, p.length = Kernel.sourceDimensions k → ∃ jacobian,
      (kernel id k : Transform κ Rat).evaluate p wanted =
        .ok ⟨shift (linearImage j p) offset, jacobian⟩ ∧ (wanted = true → jacobian = some j) := by
    intro p wanted hp
    obtain ⟨jacobian, hevaluate, hwanted, hown⟩ := hcomputes p wanted hp
    have hpoint : (shift (linearImage j p) offset).length = Kernel.targetDimensions k := by
      simp [hrows, hoffset]
    have hchecked := evaluateChecked_eq_ok hevaluate hpoint fun j' hj' =>
      hown j' hj' ▸ ⟨hrows, hcols⟩
    exact ⟨jacobian, (evaluate_kernel hp).trans hchecked, hwanted⟩
  obtain ⟨jacobian, hevaluate, hwanted⟩ := hchecked (coordinates x) true (by simpa using hlen)
  obtain ⟨jacobian', happly, -⟩ := hchecked (moved x) false (by simpa using hlen)
  rw [hwanted rfl] at hevaluate
  exact movesAlong_of_affine (hoffset.trans hrows.symm) hevaluate
    (apply_eq_ok_iff.mpr ⟨_, happly, rfl⟩)

/-- The parts of a chain move along one after the other. -/
theorem movesAlong_chain (hfit : a.targetDimensions = b.sourceDimensions) (ha : a.MovesAlong x)
    (hb : ∀ z, z.length = b.sourceDimensions → b.MovesAlong z) : (chain id a b).MovesAlong x := by
  obtain ⟨z, hz, happly⟩ := ha
  obtain ⟨y, hy, happly'⟩ := hb z ((length_carries hz).trans hfit)
  refine ⟨y, (carries_chain_iff hfit).mpr ⟨z, hz, hy⟩, ?_⟩
  rw [apply_chain hfit, happly]
  exact happly'

/-- The copied jets move along with what is moved between them. -/
theorem movesAlong_passThrough {k n : Nat} (hlen : x.length = k + t.sourceDimensions + n)
    (ht : t.MovesAlong ((x.drop k).take t.sourceDimensions)) :
    (passThrough id k t n).MovesAlong x := by
  obtain ⟨z, hz, happly⟩ := ht
  have hmiddle : moved ((x.drop k).take t.sourceDimensions) =
      ((moved x).drop k).take t.sourceDimensions := by
    simp [moved, List.map_take, List.map_drop]
  rw [hmiddle] at happly
  refine ⟨_, carries_passThrough_iff.mpr ⟨hlen, z, hz, rfl⟩, ?_⟩
  rw [apply_passThrough (by simpa using hlen), happly, map_ok]
  simp [moved, List.map_take, List.map_drop]

/-- A tree of affine parts moves along with all jets. -/
theorem movesAlong_of_isAffine (ht : t.Coherent) (hk : ∀ node ∈ t.kernels, Kernel.IsAffine node.2)
    (hlen : x.length = t.sourceDimensions) : t.MovesAlong x := by
  induction t generalizing x with
  | linear id m => exact movesAlong_linear hlen
  | chain id a b iha ihb =>
      obtain ⟨ha, hb, hfit⟩ := ht
      have hka : ∀ node ∈ a.kernels, Kernel.IsAffine node.2 := fun node hnode =>
        hk node (List.mem_append_left _ hnode)
      have hkb : ∀ node ∈ b.kernels, Kernel.IsAffine node.2 := fun node hnode =>
        hk node (List.mem_append_right _ hnode)
      exact movesAlong_chain hfit (iha ha hka hlen) fun z hz => ihb hb hkb hz
  | passThrough id k inner n ih =>
      have hlen : x.length = k + inner.sourceDimensions + n := hlen
      exact movesAlong_passThrough hlen (ih ht hk (by simp; omega))
  | kernel id k => exact movesAlong_kernel (hk (id, k) List.mem_cons_self) hlen

/-- The derivative of a tree of affine parts has a row for every target and a column for every
source, and gives the shift of the image for every shift of the point. -/
theorem derivative_exact (ht : t.Coherent) (hk : ∀ node ∈ t.kernels, Kernel.IsAffine node.2)
    (hp : p.length = t.sourceDimensions) (hh : h.length = t.sourceDimensions) :
    ∃ v j, t.apply p = .ok v ∧ t.derivative p = .ok j ∧ v.length = t.targetDimensions ∧
      j.rows = t.targetDimensions ∧ j.cols = t.sourceDimensions ∧
      t.apply (shift p h) = .ok (shift v (linearImage j h)) := by
  have hmoves : ∀ h, h.length = t.sourceDimensions → ∃ v j,
      t.evaluate p true = .ok ⟨v, some j⟩ ∧
        t.apply (shift p h) = .ok (shift v (linearImage j h)) := by
    intro h hh
    have hlen : p.length = h.length := hp.trans hh.symm
    obtain ⟨y, ⟨v, j, hevaluate, rfl⟩, happly⟩ :=
      movesAlong_of_isAffine (x := p.zip h) ht hk (by simp [hp, hh])
    rw [coordinates_zip hlen] at hevaluate
    obtain ⟨hpoint, hrows, -⟩ := shaped_of_evaluate hevaluate
    rw [moved_push (hpoint.trans (hrows j rfl).symm), moved_eq_shift, coordinates_zip hlen,
      slopes_zip hlen] at happly
    exact ⟨v, j, hevaluate, happly⟩
  obtain ⟨v, j, hevaluate, hshifted⟩ := hmoves h hh
  -- the image of the point itself is that of a shift by nothing
  obtain ⟨v', j', hevaluate', hstill⟩ := hmoves (List.replicate p.length 0) (by simp [hp])
  obtain ⟨rfl, rfl⟩ : v = v' ∧ j = j' := by
    rw [hevaluate] at hevaluate'
    simpa using hevaluate'
  obtain ⟨hpoint, hrows, hcols⟩ := shaped_of_evaluate hevaluate
  rw [linearImage_zero, hrows j rfl, ← hpoint, shift_zero, shift_zero] at hstill
  exact ⟨v, j, hstill, derivative_of_evaluate hevaluate, hpoint, hrows j rfl, hcols j rfl,
    hshifted⟩

end Moving

section Example

/-- Kernels over exact scalars that mix coordinates and shift the result. -/
structure MixingKernel where
  weights : DenseMatrix Rat
  offset : List Rat
  fits : offset.length = weights.rows

instance : Kernel MixingKernel Rat where
  name _ := "mix"
  sourceDimensions k := k.weights.cols
  targetDimensions k := k.weights.rows
  evaluate k point wanted :=
    .ok ⟨shift (linearImage k.weights point) k.offset, if wanted then some k.weights else none⟩
  inverse? _ := none

theorem isAffine_mixingKernel (k : MixingKernel) : Kernel.IsAffine k := by
  refine ⟨k.weights, k.offset, rfl, rfl, k.fits, fun p wanted _ => ⟨_, rfl, ?_, ?_⟩⟩
  · rintro rfl
    rfl
  · intro j hj
    cases wanted with
    | false => cases hj
    | true => exact (Option.some.inj hj).symm

/-- One of three coordinates becomes two, the second of which becomes two in its turn, and all five
are mixed. -/
def mixedTree : Transform MixingKernel Rat :=
  chain none
    (passThrough (some 1) 1
      (chain none (kernel (some 2) ⟨⟨2, 1, #[2, -1], rfl⟩, [1, 1 / 3], rfl⟩)
        (passThrough none 1 (linear (some 3) ⟨3, 2, #[3, 1, 1 / 2, 0, 0, 1], by decide +kernel⟩) 0))
      1)
    (kernel (some 4) ⟨⟨2, 5, #[1, 0, 2, 0, -3, 0, 1 / 5, 0, 4, 1], by decide +kernel⟩, [0, 7], rfl⟩)

/-- A large shift of all three coordinates, which are mapped to two. -/
theorem derivative_mixedTree :
    ∃ v j, mixedTree.apply [1, 2, 3] = .ok v ∧ mixedTree.derivative [1, 2, 3] = .ok j ∧
      v.length = 2 ∧ j.rows = 2 ∧ j.cols = 3 ∧
      mixedTree.apply (shift [1, 2, 3] [1 / 2, -100, 4]) =
        .ok (shift v (linearImage j [1 / 2, -100, 4])) :=
  derivative_exact (by decide +kernel) (fun node _ => isAffine_mixingKernel node.2) rfl rfl

end Example

end Transform
end SeparableTransforms
