import Mathlib.Algebra.BigOperators.Pi
import Mathlib.Algebra.Module.Prod
import SeparableTransforms.Proofs.Transform.ExactFolding

/-!
# Jets through a transform

A jet is a coordinate together with its slope along some direction.  A transform carries
a list of jets over if it has a derivative at their coordinates: these go to the image,
and the slopes are multiplied by the derivative.

In exact arithmetic this goes through a tree as points do.  A linear transform takes
weighted sums of jets, a chain carries them over part after part, by the chain rule, and
a pass-through copies jets around those that it carries over.  Whatever the standard
assembler simplifies, it carries over the same jets.
-/

namespace SeparableTransforms

/-- A coordinate and its slope along some direction. -/
abbrev Jet := Rat × Rat

/-- The constant zero, which has no slope. -/
instance : Zero Jet :=
  ⟨(0, 0)⟩

section Jets

variable {x y : List Jet} {v : List Rat} {j j₁ j₂ : DenseMatrix Rat} {r i : Nat}

/-- The coordinates without their slopes. -/
def coordinates (x : List Jet) : List Rat :=
  x.map Prod.fst

@[simp] theorem length_coordinates : (coordinates x).length = x.length :=
  List.length_map _

theorem getD_coordinates (x : List Jet) (i : Nat) :
    (coordinates x).getD i 0 = (x.getD i 0).1 := by
  by_cases hi : i < x.length
  · simp [coordinates, hi]
  · simp [coordinates, hi]

theorem coordinates_pick (x : List Jet) (S : List Nat) :
    coordinates (pick x S) = pick (coordinates x) S := by
  unfold coordinates pick
  rw [List.map_map]
  exact List.map_congr_left fun d _ => (getD_coordinates x d).symm

/-- Lists of jets are equal if the jets are, one by one. -/
theorem eq_of_getD (hlen : x.length = y.length)
    (h : ∀ i, i < x.length → x.getD i 0 = y.getD i 0) : x = y := by
  refine List.ext_getElem hlen fun i hi hi' => ?_
  simpa [hi, hi'] using h i hi

/-- A row of a derivative applied to the slopes. -/
def slope (j : DenseMatrix Rat) (x : List Jet) (r : Nat) : Rat :=
  ∑ c ∈ Finset.range j.cols, j.entry r c * (x.getD c 0).2

/-- The coordinates of an image with the slopes that the derivative gives them. -/
def push (v : List Rat) (j : DenseMatrix Rat) (x : List Jet) : List Jet :=
  (List.range v.length).map fun r => (v.getD r 0, slope j x r)

@[simp] theorem length_push : (push v j x).length = v.length := by
  simp [push]

theorem getD_push (hr : r < v.length) : (push v j x).getD r 0 = (v.getD r 0, slope j x r) := by
  simp [push, hr]

@[simp] theorem coordinates_push : coordinates (push v j x) = v := by
  have hpick : pick v (List.range v.length) = v := pick_range rfl
  unfold coordinates push
  rwa [List.map_map]

/-- A product of derivatives gives the slopes that the factors give one after the other. -/
theorem slope_product (hfit : j₂.cols = j₁.rows) (hlen : v.length = j₁.rows) (hr : r < j₂.rows) :
    slope (DenseMatrix.product j₂ j₁) x r = slope j₂ (push v j₁ x) r := by
  have hproduct : ∀ c ∈ Finset.range j₁.cols,
      (DenseMatrix.product j₂ j₁).entry r c * (x.getD c 0).2 =
        ∑ k ∈ Finset.range j₂.cols, j₂.entry r k * (j₁.entry k c * (x.getD c 0).2) := by
    intro c hc
    rw [DenseMatrix.entry_product hr (Finset.mem_range.mp hc), DenseMatrix.dot_rat, Finset.sum_mul]
    exact Finset.sum_congr rfl fun k _ => mul_assoc _ _ _
  have hpush : ∀ k ∈ Finset.range j₂.cols, j₂.entry r k * ((push v j₁ x).getD k 0).2 =
      ∑ c ∈ Finset.range j₁.cols, j₂.entry r k * (j₁.entry k c * (x.getD c 0).2) := by
    intro k hk
    have hk : k < v.length := by rw [hlen, ← hfit]; exact Finset.mem_range.mp hk
    rw [getD_push hk, slope, Finset.mul_sum]
  calc slope (DenseMatrix.product j₂ j₁) x r
      = ∑ c ∈ Finset.range j₁.cols, ∑ k ∈ Finset.range j₂.cols,
          j₂.entry r k * (j₁.entry k c * (x.getD c 0).2) := Finset.sum_congr rfl hproduct
    _ = ∑ k ∈ Finset.range j₂.cols, ∑ c ∈ Finset.range j₁.cols,
          j₂.entry r k * (j₁.entry k c * (x.getD c 0).2) := Finset.sum_comm
    _ = slope j₂ (push v j₁ x) r := (Finset.sum_congr rfl hpush).symm

/-- A row with a single one copies a slope. -/
theorem slope_copy {d : Nat} (hd : d < j.cols)
    (hrow : ∀ c, c < j.cols → j.entry r c = if c = d then 1 else 0) :
    slope j x r = (x.getD d 0).2 := by
  have hterms : ∀ c ∈ Finset.range j.cols, j.entry r c * (x.getD c 0).2 =
      if c = d then (x.getD c 0).2 else 0 := by
    intro c hc
    rw [hrow c (Finset.mem_range.mp hc), ite_mul, one_mul, zero_mul]
  rw [slope, Finset.sum_congr rfl hterms, Finset.sum_ite_eq', if_pos (Finset.mem_range.mpr hd)]

end Jets

namespace Transform

open Outcome

section Affine

variable {m : DenseMatrix Rat} {x : List Jet} {r : Nat} {R S picked : List Nat}

/-- A weighted sum of jets, shifted by the offset, which has no slope. -/
def affineJet (m : DenseMatrix Rat) (x : List Jet) (r : Nat) : Jet :=
  (m.entry r (m.cols - 1), 0) + ∑ c ∈ Finset.range (m.cols - 1), m.entry r c • x.getD c 0

/-- The jets to which an affine matrix carries jets over. -/
def affineJets (m : DenseMatrix Rat) (x : List Jet) : List Jet :=
  (List.range (m.rows - 1)).map (affineJet m x)

@[simp] theorem length_affineJets : (affineJets m x).length = m.rows - 1 := by
  simp [affineJets]

theorem getD_affineJets (hr : r < m.rows - 1) : (affineJets m x).getD r 0 = affineJet m x r := by
  simp [affineJets, hr]

theorem fst_affineJet (hlen : x.length = m.cols - 1) :
    (affineJet m x r).1 = affineCoordinate m (coordinates x) r := by
  have hsum := DoubleDouble.foldl_range_rat
    (fun sum c => sum.addTerm (m.entry r c) ((coordinates x).getD c 0))
    (fun c => m.entry r c * (coordinates x).getD c 0) (fun s c => DoubleDouble.addTerm_exact s _ _)
    (m.cols - 1) (m.entry r (m.cols - 1))
  rw [affineCoordinate_eq (by simpa using hlen), weightedSum, hsum]
  simp only [affineJet, DoubleDouble.ofScalar, Prod.fst_add, Prod.fst_sum, Prod.smul_fst,
    smul_eq_mul, getD_coordinates]

theorem snd_affineJet (hr : r < m.rows - 1) : (affineJet m x r).2 = slope (coefficients m) x r := by
  have hterms : ∀ c ∈ Finset.range (m.cols - 1),
      (coefficients m).entry r c * (x.getD c 0).2 = m.entry r c * (x.getD c 0).2 := by
    intro c hc
    rw [entry_coefficients hr (Finset.mem_range.mp hc)]
  rw [slope, show (coefficients m).cols = m.cols - 1 from rfl, Finset.sum_congr rfl hterms]
  simp [affineJet, Prod.snd_sum]

/-- An affine matrix moves the coordinates, and its coefficients are the derivative. -/
theorem push_applyAffine (hlen : x.length = m.cols - 1) :
    push (applyAffine m (coordinates x)) (coefficients m) x = affineJets m x := by
  unfold push affineJets
  rw [length_applyAffine]
  refine List.map_congr_left fun r hr => ?_
  have hr := List.mem_range.mp hr
  rw [getD_applyAffine hr, ← fst_affineJet hlen, ← snd_affineJet hr]

/-- Keeping rows picks jets of the image. -/
theorem affineJets_keepRows (hm : 0 < m.cols) (hR : ∀ r ∈ R, r < m.rows - 1) :
    affineJets (m.keepRows R) x = pick (affineJets m x) R := by
  refine eq_of_getD (by simp) fun i hi => ?_
  rw [length_affineJets, DenseMatrix.rows_keepRows, Nat.add_sub_cancel] at hi
  have hterms : ∀ c ∈ Finset.range (m.cols - 1),
      (m.keepRows R).entry i c • x.getD c 0 = m.entry R[i] c • x.getD c 0 := by
    intro c hc
    have hc := Finset.mem_range.mp hc
    rw [DenseMatrix.entry_keepRows hi (by omega)]
  have hplace : R.getD i 0 = R[i] := by simp [hi]
  rw [getD_pick hi, hplace, getD_affineJets (hR _ (List.getElem_mem hi)),
    getD_affineJets (by simpa using hi), affineJet, affineJet, DenseMatrix.cols_keepRows,
    DenseMatrix.entry_keepRows hi (by omega), Finset.sum_congr rfl hterms]

/-- A sum over some dimensions, counted by their positions in the list. -/
theorem sum_range_getD {f : Nat → Jet} {n : Nat} (hS : Increasing S n)
    (hzero : ∀ c, c < n → c ∉ S → f c = 0) :
    ∑ i ∈ Finset.range S.length, f (S.getD i 0) = ∑ c ∈ Finset.range n, f c := by
  have hmem : ∀ i ∈ Finset.range S.length, S.getD i 0 ∈ Finset.range n := by
    intro i hi
    have hi := Finset.mem_range.mp hi
    exact Finset.mem_range.mpr (hS.bounded _ (by simp [hi]))
  have hsub : S.toFinset ⊆ Finset.range n := fun c hc =>
    Finset.mem_range.mpr (hS.bounded c (List.mem_toFinset.mp hc))
  have hnodup : S.Nodup := hS.sorted.imp Nat.ne_of_lt
  have houtside : ∀ c ∈ Finset.range n, c ∉ S.toFinset → f c = 0 := fun c hc hout =>
    hzero c (Finset.mem_range.mp hc) fun hc => hout (List.mem_toFinset.mpr hc)
  calc ∑ i ∈ Finset.range S.length, f (S.getD i 0)
      = ∑ i : Fin S.length, f S[i] := by
        rw [Finset.sum_range]
        exact Finset.sum_congr rfl fun i _ => by simp
    _ = (S.map f).sum := Fin.sum_univ_fun_getElem S f
    _ = ∑ c ∈ S.toFinset, f c := (List.sum_toFinset f hnodup).symm
    _ = ∑ c ∈ Finset.range n, f c := Finset.sum_subset hsub houtside

/-- Columns of zeros may be dropped together with their jets. -/
theorem affineJets_keepColumns (hS : Increasing S (m.cols - 1))
    (hzero : ∀ r, r < m.rows - 1 → ∀ c, c < m.cols - 1 → c ∉ S → (m.entry r c == 0) = true) :
    affineJets (m.keepColumns S) (pick x S) = affineJets m x := by
  unfold affineJets
  rw [DenseMatrix.rows_keepColumns]
  refine List.map_congr_left fun r hr => ?_
  have hr := List.mem_range.mp hr
  have hkept : ∀ i ∈ Finset.range S.length, (m.keepColumns S).entry r i • (pick x S).getD i 0 =
      m.entry r (S.getD i 0) • x.getD (S.getD i 0) 0 := by
    intro i hi
    have hi := Finset.mem_range.mp hi
    rw [getD_pick hi, DenseMatrix.entry_keepColumns (by omega) hi]
    simp [hi]
  have hdropped : ∀ c, c < m.cols - 1 → c ∉ S → m.entry r c • x.getD c 0 = 0 := by
    intro c hc hout
    have hentry : m.entry r c = 0 := by simpa using hzero r hr c hc hout
    rw [hentry, zero_smul]
  rw [affineJet, affineJet, DenseMatrix.cols_keepColumns, Nat.add_sub_cancel,
    DenseMatrix.entry_keepColumns_last (by omega), Finset.sum_congr rfl hkept,
    sum_range_getD (f := fun c => m.entry r c • x.getD c 0) hS hdropped]

/-- A row with a single coefficient of one copies a jet. -/
theorem affineJet_copy {d : Nat} (hd : d < m.cols - 1)
    (hrow : ∀ c, c < m.cols → m.entry r c = if c = d then 1 else 0) :
    affineJet m x r = x.getD d 0 := by
  have hterms : ∀ c ∈ Finset.range (m.cols - 1), m.entry r c • x.getD c 0 =
      if c = d then x.getD c 0 else 0 := by
    intro c hc
    have hc := Finset.mem_range.mp hc
    rw [hrow c (by omega), ite_smul, one_smul, zero_smul]
  rw [affineJet, hrow _ (by omega), if_neg (by omega), Finset.sum_congr rfl hterms,
    Finset.sum_ite_eq', if_pos (Finset.mem_range.mpr hd)]
  exact zero_add _

/-- A selection matrix picks jets. -/
theorem affineJets_selectionMatrix {n : Nat} (h : ∀ d ∈ picked, d < n) :
    affineJets (selectionMatrix picked n) x = pick x picked := by
  have hrows : (selectionMatrix picked n : DenseMatrix Rat).rows = picked.length + 1 := rfl
  have hcols : (selectionMatrix picked n : DenseMatrix Rat).cols = n + 1 := rfl
  refine eq_of_getD (by simp [hrows]) fun i hi => ?_
  rw [length_affineJets, hrows, Nat.add_sub_cancel] at hi
  have hplace : ∀ d, picked.getD i d = picked[i] := fun d => by simp [hi]
  rw [getD_affineJets (by omega), getD_pick hi, hplace]
  refine affineJet_copy (by have := h _ (List.getElem_mem hi); omega) fun c hc => ?_
  rw [selectionMatrix, DenseMatrix.entry_ofFn _ (by omega) (by omega), hplace]

/-- An identity copies the jets. -/
theorem affineJets_identity {n : Nat} (hx : x.length = n) :
    affineJets (DenseMatrix.identity (n + 1)) x = x := by
  have hrows : (DenseMatrix.identity (n + 1) : DenseMatrix Rat).rows = n + 1 := rfl
  have hcols : (DenseMatrix.identity (n + 1) : DenseMatrix Rat).cols = n + 1 := rfl
  refine eq_of_getD (by simp [hrows, hx]) fun i hi => ?_
  rw [length_affineJets, hrows, Nat.add_sub_cancel] at hi
  rw [getD_affineJets (by omega)]
  refine affineJet_copy (by omega) fun c hc => ?_
  rw [DenseMatrix.identity, DenseMatrix.diagonal,
    DenseMatrix.entry_ofFn _ (Nat.lt_succ_of_lt hi) (by omega)]
  simp only [eq_comm]

end Affine

section Carrying

variable {κ : Type} [Kernel κ Rat] {id : NodeId} {a b t t' : Transform κ Rat} {x y : List Jet}
  {p v : List Rat} {j : DenseMatrix Rat}

/-- A transform with a derivative at the coordinates carries jets over: the coordinates are mapped,
and the slopes are multiplied by the derivative. -/
def Carries (t : Transform κ Rat) (x y : List Jet) : Prop :=
  ∃ v j, t.evaluate (coordinates x) true = .ok ⟨v, some j⟩ ∧ y = push v j x

theorem length_of_carries (h : t.Carries x y) : x.length = t.sourceDimensions := by
  obtain ⟨v, j, he, -⟩ := h
  simpa using length_of_evaluate he

theorem length_carries (h : t.Carries x y) : y.length = t.targetDimensions := by
  obtain ⟨v, j, he, rfl⟩ := h
  rw [length_push]
  exact (shaped_of_evaluate he).point

/-- Transforms with the same outcomes carry over the same jets. -/
theorem carries_congr (h : ∀ p, t.evaluate p true = t'.evaluate p true) :
    t.Carries x y ↔ t'.Carries x y := by
  unfold Carries
  rw [h]

theorem carries_linear_iff {m : DenseMatrix Rat} :
    (linear id m : Transform κ Rat).Carries x y ↔ x.length = m.cols - 1 ∧ y = affineJets m x := by
  constructor
  · intro h
    have hlen : x.length = m.cols - 1 := length_of_carries h
    obtain ⟨v, j, he, rfl⟩ := h
    rw [evaluate_linear_eq_ok (by simpa using hlen)] at he
    cases he
    exact ⟨hlen, push_applyAffine hlen⟩
  · rintro ⟨hlen, rfl⟩
    exact ⟨_, _, evaluate_linear_eq_ok (by simpa using hlen), (push_applyAffine hlen).symm⟩

/-- The product of the derivatives of two parts moves jets as one part after the other does. -/
theorem push_after {w : List Rat} {j₁ j₂ : DenseMatrix Rat}
    (hfit : a.targetDimensions = b.sourceDimensions)
    (ha : a.evaluate (coordinates x) true = .ok ⟨w, some j₁⟩)
    (hb : b.evaluate w true = .ok ⟨v, some j₂⟩) :
    push v (DenseMatrix.product j₂ j₁) x = push v j₂ (push w j₁ x) := by
  obtain ⟨hpoint, hrows, -⟩ := shaped_of_evaluate ha
  obtain ⟨hpoint', hrows', hcols'⟩ := shaped_of_evaluate hb
  have hmiddle : j₂.cols = j₁.rows := by rw [hcols' j₂ rfl, hrows j₁ rfl, hfit]
  refine List.map_congr_left fun r hr => ?_
  have hr : r < j₂.rows := by rw [hrows' j₂ rfl, ← hpoint']; exact List.mem_range.mp hr
  rw [slope_product hmiddle (hpoint.trans (hrows j₁ rfl).symm) hr]

/-- The chain rule. -/
theorem carries_chain_iff (hfit : a.targetDimensions = b.sourceDimensions) :
    (chain id a b).Carries x y ↔ ∃ z, a.Carries x z ∧ b.Carries z y := by
  constructor
  · rintro ⟨v, j, he, rfl⟩
    rw [evaluate_chain_of_fit hfit] at he
    obtain ⟨⟨w, first⟩, ha, he⟩ := bind_eq_ok_iff.mp he
    obtain ⟨⟨v', second⟩, hb, he⟩ := bind_eq_ok_iff.mp he
    obtain ⟨rfl, hj⟩ := Evaluation.mk.inj (Except.ok.inj he)
    obtain ⟨j₂, j₁, rfl, rfl, rfl⟩ := Option.map₂_eq_some_iff.mp hj
    refine ⟨push w j₁ x, ⟨w, j₁, ha, rfl⟩, v', j₂, ?_, push_after hfit ha hb⟩
    rwa [coordinates_push]
  · rintro ⟨z, ⟨w, j₁, ha, rfl⟩, v, j₂, hb, rfl⟩
    rw [coordinates_push] at hb
    refine ⟨v, DenseMatrix.product j₂ j₁, ?_, (push_after hfit ha hb).symm⟩
    rw [evaluate_chain_of_fit hfit, ha, ok_bind, hb]
    rfl

/-- The derivative of a wrapper leaves the slopes of the copied coordinates as they are. -/
theorem slope_surround {k c n r : Nat} (hr : r < k + c + n) :
    slope (surround k j n c j.cols) x r =
      if r < k then (x.getD r 0).2
      else if r < k + c then slope j ((x.drop k).take j.cols) (r - k)
      else (x.getD (r - c + j.cols) 0).2 := by
  split
  · refine slope_copy (by rw [cols_surround]; omega) fun i hi => ?_
    rw [entry_surround hr hi, if_pos ‹_›]
  · split
    · have hcopied : ∀ d, d < k + j.cols + n → d < k ∨ k + j.cols ≤ d →
          (surround k j n c j.cols).entry r d * (x.getD d 0).2 = 0 := by
        intro d hd hout
        rw [entry_surround hr hd, if_neg ‹_›, if_pos ‹_›, if_neg (by omega), zero_mul]
      have hleading : ∀ i ∈ Finset.range k,
          (surround k j n c j.cols).entry r i * (x.getD i 0).2 = 0 := by
        intro i hi
        have hi := Finset.mem_range.mp hi
        exact hcopied i (by omega) (by omega)
      have htrailing : ∀ i ∈ Finset.range n, (surround k j n c j.cols).entry r (k + j.cols + i) *
          (x.getD (k + j.cols + i) 0).2 = 0 := by
        intro i hi
        have hi := Finset.mem_range.mp hi
        exact hcopied _ (by omega) (by omega)
      have hinner : ∀ i ∈ Finset.range j.cols,
          (surround k j n c j.cols).entry r (k + i) * (x.getD (k + i) 0).2 =
            j.entry (r - k) i * (((x.drop k).take j.cols).getD i 0).2 := by
        intro i hi
        have hi := Finset.mem_range.mp hi
        rw [entry_surround hr (by omega), if_neg ‹_›, if_pos ‹_›, if_pos (by omega),
          Nat.add_sub_cancel_left]
        simp [hi]
      rw [slope, cols_surround, Finset.sum_range_add, Finset.sum_range_add,
        Finset.sum_eq_zero hleading, Finset.sum_eq_zero htrailing, Finset.sum_congr rfl hinner,
        zero_add, add_zero]
      rfl
    · refine slope_copy (by rw [cols_surround]; omega) fun i hi => ?_
      rw [entry_surround hr hi, if_neg ‹_›, if_neg ‹_›]
      congr 1
      exact propext (by omega)

theorem push_surround {k c n : Nat} (hx : x.length = k + j.cols + n) (hv : v.length = c) :
    push ((coordinates x).take k ++ v ++ (coordinates x).drop (k + j.cols))
        (surround k j n c j.cols) x =
      x.take k ++ push v j ((x.drop k).take j.cols) ++ x.drop (k + j.cols) := by
  have hlen : (push v j ((x.drop k).take j.cols)).length = c := by simpa using hv
  refine eq_of_getD (by simp [hv]) fun r hr => ?_
  have hr' : r < k + c + n := by
    simp only [length_push, List.length_append, List.length_take, length_coordinates,
      List.length_drop] at hr
    omega
  rw [length_push] at hr
  rw [getD_push hr, getD_around (by simp; omega), getD_around (by omega), hlen, hv,
    slope_surround hr', getD_coordinates, getD_coordinates]
  split
  · rfl
  · split
    · rw [getD_push (by omega)]
    · rfl

theorem carries_passThrough_iff {k n : Nat} :
    (passThrough id k t n).Carries x y ↔
      x.length = k + t.sourceDimensions + n ∧
        ∃ z, t.Carries ((x.drop k).take t.sourceDimensions) z ∧
          y = x.take k ++ z ++ x.drop (k + t.sourceDimensions) := by
  have hmiddle : coordinates ((x.drop k).take t.sourceDimensions) =
      ((coordinates x).drop k).take t.sourceDimensions := by
    simp [coordinates, List.map_take, List.map_drop]
  have hpush : ∀ {w : List Rat} {j : DenseMatrix Rat}, x.length = k + t.sourceDimensions + n →
      Shaped t ⟨w, some j⟩ →
      push ((coordinates x).take k ++ w ++ (coordinates x).drop (k + t.sourceDimensions))
          (surround k j n t.targetDimensions t.sourceDimensions) x =
        x.take k ++ push w j ((x.drop k).take t.sourceDimensions) ++
          x.drop (k + t.sourceDimensions) := by
    intro w j hlen hshape
    rw [← hshape.cols j rfl] at hlen ⊢
    exact push_surround hlen hshape.point
  constructor
  · intro h
    have hlen : x.length = k + t.sourceDimensions + n := length_of_carries h
    obtain ⟨v, j, he, rfl⟩ := h
    rw [evaluate_passThrough (by simpa using hlen)] at he
    obtain ⟨⟨w, jacobian⟩, hw, he⟩ := bind_eq_ok_iff.mp he
    obtain ⟨rfl, hj⟩ := Evaluation.mk.inj (Except.ok.inj he)
    obtain ⟨j', rfl, rfl⟩ := Option.map_eq_some_iff.mp hj
    have hshape := shaped_of_evaluate hw
    exact ⟨hlen, push w j' ((x.drop k).take t.sourceDimensions), ⟨w, j', hmiddle ▸ hw, rfl⟩,
      hpush hlen hshape⟩
  · rintro ⟨hlen, z, ⟨w, j', hw, rfl⟩, rfl⟩
    have hshape := shaped_of_evaluate hw
    rw [hmiddle] at hw
    refine ⟨_, surround k j' n t.targetDimensions t.sourceDimensions, ?_,
      (hpush hlen hshape).symm⟩
    rw [evaluate_passThrough (by simpa using hlen), hw]
    rfl

end Carrying

section Steps

variable {κ : Type} [Kernel κ Rat] {s t : Transform κ Rat} {steps rest : List (Transform κ Rat)}
  {x y : List Jet}

/-- The steps carry jets over, one after the other. -/
def CarriesAll : List (Transform κ Rat) → List Jet → List Jet → Prop
  | [], x, y => y = x
  | s :: rest, x, y => ∃ z, s.Carries x z ∧ CarriesAll rest z y

theorem carriesAll_append :
    CarriesAll (steps ++ rest) x y ↔ ∃ z, CarriesAll steps x z ∧ CarriesAll rest z y := by
  induction steps generalizing x with
  | nil => simp [CarriesAll]
  | cons s steps ih =>
      simp only [List.cons_append, CarriesAll, ih]
      constructor
      · rintro ⟨u, hu, z, hz, hy⟩
        exact ⟨z, ⟨u, hu, hz⟩, hy⟩
      · rintro ⟨z, ⟨u, hu, hz⟩, hy⟩
        exact ⟨u, hu, z, hz, hy⟩

theorem carriesAll_singleton : CarriesAll [s] x y ↔ s.Carries x y := by
  simp [CarriesAll]

/-- A transform carries jets over through its steps. -/
theorem carries_iff_carriesAll (ht : t.WellFormed) : t.Carries x y ↔ CarriesAll t.steps x y := by
  induction t generalizing x y with
  | chain id a b iha ihb =>
      obtain ⟨ha, hb, hfit⟩ := ht
      rw [carries_chain_iff hfit, Transform.steps, carriesAll_append]
      simp only [iha ha, ihb hb]
  | _ => exact carriesAll_singleton.symm

end Steps

section Assembling

variable {κ : Type} [Kernel κ Rat] {options : AssemblyOptions} {P : κ → Prop} {n m l k : Nat}
  {id : NodeId} {a b t t' : Transform κ Rat} {parts : List (Transform κ Rat)} {x y : List Jet}

/-- A concatenation, whatever it simplifies, has the outcomes of a chain. -/
theorem evaluate_concatenateWith (ha : a.Coherent) (hb : b.Coherent)
    (hfit : a.targetDimensions = b.sourceDimensions) (ht : concatenateWith options a b = .ok t)
    (p : List Rat) : t.evaluate p true = (chain none a b).evaluate p true := by
  have hchain : (chain none a b : Transform κ Rat).Coherent := ⟨ha, hb, hfit⟩
  obtain ⟨folded, hfold, hfolded, hadvance⟩ := foldSteps_advances options hchain.sequenced
  obtain ⟨t', ht', hcoherent, hsource, hmade⟩ :=
    concatenateWith_coherent ha hb hfit hfold hfolded (foldSteps_ne_nil (steps_ne_nil _) hfold)
  obtain rfl : t' = t := Except.ok.inj (ht'.symm.trans ht)
  by_cases hlen : p.length = a.sourceDimensions
  · have hstart : Reached true a.sourceDimensions (start true a.sourceDimensions p) :=
      reached_start hlen
    have hstarted : advance true (start true a.sourceDimensions p) t' = t'.evaluate p true := by
      rw [← hsource, advance_start, observe_true]
    rw [← hstarted, advance_of_madeOf hcoherent hsource hmade hfolded hstart,
      hadvance true _ hstart, ← observe_true ((chain none a b).evaluate p true), ← advance_start]
    exact (advance_eq_foldlM hchain _).symm
  · rw [evaluate_of_length_ne (hsource ▸ hlen),
      evaluate_of_length_ne (t := chain none a b) hlen, hsource]
    rfl

theorem carries_concatenateWith_iff (ha : Fits P n a l) (hb : Fits P l b m)
    (ht : concatenateWith options a b = .ok t) :
    t.Carries x y ↔ ∃ z, a.Carries x z ∧ b.Carries z y := by
  have hfit : a.targetDimensions = b.sourceDimensions := ha.target.trans hb.source.symm
  rw [carries_congr (evaluate_concatenateWith ha.admissible.wellFormed.coherent
    hb.admissible.wellFormed.coherent hfit ht), carries_chain_iff hfit]

/-- A composition carries jets over as its parts do. -/
theorem carries_compose_iff (hlinked : Linked P n parts m)
    (ht : (Assembler.standard options).compose parts = .ok t) :
    t.Carries x y ↔ CarriesAll parts x y := by
  cases parts with
  | nil => cases ht
  | cons first rest =>
      obtain ⟨l, hfirst, hrest⟩ := hlinked
      induction rest generalizing first l with
      | nil =>
          cases ht
          exact carriesAll_singleton.symm
      | cons next rest ih =>
          obtain ⟨l', hnext, hrest⟩ := hrest
          obtain ⟨joined, hjoined, hfits, _⟩ := concatenateWith_eq_ok options hfirst hnext
          have ht : (Assembler.standard options).compose (joined :: rest) = .ok t := by
            have ht : (next :: rest).foldlM (concatenateWith options) first = .ok t := ht
            rwa [List.foldlM_cons, hjoined] at ht
          rw [ih joined ht l' hfits hrest]
          simp only [CarriesAll, carries_concatenateWith_iff hfirst hnext hjoined]
          constructor
          · rintro ⟨z, ⟨u, hu, hz⟩, hy⟩
            exact ⟨u, hu, z, hz, hy⟩
          · rintro ⟨u, hu, z, hz, hy⟩
            exact ⟨z, ⟨u, hu, hz⟩, hy⟩

theorem eq_of_sameOutcome_rat {e e' : Except TransformError (Evaluation Rat)}
    (h : SameOutcome e e') : e = e' := by
  cases h with
  | error e => rfl
  | @ok e e' h =>
      obtain ⟨v, jacobian⟩ := e
      obtain ⟨v', jacobian'⟩ := e'
      obtain ⟨hpoint, hjacobian⟩ := h
      have hpoint : v = v' := eq_of_samePoint_rat hpoint
      have hjacobian : jacobian = jacobian' := by
        cases hjacobian with
        | none => rfl
        | some hj => exact congrArg some (DenseMatrix.eq_of_beq_rat hj)
      rw [hpoint, hjacobian]

/-- A wrapper in its simplest form carries jets over as the wrapper does. -/
theorem carries_passThroughSimplified_iff (ht' : passThroughSimplified k t n = .ok t') :
    t'.Carries x y ↔
      x.length = k + t.sourceDimensions + n ∧
        ∃ z, t.Carries ((x.drop k).take t.sourceDimensions) z ∧
          y = x.take k ++ z ++ x.drop (k + t.sourceDimensions) := by
  obtain ⟨t'', ht'', hcollapsed⟩ := passThroughSimplified_collapsed none k t n
  obtain rfl : t'' = t' := Except.ok.inj (ht''.symm.trans ht')
  rw [carries_congr fun p => eq_of_sameOutcome_rat (hcollapsed.outcome p true),
    carries_passThrough_iff]

end Assembling

end Transform
end SeparableTransforms
