import Mathlib.Data.List.Forall2
import Mathlib.Data.List.GetD
import SeparableTransforms.Proofs.DenseMatrix.Agreement
import SeparableTransforms.Transform.Evaluation

/-!
# Points under affine matrices

Two points are the same if their coordinates are, one by one.  Affine matrices that are
stored as equal map the same points to the same points, and what is done to the rows and
columns of a matrix is done to the image and to the point:

* keeping rows picks coordinates of the image;
* dropping columns of zeros leaves out coordinates that were never added;
* a row with a single coefficient of one copies a coordinate.
-/

namespace SeparableTransforms

universe u

section SamePoint

variable {α : Type u} [Scalar α]

/-- Points with the same coordinates. -/
def SamePoint (p q : List α) : Prop :=
  List.Forall₂ Same p q

variable {p q r p' q' : List α}

theorem SamePoint.length_eq (h : SamePoint p q) : p.length = q.length :=
  List.Forall₂.length_eq h

theorem SamePoint.append (h : SamePoint p q) (h' : SamePoint p' q') :
    SamePoint (p ++ p') (q ++ q') :=
  List.rel_append h h'

theorem SamePoint.take (h : SamePoint p q) (n : Nat) : SamePoint (p.take n) (q.take n) :=
  List.forall₂_take n h

theorem SamePoint.drop (h : SamePoint p q) (n : Nat) : SamePoint (p.drop n) (q.drop n) :=
  List.forall₂_drop n h

theorem samePoint_of_getD (hlen : p.length = q.length)
    (h : ∀ i, i < p.length → Same (p.getD i 0) (q.getD i 0)) : SamePoint p q := by
  refine List.forall₂_of_length_eq_of_get hlen fun i hi hi' => ?_
  simpa [hi, hi'] using h i hi

variable [LawfulScalar α]

theorem SamePoint.refl (p : List α) : SamePoint p p :=
  List.forall₂_same.mpr fun x _ => Same.refl x

theorem SamePoint.symm (h : SamePoint p q) : SamePoint q p :=
  List.Forall₂.flip (h.imp fun _ _ => Same.symm)

theorem SamePoint.trans (h : SamePoint p q) (h' : SamePoint q r) : SamePoint p r := by
  induction h generalizing r with
  | nil => exact h'
  | cons hx _ ih =>
      cases h' with
      | cons hy hr => exact .cons (hx.trans hy) (ih hr)

theorem SamePoint.getD (h : SamePoint p q) (i : Nat) : Same (p.getD i 0) (q.getD i 0) := by
  by_cases hi : i < p.length
  · have hi' : i < q.length := h.length_eq ▸ hi
    simpa [hi, hi'] using List.Forall₂.get h hi hi'
  · have hi' : ¬i < q.length := h.length_eq ▸ hi
    simp [hi, hi']

theorem SamePoint.pick (h : SamePoint p q) (dims : List Nat) :
    SamePoint (pick p dims) (SeparableTransforms.pick q dims) := by
  refine samePoint_of_getD (by simp) fun i hi => ?_
  rw [length_pick] at hi
  rw [getD_pick hi, getD_pick hi]
  exact h.getD _

end SamePoint

namespace Transform

section Sums

variable {α : Type} [Scalar α] {m : DenseMatrix α} {p : List α} {r : Nat}

/-- A start value and the weighted coordinates at the given dimensions, added from left to right. -/
def weightedSum (start : DoubleDouble α) (coefficient : Nat → α) (point : List α)
    (dims : List Nat) : DoubleDouble α :=
  dims.foldl (fun sum c => sum.addTerm (coefficient c) (point.getD c 0)) start

theorem zipIdx_eq_map (p : List α) :
    p.zipIdx = (List.range p.length).map fun c => (p.getD c 0, c) := by
  apply List.ext_getElem (by simp)
  intro i hi hi'
  simp at hi
  simp [hi]

/-- A coordinate of the image is a weighted sum over all dimensions. -/
theorem affineCoordinate_eq (h : p.length = m.cols - 1) :
    affineCoordinate m p r =
      (weightedSum (.ofScalar (m.entry r (m.cols - 1))) (m.entry r) p
        (List.range (m.cols - 1))).value := by
  unfold affineCoordinate weightedSum
  dsimp only
  rw [List.take_of_length_le (Nat.le_of_eq h), zipIdx_eq_map, List.foldl_map, h]

theorem getD_applyAffine (h : r < m.rows - 1) :
    (applyAffine m p).getD r 0 = affineCoordinate m p r := by
  simp [applyAffine, h]

end Sums

section Congruence

variable {α : Type} [Scalar α] [LawfulScalar α] {m m' : DenseMatrix α} {p q : List α}

/-- Matrices that are stored as equal map the same points to the same points. -/
theorem applyAffine_congr (hm : (m == m') = true) (h : SamePoint p q)
    (hp : p.length = m.cols - 1) : SamePoint (applyAffine m p) (applyAffine m' q) := by
  have hrows := DenseMatrix.rows_congr hm
  have hcols := DenseMatrix.cols_congr hm
  refine samePoint_of_getD (by simp [length_applyAffine, hrows]) fun r hr => ?_
  rw [length_applyAffine] at hr
  rw [getD_applyAffine hr, getD_applyAffine (hrows ▸ hr), affineCoordinate_eq hp,
    affineCoordinate_eq (hcols ▸ h.length_eq ▸ hp), ← hcols]
  have hoffset := DenseMatrix.entry_congr hm r (m.cols - 1)
  refine (List.foldl_rel (DoubleDouble.alike_ofScalar hoffset) fun c _ s t hst => ?_).value
  exact DoubleDouble.alike_addTerm hst (DenseMatrix.entry_congr hm r c) (h.getD c)

theorem samePoint_applyAffine (h : SamePoint p q) (hp : p.length = m.cols - 1) :
    SamePoint (applyAffine m p) (applyAffine m q) :=
  applyAffine_congr (DenseMatrix.beq_refl m) h hp

end Congruence

section Keeping

variable {α : Type} [Scalar α] {m : DenseMatrix α} {p : List α} {R S : List Nat}

theorem affineCoordinate_keepRows (hm : 0 < m.cols) (hp : p.length = m.cols - 1) {r : Nat}
    (hr : r < R.length) :
    affineCoordinate (m.keepRows R) p r = affineCoordinate m p R[r] := by
  rw [affineCoordinate_eq (m := m.keepRows R) hp, affineCoordinate_eq hp]
  unfold weightedSum
  rw [DenseMatrix.cols_keepRows, DenseMatrix.entry_keepRows hr (by omega)]
  congr 1
  refine List.foldl_ext _ _ _ fun s c hc => ?_
  rw [List.mem_range] at hc
  rw [DenseMatrix.entry_keepRows hr (by omega)]

/-- Keeping rows picks coordinates of the image. -/
theorem applyAffine_keepRows (hm : 0 < m.cols) (hp : p.length = m.cols - 1)
    (hR : ∀ r ∈ R, r < m.rows - 1) :
    applyAffine (m.keepRows R) p = pick (applyAffine m p) R := by
  apply List.ext_getElem (by simp [length_applyAffine])
  intro i hi hi'
  simp only [length_applyAffine, DenseMatrix.rows_keepRows, Nat.add_sub_cancel] at hi
  have hbound := hR _ (List.getElem_mem hi)
  simp [applyAffine, pick, hbound, affineCoordinate_keepRows hm hp hi]

/-- Columns of zeros may be dropped together with their coordinates. -/
theorem applyAffine_keepColumns (hp : p.length = m.cols - 1)
    (hS : Increasing S (m.cols - 1))
    (hzero : ∀ r, r < m.rows - 1 → ∀ c, c < m.cols - 1 → c ∉ S → (m.entry r c == 0) = true) :
    applyAffine (m.keepColumns S) (pick p S) = applyAffine m p := by
  unfold applyAffine
  rw [DenseMatrix.rows_keepColumns]
  refine List.map_congr_left fun r hr => ?_
  rw [List.mem_range] at hr
  have hr' : r < m.rows := by omega
  rw [affineCoordinate_eq (by simp), affineCoordinate_eq hp]
  unfold weightedSum
  rw [DenseMatrix.cols_keepColumns, Nat.add_sub_cancel, DenseMatrix.entry_keepColumns_last hr']
  congr 1
  have hskip : ∀ c ∈ List.range (m.cols - 1), S.contains c = false →
      ∀ s : DoubleDouble α, s.addTerm (m.entry r c) (p.getD c 0) = s := by
    intro c hc hout s
    have hz := hzero r hr c (List.mem_range.mp hc) (by simpa using hout)
    simp [DoubleDouble.addTerm, hz]
  rw [← DenseMatrix.foldl_filter_eq hskip, hS.filter_range, ← DenseMatrix.foldl_range_getD _ S]
  refine List.foldl_ext _ _ _ fun s c hc => ?_
  have hc : c < S.length := List.mem_range.mp hc
  rw [getD_pick hc, DenseMatrix.entry_keepColumns hr' hc]
  simp [hc]

end Keeping

section Copying

variable {α : Type} [Scalar α] [LawfulScalar α] {m : DenseMatrix α} {p : List α}

/-- A row with a single coefficient of one copies a coordinate. -/
theorem affineCoordinate_copy {r d : Nat} (hp : p.length = m.cols - 1) (hd : d < m.cols - 1)
    (hrow : ∀ c, c < m.cols - 1 → Same (m.entry r c) (if c = d then 1 else 0))
    (hoffset : Same (m.entry r (m.cols - 1)) 0) :
    Same (affineCoordinate m p r) (p.getD d 0) := by
  rw [affineCoordinate_eq hp]
  unfold weightedSum
  have hskip : ∀ c, c < m.cols - 1 → c ≠ d → ∀ s : DoubleDouble α,
      s.addTerm (m.entry r c) (p.getD c 0) = s := by
    intro c hc hne s
    have hzero := hrow c hc
    rw [if_neg hne] at hzero
    simp [DoubleDouble.addTerm, hzero.beq_zero]
  have hone := hrow d hd
  rw [if_pos rfl] at hone
  rw [DenseMatrix.foldl_range_eq_single hd hskip]
  rw [DoubleDouble.addTerm, hone.isZero_eq, one_beq_zero, if_neg Bool.false_ne_true]
  exact (DoubleDouble.alike_copy (DoubleDouble.alike_ofScalar hoffset) hone).value

/-- A matrix that is recognised as an identity copies the point. -/
theorem samePoint_of_isIdentity (h : m.isIdentity = true) (hp : p.length = m.cols - 1) :
    SamePoint (applyAffine m p) p := by
  have hsquare := DenseMatrix.rows_of_isIdentity h
  refine samePoint_of_getD (by rw [length_applyAffine, hp, hsquare]) fun r hr => ?_
  rw [length_applyAffine] at hr
  rw [getD_applyAffine hr]
  refine affineCoordinate_copy hp (by omega) (fun c hc => ?_) ?_
  · simpa only [eq_comm] using DenseMatrix.same_of_isIdentity h (r := r) (c := c) (by omega)
      (by omega)
  · have hoffset := DenseMatrix.same_of_isIdentity h (r := r) (c := m.cols - 1)
      (by omega) (by omega)
    rwa [if_neg (by omega)] at hoffset

theorem isIdentity_identity (n : Nat) :
    (DenseMatrix.identity n : DenseMatrix α).isIdentity = true := by
  simp only [DenseMatrix.isIdentity, Bool.and_eq_true, List.all_eq_true, List.mem_range]
  refine ⟨by simp [DenseMatrix.isSquare, DenseMatrix.identity, DenseMatrix.diagonal], ?_⟩
  intro r hr c hc
  have hr : r < n := hr
  have hc : c < n := hc
  rw [DenseMatrix.identity, DenseMatrix.diagonal, DenseMatrix.entry_ofFn _ hr hc]
  split <;> simp

theorem isAffine_selectionMatrix {picked : List Nat} {n : Nat} :
    (selectionMatrix picked n : DenseMatrix α).isAffine = true := by
  refine DenseMatrix.isAffine_ofFn fun c _ => ?_
  simp

/-- A selection matrix picks coordinates. -/
theorem samePoint_selectionMatrix {picked : List Nat} (h : ∀ d ∈ picked, d < p.length) :
    SamePoint (applyAffine (selectionMatrix picked p.length) p) (pick p picked) := by
  have hrows : (selectionMatrix picked p.length : DenseMatrix α).rows = picked.length + 1 := rfl
  have hcols : (selectionMatrix picked p.length : DenseMatrix α).cols = p.length + 1 := rfl
  refine samePoint_of_getD (by simp [length_applyAffine, hrows]) fun r hr => ?_
  rw [length_applyAffine, hrows, Nat.add_sub_cancel] at hr
  have hbound := h _ (List.getElem_mem hr)
  have hentry : ∀ c, c < p.length + 1 →
      (selectionMatrix picked p.length : DenseMatrix α).entry r c =
        if c = picked[r] then 1 else 0 := by
    intro c hc
    rw [selectionMatrix, DenseMatrix.entry_ofFn _ (by omega) hc]
    simp [hr]
  rw [getD_applyAffine (by omega), getD_pick hr]
  simp only [List.getD_eq_getElem?_getD, List.getElem?_eq_getElem hr, Option.getD_some]
  rw [← List.getD_eq_getElem?_getD]
  refine affineCoordinate_copy (by rw [hcols, Nat.add_sub_cancel]) (by omega) (fun c hc => ?_) ?_
  · rw [hentry c (by omega)]
  · rw [hcols, Nat.add_sub_cancel, hentry _ (by omega), if_neg (by omega)]

end Copying

section Expanding

variable {α : Type} [Scalar α] {m : DenseMatrix α} {p : List α} {k n : Nat}

@[simp] theorem rows_expand : (expand k m n).rows = k + (m.rows - 1) + n + 1 :=
  rfl

@[simp] theorem cols_expand : (expand k m n).cols = k + (m.cols - 1) + n + 1 :=
  rfl

/-- A row that copies a leading coordinate. -/
theorem entry_expand_leading {r c : Nat} (hr : r < k) (hc : c < k + (m.cols - 1) + n + 1) :
    (expand k m n).entry r c = if c = r then 1 else 0 := by
  unfold expand
  dsimp only
  rw [DenseMatrix.entry_ofFn _ (by omega) hc, if_pos hr]

/-- A row that copies a trailing coordinate, or the last row. -/
theorem entry_expand_trailing {r c : Nat} (hr : k + (m.rows - 1) ≤ r)
    (hr' : r < k + (m.rows - 1) + n + 1) (hc : c < k + (m.cols - 1) + n + 1) :
    (expand k m n).entry r c = if c + (m.rows - 1) = r + (m.cols - 1) then 1 else 0 := by
  unfold expand
  dsimp only
  rw [DenseMatrix.entry_ofFn _ hr' hc, if_neg (by omega), if_neg (by omega)]

/-- A row of the matrix that is expanded. -/
theorem entry_expand_inner {r c : Nat} (hr : k ≤ r) (hr' : r < k + (m.rows - 1))
    (hc : c < k + (m.cols - 1) + n + 1) :
    (expand k m n).entry r c =
      if c = k + (m.cols - 1) + n then m.entry (r - k) (m.cols - 1)
      else if k ≤ c ∧ c < k + (m.cols - 1) then m.entry (r - k) (c - k)
      else 0 := by
  unfold expand
  dsimp only
  rw [DenseMatrix.entry_ofFn _ (by omega) hc, if_neg (by omega), if_pos hr']

variable [LawfulScalar α]

theorem isAffine_expand : (expand k m n).isAffine = true := by
  unfold expand
  refine DenseMatrix.isAffine_ofFn fun c hc => ?_
  rw [if_neg (by omega), if_neg (by omega)]
  by_cases hlast : c = k + (m.cols - 1) + n
  · rw [if_pos (by omega), if_pos hlast]
  · rw [if_neg (by omega), if_neg hlast]

theorem affineCoordinate_expand_inner (hp : p.length = k + (m.cols - 1) + n) {r : Nat}
    (hr : k ≤ r) (hr' : r < k + (m.rows - 1)) :
    affineCoordinate (expand k m n) p r =
      affineCoordinate m ((p.drop k).take (m.cols - 1)) (r - k) := by
  have hmid : ((p.drop k).take (m.cols - 1)).length = m.cols - 1 := by simp; omega
  rw [affineCoordinate_eq (by simpa using hp), affineCoordinate_eq hmid]
  unfold weightedSum
  simp only [cols_expand, Nat.add_sub_cancel]
  rw [entry_expand_inner hr hr' (by omega), if_pos rfl]
  congr 1
  have hskip : ∀ c ∈ List.range (k + (m.cols - 1) + n),
      (decide (k ≤ c) && decide (c < k + (m.cols - 1))) = false →
      ∀ s : DoubleDouble α, s.addTerm ((expand k m n).entry r c) (p.getD c 0) = s := by
    intro c hc hout s
    rw [List.mem_range] at hc
    have hout : ¬(k ≤ c ∧ c < k + (m.cols - 1)) := by simpa using hout
    rw [entry_expand_inner hr hr' (by omega), if_neg (by omega), if_neg hout]
    simp [DoubleDouble.addTerm]
  have hinner : (List.range (k + (m.cols - 1) + n)).filter
      (fun c => decide (k ≤ c) && decide (c < k + (m.cols - 1))) =
      (List.range (m.cols - 1)).map fun c => k + c := by
    refine (increasing_filter_range _ _).eq_of_mem_iff (n := k + (m.cols - 1)) ⟨?_, ?_⟩ fun c => ?_
    · exact List.pairwise_lt_range.map _ fun a b hab => Nat.add_lt_add_left hab k
    · simp
    · simp only [List.mem_filter, List.mem_range, Bool.and_eq_true, decide_eq_true_eq,
        List.mem_map]
      constructor
      · rintro ⟨_, hk, hc⟩
        exact ⟨c - k, by omega, by omega⟩
      · rintro ⟨i, hi, rfl⟩
        omega
  rw [← DenseMatrix.foldl_filter_eq hskip, hinner, List.foldl_map]
  refine List.foldl_ext _ _ _ fun s c hc => ?_
  rw [List.mem_range] at hc
  rw [entry_expand_inner hr hr' (by omega), if_neg (by omega), if_pos (by omega),
    Nat.add_sub_cancel_left]
  simp [hc]

/-- An expanded matrix copies the coordinates around those that the matrix maps. -/
theorem samePoint_expand (hp : p.length = k + (m.cols - 1) + n) :
    SamePoint (applyAffine (expand k m n) p)
      (p.take k ++ applyAffine m ((p.drop k).take (m.cols - 1)) ++
        p.drop (k + (m.cols - 1))) := by
  refine samePoint_of_getD ?_ fun r hr => ?_
  · simp [length_applyAffine]
    omega
  · rw [length_applyAffine, rows_expand, Nat.add_sub_cancel] at hr
    rw [getD_applyAffine (by simpa using hr)]
    have hlen : (p.take k).length = k := by simp; omega
    have hlen' : (applyAffine m ((p.drop k).take (m.cols - 1))).length = m.rows - 1 :=
      length_applyAffine _ _
    rcases Nat.lt_or_ge r k with hlead | hlead
    · rw [List.append_assoc, List.getD_append _ _ _ _ (by omega)]
      have hcopy : Same (affineCoordinate (expand k m n) p r) (p.getD r 0) := by
        refine affineCoordinate_copy (by simpa using hp) (by simp; omega) (fun c hc => ?_) ?_
        · rw [cols_expand, Nat.add_sub_cancel] at hc
          rw [entry_expand_leading hlead (by omega)]
        · rw [cols_expand, Nat.add_sub_cancel, entry_expand_leading hlead (by omega),
            if_neg (by omega)]
      simpa [List.getElem?_take, hlead] using hcopy
    · rcases Nat.lt_or_ge r (k + (m.rows - 1)) with hinner | htrail
      · rw [List.getD_append _ _ _ _ (by rw [List.length_append]; omega),
          List.getD_append_right _ _ _ _ (by omega), hlen, getD_applyAffine (by omega),
          affineCoordinate_expand_inner hp hlead hinner]
      · rw [List.getD_append_right _ _ _ _ (by rw [List.length_append]; omega), List.length_append,
          hlen, hlen']
        have hcopy : Same (affineCoordinate (expand k m n) p r)
            (p.getD (r + (m.cols - 1) - (m.rows - 1)) 0) := by
          refine affineCoordinate_copy (by simpa using hp) (by simp; omega) (fun c hc => ?_) ?_
          · rw [cols_expand, Nat.add_sub_cancel] at hc
            rw [entry_expand_trailing htrail (by omega) (by omega)]
            by_cases hcd : c = r + (m.cols - 1) - (m.rows - 1)
            · rw [if_pos (by omega), if_pos hcd]
            · rw [if_neg (by omega), if_neg hcd]
          · rw [cols_expand, Nat.add_sub_cancel, entry_expand_trailing htrail (by omega) (by omega),
              if_neg (by omega)]
        have hplace : k + (m.cols - 1) + (r - (k + (m.rows - 1))) =
            r + (m.cols - 1) - (m.rows - 1) := by omega
        simpa [hplace] using hcopy

end Expanding

end Transform
end SeparableTransforms
