import SeparableTransforms.Proofs.DenseMatrix.Affine
import SeparableTransforms.Proofs.DenseMatrix.Tolerance

/-!
# Scaled permutations

A matrix with a single non-zero entry in each row and in each column, all of one
magnitude, only has to be sorted and divided.  In every column that is still to be
eliminated there is one candidate, and since the other rows have zeros there, nothing is
subtracted from them: the columns behind the pivot are as they were, with their rows
exchanged (`Scattered`).

So the matrix has an inverse as soon as its magnitude exceeds the tolerance of the pivots.
The tolerance is the product of the magnitude, the size and `2 ^ (-52)`, multiplied in this
order and rounded twice.  For up to `2 ^ 50` rows it is at most half of the magnitude, also
where the product underflows.  But the product of the magnitude and the size may overflow,
and there is no inverse if it does.
-/

namespace SeparableTransforms
namespace DenseMatrix

open Binary64 Outcome

section Search

variable {work : DenseMatrix (DoubleDouble Float)} {search : PivotSearch Float}
  {tolerance v : Float} {k r : Nat}

/-- The largest magnitude so far is a magnitude and not `NaN`. -/
def PivotSearch.Proper (search : PivotSearch Float) : Prop :=
  ∀ r magnitude, search.best = some (r, magnitude) →
    UpTo magnitude magnitude ∧ Scalar.isNaN magnitude = false

/-- The largest magnitude so far exceeds the tolerance. -/
def PivotSearch.Exceeds (tolerance : Float) (search : PivotSearch Float) : Prop :=
  ∃ r magnitude, search.best = some (r, magnitude) ∧ tolerance < magnitude

theorem PivotSearch.Proper.visit (h : search.Proper) (r : Nat) (v : Float) :
    (search.visit r v).Proper := by
  unfold PivotSearch.visit
  split
  · exact h
  · rename_i hnan
    have hnew : UpTo (Scalar.abs v) (Scalar.abs v) ∧ Scalar.isNaN (Scalar.abs v) = false :=
      ⟨upTo_abs v, (isNaN_abs v).trans (Bool.eq_false_of_not_eq_true hnan)⟩
    split
    · rintro _ _ ⟨⟩
      exact hnew
    · split
      · rintro _ _ ⟨⟩
        exact hnew
      · exact h

theorem PivotSearch.Exceeds.visit (htolerance : UpTo tolerance tolerance)
    (h : search.Exceeds tolerance) (r : Nat) (v : Float) :
    (search.visit r v).Exceeds tolerance := by
  obtain ⟨r', magnitude, hbest, hlarge⟩ := h
  unfold PivotSearch.visit
  split
  · exact ⟨r', magnitude, hbest, hlarge⟩
  · simp only [hbest]
    split
    · rename_i hlarger
      exact ⟨r, Scalar.abs v, rfl, htolerance.lt_trans hlarge hlarger⟩
    · exact ⟨r', magnitude, hbest, hlarge⟩

theorem PivotSearch.exceeds_visit (htolerance : UpTo tolerance tolerance) (h : search.Proper)
    (hlarge : tolerance < Scalar.abs v) (r : Nat) : (search.visit r v).Exceeds tolerance := by
  have hnan : Scalar.isNaN v = false := (isNaN_abs v).symm.trans (isNaN_of_lt hlarge)
  unfold PivotSearch.visit
  rw [hnan, if_neg Bool.false_ne_true]
  cases hbest : search.best with
  | none => exact ⟨r, Scalar.abs v, rfl, hlarge⟩
  | some found =>
      dsimp only
      split
      · exact ⟨r, Scalar.abs v, rfl, hlarge⟩
      · rename_i hnot
        obtain ⟨hupTo, hfound⟩ := h found.1 found.2 hbest
        exact ⟨found.1, found.2, hbest, htolerance.lt_of_not_lt hlarge hupTo hfound hnot⟩

theorem PivotSearch.exceeds_through (htolerance : UpTo tolerance tolerance) (h : search.Proper)
    {rows : List Nat} (hr : r ∈ rows) (hlarge : tolerance < Scalar.abs (work.entry r k).value) :
    (search.through work k rows).Exceeds tolerance := by
  unfold PivotSearch.through
  induction rows generalizing search with
  | nil => cases hr
  | cons r' rows ih =>
      rcases List.mem_cons.mp hr with rfl | hr
      · exact List.foldlRecOn rows _ (exceeds_visit htolerance h hlarge r) fun _ hs _ _ =>
          hs.visit htolerance _ _
      · exact ih (h.visit r' _) hr

/-- If a cell exceeds the tolerance, there is a pivot. -/
theorem exists_pivotRow? (htolerance : UpTo tolerance tolerance) (hk : k ≤ r) (hr : r < work.rows)
    (hlarge : tolerance < Scalar.abs (work.entry r k).value) :
    ∃ row, pivotRow? work tolerance k = some row := by
  have hmem : r ∈ (List.range work.rows).drop k := by
    rw [List.range_eq_range', List.drop_range', List.mem_range'_1]
    omega
  have hstart : (⟨none, none⟩ : PivotSearch Float).Proper := nofun
  obtain ⟨row, magnitude, hbest, hexceeds⟩ :=
    PivotSearch.exceeds_through htolerance hstart hmem hlarge
  refine ⟨row, ?_⟩
  rw [pivotRow?_eq, PivotSearch.chosen, hbest]
  exact if_pos hexceeds

end Search

section Sorting

variable {s s' : Elimination Float} {c tolerance : Float} {j k n r row : Nat}

/-- The columns from `k` on have a single non-zero cell each, of magnitude `c` and in a row that has
not been used, and none of these rows has two of them. -/
structure Scattered (c : Float) (k n : Nat) (t : DenseMatrix (DoubleDouble Float)) : Prop where
  magnitude : ∀ r j, r < n → k ≤ j → j < n → (t.entry r j).isZero = false →
    k ≤ r ∧ Scalar.abs (t.entry r j).value = c
  occupied : ∀ j, k ≤ j → j < n → ∃ r, r < n ∧ (t.entry r j).isZero = false
  row : ∀ r j j', r < n → k ≤ j → j < n → k ≤ j' → j' < n →
    (t.entry r j).isZero = false → (t.entry r j').isZero = false → j = j'
  column : ∀ r r' j, r < n → r' < n → k ≤ j → j < n →
    (t.entry r j).isZero = false → (t.entry r' j).isZero = false → r = r'

/-- The pivot of a scattered column is its non-zero cell. -/
theorem Scattered.exists_pivot (h : Scattered c k n s.work) (hs : s.IsSquare n) (hk : k < n)
    (htolerance : UpTo tolerance tolerance) (hlarge : tolerance < c) :
    ∃ row, pivotRow? s.work tolerance k = some row ∧ k ≤ row ∧ row < n ∧
      (s.work.entry row k).isZero = false := by
  obtain ⟨r, hr, hcell⟩ := h.occupied k (le_refl k) hk
  obtain ⟨hunused, hc⟩ := h.magnitude r k hr (le_refl k) hk hcell
  obtain ⟨row, hrow⟩ := exists_pivotRow? htolerance hunused (hs.rows_work.symm ▸ hr)
    (hc.symm ▸ hlarge)
  have hpivot := isPivot_of_pivotRow? hrow
  refine ⟨row, hrow, hpivot.unused, hs.rows_work ▸ hpivot.inside, ?_⟩
  by_contra hzero
  have hzero := beq_zero_of_isZero (Bool.eq_true_of_not_eq_false hzero)
  rcases hpivot.accepted with haccepted | hnan
  · rw [abs_of_beq_zero hzero] at haccepted
    exact htolerance.not_lt_zero haccepted
  · rw [isNaN_of_beq_zero hzero] at hnan
    cases hnan

/-- Behind a pivot, a column with a zero in the pivot row has its rows exchanged and stays as it is
otherwise. -/
theorem Elimination.entry_pivot_of_isZero (hs : s.IsSquare n) (hk : k < n) (hrow : row < n)
    (hr : r < n) (hzero : (s.work.entry row j).isZero = true) :
    (s.pivot k row).work.entry r j = s.work.entry (exchanged k row r) j := by
  have hrows := hs.rows_work
  have hswapped := entry_swapRows (m := s.work) (hrows.symm ▸ hk) (hrows.symm ▸ hrow)
  unfold Elimination.pivot
  dsimp only
  generalize (s.work.swapRows k row).entry k k = divisor
  have hdivided : ∀ r', ((s.work.swapRows k row).divideRow k divisor).entry r' j =
      s.work.entry (exchanged k row r') j := by
    intro r'
    rw [entry_divideRow, hswapped, if_neg]
    rintro ⟨rfl, hcell⟩
    rw [exchanged_left, hzero] at hcell
    cases hcell
  rw [entry_eliminateRows (by exact hrows.symm ▸ hr), hdivided, hdivided,
    exchanged_left, if_pos (.inr (.inr hzero))]

theorem Scattered.pivot (h : Scattered c k n s.work) (hs : s.IsSquare n) (hle : k ≤ row)
    (hrow : row < n) (hpivot : (s.work.entry row k).isZero = false) :
    Scattered c (k + 1) n (s.pivot k row).work := by
  have hk : k < n := Nat.lt_of_le_of_lt hle hrow
  have hlt : ∀ r, r < n → exchanged k row r < n := fun r hr => exchanged_lt hk hrow hr
  have hbehind : ∀ j, k + 1 ≤ j → j < n → (s.work.entry row j).isZero = true := by
    intro j hj hjn
    by_contra hcell
    have hsame := h.row row k j hrow (le_refl k) hk (by omega) hjn hpivot
      (Bool.eq_false_of_not_eq_true hcell)
    omega
  have hentry : ∀ r j, r < n → k + 1 ≤ j → j < n →
      (s.pivot k row).work.entry r j = s.work.entry (exchanged k row r) j := fun r j hr hj hjn =>
    Elimination.entry_pivot_of_isZero hs hk hrow hr (hbehind j hj hjn)
  refine ⟨fun r j hr hj hjn hcell => ?_, fun j hj hjn => ?_,
    fun r j j' hr hj hjn hj' hjn' hcell hcell' => ?_,
    fun r r' j hr hr' hj hjn hcell hcell' => ?_⟩
  · rw [hentry r j hr hj hjn] at hcell ⊢
    obtain ⟨hunused, hc⟩ := h.magnitude _ j (hlt r hr) (by omega) hjn hcell
    have hkr : k ≤ r := exchanged_exchanged k row r ▸ le_exchanged hle hunused
    have hne : k ≠ r := by
      rintro rfl
      rw [exchanged_left, hbehind j hj hjn] at hcell
      cases hcell
    exact ⟨Nat.lt_of_le_of_ne hkr hne, hc⟩
  · obtain ⟨r, hr, hcell⟩ := h.occupied j (by omega) hjn
    refine ⟨exchanged k row r, hlt r hr, ?_⟩
    rw [hentry _ j (hlt r hr) hj hjn, exchanged_exchanged]
    exact hcell
  · rw [hentry r j hr hj hjn] at hcell
    rw [hentry r j' hr hj' hjn'] at hcell'
    exact h.row _ j j' (hlt r hr) (by omega) hjn (by omega) hjn' hcell hcell'
  · rw [hentry r j hr hj hjn] at hcell
    rw [hentry r' j hr' hj hjn] at hcell'
    exact exchanged_inj (h.column _ _ j (hlt r hr) (hlt r' hr') (by omega) hjn hcell hcell')

/-- Scattered columns can all be eliminated. -/
theorem Scattered.through (htolerance : UpTo tolerance tolerance) (hlarge : tolerance < c)
    {m : Nat} (hm : k + m = n) (h : Scattered c k n s.work) (hs : s.IsSquare n) :
    ∃ s', Elimination.through tolerance (List.range' k m) s = .ok s' := by
  induction m generalizing k s with
  | zero => exact ⟨s, rfl⟩
  | succ m ih =>
      obtain ⟨row, hsearch, hle, hrow, hpivot⟩ :=
        h.exists_pivot hs (by omega) htolerance hlarge
      obtain ⟨s', hrun⟩ := ih (by omega) (h.pivot hs hle hrow hpivot) (hs.pivot k row)
      rw [List.range'_succ]
      exact ⟨s', Elimination.through_cons_eq_ok_iff.mpr ⟨row, hsearch, hrun⟩⟩

end Sorting

section Tolerance

variable {m : DenseMatrix Float} {c : Float} {p q : ℚ} {k : Nat}

/-- A square matrix with exactly one non-zero entry in each row and in each column, all of them of
the finite magnitude `c`. -/
structure IsScaledPermutation (c : Float) (m : DenseMatrix Float) : Prop where
  square : m.cols = m.rows
  positive : 0 < c
  finite : Scalar.isFinite c = true
  magnitude : ∀ r j, r < m.rows → j < m.rows → (m.entry r j == 0) = false →
    Scalar.abs (m.entry r j) = c
  row : ∀ r, r < m.rows → ∃! j, j < m.rows ∧ (m.entry r j == 0) = false
  column : ∀ j, j < m.rows → ∃! r, r < m.rows ∧ (m.entry r j == 0) = false

theorem IsScaledPermutation.exists_measures (h : IsScaledPermutation c m) :
    ∃ q, Measures c.toModel.unpack q ∧ 0 < q := by
  have hzero : Measures (0 : Float).toModel.unpack 0 := unpack_zero ▸ .zero _
  rcases hzero.of_lt (lt_iff_parts.mp h.positive) with hinfinite | ⟨q, hq⟩
  · have hfinite : c.toModel.unpack.isFinite = true := h.finite
    rw [hinfinite] at hfinite
    cases hfinite
  · exact ⟨q, hq, (lt_iff_of_measures hzero hq).mp h.positive⟩

/-- A float multiplied by a power of two is not rounded. -/
theorem nearest_mul_two_pow (hq : Measures c.toModel.unpack q) (k : Nat) :
    nearest (q * 2 ^ k) = q * 2 ^ k := by
  have hcanonical := canonical_unpack c.toModel
  generalize c.toModel.unpack = u at hq hcanonical
  cases hq with
  | zero s => rw [zero_mul, nearest_zero]
  | @finite digits e hpos =>
      obtain ⟨hdigits, he, -, -⟩ := hcanonical
      have hvalue : (digits : ℚ) * 2 ^ e * 2 ^ k = digits * 2 ^ (e + k) := by
        rw [zpow_add₀ two_ne_zero, zpow_natCast, mul_assoc]
      rw [hvalue]
      exact nearest_digits hdigits (by omega)

/-- A size is not rounded and in range. -/
theorem nearest_size (hk : k ≤ 2 ^ 50) : nearest k = k ∧ (k : ℚ) < 2 ^ (1024 : ℤ) := by
  constructor
  · have hdigits := nearest_digits (m := k) (e := 0) (by omega) (by omega)
    rwa [zpow_zero, mul_one] at hdigits
  · calc (k : ℚ) ≤ 2 ^ (50 : ℤ) := by exact_mod_cast hk
      _ < 2 ^ (1024 : ℤ) := zpow_lt_zpow_right₀ one_lt_two (by omega)

theorem measures_ofNat (hk : k ≤ 2 ^ 50) : Measures (Float.ofNat k).toModel.unpack k := by
  obtain ⟨hexact, hbound⟩ := nearest_size hk
  have hsettled := settled_ofNat k
  rw [hexact] at hsettled
  exact hsettled.measures hbound

variable (h : IsScaledPermutation c m)

include h

/-- The entries of a scaled permutation are zeros or of its magnitude, so that no other magnitude is
found in a block of it. -/
theorem IsScaledPermutation.measures_largestMagnitude (hq : Measures c.toModel.unpack q)
    (hk : k ≤ m.rows) : ∃ p, Measures (m.largestMagnitude k).toModel.unpack p ∧ p ≤ q ∧
      (k = m.rows → 0 < k → p = q) := by
  have hzero : Measures (0 : Float).toModel.unpack 0 := unpack_zero ▸ .zero _
  obtain ⟨p, hp, hlargest⟩ := measures_foldl_larger (l := finiteMagnitudes m k)
    (fun _ => measures_of_mem_finiteMagnitudes) hzero
  have hmember : ∀ x ∈ finiteMagnitudes m k, x = 0 ∨ x = c := by
    intro x hx
    obtain ⟨⟨r, j, hr, hj, rfl⟩, -⟩ := mem_finiteMagnitudes.mp hx
    cases hentry : m.entry r j == 0 with
    | true => exact .inl (abs_of_beq_zero hentry)
    | false => exact .inr (h.magnitude r j (by omega) (by omega) hentry)
  have hle : p ≤ q := by
    rcases hlargest.attained with rfl | ⟨x, hx, hxp⟩
    · exact hq.nonneg
    · rcases hmember x hx with rfl | rfl
      · exact (hxp.unique hzero).trans_le hq.nonneg
      · exact (hxp.unique hq).le
  refine ⟨p, hp, hle, fun hwhole hpos => hle.antisymm ?_⟩
  obtain ⟨j, ⟨hj, hentry⟩, -⟩ := h.row 0 (hwhole ▸ hpos)
  have hcell := h.magnitude 0 j (hwhole ▸ hpos) hj hentry
  exact hlargest.le c (mem_finiteMagnitudes.mpr
    ⟨⟨0, j, hpos, hwhole.symm ▸ hj, hcell⟩, h.finite⟩) q hq

/-- The tolerance is at most half of the magnitude, unless its first product overflows. -/
theorem IsScaledPermutation.pivotTolerance_lt (hsize : m.rows ≤ 2 ^ 50)
    (hfinite : Scalar.isFinite (c * Float.ofNat m.rows) = true) (hk : k ≤ m.rows) :
    m.pivotTolerance k < c := by
  obtain ⟨q, hq, hpos⟩ := h.exists_measures
  obtain ⟨p, hp, hpq, -⟩ := h.measures_largestMagnitude hq hk
  have hwhole : nearest (q * m.rows) < 2 ^ (1024 : ℤ) :=
    (settled_mul hq (measures_ofNat hsize)).isFinite_iff.mp hfinite
  have hfactors : p * k ≤ q * m.rows :=
    mul_le_mul hpq (Nat.cast_le.mpr hk) (Nat.cast_nonneg k) hpos.le
  have hnonneg : 0 ≤ p * k := mul_nonneg hp.nonneg (Nat.cast_nonneg k)
  have hbound : nearest (p * k) < 2 ^ (1024 : ℤ) := (nearest_mono hnonneg hfactors).trans_lt hwhole
  have hfirst : Measures (m.largestMagnitude k * Float.ofNat k).toModel.unpack (nearest (p * k)) :=
    (settled_mul hp (measures_ofNat (hk.trans hsize))).measures hbound
  have hproduct : nearest (p * k) ≤ q * 2 ^ 50 := by
    have hcount : (k : ℚ) ≤ 2 ^ 50 := by exact_mod_cast hk.trans hsize
    rw [← nearest_mul_two_pow hq 50]
    exact nearest_mono hnonneg (mul_le_mul hpq hcount (Nat.cast_nonneg k) hpos.le)
  have htwice : nearest (nearest (p * k) * 2 ^ (-52 : ℤ)) ≤ nearest (p * k) * 2 ^ (-51 : ℤ) := by
    have hround := nearest_le_two_mul
      (mul_nonneg (nearest_nonneg hnonneg) (two_zpow_pos (-52)).le)
    calc _ ≤ 2 * (nearest (p * k) * 2 ^ (-52 : ℤ)) := hround
      _ = nearest (p * k) * 2 ^ (-51 : ℤ) := by norm_num; ring
  have hfirst_le : nearest (p * k) * 2 ^ (-51 : ℤ) ≤ nearest (p * k) :=
    mul_le_of_le_one_right (nearest_nonneg hnonneg) (by norm_num)
  have hsecond : Measures (m.pivotTolerance k).toModel.unpack
      (nearest (nearest (p * k) * 2 ^ (-52 : ℤ))) :=
    (settled_mul hfirst measures_epsilon).measures
      ((htwice.trans hfirst_le).trans_lt hbound)
  refine (lt_iff_of_measures hsecond hq).mpr ?_
  calc nearest (nearest (p * k) * 2 ^ (-52 : ℤ)) ≤ nearest (p * k) * 2 ^ (-51 : ℤ) := htwice
    _ ≤ q * 2 ^ 50 * 2 ^ (-51 : ℤ) :=
        mul_le_mul_of_nonneg_right hproduct (two_zpow_pos (-51)).le
    _ = q / 2 := by norm_num; ring
    _ < q := half_lt_self hpos

/-- If the product of the magnitude and the size overflows, the tolerance is infinite. -/
theorem IsScaledPermutation.outOfRange_pivotTolerance (hrows : 0 < m.rows) (hsize : m.rows ≤ 2 ^ 50)
    (hoverflow : Scalar.isFinite (c * Float.ofNat m.rows) = false) :
    OutOfRange (m.pivotTolerance m.rows).toModel.unpack := by
  obtain ⟨q, hq, -⟩ := h.exists_measures
  obtain ⟨p, hp, -, hlargest⟩ := h.measures_largestMagnitude hq (le_refl m.rows)
  obtain rfl := hlargest rfl hrows
  have hlarge : 2 ^ (1024 : ℤ) ≤ nearest (p * m.rows) := by
    refine not_lt.mp fun hsmall => ?_
    have hfinite := (settled_mul hq (measures_ofNat hsize)).isFinite_iff.mpr hsmall
    exact absurd (hoverflow.symm.trans hfinite) Bool.false_ne_true
  have hfirst := (settled_mul hp (measures_ofNat hsize)).outOfRange hlarge
  exact (hfirst.mul (.inr ⟨_, measures_epsilon⟩)).unpack_pack

end Tolerance

section Inverses

variable {m : DenseMatrix Float} {c tolerance : Float} {d : Nat}

/-- A block that has the non-zero entries of its columns is scattered from the start. -/
theorem IsScaledPermutation.scattered (h : IsScaledPermutation c m) (hd : d ≤ m.rows)
    (hcolumns : ∀ j, j < d → ∃ r, r < d ∧ (m.entry r j == 0) = false) :
    Scattered c 0 d (Elimination.start m d).work := by
  have hcell : ∀ r j, r < d → j < d →
      ((Elimination.start m d).work.entry r j).isZero = (m.entry r j == 0) := by
    intro r j hr hj
    rw [Elimination.entry_start_work m hr hj, isZero_ofScalar]
  refine ⟨fun r j hr _ hj hnonzero => ⟨Nat.zero_le r, ?_⟩, fun j _ hj => ?_,
    fun r j j' hr _ hj _ hj' hnonzero hnonzero' => ?_,
    fun r r' j hr hr' _ hj hnonzero hnonzero' => ?_⟩
  · rw [hcell r j hr hj] at hnonzero
    rw [Elimination.entry_start_work m hr hj]
    exact h.magnitude r j (by omega) (by omega) hnonzero
  · obtain ⟨r, hr, hnonzero⟩ := hcolumns j hj
    exact ⟨r, hr, (hcell r j hr hj).trans hnonzero⟩
  · rw [hcell r j hr hj] at hnonzero
    rw [hcell r j' hr hj'] at hnonzero'
    exact (h.row r (by omega)).unique ⟨by omega, hnonzero⟩ ⟨by omega, hnonzero'⟩
  · rw [hcell r j hr hj] at hnonzero
    rw [hcell r' j hr' hj] at hnonzero'
    exact (h.column j (by omega)).unique ⟨by omega, hnonzero⟩ ⟨by omega, hnonzero'⟩

/-- A tolerance below the magnitude lets every pivot pass. -/
theorem IsScaledPermutation.exists_gaussJordan (h : IsScaledPermutation c m) (hd : d ≤ m.rows)
    (hcolumns : ∀ j, j < d → ∃ r, r < d ∧ (m.entry r j == 0) = false)
    (htolerance : UpTo tolerance tolerance) (hlarge : tolerance < c) :
    ∃ w, gaussJordan tolerance m d = .ok w := by
  obtain ⟨s, hrun⟩ := (h.scattered hd hcolumns).through htolerance hlarge (Nat.zero_add d)
    (Elimination.isSquare_start m d)
  rw [← List.range_eq_range'] at hrun
  exact ⟨s.inverse, gaussJordan_eq_ok_iff.mpr ⟨s, hrun, rfl⟩⟩

theorem IsScaledPermutation.isNaN_entry (h : IsScaledPermutation c m) {r j : Nat}
    (hr : r < m.rows) (hj : j < m.rows) : Scalar.isNaN (m.entry r j) = false := by
  cases hentry : m.entry r j == 0 with
  | true => exact isNaN_of_beq_zero hentry
  | false =>
      have hnan : Scalar.isNaN (Scalar.abs (m.entry r j)) = false := by
        rw [h.magnitude r j hr hj hentry]
        exact isNaN_of_lt h.positive
      exact (isNaN_abs _).symm.trans hnan

/-- A tolerance out of range lets no pivot pass. -/
theorem IsScaledPermutation.gaussJordan_eq_error (h : IsScaledPermutation c m) (hrows : 0 < m.rows)
    (htolerance : OutOfRange tolerance.toModel.unpack) :
    gaussJordan tolerance m m.rows = .error .notInvertible := by
  have hnone : pivotRow? (Elimination.start m m.rows).work tolerance 0 = none := by
    refine Option.eq_none_iff_forall_ne_some.mpr fun row hrow => ?_
    have hpivot := isPivot_of_pivotRow? hrow
    have hinside : row < m.rows := hpivot.inside
    rcases hpivot.accepted with hlarge | hnan
    · exact htolerance.not_lt _ (lt_iff_parts.mp hlarge)
    · rw [Elimination.entry_start_work m hinside hrows] at hnan
      exact absurd (hnan.symm.trans (h.isNaN_entry hinside hrows)) (by decide)
  have hstep : (Elimination.start m m.rows).step tolerance 0 = .error .notInvertible := by
    unfold Elimination.step
    rw [hnone]
  obtain ⟨rest, hcolumns⟩ : ∃ rest, List.range m.rows = 0 :: rest := by
    cases hsize : m.rows with
    | zero => omega
    | succ n => exact ⟨_, List.range_succ_eq_map⟩
  have hrun : (Elimination.start m m.rows).run tolerance m.rows = .error .notInvertible := by
    unfold Elimination.run
    rw [hcolumns, Elimination.through_cons, hstep]
    rfl
  show ((Elimination.start m m.rows).run tolerance m.rows).map Elimination.inverse = _
  rw [hrun]
  rfl

/-- In an affine scaled permutation the last row has its only entry in the last column. -/
theorem IsScaledPermutation.linear_columns (h : IsScaledPermutation c m) (ha : m.isAffine = true)
    (j : Nat) (hj : j < m.rows - 1) : ∃ r, r < m.rows - 1 ∧ (m.entry r j == 0) = false := by
  obtain ⟨r, ⟨hr, hentry⟩, -⟩ := h.column j (by omega)
  refine ⟨r, ?_, hentry⟩
  have hlast : r ≠ m.rows - 1 := by
    rintro rfl
    have hzero := isAffine_lastRow_beq_zero ha (c := j) (by rw [h.square]; omega)
    exact absurd (hentry.symm.trans hzero) Bool.false_ne_true
  omega

/-- The magnitude of an affine scaled permutation is one. -/
theorem IsScaledPermutation.measures_of_isAffine (h : IsScaledPermutation c m)
    (ha : m.isAffine = true) : Measures c.toModel.unpack 1 := by
  have hrows := isAffine_rows_pos ha
  have hsame := isAffine_lastRow ha (c := m.rows - 1) (by rw [h.square]; omega)
  rw [lastRow, if_pos (by rw [h.square]; omega)] at hsame
  have hcell := h.magnitude (m.rows - 1) (m.rows - 1) (by omega) (by omega)
    (hsame.isZero_eq.trans one_beq_zero)
  have hparts : Similar (m.entry (m.rows - 1) (m.rows - 1)).toModel.unpack onePart :=
    unpack_one ▸ same_iff.mp hsame
  have hone : (1 : ℚ) = ((2 ^ 52 : Nat) : ℚ) * 2 ^ (-52 : ℤ) := by norm_num
  rw [← hcell]
  show Measures (Float.abs _).toModel.unpack 1
  rw [unpack_abs, hone]
  generalize (m.entry (m.rows - 1) (m.rows - 1)).toModel.unpack = u at hparts
  cases hparts
  exact .finite _

theorem IsScaledPermutation.isFinite_of_isAffine (h : IsScaledPermutation c m)
    (ha : m.isAffine = true) (hsize : m.rows ≤ 2 ^ 50) :
    Scalar.isFinite (c * Float.ofNat m.rows) = true := by
  refine (settled_mul (h.measures_of_isAffine ha) (measures_ofNat hsize)).isFinite_iff.mpr ?_
  rw [one_mul, (nearest_size hsize).1]
  exact (nearest_size hsize).2

/-- A scaled permutation is inverted, and its magnitude exceeds the tolerance for every leading
block, exactly if the product of its magnitude and its size does not overflow. -/
theorem inverse_of_isScaledPermutation (h : IsScaledPermutation c m) (hrows : 0 < m.rows)
    (hsize : m.rows ≤ 2 ^ 50) :
    (Scalar.isFinite (c * Float.ofNat m.rows) = true →
      (∃ v, m.inverse = .ok v) ∧ ∀ k, k ≤ m.rows → m.pivotTolerance k < c) ∧
    (Scalar.isFinite (c * Float.ofNat m.rows) = false → m.inverse = .error .notInvertible) := by
  refine ⟨fun hfinite => ?_, fun hoverflow => ?_⟩
  · have hlarge : ∀ k, k ≤ m.rows → m.pivotTolerance k < c := fun k =>
      h.pivotTolerance_lt hsize hfinite
    refine ⟨?_, hlarge⟩
    cases haffine : m.isAffine with
    | true =>
        obtain ⟨w, hw⟩ := h.exists_gaussJordan (Nat.sub_le m.rows 1) (h.linear_columns haffine)
          (upTo_pivotTolerance_self m _) (hlarge _ (Nat.sub_le m.rows 1))
        exact ⟨_, (inverseWithin_eq_ok_iff haffine).mpr ⟨h.square.symm, w, hw, rfl⟩⟩
    | false =>
        obtain ⟨w, hw⟩ := h.exists_gaussJordan (le_refl m.rows)
          (fun j hj => (h.column j hj).exists) (upTo_pivotTolerance_self m _)
          (hlarge _ (le_refl m.rows))
        exact ⟨_, (inverseWithin_eq_ok_iff_of_isAffine_eq_false haffine).mpr
          ⟨h.square.symm, w, hw, rfl⟩⟩
  · have haffine : m.isAffine = false := Bool.eq_false_of_not_eq_true fun ha =>
      absurd (hoverflow.symm.trans (h.isFinite_of_isAffine ha hsize)) Bool.false_ne_true
    have hgauss := h.gaussJordan_eq_error hrows
      (h.outOfRange_pivotTolerance hrows hsize hoverflow)
    unfold DenseMatrix.inverse inverseWithin isSquare
    rw [if_pos (beq_iff_eq.mpr h.square.symm), haffine, if_neg Bool.false_ne_true, hgauss]
    rfl

theorem existsUnique_of_bounded {n : Nat} {P : Nat → Prop}
    (h : ∃ j, j < n ∧ P j ∧ ∀ j', j' < n → P j' → j' = j) : ∃! j, j < n ∧ P j := by
  obtain ⟨j, hj, hP, hunique⟩ := h
  exact ⟨j, ⟨hj, hP⟩, fun j' h' => hunique j' h'.1 h'.2⟩

/-- The definition with bounded quantifiers only, in a form that can be decided. -/
theorem isScaledPermutation_of_bounded (hsquare : m.cols = m.rows) (hpositive : 0 < c)
    (hfinite : Scalar.isFinite c = true)
    (hmagnitude : ∀ r, r < m.rows → ∀ j, j < m.rows → (m.entry r j == 0) = false →
      Scalar.abs (m.entry r j) = c)
    (hrow : ∀ r, r < m.rows → ∃ j, j < m.rows ∧ (m.entry r j == 0) = false ∧
      ∀ j', j' < m.rows → (m.entry r j' == 0) = false → j' = j)
    (hcolumn : ∀ j, j < m.rows → ∃ r, r < m.rows ∧ (m.entry r j == 0) = false ∧
      ∀ r', r' < m.rows → (m.entry r' j == 0) = false → r' = r) : IsScaledPermutation c m :=
  ⟨hsquare, hpositive, hfinite, fun r j hr hj => hmagnitude r hr j hj,
    fun r hr => existsUnique_of_bounded (hrow r hr),
    fun j hj => existsUnique_of_bounded (hcolumn j hj)⟩

/-- Rows that are exchanged, with entries of both signs and of the least magnitude. -/
def leastExchanging : DenseMatrix Float :=
  ofFn 2 2 fun r c => ([[-0, Float.ofBits 1], [-Float.ofBits 1, 0]].getD r []).getD c 0

/-- Underflow does no harm, although the entries of the inverse are infinite. -/
theorem inverse_leastExchanging :
    IsScaledPermutation (Float.ofBits 1) leastExchanging ∧
      Scalar.isFinite (Float.ofBits 1 * Float.ofNat 2) = true ∧
      (∃ v, leastExchanging.inverse = .ok v) ∧
      leastExchanging.pivotTolerance 2 < Float.ofBits 1 := by
  have hpermutation : IsScaledPermutation (Float.ofBits 1) leastExchanging :=
    isScaledPermutation_of_bounded rfl (by decide +kernel) (by decide +kernel)
      (by decide +kernel) (by decide +kernel) (by decide +kernel)
  have hfinite : Scalar.isFinite (Float.ofBits 1 * Float.ofNat 2) = true := by decide +kernel
  obtain ⟨hok, hlarge⟩ :=
    (inverse_of_isScaledPermutation hpermutation (by decide) (by decide)).1 hfinite
  exact ⟨hpermutation, hfinite, hok, hlarge 2 (le_refl 2)⟩

/-- The largest power of two on the diagonal. -/
def greatestDiagonal : DenseMatrix Float :=
  ofFn 2 2 fun r c => if r = c then Float.ofBits 0x7fe0000000000000 else 0

/-- The product of the largest power of two and the size is infinite, so that a matrix is refused
whose inverse has the finite entries `2 ^ (-1023)`. -/
theorem not_inverse_isOk_of_isScaledPermutation :
    ¬∀ (c : Float) (m : DenseMatrix Float), IsScaledPermutation c m → 0 < m.rows →
      m.rows ≤ 2 ^ 50 → ∃ v, m.inverse = .ok v := by
  intro hall
  have hpermutation : IsScaledPermutation (Float.ofBits 0x7fe0000000000000) greatestDiagonal :=
    isScaledPermutation_of_bounded rfl (by decide +kernel) (by decide +kernel)
      (by decide +kernel) (by decide +kernel) (by decide +kernel)
  obtain ⟨v, hv⟩ := hall _ _ hpermutation (by decide) (by decide)
  have hrefused : greatestDiagonal.inverse.isOk = false := by decide +kernel
  rw [hv] at hrefused
  cases hrefused

end Inverses

end DenseMatrix
end SeparableTransforms
