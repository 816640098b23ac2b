import Mathlib.LinearAlgebra.Matrix.NonsingularInverse
import SeparableTransforms.Proofs.DenseMatrix.Elimination
import SeparableTransforms.Proofs.DenseMatrix.Exact
import SeparableTransforms.Proofs.Outcome

/-!
# Inverses in exact arithmetic

Over the rationals a cell of an elimination is a rational number without an error term,
and a cell that is skipped because it is zero would not have changed anyway.  A step is
then a row operation: the pivot row is divided by the pivot, and multiples of it are
subtracted from the other rows.  It is the same operation on both tables.

So the work table remains the product of the inverse table and the matrix, from the start
to the end, and with every step one more of its columns becomes a column of the identity.
The pivots that are taken are not zero, because they exceed a tolerance that is not
negative.  If all columns are reached, the inverse table is an inverse from the left, and
for square matrices an inverse from the left is an inverse.

The inverse of an affine matrix follows from that of its linear part.  There is only one
inverse, so that the elimination of the whole matrix cannot give another one.
-/

namespace SeparableTransforms

namespace DenseMatrix

open DoubleDouble Outcome

section Rows

variable {t : DenseMatrix (DoubleDouble Rat)} {k row r : Nat} {pivot : Rat}
  {factor : Nat → DoubleDouble Rat} {f : Nat → Rat}

/-- The rational numbers in the cells of a table. -/
def values (t : DenseMatrix (DoubleDouble Rat)) (r c : Nat) : Rat :=
  (t.entry r c).value

/-- No cell of the table has an error term. -/
def IsExact (t : DenseMatrix (DoubleDouble Rat)) : Prop :=
  ∀ r c, t.entry r c = ofScalar (t.values r c)

theorem isExact_of_entries
    (h : ∀ r c, r < t.rows → c < t.cols → ∃ x, t.entry r c = ofScalar x) : t.IsExact := by
  intro r c
  unfold values
  by_cases hplace : r < t.rows ∧ c < t.cols
  · obtain ⟨x, hx⟩ := h r c hplace.1 hplace.2
    rw [hx]
    rfl
  · rw [entry_eq_zero hplace]
    rfl

/-- What a step makes of the numbers in a table: one row is divided by the pivot, and multiples of
it are subtracted from the others. -/
def reduced (x : Nat → Nat → Rat) (k row : Nat) (pivot : Rat) (f : Nat → Rat) (r c : Nat) : Rat :=
  if r = k then x row c / pivot else x (exchanged k row r) c - f r * (x row c / pivot)

theorem entry_divideRow_rat (ht : t.IsExact) (hk : k < t.rows) (hrow : row < t.rows) (r c : Nat) :
    ((t.swapRows k row).divideRow k (ofScalar pivot)).entry r c =
      ofScalar (if r = k then t.values row c / pivot else t.values (exchanged k row r) c) := by
  rw [entry_divideRow, entry_swapRows hk hrow, ht, div_exact]
  by_cases hr : r = k
  · subst hr
    rw [exchanged_left, if_pos rfl]
    split_ifs with hzero
    · rfl
    · have hzero : t.values row c = 0 := isZero_exact.mp (by simpa using hzero)
      rw [hzero, zero_div]
  · rw [if_neg hr, if_neg fun h => hr h.1]

/-- The rows and cells that are skipped would not have changed. -/
theorem entry_reduced (ht : t.IsExact) (hk : k < t.rows) (hrow : row < t.rows)
    (hfactor : ∀ r, r ≠ k → factor r = ofScalar (f r)) (hr : r < t.rows) (c : Nat) :
    (((t.swapRows k row).divideRow k (ofScalar pivot)).eliminateRows k factor).entry r c =
      ofScalar (reduced t.values k row pivot f r c) := by
  rw [entry_eliminateRows (by exact hr), entry_divideRow_rat ht hk hrow,
    entry_divideRow_rat ht hk hrow, if_pos rfl]
  unfold reduced
  by_cases hrk : r = k
  · rw [if_pos (.inl hrk), if_pos hrk, if_pos hrk]
  · rw [hfactor r hrk, if_neg hrk, if_neg hrk, mul_exact, sub_exact]
    split_ifs with hskip
    · have hzero : f r * (t.values row c / pivot) = 0 :=
        mul_eq_zero.mpr ((hskip.resolve_left hrk).imp isZero_exact.mp isZero_exact.mp)
      rw [hzero, sub_zero]
    · rfl

end Rows

section Steps

variable {a : DenseMatrix Rat} {s s' : Elimination Rat} {tolerance : Rat} {k n row r c : Nat}

/-- Both tables of an elimination are square and without error terms. -/
structure Elimination.Exact (s : Elimination Rat) (n : Nat) : Prop where
  square : s.IsSquare n
  work : s.work.IsExact
  inverse : s.inverse.IsExact

theorem Elimination.exact_start (a : DenseMatrix Rat) (n : Nat) : (Elimination.start a n).Exact n :=
  ⟨Elimination.isSquare_start a n,
    isExact_of_entries fun _ _ hr hc => ⟨_, Elimination.entry_start_work a hr hc⟩,
    isExact_of_entries fun _ _ hr hc => ⟨_, entry_ofFn _ hr hc⟩⟩

/-- A step does the same to the numbers in both tables. -/
theorem Elimination.entry_pivot (hs : s.Exact n) (hk : k < n) (hrow : row < n) (hr : r < n)
    (c : Nat) :
    let pivot := s.work.values row k
    let f := fun r => s.work.values (exchanged k row r) k
    (s.pivot k row).work.entry r c = ofScalar (reduced s.work.values k row pivot f r c) ∧
      (s.pivot k row).inverse.entry r c =
        ofScalar (reduced s.inverse.values k row pivot f r c) := by
  obtain ⟨⟨hp, -, hp', -⟩, hwork, hinverse⟩ := hs
  subst hp
  have hpivot : (s.work.swapRows k row).entry k k = ofScalar (s.work.values row k) := by
    rw [entry_swapRows hk hrow, hwork, exchanged_left]
  have hfactor : ∀ r, r ≠ k →
      ((s.work.swapRows k row).divideRow k (ofScalar (s.work.values row k))).entry r k =
        ofScalar (s.work.values (exchanged k row r) k) := by
    intro r hne
    rw [entry_divideRow_rat hwork hk hrow, if_neg hne]
  unfold Elimination.pivot
  simp only [hpivot]
  exact ⟨entry_reduced hwork hk hrow hfactor hr c,
    entry_reduced hinverse (hp'.symm ▸ hk) (hp'.symm ▸ hrow) hfactor (hp'.symm ▸ hr) c⟩

theorem Elimination.Exact.pivot (hs : s.Exact n) (hk : k < n) (hrow : row < n) :
    (s.pivot k row).Exact n := by
  have hsquare := hs.square.pivot k row
  refine ⟨hsquare, isExact_of_entries fun r c hr _ => ?_, isExact_of_entries fun r c hr _ => ?_⟩
  · exact ⟨_, (Elimination.entry_pivot hs hk hrow (hsquare.rows_work ▸ hr) c).1⟩
  · exact ⟨_, (Elimination.entry_pivot hs hk hrow (hsquare.rows_inverse ▸ hr) c).2⟩

/-- The work table is the product of the inverse table and the matrix, and its first columns are
those of the identity. -/
structure Elimination.Reduces (a : DenseMatrix Rat) (n : Nat) (s : Elimination Rat) (k : Nat) :
    Prop where
  product : ∀ r c, r < n → c < n →
    s.work.values r c = ∑ j ∈ Finset.range n, s.inverse.values r j * a.entry j c
  columns : ∀ r c, r < n → c < k → s.work.values r c = if r = c then 1 else 0

theorem Elimination.reduces_start (a : DenseMatrix Rat) (n : Nat) :
    (Elimination.start a n).Reduces a n 0 := by
  refine ⟨fun r c hr hc => ?_, nofun⟩
  have hterms : ∀ j ∈ Finset.range n, (Elimination.start a n).inverse.values r j * a.entry j c =
      if r = j then a.entry j c else 0 := by
    intro j hj
    unfold values
    rw [Elimination.entry_start_inverse a hr (Finset.mem_range.mp hj)]
    split_ifs
    · exact one_mul _
    · exact zero_mul _
  rw [Finset.sum_congr rfl hterms, Finset.sum_ite_eq, if_pos (Finset.mem_range.mpr hr), values,
    Elimination.entry_start_work a hr hc]
  rfl

/-- A row operation on both factors' side keeps a product. -/
theorem reduced_product {x y : Nat → Nat → Rat} {pivot : Rat} {f : Nat → Rat}
    (h : ∀ r, r < n → x r c = ∑ j ∈ Finset.range n, y r j * a.entry j c)
    (hk : k < n) (hrow : row < n) (hr : r < n) :
    reduced x k row pivot f r c =
      ∑ j ∈ Finset.range n, reduced y k row pivot f r j * a.entry j c := by
  have hsource : x row c / pivot = ∑ j ∈ Finset.range n, y row j / pivot * a.entry j c := by
    rw [h row hrow, Finset.sum_div]
    exact Finset.sum_congr rfl fun j _ => (div_mul_eq_mul_div _ _ _).symm
  unfold reduced
  split_ifs
  · exact hsource
  · rw [h _ (exchanged_lt hk hrow hr), hsource, Finset.mul_sum, ← Finset.sum_sub_distrib]
    exact Finset.sum_congr rfl fun j _ => by ring

/-- A step clears one more column and leaves the columns before it as they are. -/
theorem reduced_column {x : Nat → Nat → Rat} (hrow : row < n) (hle : k ≤ row)
    (hpivot : x row k ≠ 0) (hcolumns : ∀ r c, r < n → c < k → x r c = if r = c then 1 else 0)
    (hr : r < n) (hc : c < k + 1) :
    reduced x k row (x row k) (fun r => x (exchanged k row r) k) r c = if r = c then 1 else 0 := by
  unfold reduced
  rcases Nat.lt_succ_iff_lt_or_eq.mp hc with hc | rfl
  · have hsource : x row c = 0 := by rw [hcolumns row c hrow hc, if_neg (by omega)]
    rw [hsource, zero_div]
    split_ifs with hrk hrc hrc
    · omega
    · rfl
    · rw [mul_zero, sub_zero, hcolumns _ c (exchanged_lt (by omega) hrow hr) hc, if_pos]
      unfold exchanged
      split_ifs <;> omega
    · rw [mul_zero, sub_zero, hcolumns _ c (exchanged_lt (by omega) hrow hr) hc, if_neg]
      unfold exchanged
      split_ifs <;> omega
  · rw [div_self hpivot, mul_one, sub_self]

theorem Elimination.Reduces.pivot (h : s.Reduces a n k) (hs : s.Exact n) (hle : k ≤ row)
    (hrow : row < n) (hpivot : s.work.values row k ≠ 0) : (s.pivot k row).Reduces a n (k + 1) := by
  have hk : k < n := Nat.lt_of_le_of_lt hle hrow
  have hvalues : ∀ r, r < n → ∀ c,
      (s.pivot k row).work.values r c = reduced s.work.values k row (s.work.values row k)
        (fun r => s.work.values (exchanged k row r) k) r c ∧
      (s.pivot k row).inverse.values r c = reduced s.inverse.values k row (s.work.values row k)
        (fun r => s.work.values (exchanged k row r) k) r c := fun r hr c =>
    ⟨congrArg DoubleDouble.value (Elimination.entry_pivot hs hk hrow hr c).1,
      congrArg DoubleDouble.value (Elimination.entry_pivot hs hk hrow hr c).2⟩
  refine ⟨fun r c hr hc => ?_, fun r c hr hc => ?_⟩
  · rw [(hvalues r hr c).1, reduced_product (fun r hr => h.product r c hr hc) hk hrow hr]
    exact Finset.sum_congr rfl fun j _ => by rw [(hvalues r hr j).2]
  · rw [(hvalues r hr c).1]
    exact reduced_column hrow hle hpivot h.columns hr hc

/-- A pivot exceeds the tolerance, so that it is not zero. -/
theorem values_ne_zero_of_isPivot (htolerance : 0 ≤ tolerance)
    (h : IsPivot s.work tolerance k row) : s.work.values row k ≠ 0 := by
  intro hzero
  rcases h.accepted with hlarge | hnan
  · change s.work.values row k = 0 at hzero
    rw [show (s.work.entry row k).value = 0 from hzero] at hlarge
    exact absurd hlarge (not_lt.mpr htolerance)
  · cases hnan

theorem Elimination.Reduces.through (htolerance : 0 ≤ tolerance) (h : s.Reduces a n k)
    (hs : s.Exact n) {m : Nat}
    (hrun : Elimination.through tolerance (List.range' k m) s = .ok s') :
    s'.Exact n ∧ s'.Reduces a n (k + m) := by
  refine Elimination.invariant_through (I := fun k s => s.Exact n ∧ s.Reduces a n k)
    (fun k s row hstate hsearch => ?_) ⟨hs, h⟩ hrun
  obtain ⟨hs, h⟩ := hstate
  have hpivot := isPivot_of_pivotRow? hsearch
  have hrow : row < n := hs.square.rows_work ▸ hpivot.inside
  exact ⟨hs.pivot (Nat.lt_of_le_of_lt hpivot.unused hrow) hrow,
    h.pivot hs hpivot.unused hrow (values_ne_zero_of_isPivot htolerance hpivot)⟩

end Steps

section Inverses

variable {a b : DenseMatrix Rat} {w : DenseMatrix (DoubleDouble Rat)} {tolerance : Rat} {n : Nat}

/-- The leading block of a matrix, over a finite type of indices. -/
def block (n : Nat) (a : DenseMatrix Rat) : Matrix (Fin n) (Fin n) Rat :=
  Matrix.of fun i j => a.entry i j

theorem block_mul_eq_one_iff : block n a * block n b = 1 ↔
    ∀ r c, r < n → c < n →
      ∑ k ∈ Finset.range n, a.entry r k * b.entry k c = if r = c then 1 else 0 := by
  have hentry : ∀ i j : Fin n, (block n a * block n b) i j =
      ∑ k ∈ Finset.range n, a.entry i k * b.entry k j := fun i j => by
    rw [Matrix.mul_apply, Finset.sum_range]
    rfl
  rw [← Matrix.ext_iff]
  simp only [hentry, Matrix.one_apply, Fin.ext_iff]
  exact ⟨fun h r c hr hc => h ⟨r, hr⟩ ⟨c, hc⟩, fun h i j => h i j i.isLt j.isLt⟩

theorem eq_of_block_eq (hrows : a.rows = n) (hcols : a.cols = n) (hrows' : b.rows = n)
    (hcols' : b.cols = n) (h : block n a = block n b) : a = b := by
  refine ext_entry (hrows.trans hrows'.symm) (hcols.trans hcols'.symm) fun r c hr hc => ?_
  exact congrFun (congrFun h ⟨r, hrows ▸ hr⟩) ⟨c, hcols ▸ hc⟩

/-- The product of two square matrices is the identity if that of their blocks is. -/
theorem multiply_eq_identity (hrows : a.rows = n) (hcols : a.cols = n) (hrows' : b.rows = n)
    (hcols' : b.cols = n) (h : block n a * block n b = 1) : a.multiply b = .ok (identity n) := by
  rw [multiply_eq_product (hcols.trans hrows'.symm)]
  refine congrArg _ (ext_entry hrows hcols' fun r c hr hc => ?_)
  have hr : r < a.rows := hr
  have hc : c < b.cols := hc
  rw [entry_product hr hc, dot_rat, hcols,
    block_mul_eq_one_iff.mp h r c (hrows ▸ hr) (hcols' ▸ hc)]
  unfold identity diagonal
  rw [entry_ofFn _ (hrows ▸ hr) (hcols' ▸ hc)]

theorem entry_map_value (w : DenseMatrix (DoubleDouble Rat)) (r c : Nat) :
    (w.map DoubleDouble.value).entry r c = w.values r c := by
  show (if r < w.rows ∧ c < w.cols then (w.cells.map DoubleDouble.value)[r * w.cols + c]?
    else none).getD 0 = ((if r < w.rows ∧ c < w.cols then w.cells[r * w.cols + c]?
    else none).getD 0).value
  split_ifs
  · rw [Array.getElem?_map]
    cases w.cells[r * w.cols + c]? with
    | none => rfl
    | some cell => rfl
  · rfl

/-- What the elimination gives is without error terms, and an inverse from the left. -/
theorem gaussJordan_exact (htolerance : 0 ≤ tolerance) (h : gaussJordan tolerance a n = .ok w) :
    w.IsExact ∧ block n (w.map DoubleDouble.value) * block n a = 1 := by
  obtain ⟨s, hrun, rfl⟩ := gaussJordan_eq_ok_iff.mp h
  unfold Elimination.run at hrun
  rw [List.range_eq_range'] at hrun
  obtain ⟨hexact, hreduces⟩ := (Elimination.reduces_start a n).through htolerance
    (Elimination.exact_start a n) hrun
  rw [Nat.zero_add] at hreduces
  refine ⟨hexact.inverse, block_mul_eq_one_iff.mpr fun r c hr hc => ?_⟩
  rw [← hreduces.columns r c hr hc, hreduces.product r c hr hc]
  exact Finset.sum_congr rfl fun k _ => by rw [entry_map_value]

/-- The offset of the inverse is the offset of the matrix, taken back through the inverse of the
linear part. -/
theorem inverseOffset_rat (hw : w.IsExact) (r : Nat) :
    a.inverseOffset w r = -∑ c ∈ Finset.range w.rows, w.values r c * a.entry c w.rows := by
  have hterm : ∀ s c, (if (a.entry c w.rows == 0 || (w.entry r c).isZero) = true then ofScalar s
      else ofScalar s + w.entry r c * ofScalar (a.entry c w.rows)) =
        ofScalar (s + w.values r c * a.entry c w.rows) := by
    intro s c
    rw [hw]
    split_ifs with hskip
    · have hzero : w.values r c * a.entry c w.rows = 0 := by
        rw [Bool.or_eq_true, beq_iff_eq, isZero_exact] at hskip
        exact mul_eq_zero.mpr hskip.symm
      rw [hzero, add_zero]
    · rw [mul_exact, add_exact]
  have hsum := foldl_range_rat
    (fun sum c => if a.entry c w.rows == 0 || (w.entry r c).isZero then sum
      else sum + w.entry r c * ofScalar (a.entry c w.rows))
    (fun c => w.values r c * a.entry c w.rows) hterm w.rows 0
  rw [zero_add] at hsum
  exact congrArg (fun total : DoubleDouble Rat => (-total).value) hsum

theorem entry_last_rat (ha : a.isAffine = true) (hrows : a.rows = n + 1) (hcols : a.cols = n + 1)
    {c : Nat} (hc : c < n + 1) : a.entry n c = if c = n then 1 else 0 := by
  have hlast := same_rat_iff.mp ((isAffine_iff.mp ha).2.2 c (hcols.symm ▸ hc))
  rw [hrows, Nat.add_sub_cancel, lastRow, hcols] at hlast
  simpa using hlast

/-- The affine matrix with the inverse of the linear part is an inverse from the left. -/
theorem affineInverse_mul (ha : a.isAffine = true) (hrows : a.rows = n + 1)
    (hcols : a.cols = n + 1) (hw : w.IsExact) (hn : w.rows = n)
    (h : block n (w.map DoubleDouble.value) * block n a = 1) :
    block (n + 1) (affineInverse a w) * block (n + 1) a = 1 := by
  subst hn
  have hlast : ∀ c, c < w.rows + 1 → a.entry w.rows c = if c = w.rows then 1 else 0 := fun c hc =>
    entry_last_rat ha hrows hcols hc
  refine block_mul_eq_one_iff.mpr fun r c hr hc => ?_
  rw [Finset.sum_range_succ, hlast c hc]
  rcases Nat.lt_succ_iff_lt_or_eq.mp hr with hr | rfl
  · have hlinear : ∑ k ∈ Finset.range w.rows, (affineInverse a w).entry r k * a.entry k c =
        ∑ k ∈ Finset.range w.rows, w.values r k * a.entry k c :=
      Finset.sum_congr rfl fun k hk => by
        rw [entry_affineInverse hr (Finset.mem_range.mp hk)]
        rfl
    rw [hlinear, entry_affineInverse_offset hr, inverseOffset_rat hw]
    rcases Nat.lt_succ_iff_lt_or_eq.mp hc with hc | rfl
    · have hentry := block_mul_eq_one_iff.mp h r c hr hc
      simp only [entry_map_value] at hentry
      rw [hentry, if_neg (Nat.ne_of_lt hc), mul_zero, add_zero]
    · rw [if_pos rfl, mul_one, add_neg_cancel, if_neg (by omega)]
  · have hzero : ∀ k ∈ Finset.range w.rows,
        (affineInverse a w).entry w.rows k * a.entry k c = 0 := by
      intro k hk
      have hk := Finset.mem_range.mp hk
      rw [entry_affineInverse_last (by omega), if_pos hk, zero_mul]
    rw [Finset.sum_eq_zero hzero, zero_add, entry_affineInverse_last (by omega),
      if_neg (Nat.lt_irrefl _), one_mul]
    simp only [eq_comm]

/-- What is found to be the inverse of a matrix has its shape, and is an inverse from the left. -/
theorem inverseWithin_mul {tolerance : DenseMatrix Rat → Nat → Rat}
    (htolerance : ∀ m n, 0 ≤ tolerance m n) (h : a.inverseWithin tolerance = .ok b) :
    a.cols = a.rows ∧ b.rows = a.rows ∧ b.cols = a.rows ∧
      block a.rows b * block a.rows a = 1 := by
  by_cases haffine : a.isAffine = true
  · obtain ⟨hsquare, w, hw, rfl⟩ := (inverseWithin_eq_ok_iff haffine).mp h
    have hdim : a.rows = a.rows - 1 + 1 := (Nat.sub_add_cancel (isAffine_rows_pos haffine)).symm
    have hrows : w.rows + 1 = a.rows := by rw [rows_gaussJordan hw, ← hdim]
    obtain ⟨hexact, hleft⟩ := gaussJordan_exact (htolerance _ _) hw
    refine ⟨hsquare.symm, hrows, hrows, ?_⟩
    rw [hdim]
    exact affineInverse_mul haffine hdim (hsquare ▸ hdim) hexact (rows_gaussJordan hw) hleft
  · obtain ⟨hsquare, w, hw, rfl⟩ :=
      (inverseWithin_eq_ok_iff_of_isAffine_eq_false (by simpa using haffine)).mp h
    exact ⟨hsquare.symm, rows_gaussJordan hw, cols_gaussJordan hw,
      (gaussJordan_exact (htolerance _ _) hw).2⟩

/-- An inverse that is found is one on both sides, so that no singular matrix has one, and it does
not depend on whether the matrix is eliminated as a whole. -/
theorem inverseWithin_exact {tolerance : DenseMatrix Rat → Nat → Rat}
    (htolerance : ∀ m n, 0 ≤ tolerance m n) (h : a.inverseWithin tolerance = .ok b) :
    a.multiply b = .ok (identity a.rows) ∧ b.multiply a = .ok (identity a.rows) ∧
      (block a.rows a).det ≠ 0 ∧
      ∀ t w, 0 ≤ t → gaussJordan t a a.rows = .ok w → w.map DoubleDouble.value = b := by
  obtain ⟨hcols, hrows', hcols', hleft⟩ := inverseWithin_mul htolerance h
  have hright : block a.rows a * block a.rows b = 1 := mul_eq_one_comm.mp hleft
  refine ⟨multiply_eq_identity rfl hcols hrows' hcols' hright,
    multiply_eq_identity hrows' hcols' rfl hcols hleft, ?_, fun t w ht hw => ?_⟩
  · exact Matrix.det_ne_zero_of_left_inverse hleft
  · have hwhole := (gaussJordan_exact ht hw).2
    exact eq_of_block_eq (rows_gaussJordan hw) (cols_gaussJordan hw) hrows' hcols'
      (left_inv_eq_right_inv hwhole hright)

/-- An affine matrix whose first pivot is zero, so that rows have to be exchanged. -/
def exchangingAffine : DenseMatrix Rat :=
  ofFn 3 3 fun r c => ([[0, 2, 4], [1, 3, 5], [0, 0, 1]].getD r []).getD c 0

/-- The linear part and the whole matrix are eliminated to the same inverse. -/
theorem inverseWithin_exchangingAffine :
    (∀ m n, 0 ≤ (fun _ _ => 0 : DenseMatrix Rat → Nat → Rat) m n) ∧
      ∃ b w, exchangingAffine.inverseWithin (fun _ _ => 0) = .ok b ∧
        exchangingAffine.multiply b = .ok (identity 3) ∧
        b.multiply exchangingAffine = .ok (identity 3) ∧
        gaussJordan 0 exchangingAffine 3 = .ok w ∧ w.map DoubleDouble.value = b := by
  have htolerance : ∀ m n, 0 ≤ (fun _ _ => 0 : DenseMatrix Rat → Nat → Rat) m n :=
    fun _ _ => le_refl 0
  obtain ⟨b, hb⟩ := exists_ok_of_isOk (x := exchangingAffine.inverseWithin fun _ _ => 0)
    (by decide +kernel)
  obtain ⟨w, hw⟩ := exists_ok_of_isOk (x := gaussJordan 0 exchangingAffine 3) (by decide +kernel)
  obtain ⟨hright, hleft, -, hwhole⟩ := inverseWithin_exact htolerance hb
  exact ⟨htolerance, b, w, hb, hright, hleft, hw, hwhole 0 w (le_refl 0) hw⟩

end Inverses

end DenseMatrix
end SeparableTransforms
