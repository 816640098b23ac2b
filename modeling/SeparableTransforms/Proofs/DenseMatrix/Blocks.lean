import Mathlib.Data.List.Basic
import SeparableTransforms.Proofs.DenseMatrix.Elimination
import SeparableTransforms.Proofs.Outcome

/-!
# Eliminations side by side

If the work table consists of two blocks on the diagonal, with zeros elsewhere, an
elimination works on one block after the other.  The cells outside the blocks are
never written: a row is only divided where it is not zero, and a multiple of a row is
only subtracted where neither the row nor the multiple is zero.  A row of the other
block is never taken as a pivot, since its cell in the pivot column is zero and a
zero does not exceed the tolerance.

Both blocks are held against the same tolerance.  Apart from that the result for one
block does not depend on the other: `Elimination.run_beside`.
-/

namespace SeparableTransforms

universe u

open Outcome

/-- Scalars that can be searched for pivots and divided by them: no magnitude is under that of zero,
one is divided by one without an error, and nothing is divided by `NaN`. -/
class PivotScalar (α : Type u) [Scalar α] : Prop where
  same_neg_zero : Same (-0 : α) 0
  not_abs_lt (a : α) : ¬Scalar.abs a < Scalar.abs 0
  one_div_one : (1 : DoubleDouble α) / 1 = 1
  isNaN_div {b : α} (a : α) : Scalar.isNaN b = true → Scalar.isNaN (a / b) = true

namespace DenseMatrix

section Tables

variable {β : Type u} [Zero β] {t x y : DenseMatrix β} {p q r c : Nat}

/-- Two tables on the diagonal, with zeros elsewhere. -/
def beside (x y : DenseMatrix β) : DenseMatrix β :=
  ofFn (x.rows + y.rows) (x.cols + y.cols) fun r c =>
    if r < x.rows then x.entry r c
    else if c < x.cols then 0 else y.entry (r - x.rows) (c - x.cols)

@[simp] theorem rows_beside : (beside x y).rows = x.rows + y.rows :=
  rfl

@[simp] theorem cols_beside : (beside x y).cols = x.cols + y.cols :=
  rfl

theorem entry_beside_upper (hr : r < x.rows) (c : Nat) : (beside x y).entry r c = x.entry r c := by
  by_cases hc : c < x.cols + y.cols
  · unfold beside
    rw [entry_ofFn _ (by omega) hc, if_pos hr]
  · rw [entry_eq_zero fun h => hc h.2, entry_eq_zero fun h => hc (by omega)]

theorem entry_beside_corner (hp : x.rows = p) (hq : x.cols = q) (r : Nat) (hc : c < q) :
    (beside x y).entry (p + r) c = 0 := by
  subst hp hq
  by_cases hr : r < y.rows
  · unfold beside
    rw [entry_ofFn _ (by omega) (by omega), if_neg (by omega), if_pos hc]
  · exact entry_eq_zero fun h => hr (Nat.lt_of_add_lt_add_left h.1)

theorem entry_beside_lower (hp : x.rows = p) (hq : x.cols = q) (r c : Nat) :
    (beside x y).entry (p + r) (q + c) = y.entry r c := by
  subst hp hq
  by_cases hplace : r < y.rows ∧ c < y.cols
  · unfold beside
    rw [entry_ofFn _ (by omega) (by omega), if_neg (by omega), if_neg (by omega),
      Nat.add_sub_cancel_left, Nat.add_sub_cancel_left]
  · have hout : ¬(x.rows + r < (beside x y).rows ∧ x.cols + c < (beside x y).cols) := by
      rw [rows_beside, cols_beside]
      omega
    rw [entry_eq_zero hout, entry_eq_zero hplace]

/-- A table is made of two blocks if its cells are theirs, and zeros elsewhere. -/
theorem eq_beside (hp : x.rows = p) (hq : x.cols = q) (hrows : t.rows = p + y.rows)
    (hcols : t.cols = q + y.cols)
    (hupper : ∀ r c, r < p → t.entry r c = x.entry r c)
    (hcorner : ∀ r c, r < y.rows → c < q → t.entry (p + r) c = 0)
    (hlower : ∀ r c, r < y.rows → t.entry (p + r) (q + c) = y.entry r c) : t = beside x y := by
  refine ext_entry (by rw [hrows, rows_beside, hp]) (by rw [hcols, cols_beside, hq])
    fun r c hr hc => ?_
  rw [hrows] at hr
  rcases Nat.lt_or_ge r p with hr' | hr'
  · rw [entry_beside_upper (hp.symm ▸ hr'), hupper r c hr']
  · obtain ⟨r, rfl⟩ := Nat.exists_eq_add_of_le hr'
    rcases Nat.lt_or_ge c q with hc' | hc'
    · rw [entry_beside_corner hp hq r hc', hcorner r c (by omega) hc']
    · obtain ⟨c, rfl⟩ := Nat.exists_eq_add_of_le hc'
      rw [entry_beside_lower hp hq, hlower r c (by omega)]

end Tables

section Rows

variable {α : Type u} [Scalar α] {x y : DenseMatrix (DoubleDouble α)} {a b k p q : Nat}
  {divisor : DoubleDouble α} {factor factor' : Nat → DoubleDouble α}

theorem swapRows_beside_left (hp : x.rows = p) (hq : x.cols = q) (ha : a < p) (hb : b < p) :
    (beside x y).swapRows a b = beside (x.swapRows a b) y := by
  have hother : ∀ r, exchanged a b (p + r) = p + r := by
    intro r
    unfold exchanged
    rw [if_neg (by omega), if_neg (by omega)]
  have hrows : (beside x y).rows = p + y.rows := by rw [rows_beside, hp]
  have hentry := entry_swapRows (m := beside x y) (a := a) (b := b) (by omega) (by omega)
  refine eq_beside (x := x.swapRows a b) hp hq hrows (congrArg (· + y.cols) hq)
    (fun r c hr => ?_) (fun r c _ hc => ?_) fun r c _ => ?_
  · rw [hentry, entry_beside_upper (hp.symm ▸ exchanged_lt ha hb hr),
      entry_swapRows (hp.symm ▸ ha) (hp.symm ▸ hb)]
  · rw [hentry, hother, entry_beside_corner hp hq r hc]
  · rw [hentry, hother, entry_beside_lower hp hq]

theorem swapRows_beside_right (hp : x.rows = p) (hq : x.cols = q) (ha : a < y.rows)
    (hb : b < y.rows) :
    (beside x y).swapRows (p + a) (p + b) = beside x (y.swapRows a b) := by
  have hother : ∀ r, r < p → exchanged (p + a) (p + b) r = r := by
    intro r hr
    unfold exchanged
    rw [if_neg (by omega), if_neg (by omega)]
  have hsame : ∀ r, exchanged (p + a) (p + b) (p + r) = p + exchanged a b r := by
    intro r
    unfold exchanged
    split_ifs <;> omega
  have hrows : (beside x y).rows = p + y.rows := by rw [rows_beside, hp]
  have hentry := entry_swapRows (m := beside x y) (a := p + a) (b := p + b) (by omega) (by omega)
  refine eq_beside hp hq hrows (congrArg (· + y.cols) hq)
    (fun r c hr => ?_) (fun r c _ hc => ?_) fun r c _ => ?_
  · rw [hentry, hother r hr, entry_beside_upper (hp.symm ▸ hr)]
  · rw [hentry, hsame, entry_beside_corner hp hq _ hc]
  · rw [hentry, hsame, entry_beside_lower hp hq, entry_swapRows ha hb]

variable [LawfulScalar α]

theorem divideRow_beside_left (hp : x.rows = p) (hq : x.cols = q) (hk : k < p) :
    (beside x y).divideRow k divisor = beside (x.divideRow k divisor) y := by
  refine eq_beside (x := x.divideRow k divisor) hp hq (congrArg (· + y.rows) hp)
    (congrArg (· + y.cols) hq) (fun r c hr => ?_) (fun r c _ hc => ?_) fun r c _ => ?_
  · rw [entry_divideRow, entry_divideRow, entry_beside_upper (hp.symm ▸ hr)]
  · rw [entry_divideRow, if_neg (by omega), entry_beside_corner hp hq r hc]
  · rw [entry_divideRow, if_neg (by omega), entry_beside_lower hp hq]

theorem divideRow_beside_right (hp : x.rows = p) (hq : x.cols = q) (k : Nat) :
    (beside x y).divideRow (p + k) divisor = beside x (y.divideRow k divisor) := by
  refine eq_beside hp hq (congrArg (· + y.rows) hp)
    (congrArg (· + y.cols) hq) (fun r c hr => ?_) (fun r c _ hc => ?_) fun r c _ => ?_
  · rw [entry_divideRow, if_neg (by omega), entry_beside_upper (hp.symm ▸ hr)]
  · rw [entry_divideRow, entry_beside_corner hp hq r hc, if_neg (by simp)]
  · simp only [entry_divideRow, entry_beside_lower hp hq, Nat.add_left_cancel_iff]

theorem eliminateRows_beside_left (hp : x.rows = p) (hq : x.cols = q) (hk : k < p)
    (hsame : ∀ r, r < p → factor r = factor' r)
    (hother : ∀ r, (factor (p + r)).isZero = true) :
    (beside x y).eliminateRows k factor = beside (x.eliminateRows k factor') y := by
  have hrows : (beside x y).rows = p + y.rows := by rw [rows_beside, hp]
  refine eq_beside (x := x.eliminateRows k factor') hp hq hrows
    (congrArg (· + y.cols) hq) (fun r c hr => ?_) (fun r c hr hc => ?_) fun r c hr => ?_
  · rw [entry_eliminateRows (by omega), entry_eliminateRows (hp.symm ▸ hr),
      entry_beside_upper (hp.symm ▸ hk), entry_beside_upper (hp.symm ▸ hr), hsame r hr]
  · rw [entry_eliminateRows (by omega), if_pos (.inr (.inl (hother r))),
      entry_beside_corner hp hq r hc]
  · rw [entry_eliminateRows (by omega), if_pos (.inr (.inl (hother r))),
      entry_beside_lower hp hq]

theorem eliminateRows_beside_right (hp : x.rows = p) (hq : x.cols = q) (k : Nat)
    (hsame : ∀ r, factor (p + r) = factor' r)
    (hother : ∀ r, r < p → (factor r).isZero = true) :
    (beside x y).eliminateRows (p + k) factor = beside x (y.eliminateRows k factor') := by
  have hrows : (beside x y).rows = p + y.rows := by rw [rows_beside, hp]
  refine eq_beside hp hq hrows (congrArg (· + y.cols) hq)
    (fun r c hr => ?_) (fun r c hr hc => ?_) fun r c hr => ?_
  · rw [entry_eliminateRows (by omega), if_pos (.inr (.inl (hother r hr))),
      entry_beside_upper (hp.symm ▸ hr)]
  · rw [rows_eliminateRows] at hr
    rw [entry_eliminateRows (by omega), entry_beside_corner hp hq r hc,
      entry_beside_corner hp hq k hc, if_pos (.inr (.inr DoubleDouble.isZero_zero))]
  · rw [rows_eliminateRows] at hr
    rw [entry_eliminateRows (by omega), entry_eliminateRows hr,
      entry_beside_lower hp hq, entry_beside_lower hp hq, hsame r]
    simp only [Nat.add_left_cancel_iff]

end Rows

section Search

variable {α : Type u} [Scalar α] {x y work : DenseMatrix (DoubleDouble α)} {search : PivotSearch α}
  {tolerance : α} {a k p r : Nat} {v : α}

/-- A search with all row numbers increased. -/
def PivotSearch.shift (a : Nat) (search : PivotSearch α) : PivotSearch α :=
  ⟨search.best.map fun found => (a + found.1, found.2), search.undetermined.map (a + ·)⟩

theorem PivotSearch.visit_shift :
    (search.shift a).visit (a + r) v = (search.visit r v).shift a := by
  obtain ⟨best, undetermined⟩ := search
  unfold PivotSearch.visit PivotSearch.shift
  cases Scalar.isNaN v with
  | true => cases undetermined <;> simp
  | false =>
      cases best with
      | none => simp
      | some found =>
          simp only [Bool.false_eq_true, if_false, Option.map_some]
          split_ifs <;> simp

theorem PivotSearch.chosen_shift :
    (search.shift a).chosen tolerance = (search.chosen tolerance).map (a + ·) := by
  obtain ⟨best, undetermined⟩ := search
  unfold PivotSearch.chosen PivotSearch.shift
  cases best with
  | none => rfl
  | some found =>
      simp only [Option.map_some]
      split_ifs <;> rfl

theorem PivotSearch.through_shift {rows : List Nat} {k' : Nat}
    (h : ∀ r, work.entry (a + r) k' = x.entry r k) (search : PivotSearch α) :
    (search.shift a).through work k' (rows.map (a + ·)) = (search.through x k rows).shift a := by
  unfold PivotSearch.through
  rw [List.foldl_map]
  induction rows generalizing search with
  | nil => rfl
  | cons r rows ih => rw [List.foldl_cons, List.foldl_cons, h, visit_shift, ih]

/-- The pivots of the lower block are found in the lower block. -/
theorem pivotRow?_beside_right (hp : x.rows = p) (hq : x.cols = p) (k : Nat) :
    pivotRow? (beside x y) tolerance (p + k) = (pivotRow? y tolerance k).map (p + ·) := by
  have hrange : (List.range (beside x y).rows).drop (p + k) =
      ((List.range y.rows).drop k).map (p + ·) := by
    rw [rows_beside, hp, List.range_add, List.map_drop, ← List.drop_drop]
    congr 1
    exact List.drop_left' (by simp)
  rw [pivotRow?_eq, pivotRow?_eq, hrange, ← PivotSearch.chosen_shift,
    ← PivotSearch.through_shift fun r => entry_beside_lower hp hq r k]
  rfl

variable [LawfulScalar α] [PivotScalar α]

/-- Zeros in the pivot column do not change what is found. -/
theorem PivotSearch.chosen_through_zeros {rows : List Nat}
    (hzeros : ∀ r ∈ rows, work.entry r k = 0)
    (hbest : ∀ r magnitude, search.best = some (r, magnitude) → ¬magnitude < Scalar.abs 0)
    (htolerance : ¬tolerance < Scalar.abs 0) :
    (search.through work k rows).chosen tolerance = search.chosen tolerance := by
  induction rows generalizing search with
  | nil => rfl
  | cons r rows ih =>
      have hzero : (work.entry r k).value = 0 := by
        rw [hzeros r List.mem_cons_self]
        rfl
      have hrest : ∀ r ∈ rows, work.entry r k = 0 := fun r hr =>
        hzeros r (List.mem_cons_of_mem _ hr)
      obtain ⟨best, undetermined⟩ := search
      show ((PivotSearch.visit ⟨best, undetermined⟩ r (work.entry r k).value).through work k
        rows).chosen tolerance = _
      unfold PivotSearch.visit
      rw [hzero, LawfulScalar.isNaN_zero, if_neg Bool.false_ne_true]
      cases best with
      | none =>
          -- a zero is the largest magnitude so far, but it is not accepted
          have hfound : ∀ r' magnitude, some (r, Scalar.abs (0 : α)) = some (r', magnitude) →
              ¬magnitude < Scalar.abs 0 := by
            intro r' magnitude heq
            cases heq
            exact PivotScalar.not_abs_lt 0
          rw [ih hrest hfound]
          simp [PivotSearch.chosen, htolerance]
      | some found =>
          simp only [if_neg (hbest found.1 found.2 rfl)]
          exact ih hrest hbest

/-- The pivots of the upper block are found in the upper block. -/
theorem pivotRow?_beside_left (hp : x.rows = p) (hq : x.cols = p) (hk : k < p)
    (htolerance : ¬tolerance < Scalar.abs 0) :
    pivotRow? (beside x y) tolerance k = pivotRow? x tolerance k := by
  have hrange : (List.range (beside x y).rows).drop k =
      (List.range x.rows).drop k ++ (List.range y.rows).map (p + ·) := by
    rw [rows_beside, List.range_add, hp, List.drop_append_of_le_length]
    rw [List.length_range]
    exact Nat.le_of_lt hk
  have hupper : PivotSearch.through (beside x y) k ((List.range x.rows).drop k) ⟨none, none⟩ =
      PivotSearch.through x k ((List.range x.rows).drop k) ⟨none, none⟩ := by
    refine List.foldl_ext _ _ _ fun search r hr => ?_
    have hr : r < x.rows := List.mem_range.mp (List.mem_of_mem_drop hr)
    rw [entry_beside_upper hr]
  have hamong : (PivotSearch.through x k ((List.range x.rows).drop k)
      (⟨none, none⟩ : PivotSearch α)).Among x k ((List.range x.rows).drop k) :=
    PivotSearch.among_through ⟨nofun, nofun⟩ fun _ hr => hr
  rw [pivotRow?_eq, pivotRow?_eq, hrange, PivotSearch.through, List.foldl_append]
  change ((PivotSearch.through (beside x y) k _ _).through _ k _).chosen _ = _
  rw [hupper]
  refine PivotSearch.chosen_through_zeros (fun r hr => ?_) (fun r magnitude hbest => ?_) htolerance
  · obtain ⟨r, -, rfl⟩ := List.mem_map.mp hr
    exact entry_beside_corner hp hq r hk
  · rw [(hamong.best r magnitude hbest).2]
    exact PivotScalar.not_abs_lt _

end Search

section Steps

variable {α : Type u} [Scalar α] [LawfulScalar α] {s s' t t' w : Elimination α} {tolerance : α}
  {a b k row : Nat}

/-- Two eliminations side by side. -/
def Elimination.beside (s t : Elimination α) : Elimination α :=
  ⟨DenseMatrix.beside s.work t.work, DenseMatrix.beside s.inverse t.inverse⟩

theorem isZero_beside_corner {x y : DenseMatrix (DoubleDouble α)} (hp : x.rows = a)
    (hq : x.cols = b) (r : Nat) (hk : k < b) :
    ((DenseMatrix.beside x y).entry (a + r) k).isZero = true := by
  rw [entry_beside_corner hp hq r hk]
  exact DoubleDouble.isZero_zero

theorem isZero_beside_beyond {x y : DenseMatrix (DoubleDouble α)} (hp : x.rows = a)
    (hq : x.cols = b) {r : Nat} (hr : r < a) (k : Nat) :
    ((DenseMatrix.beside x y).entry r (b + k)).isZero = true := by
  rw [entry_beside_upper (hp.symm ▸ hr), entry_eq_zero (by omega)]
  exact DoubleDouble.isZero_zero

theorem Elimination.pivot_beside_left (hs : s.IsSquare a) (hk : k < a) (hrow : row < a) :
    (s.beside t).pivot k row = (s.pivot k row).beside t := by
  obtain ⟨hp, hq, hp', hq'⟩ := hs
  have hdivisor : (DenseMatrix.beside (s.work.swapRows k row) t.work).entry k k =
      (s.work.swapRows k row).entry k k := entry_beside_upper (hp.symm ▸ hk) k
  unfold Elimination.pivot Elimination.beside
  simp only [swapRows_beside_left hp hq hk hrow, swapRows_beside_left hp' hq' hk hrow, hdivisor]
  generalize hx : (s.work.swapRows k row) = x
  generalize hy : (s.inverse.swapRows k row) = y
  have hp : x.rows = a := hx ▸ hp
  have hq : x.cols = a := hx ▸ hq
  have hp' : y.rows = a := hy ▸ hp'
  have hq' : y.cols = a := hy ▸ hq'
  rw [divideRow_beside_left hp hq hk, divideRow_beside_left hp' hq' hk]
  -- the rows of the other block have a zero in the pivot column
  have hsame : ∀ r, r < a → (DenseMatrix.beside (x.divideRow k (x.entry k k)) t.work).entry r k =
      (x.divideRow k (x.entry k k)).entry r k := fun r hr => entry_beside_upper (hp.symm ▸ hr) k
  have hother := fun r =>
    isZero_beside_corner (x := x.divideRow k (x.entry k k)) (y := t.work) hp hq r hk
  rw [eliminateRows_beside_left (x := x.divideRow k _) hp hq hk hsame hother,
    eliminateRows_beside_left (x := y.divideRow k _) hp' hq' hk hsame hother]

theorem Elimination.pivot_beside_right (hs : s.IsSquare a) (ht : t.IsSquare b) (hk : k < b)
    (hrow : row < b) : (s.beside t).pivot (a + k) (a + row) = s.beside (t.pivot k row) := by
  obtain ⟨hp, hq, hp', hq'⟩ := hs
  obtain ⟨hwork, -, hinverse, -⟩ := ht
  unfold Elimination.pivot Elimination.beside
  simp only [swapRows_beside_right hp hq (hwork.symm ▸ hk) (hwork.symm ▸ hrow),
    swapRows_beside_right hp' hq' (hinverse.symm ▸ hk) (hinverse.symm ▸ hrow)]
  rw [entry_beside_lower hp hq, divideRow_beside_right hp hq, divideRow_beside_right hp' hq']
  generalize (t.work.swapRows k row).divideRow k _ = x
  -- the rows of the other block have a zero in the pivot column
  have hsame := fun r => entry_beside_lower (y := x) hp hq r k
  have hother := fun r hr => isZero_beside_beyond (y := x) (r := r) hp hq hr k
  rw [eliminateRows_beside_right hp hq k hsame hother,
    eliminateRows_beside_right hp' hq' k hsame hother]

variable [PivotScalar α]

/-- A step in a column of the first block is a step of the first elimination. -/
theorem Elimination.step_beside_left (hs : s.IsSquare a) (hk : k < a)
    (htolerance : ¬tolerance < Scalar.abs 0) :
    (s.beside t).step tolerance k = (fun s' => s'.beside t) <$> s.step tolerance k := by
  have hsearch : pivotRow? (s.beside t).work tolerance k = pivotRow? s.work tolerance k :=
    pivotRow?_beside_left hs.rows_work hs.cols_work hk htolerance
  unfold Elimination.step
  rw [hsearch]
  cases hrow : pivotRow? s.work tolerance k with
  | none => rfl
  | some row =>
      have hinside := (isPivot_of_pivotRow? hrow).inside
      rw [hs.rows_work] at hinside
      simp only [Elimination.pivot_beside_left hs hk hinside]
      rfl

omit [PivotScalar α] in
/-- A step in a column of the second block is a step of the second elimination. -/
theorem Elimination.step_beside_right (hs : s.IsSquare a) (ht : t.IsSquare b) (hk : k < b) :
    (s.beside t).step tolerance (a + k) = (fun t' => s.beside t') <$> t.step tolerance k := by
  have hsearch : pivotRow? (s.beside t).work tolerance (a + k) =
      (pivotRow? t.work tolerance k).map (a + ·) :=
    pivotRow?_beside_right hs.rows_work hs.cols_work k
  unfold Elimination.step
  rw [hsearch]
  cases hrow : pivotRow? t.work tolerance k with
  | none => rfl
  | some row =>
      have hinside := (isPivot_of_pivotRow? hrow).inside
      rw [ht.rows_work] at hinside
      simp only [Option.map_some, Elimination.pivot_beside_right hs ht hk hinside]
      rfl

/-- The columns of the first block are eliminated as in the first elimination. -/
theorem Elimination.through_beside_left {columns : List Nat} (hcolumns : ∀ k ∈ columns, k < a)
    (hs : s.IsSquare a) (htolerance : ¬tolerance < Scalar.abs 0) :
    Elimination.through tolerance columns (s.beside t) =
      (fun s' => s'.beside t) <$> Elimination.through tolerance columns s := by
  induction columns generalizing s with
  | nil => rfl
  | cons k columns ih =>
      rw [Elimination.through_cons, Elimination.through_cons,
        Elimination.step_beside_left hs (hcolumns k List.mem_cons_self) htolerance]
      cases hstep : s.step tolerance k with
      | error e => rfl
      | ok s' => exact ih (fun k hk => hcolumns k (List.mem_cons_of_mem _ hk)) (hs.step hstep)

omit [PivotScalar α] in
/-- The columns of the second block are eliminated as in the second elimination. -/
theorem Elimination.through_beside_right {columns : List Nat} (hcolumns : ∀ k ∈ columns, k < b)
    (hs : s.IsSquare a) (ht : t.IsSquare b) :
    Elimination.through tolerance (columns.map (a + ·)) (s.beside t) =
      (fun t' => s.beside t') <$> Elimination.through tolerance columns t := by
  induction columns generalizing t with
  | nil => rfl
  | cons k columns ih =>
      rw [List.map_cons, Elimination.through_cons, Elimination.through_cons,
        Elimination.step_beside_right hs ht (hcolumns k List.mem_cons_self)]
      cases hstep : t.step tolerance k with
      | error e => rfl
      | ok t' => exact ih (fun k hk => hcolumns k (List.mem_cons_of_mem _ hk)) (ht.step hstep)

/-- Eliminations side by side do not meet. -/
theorem Elimination.run_beside (hs : s.IsSquare a) (ht : t.IsSquare b)
    (htolerance : ¬tolerance < Scalar.abs 0) :
    (s.beside t).run tolerance (a + b) = (do
      let s' ← s.run tolerance a
      let t' ← t.run tolerance b
      return s'.beside t') := by
  unfold Elimination.run
  rw [List.range_add, Elimination.through_append,
    Elimination.through_beside_left (fun k => List.mem_range.mp) hs htolerance]
  cases hrun : Elimination.through tolerance (List.range a) s with
  | error e => rfl
  | ok s' =>
      show Elimination.through tolerance _ (s'.beside t) = _
      rw [Elimination.through_beside_right (fun k => List.mem_range.mp) (hs.through hrun) ht]
      cases Elimination.through tolerance (List.range b) t <;> rfl

end Steps

section Units

variable {α : Type u} [Scalar α] [LawfulScalar α] [PivotScalar α] {tolerance : α} {k n : Nat}

/-- The table with ones on the diagonal. -/
def unitTable (n : Nat) : DenseMatrix (DoubleDouble α) :=
  ofFn n n fun r c => if r = c then 1 else 0

/-- An elimination that has nothing to do. -/
def Elimination.unit (n : Nat) : Elimination α :=
  ⟨unitTable n, unitTable n⟩

omit [LawfulScalar α] [PivotScalar α] in
theorem Elimination.isSquare_unit (n : Nat) : (Elimination.unit n : Elimination α).IsSquare n :=
  ⟨rfl, rfl, rfl, rfl⟩

omit [LawfulScalar α] [PivotScalar α] in
theorem entry_unitTable {r c : Nat} (hr : r < n) (hc : c < n) :
    (unitTable n : DenseMatrix (DoubleDouble α)).entry r c = if r = c then 1 else 0 :=
  entry_ofFn _ hr hc

omit [LawfulScalar α] [PivotScalar α] in
theorem swapRows_self (m : DenseMatrix (DoubleDouble α)) (hk : k < m.rows) :
    m.swapRows k k = m := by
  have hself : ∀ r, exchanged k k r = r := fun r => by
    unfold exchanged
    split_ifs <;> omega
  refine ext_entry rfl rfl fun r c _ _ => ?_
  rw [entry_swapRows hk hk, hself]

theorem divideRow_unitTable (k : Nat) :
    (unitTable n : DenseMatrix (DoubleDouble α)).divideRow k 1 = unitTable n := by
  refine ext_entry rfl rfl fun r c hr hc => ?_
  have hr : r < n := hr
  have hc : c < n := hc
  rw [entry_divideRow, entry_unitTable hr hc]
  by_cases hdiagonal : r = c
  · rw [if_pos hdiagonal]
    split_ifs
    · exact PivotScalar.one_div_one
    · rfl
  · rw [if_neg hdiagonal, if_neg (by simp)]

omit [PivotScalar α] in
theorem eliminateRows_unitTable (hk : k < n) :
    (unitTable n : DenseMatrix (DoubleDouble α)).eliminateRows k
      (fun r => (unitTable n).entry r k) = unitTable n := by
  refine ext_entry rfl rfl fun r c hr hc => ?_
  have hr : r < n := hr
  rw [entry_eliminateRows hr]
  by_cases hrow : r = k
  · rw [if_pos (.inl hrow)]
  · rw [entry_unitTable hr hk, if_neg hrow, if_pos (.inr (.inl DoubleDouble.isZero_zero))]

theorem pivotRow?_unitTable (hk : k < n) (htolerance : ¬tolerance < Scalar.abs 0) :
    pivotRow? (unitTable n : DenseMatrix (DoubleDouble α)) tolerance k =
      if tolerance < Scalar.abs 1 then some k else none := by
  have hcandidates : (List.range n).drop k = k :: (List.range n).drop (k + 1) := by
    rw [List.drop_eq_getElem_cons (by simpa using hk), List.getElem_range]
  have hone : ((unitTable n : DenseMatrix (DoubleDouble α)).entry k k).value = 1 := by
    rw [entry_unitTable hk hk, if_pos rfl]
    rfl
  have hzeros : ∀ r ∈ (List.range n).drop (k + 1),
      (unitTable n : DenseMatrix (DoubleDouble α)).entry r k = 0 := by
    intro r hr
    rw [List.range_eq_range', List.drop_range', List.mem_range'_1] at hr
    rw [entry_unitTable (by omega) hk, if_neg (by omega)]
  have hbest : ∀ r magnitude, some (k, Scalar.abs (1 : α)) = some (r, magnitude) →
      ¬magnitude < Scalar.abs 0 := by
    intro r magnitude heq
    cases heq
    exact PivotScalar.not_abs_lt 1
  rw [pivotRow?_eq]
  show (PivotSearch.through _ k ((List.range n).drop k) _).chosen tolerance = _
  rw [hcandidates]
  show (PivotSearch.through _ k _ (PivotSearch.visit ⟨none, none⟩ k
    ((unitTable n : DenseMatrix (DoubleDouble α)).entry k k).value)).chosen tolerance = _
  unfold PivotSearch.visit
  rw [hone, LawfulScalar.isNaN_one, if_neg Bool.false_ne_true,
    PivotSearch.chosen_through_zeros hzeros hbest htolerance]
  rfl

theorem Elimination.step_unit (hk : k < n) (htolerance : ¬tolerance < Scalar.abs 0) :
    (Elimination.unit n : Elimination α).step tolerance k =
      if tolerance < Scalar.abs 1 then .ok (Elimination.unit n) else .error .notInvertible := by
  unfold Elimination.step Elimination.unit
  rw [pivotRow?_unitTable hk htolerance]
  split_ifs
  · have hone : (unitTable n : DenseMatrix (DoubleDouble α)).entry k k = 1 := by
      rw [entry_unitTable hk hk, if_pos rfl]
    simp only [Elimination.pivot, swapRows_self (unitTable n : DenseMatrix (DoubleDouble α)) hk,
      hone, divideRow_unitTable, eliminateRows_unitTable hk]
  · rfl

/-- The identity is its own inverse, unless its ones do not exceed the tolerance. -/
theorem Elimination.run_unit (htolerance : ¬tolerance < Scalar.abs 0) :
    (Elimination.unit n : Elimination α).run tolerance n =
      if n = 0 ∨ tolerance < Scalar.abs 1 then .ok (Elimination.unit n)
      else .error .notInvertible := by
  have hthrough : ∀ columns : List Nat, (∀ k ∈ columns, k < n) →
      Elimination.through tolerance columns (Elimination.unit n) =
        if columns = [] ∨ tolerance < Scalar.abs 1 then .ok (Elimination.unit n)
        else .error .notInvertible := by
    intro columns
    induction columns with
    | nil => exact fun _ => (if_pos (.inl rfl)).symm
    | cons k columns ih =>
        intro hcolumns
        rw [Elimination.through_cons,
          Elimination.step_unit (hcolumns k List.mem_cons_self) htolerance]
        by_cases hone : tolerance < Scalar.abs 1
        · rw [if_pos hone, if_pos (.inr hone)]
          show Elimination.through tolerance columns (Elimination.unit n) = _
          rw [ih fun k hk => hcolumns k (List.mem_cons_of_mem _ hk), if_pos (.inr hone)]
        · rw [if_neg hone, if_neg (by simp [hone])]
          rfl
  unfold Elimination.run
  rw [hthrough _ fun k => List.mem_range.mp]
  simp only [List.range_eq_nil]

end Units

end DenseMatrix
end SeparableTransforms
