import Mathlib.Tactic.SplitIfs
import SeparableTransforms.DenseMatrix.Inverse
import SeparableTransforms.Proofs.DoubleDouble.Agreement

/-!
# Steps of an elimination

What one step of a Gauss–Jordan elimination does to the cells of the two tables, and
what the search for its pivot can find.  A pivot is a row of the work table that has
not been used yet.  It is taken for its magnitude if that exceeds the tolerance, and
otherwise because its cell is not determined.
-/

namespace SeparableTransforms

universe u

namespace DoubleDouble

section Zero

variable {α : Type u} [Scalar α] [LawfulScalar α]

@[simp] theorem isZero_zero : (0 : DoubleDouble α).isZero = true := by
  show ((0 : α) == 0 && (0 : α) == 0) = true
  rw [zero_beq_zero]
  rfl

@[simp] theorem isZero_one : (1 : DoubleDouble α).isZero = false := by
  show ((1 : α) == 0 && (0 : α) == 0) = false
  rw [one_beq_zero]
  rfl

end Zero

section Parts

variable {α : Type u} {x y : DoubleDouble α}

theorem eq_of_parts (hvalue : x.value = y.value) (herror : x.error = y.error) : x = y := by
  cases x
  cases y
  cases hvalue
  cases herror
  rfl

end Parts

end DoubleDouble

namespace DenseMatrix

section Rows

variable {α : Type u} [Scalar α] {m : DenseMatrix (DoubleDouble α)} {a b k r c : Nat}
  {divisor : DoubleDouble α} {factor : Nat → DoubleDouble α}

@[simp] theorem rows_swapRows : (m.swapRows a b).rows = m.rows :=
  rfl

@[simp] theorem cols_swapRows : (m.swapRows a b).cols = m.cols :=
  rfl

@[simp] theorem rows_divideRow : (m.divideRow k divisor).rows = m.rows :=
  rfl

@[simp] theorem cols_divideRow : (m.divideRow k divisor).cols = m.cols :=
  rfl

@[simp] theorem rows_eliminateRows : (m.eliminateRows k factor).rows = m.rows :=
  rfl

@[simp] theorem cols_eliminateRows : (m.eliminateRows k factor).cols = m.cols :=
  rfl

/-- The row that a row is exchanged with. -/
def exchanged (a b r : Nat) : Nat :=
  if r = a then b else if r = b then a else r

@[simp] theorem exchanged_left (a b : Nat) : exchanged a b a = b :=
  if_pos rfl

theorem exchanged_lt {n : Nat} (ha : a < n) (hb : b < n) (hr : r < n) : exchanged a b r < n := by
  unfold exchanged
  split_ifs <;> assumption

theorem exchanged_exchanged (a b r : Nat) : exchanged a b (exchanged a b r) = r := by
  unfold exchanged
  split_ifs <;> omega

theorem entry_swapRows (ha : a < m.rows) (hb : b < m.rows) (r c : Nat) :
    (m.swapRows a b).entry r c = m.entry (exchanged a b r) c := by
  by_cases hplace : r < m.rows ∧ c < m.cols
  · exact entry_ofFn _ hplace.1 hplace.2
  · have hplace' : ¬(exchanged a b r < m.rows ∧ c < m.cols) := fun h =>
      hplace ⟨exchanged_exchanged a b r ▸ exchanged_lt ha hb h.1, h.2⟩
    rw [entry_eq_zero (m := m.swapRows a b) hplace, entry_eq_zero hplace']

variable [LawfulScalar α]

theorem entry_divideRow (r c : Nat) :
    (m.divideRow k divisor).entry r c =
      if r = k ∧ (m.entry r c).isZero = false then m.entry r c / divisor else m.entry r c := by
  by_cases hplace : r < m.rows ∧ c < m.cols
  · unfold divideRow
    rw [entry_ofFn _ hplace.1 hplace.2]
    simp
  · rw [entry_eq_zero (m := m.divideRow k divisor) hplace, entry_eq_zero hplace, if_neg (by simp)]

theorem entry_eliminateRows (hr : r < m.rows) (c : Nat) :
    (m.eliminateRows k factor).entry r c =
      if r = k ∨ (factor r).isZero = true ∨ (m.entry k c).isZero = true then m.entry r c
      else m.entry r c - factor r * m.entry k c := by
  by_cases hplace : c < m.cols
  · unfold eliminateRows
    rw [entry_ofFn _ hr hplace]
    simp [or_assoc]
  · have hout : ∀ i, m.entry i c = 0 := fun i => entry_eq_zero fun h => hplace h.2
    rw [entry_eq_zero (m := m.eliminateRows k factor) fun h => hplace h.2, hout, hout, if_pos]
    simp

end Rows

section Search

variable {α : Type u} [Scalar α] {work : DenseMatrix (DoubleDouble α)} {tolerance : α}
  {search : PivotSearch α} {k r : Nat} {v : α}

/-- The row that a finished search settles on. -/
def PivotSearch.chosen (search : PivotSearch α) (tolerance : α) : Option Nat :=
  match search.best with
  | some (r, magnitude) => if tolerance < magnitude then some r else search.undetermined
  | none => search.undetermined

/-- Looks for the pivot of column `k` in some rows of a table. -/
def PivotSearch.through (work : DenseMatrix (DoubleDouble α)) (k : Nat) (rows : List Nat)
    (search : PivotSearch α) : PivotSearch α :=
  rows.foldl (fun s r => s.visit r (work.entry r k).value) search

theorem pivotRow?_eq :
    pivotRow? work tolerance k =
      (PivotSearch.through work k ((List.range work.rows).drop k) ⟨none, none⟩).chosen tolerance :=
  rfl

/-- Where the candidates of a search come from: the largest magnitude is that of a cell in one of
the rows, and the other candidate is such a row with an undetermined cell. -/
structure PivotSearch.Among (work : DenseMatrix (DoubleDouble α)) (k : Nat) (rows : List Nat)
    (search : PivotSearch α) : Prop where
  best : ∀ r magnitude, search.best = some (r, magnitude) →
    r ∈ rows ∧ magnitude = Scalar.abs (work.entry r k).value
  undetermined : ∀ r, search.undetermined = some r →
    r ∈ rows ∧ Scalar.isNaN (work.entry r k).value = true

theorem PivotSearch.Among.visit {rows : List Nat} (h : search.Among work k rows) (hr : r ∈ rows) :
    (search.visit r (work.entry r k).value).Among work k rows := by
  unfold PivotSearch.visit
  split
  · rename_i hnan
    refine ⟨h.best, fun r' hr' => ?_⟩
    cases hu : search.undetermined with
    | none =>
        simp only [hu, Option.none_or, Option.some.injEq] at hr'
        exact hr' ▸ ⟨hr, hnan⟩
    | some u =>
        simp only [hu, Option.some_or, Option.some.injEq] at hr'
        exact hr' ▸ h.undetermined u hu
  · have hnew : ∀ r' magnitude, some (r, Scalar.abs (work.entry r k).value) =
        some (r', magnitude) → r' ∈ rows ∧ magnitude = Scalar.abs (work.entry r' k).value := by
      intro r' magnitude heq
      cases heq
      exact ⟨hr, rfl⟩
    split
    · exact ⟨hnew, h.undetermined⟩
    · split
      · exact ⟨hnew, h.undetermined⟩
      · exact h

theorem PivotSearch.among_through {rows candidates : List Nat} (h : search.Among work k rows)
    (hrows : ∀ r ∈ candidates, r ∈ rows) :
    (search.through work k candidates).Among work k rows := by
  unfold PivotSearch.through
  exact List.foldlRecOn candidates _ h fun s hs r hr => hs.visit (hrows r hr)

/-- What is known of a pivot: it has not been used yet, and it is large enough or not
determined. -/
structure IsPivot (work : DenseMatrix (DoubleDouble α)) (tolerance : α) (k r : Nat) : Prop where
  unused : k ≤ r
  inside : r < work.rows
  accepted : tolerance < Scalar.abs (work.entry r k).value ∨
    Scalar.isNaN (work.entry r k).value = true

theorem isPivot_of_pivotRow? (h : pivotRow? work tolerance k = some r) :
    IsPivot work tolerance k r := by
  have hrows : ∀ r ∈ (List.range work.rows).drop k, k ≤ r ∧ r < work.rows := by
    intro r hr
    rw [List.range_eq_range', List.drop_range', List.mem_range'_1] at hr
    omega
  have hamong : ((PivotSearch.through work k ((List.range work.rows).drop k)
      (⟨none, none⟩ : PivotSearch α)).Among work k ((List.range work.rows).drop k)) :=
    PivotSearch.among_through ⟨nofun, nofun⟩ fun _ hr => hr
  rw [pivotRow?_eq] at h
  generalize PivotSearch.through work k _ _ = search at h hamong
  have hundetermined : search.undetermined = some r → IsPivot work tolerance k r := fun hr =>
    have hcell := hamong.undetermined r hr
    ⟨(hrows r hcell.1).1, (hrows r hcell.1).2, .inr hcell.2⟩
  unfold PivotSearch.chosen at h
  split at h
  · rename_i r' magnitude hbest
    split at h
    · rename_i hlarge
      obtain rfl : r' = r := Option.some.inj h
      obtain ⟨hmem, rfl⟩ := hamong.best r' magnitude hbest
      exact ⟨(hrows r' hmem).1, (hrows r' hmem).2, .inl hlarge⟩
    · exact hundetermined h
  · exact hundetermined h

end Search

section Steps

variable {α : Type u} [Scalar α] {s s' : Elimination α} {tolerance : α} {k n row : Nat}

/-- Both tables of an elimination have the same number of rows and columns. -/
structure Elimination.IsSquare (s : Elimination α) (n : Nat) : Prop where
  rows_work : s.work.rows = n
  cols_work : s.work.cols = n
  rows_inverse : s.inverse.rows = n
  cols_inverse : s.inverse.cols = n

theorem Elimination.isSquare_start (m : DenseMatrix α) (n : Nat) :
    (Elimination.start m n).IsSquare n :=
  ⟨rfl, rfl, rfl, rfl⟩

theorem Elimination.entry_start_work (m : DenseMatrix α) {r c : Nat} (hr : r < n) (hc : c < n) :
    (Elimination.start m n).work.entry r c = DoubleDouble.ofScalar (m.entry r c) :=
  entry_ofFn _ hr hc

theorem Elimination.entry_start_inverse (m : DenseMatrix α) {r c : Nat} (hr : r < n) (hc : c < n) :
    (Elimination.start m n).inverse.entry r c = if r = c then 1 else 0 := by
  refine (entry_ofFn _ hr hc).trans ?_
  split_ifs <;> rfl

theorem Elimination.IsSquare.pivot (h : s.IsSquare n) (k row : Nat) : (s.pivot k row).IsSquare n :=
  ⟨h.rows_work, h.cols_work, h.rows_inverse, h.cols_inverse⟩

theorem Elimination.step_eq_ok_iff :
    s.step tolerance k = .ok s' ↔
      ∃ row, pivotRow? s.work tolerance k = some row ∧ s' = s.pivot k row := by
  unfold Elimination.step
  split
  · rename_i row hrow
    simp [hrow, eq_comm]
  · rename_i hnone
    simp [hnone]

theorem Elimination.IsSquare.step (h : s.IsSquare n) (hstep : s.step tolerance k = .ok s') :
    s'.IsSquare n := by
  obtain ⟨row, -, rfl⟩ := Elimination.step_eq_ok_iff.mp hstep
  exact h.pivot k row

/-- The elimination of some columns, one after the other. -/
def Elimination.through (tolerance : α) (columns : List Nat) (s : Elimination α) :
    Except MatrixError (Elimination α) :=
  columns.foldlM (Elimination.step tolerance) s

/-- The elimination of the first columns. -/
def Elimination.run (tolerance : α) (n : Nat) (s : Elimination α) :
    Except MatrixError (Elimination α) :=
  Elimination.through tolerance (List.range n) s

theorem Elimination.through_cons (columns : List Nat) :
    Elimination.through tolerance (k :: columns) s = (do
      let s' ← s.step tolerance k
      Elimination.through tolerance columns s') := by
  unfold Elimination.through
  rw [List.foldlM_cons]

/-- Columns are eliminated with one pivot after the other. -/
theorem Elimination.through_cons_eq_ok_iff {columns : List Nat} :
    Elimination.through tolerance (k :: columns) s = .ok s' ↔
      ∃ row, pivotRow? s.work tolerance k = some row ∧
        Elimination.through tolerance columns (s.pivot k row) = .ok s' := by
  rw [Elimination.through_cons]
  unfold Elimination.step
  cases pivotRow? s.work tolerance k with
  | none => exact iff_of_false nofun (by rintro ⟨_, ⟨⟩, _⟩)
  | some row => exact ⟨fun h => ⟨row, rfl, h⟩, by rintro ⟨_, ⟨⟩, h⟩; exact h⟩

/-- What every pivot preserves holds after a range of columns if it holds before. -/
theorem Elimination.invariant_through {I : Nat → Elimination α → Prop}
    (hpivot : ∀ k s row, I k s → pivotRow? s.work tolerance k = some row →
      I (k + 1) (s.pivot k row)) {m : Nat} (h : I k s)
    (hrun : Elimination.through tolerance (List.range' k m) s = .ok s') : I (k + m) s' := by
  induction m generalizing k s with
  | zero =>
      cases hrun
      exact h
  | succ m ih =>
      rw [List.range'_succ] at hrun
      obtain ⟨row, hsearch, hrun⟩ := Elimination.through_cons_eq_ok_iff.mp hrun
      have hrest := ih (hpivot k s row h hsearch) hrun
      rwa [Nat.add_assoc, Nat.add_comm 1 m] at hrest

theorem Elimination.through_append (columns rest : List Nat) :
    Elimination.through tolerance (columns ++ rest) s = (do
      let s' ← Elimination.through tolerance columns s
      Elimination.through tolerance rest s') := by
  unfold Elimination.through
  rw [List.foldlM_append]

theorem Elimination.IsSquare.through {columns : List Nat} (h : s.IsSquare n)
    (hrun : Elimination.through tolerance columns s = .ok s') : s'.IsSquare n := by
  induction columns generalizing s with
  | nil =>
      cases hrun
      exact h
  | cons k columns ih =>
      obtain ⟨row, -, hrun⟩ := Elimination.through_cons_eq_ok_iff.mp hrun
      exact ih (h.pivot k row) hrun

end Steps

section Results

variable {α : Type u} [Scalar α] {m v : DenseMatrix α} {w : DenseMatrix (DoubleDouble α)}
  {tolerance : α} {n : Nat}

theorem gaussJordan_eq_ok_iff :
    gaussJordan tolerance m n = .ok w ↔
      ∃ s, (Elimination.start m n).run tolerance n = .ok s ∧ s.inverse = w := by
  show ((Elimination.start m n).run tolerance n).map Elimination.inverse = _ ↔ _
  cases (Elimination.start m n).run tolerance n with
  | error e => simp [Except.map]
  | ok s => simp [Except.map]

theorem rows_gaussJordan (h : gaussJordan tolerance m n = .ok w) : w.rows = n := by
  obtain ⟨s, hrun, rfl⟩ := gaussJordan_eq_ok_iff.mp h
  exact ((Elimination.isSquare_start m n).through hrun).rows_inverse

theorem cols_gaussJordan (h : gaussJordan tolerance m n = .ok w) : w.cols = n := by
  obtain ⟨s, hrun, rfl⟩ := gaussJordan_eq_ok_iff.mp h
  exact ((Elimination.isSquare_start m n).through hrun).cols_inverse

/-- An affine matrix is inverted by eliminating its linear part. -/
theorem inverseWithin_eq_ok_iff {tolerance : DenseMatrix α → Nat → α} (hm : m.isAffine = true) :
    m.inverseWithin tolerance = .ok v ↔ m.rows = m.cols ∧
      ∃ w, gaussJordan (tolerance m (m.rows - 1)) m (m.rows - 1) = .ok w ∧
        affineInverse m w = v := by
  unfold inverseWithin isSquare
  rw [if_pos hm]
  dsimp only
  by_cases hsquare : m.rows = m.cols
  · rw [if_pos (beq_iff_eq.mpr hsquare)]
    cases gaussJordan (tolerance m (m.rows - 1)) m (m.rows - 1) with
    | error e => simp [Except.map]
    | ok w => simp [Except.map, hsquare]
  · rw [if_neg (by simpa using hsquare)]
    simp [hsquare]

/-- Any other matrix is eliminated as a whole. -/
theorem inverseWithin_eq_ok_iff_of_isAffine_eq_false {tolerance : DenseMatrix α → Nat → α}
    (hm : m.isAffine = false) :
    m.inverseWithin tolerance = .ok v ↔ m.rows = m.cols ∧
      ∃ w, gaussJordan (tolerance m m.rows) m m.rows = .ok w ∧ w.map DoubleDouble.value = v := by
  unfold inverseWithin isSquare
  rw [hm, if_neg Bool.false_ne_true]
  by_cases hsquare : m.rows = m.cols
  · rw [if_pos (beq_iff_eq.mpr hsquare)]
    cases gaussJordan (tolerance m m.rows) m m.rows with
    | error e => simp [Except.map]
    | ok w => simp [Except.map, hsquare]
  · rw [if_neg (by simpa using hsquare)]
    simp [hsquare]

theorem entry_affineInverse {r c : Nat} (hr : r < w.rows) (hc : c < w.rows) :
    (affineInverse m w).entry r c = (w.entry r c).value := by
  unfold affineInverse
  dsimp only
  rw [entry_ofFn _ (by omega) (by omega), if_pos hr, if_pos hc]

theorem entry_affineInverse_offset {r : Nat} (hr : r < w.rows) :
    (affineInverse m w).entry r w.rows = m.inverseOffset w r := by
  unfold affineInverse
  dsimp only
  rw [entry_ofFn _ (by omega) (by omega), if_pos hr, if_neg (Nat.lt_irrefl _)]

theorem entry_affineInverse_last {c : Nat} (hc : c < w.rows + 1) :
    (affineInverse m w).entry w.rows c = if c < w.rows then 0 else 1 := by
  unfold affineInverse
  dsimp only
  rw [entry_ofFn _ (by omega) hc, if_neg (Nat.lt_irrefl _)]

end Results

end DenseMatrix
end SeparableTransforms
