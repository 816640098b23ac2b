import SeparableTransforms.Proofs.DenseMatrix.Tolerance

/-!
# Matrices with blocks on the diagonal

A matrix that consists of two blocks on the diagonal has zeros elsewhere, and floats have
two zeros.  Which of them it is has no consequences for an elimination: a zero is not
divided, no row is multiplied by it, it does not take part in a subtraction and it is not
accepted as a pivot.  Hence all zeros can be taken to be the positive one, and then one
block is eliminated after the other.

All that the second block gets from the first is the tolerance, which is computed from the
whole matrix and can only be larger than the one of the second block alone.  If it decides
about a pivot, the pivot is `NaN` instead of a small number.  So the result for the second
block is its own inverse, whatever the first block consists of, as soon as one of these
is free of `NaN`: the result, or the work table in the elimination of the block alone.
-/

namespace SeparableTransforms

universe u

namespace DenseMatrix

open Binary64 Outcome

section Tables

variable {α : Type u} [Scalar α] [LawfulScalar α] {x y z : DenseMatrix (DoubleDouble α)}
  {a c k r row : Nat}

/-- A cell belongs to one of two blocks on the diagonal, the first of which has `a` rows. -/
def InBlocks (a r c : Nat) : Prop :=
  r < a ↔ c < a

instance (a r c : Nat) : Decidable (InBlocks a r c) :=
  inferInstanceAs (Decidable (r < a ↔ c < a))

theorem InBlocks.cases (h : InBlocks a r c) :
    (r < a ∧ c < a) ∨ ∃ r' c', r = a + r' ∧ c = a + c' := by
  rcases Nat.lt_or_ge r a with hr | hr
  · exact .inl ⟨hr, h.mp hr⟩
  · have hc : a ≤ c := Nat.le_of_not_lt fun hc => absurd (h.mpr hc) (Nat.not_lt.mpr hr)
    exact .inr ⟨r - a, c - a, (Nat.add_sub_cancel' hr).symm, (Nat.add_sub_cancel' hc).symm⟩

theorem cases_of_not_inBlocks (h : ¬InBlocks a r c) :
    (∃ c', r < a ∧ c = a + c') ∨ ∃ r', r = a + r' ∧ c < a := by
  unfold InBlocks at h
  rcases Nat.lt_or_ge r a with hr | hr
  · exact .inl ⟨c - a, hr, by omega⟩
  · exact .inr ⟨r - a, by omega, by omega⟩

/-- Tables with the same cells in the blocks, and zeros elsewhere. -/
structure SameBlocks (a : Nat) (x y : DenseMatrix (DoubleDouble α)) : Prop where
  rows : x.rows = y.rows
  cols : x.cols = y.cols
  inside : ∀ r c, InBlocks a r c → x.entry r c = y.entry r c
  outside : ∀ r c, ¬InBlocks a r c → (x.entry r c).isZero = true ∧ (y.entry r c).isZero = true

/-- Rows of the same block can be exchanged. -/
theorem inBlocks_exchanged (h : InBlocks a row k) :
    InBlocks a (exchanged k row r) c ↔ InBlocks a r c := by
  unfold InBlocks exchanged at *
  split_ifs with hk hrow
  · rw [h, hk]
  · rw [← h, hrow]
  · rfl

omit [LawfulScalar α] in
theorem SameBlocks.swapRows (h : SameBlocks a x y) (hk : k < x.rows) (hrow : row < x.rows)
    (hblock : InBlocks a row k) : SameBlocks a (x.swapRows k row) (y.swapRows k row) := by
  have hentry := entry_swapRows (m := x) hk hrow
  have hentry' := entry_swapRows (m := y) (h.rows ▸ hk) (h.rows ▸ hrow)
  refine ⟨h.rows, h.cols, fun r c hin => ?_, fun r c hout => ?_⟩
  · rw [hentry, hentry']
    exact h.inside _ c ((inBlocks_exchanged hblock).mpr hin)
  · rw [hentry, hentry']
    exact h.outside _ c fun hin => hout ((inBlocks_exchanged hblock).mp hin)

theorem SameBlocks.divideRow (h : SameBlocks a x y) (k : Nat) (divisor : DoubleDouble α) :
    SameBlocks a (x.divideRow k divisor) (y.divideRow k divisor) := by
  refine ⟨h.rows, h.cols, fun r c hin => ?_, fun r c hout => ?_⟩
  · rw [entry_divideRow, entry_divideRow, h.inside r c hin]
  · obtain ⟨hx, hy⟩ := h.outside r c hout
    rw [entry_divideRow, entry_divideRow, if_neg (by simp [hx]), if_neg (by simp [hy])]
    exact ⟨hx, hy⟩

omit [LawfulScalar α] in
theorem entry_eliminateRows_beyond {factor : Nat → DoubleDouble α} (hr : ¬r < x.rows) :
    (x.eliminateRows k factor).entry r c = 0 :=
  entry_eq_zero fun h => hr h.1

theorem isZero_entry_eliminateRows {factor : Nat → DoubleDouble α}
    (hx : (x.entry r c).isZero = true)
    (hskip : (factor r).isZero = true ∨ (x.entry k c).isZero = true) :
    ((x.eliminateRows k factor).entry r c).isZero = true := by
  by_cases hr : r < x.rows
  · rwa [entry_eliminateRows hr, if_pos (.inr hskip)]
  · rw [entry_eliminateRows_beyond hr]
    exact DoubleDouble.isZero_zero

/-- A cell outside the blocks is not written, since the multiple or the row is zero there. -/
theorem SameBlocks.eliminateRows (h : SameBlocks a x y) :
    SameBlocks a (x.eliminateRows k fun r => x.entry r k)
      (y.eliminateRows k fun r => y.entry r k) := by
  refine ⟨h.rows, h.cols, fun r c hin => ?_, fun r c hout => ?_⟩
  · by_cases hr : r < x.rows
    · rw [entry_eliminateRows hr, entry_eliminateRows (h.rows ▸ hr), h.inside r c hin]
      by_cases hblock : InBlocks a r k
      · have hsource : InBlocks a k c := hblock.symm.trans hin
        rw [h.inside r k hblock, h.inside k c hsource]
      · rw [if_pos (.inr (.inl (h.outside r k hblock).1)),
          if_pos (.inr (.inl (h.outside r k hblock).2))]
    · rw [entry_eliminateRows_beyond hr, entry_eliminateRows_beyond (h.rows ▸ hr)]
  · have hskip : ¬InBlocks a r k ∨ ¬InBlocks a k c := by
      by_contra hboth
      obtain ⟨hrow, hsource⟩ := not_or.mp hboth
      exact hout ((not_not.mp hrow).trans (not_not.mp hsource))
    exact ⟨isZero_entry_eliminateRows (h.outside r c hout).1
        (hskip.imp (fun hne => (h.outside r k hne).1) fun hne => (h.outside k c hne).1),
      isZero_entry_eliminateRows (h.outside r c hout).2
        (hskip.imp (fun hne => (h.outside r k hne).2) fun hne => (h.outside k c hne).2)⟩

/-- Another table is changed in the same way with the factors of either. -/
theorem SameBlocks.eliminateRows_eq (h : SameBlocks a x y) :
    z.eliminateRows k (fun r => x.entry r k) = z.eliminateRows k fun r => y.entry r k := by
  refine ext_entry rfl rfl fun r c hr _ => ?_
  have hr : r < z.rows := hr
  rw [entry_eliminateRows hr, entry_eliminateRows hr]
  by_cases hblock : InBlocks a r k
  · rw [h.inside r k hblock]
  · rw [if_pos (.inr (.inl (h.outside r k hblock).1)),
      if_pos (.inr (.inl (h.outside r k hblock).2))]

/-- A table with two blocks and zeros elsewhere has the same blocks as the two side by side. -/
theorem sameBlocks_beside (hp : x.rows = a) (hq : x.cols = a) (hrows : z.rows = a + y.rows)
    (hcols : z.cols = a + y.cols)
    (hupper : ∀ r c, r < a → c < a → z.entry r c = x.entry r c)
    (hlower : ∀ r c, r < y.rows → c < y.cols → z.entry (a + r) (a + c) = y.entry r c)
    (houtside : ∀ r c, r < z.rows → c < z.cols → ¬InBlocks a r c → (z.entry r c).isZero = true) :
    SameBlocks a z (beside x y) := by
  refine ⟨by rw [hrows, rows_beside, hp], by rw [hcols, cols_beside, hq], fun r c hin => ?_,
    fun r c hout => ⟨?_, ?_⟩⟩
  · rcases hin.cases with ⟨hr, hc⟩ | ⟨r, c, rfl, rfl⟩
    · rw [entry_beside_upper (hp.symm ▸ hr), hupper r c hr hc]
    · rw [entry_beside_lower hp hq]
      by_cases hplace : r < y.rows ∧ c < y.cols
      · exact hlower r c hplace.1 hplace.2
      · rw [entry_eq_zero hplace, entry_eq_zero (by omega)]
  · by_cases hplace : r < z.rows ∧ c < z.cols
    · exact houtside r c hplace.1 hplace.2 hout
    · rw [entry_eq_zero hplace]
      exact DoubleDouble.isZero_zero
  · rcases cases_of_not_inBlocks hout with ⟨c, hr, rfl⟩ | ⟨r, rfl, hc⟩
    · exact isZero_beside_beyond hp hq hr c
    · exact isZero_beside_corner hp hq r hc

end Tables

section Steps

variable {α : Type u} [Scalar α] [LawfulScalar α] {s t : Elimination α} {a k row : Nat}

/-- Eliminations whose work tables have the same blocks. -/
structure Elimination.SameBlocks (a : Nat) (s t : Elimination α) : Prop where
  work : DenseMatrix.SameBlocks a s.work t.work
  inverse : s.inverse = t.inverse

theorem Elimination.SameBlocks.pivot (h : Elimination.SameBlocks a s t) (hk : k < s.work.rows)
    (hrow : row < s.work.rows) (hblock : InBlocks a row k) :
    Elimination.SameBlocks a (s.pivot k row) (t.pivot k row) := by
  have hswapped := h.work.swapRows hk hrow hblock
  have hdivisor := hswapped.inside k k Iff.rfl
  unfold Elimination.pivot
  simp only [hdivisor, h.inverse]
  have hdivided := hswapped.divideRow k ((t.work.swapRows k row).entry k k)
  exact ⟨hdivided.eliminateRows, hdivided.eliminateRows_eq⟩

end Steps

section Search

variable {x y : DenseMatrix (DoubleDouble Float)} {s s' t : Elimination Float} {tolerance : Float}
  {a k row : Nat}

theorem PivotSearch.visit_congr {search : PivotSearch Float} {r : Nat} {v v' : Float}
    (hnan : Scalar.isNaN v = Scalar.isNaN v') (habs : Scalar.abs v = Scalar.abs v') :
    search.visit r v = search.visit r v' := by
  unfold PivotSearch.visit
  rw [hnan, habs]

/-- The search for a pivot does not distinguish the zeros. -/
theorem SameBlocks.pivotRow?_eq (h : SameBlocks a x y) :
    pivotRow? x tolerance k = pivotRow? y tolerance k := by
  rw [DenseMatrix.pivotRow?_eq, DenseMatrix.pivotRow?_eq, h.rows]
  refine congrArg (PivotSearch.chosen · tolerance) (List.foldl_ext _ _ _ fun search r _ => ?_)
  by_cases hblock : InBlocks a r k
  · rw [h.inside r k hblock]
  · obtain ⟨hx, hy⟩ := h.outside r k hblock
    have hx := beq_zero_of_isZero hx
    have hy := beq_zero_of_isZero hy
    exact PivotSearch.visit_congr ((isNaN_of_beq_zero hx).trans (isNaN_of_beq_zero hy).symm)
      ((abs_of_beq_zero hx).trans (abs_of_beq_zero hy).symm)

/-- A pivot is in a block, since zeros are not accepted. -/
theorem SameBlocks.inBlocks_of_isPivot (h : SameBlocks a x y) (htolerance : ¬tolerance < 0)
    (hpivot : IsPivot x tolerance k row) : InBlocks a row k := by
  by_contra hblock
  have hzero := beq_zero_of_isZero (h.outside row k hblock).1
  rcases hpivot.accepted with hlarge | hnan
  · rw [abs_of_beq_zero hzero] at hlarge
    exact htolerance hlarge
  · rw [isNaN_of_beq_zero hzero] at hnan
    cases hnan

/-- The same pivots are found and lead to the same blocks. -/
theorem Elimination.SameBlocks.step (h : Elimination.SameBlocks a s t) (htolerance : ¬tolerance < 0)
    (hsearch : pivotRow? s.work tolerance k = some row) :
    pivotRow? t.work tolerance k = some row ∧
      Elimination.SameBlocks a (s.pivot k row) (t.pivot k row) := by
  have hpivot := isPivot_of_pivotRow? hsearch
  refine ⟨h.work.pivotRow?_eq ▸ hsearch, ?_⟩
  exact h.pivot (Nat.lt_of_le_of_lt hpivot.unused hpivot.inside) hpivot.inside
    (h.work.inBlocks_of_isPivot htolerance hpivot)

theorem Elimination.SameBlocks.through {columns : List Nat} (h : Elimination.SameBlocks a s t)
    (htolerance : ¬tolerance < 0) (hrun : Elimination.through tolerance columns s = .ok s') :
    ∃ t', Elimination.through tolerance columns t = .ok t' ∧ Elimination.SameBlocks a s' t' := by
  induction columns generalizing s t with
  | nil =>
      cases hrun
      exact ⟨t, rfl, h⟩
  | cons k columns ih =>
      obtain ⟨row, hsearch, hrun⟩ := Elimination.through_cons_eq_ok_iff.mp hrun
      obtain ⟨hsearch', hpivot⟩ := h.step htolerance hsearch
      obtain ⟨t', hrun', h'⟩ := ih hpivot hrun
      exact ⟨t', Elimination.through_cons_eq_ok_iff.mpr ⟨row, hsearch', hrun'⟩, h'⟩

end Search

section Blocks

variable {m x y : DenseMatrix Float} {w : DenseMatrix (DoubleDouble Float)} {tolerance : Float}

/-- The leading block of a matrix consists of two square matrices on the diagonal, with zeros
elsewhere. -/
structure IsBlockDiagonal (m x y : DenseMatrix Float) : Prop where
  square_upper : x.cols = x.rows
  square_lower : y.cols = y.rows
  upper : ∀ r c, r < x.rows → c < x.rows → m.entry r c = x.entry r c
  lower : ∀ r c, r < y.rows → c < y.rows → m.entry (x.rows + r) (x.rows + c) = y.entry r c
  apart : ∀ r c, r < x.rows + y.rows → c < x.rows + y.rows → ¬InBlocks x.rows r c →
    (m.entry r c == 0) = true

theorem entry_start_inverse_eq (m : DenseMatrix Float) (n r c : Nat) :
    (Elimination.start m n).inverse.entry r c = if r = c ∧ r < n then 1 else 0 := by
  by_cases hplace : r < n ∧ c < n
  · rw [Elimination.entry_start_inverse m hplace.1 hplace.2]
    exact if_congr (iff_self_and.mpr fun _ => hplace.1) rfl rfl
  · rw [entry_eq_zero hplace, if_neg (by omega)]

theorem start_inverse_beside (m x y : DenseMatrix Float) (a b : Nat) :
    (Elimination.start m (a + b)).inverse =
      beside (Elimination.start x a).inverse (Elimination.start y b).inverse := by
  refine eq_beside (p := a) (q := a) rfl rfl rfl rfl (fun r c hr => ?_) (fun r c hr hc => ?_)
    fun r c hr => ?_
  · rw [entry_start_inverse_eq, entry_start_inverse_eq]
    exact if_congr (by omega) rfl rfl
  · rw [entry_start_inverse_eq, if_neg (by omega)]
  · have hr : r < b := hr
    rw [entry_start_inverse_eq, entry_start_inverse_eq]
    exact if_congr (by omega) rfl rfl

variable (h : IsBlockDiagonal m x y)

include h

theorem IsBlockDiagonal.sameBlocks_start :
    SameBlocks x.rows (Elimination.start m (x.rows + y.rows)).work
      (beside (Elimination.start x x.rows).work (Elimination.start y y.rows).work) := by
  refine sameBlocks_beside rfl rfl rfl rfl (fun r c hr hc => ?_) (fun r c hr hc => ?_)
    fun r c hr hc hout => ?_
  · rw [Elimination.entry_start_work m (by omega) (by omega), Elimination.entry_start_work x hr hc,
      h.upper r c hr hc]
  · have hr : r < y.rows := hr
    have hc : c < y.rows := hc
    rw [Elimination.entry_start_work m (by omega) (by omega), Elimination.entry_start_work y hr hc,
      h.lower r c hr hc]
  · have hr : r < x.rows + y.rows := hr
    have hc : c < x.rows + y.rows := hc
    rw [Elimination.entry_start_work m hr hc, isZero_ofScalar]
    exact h.apart r c hr hc hout

/-- The elimination starts with the two blocks side by side, up to the signs of zeros. -/
theorem IsBlockDiagonal.start :
    Elimination.SameBlocks x.rows (Elimination.start m (x.rows + y.rows))
      ((Elimination.start x x.rows).beside (Elimination.start y y.rows)) :=
  ⟨h.sameBlocks_start, start_inverse_beside m x y x.rows y.rows⟩

/-- What is eliminated are the two blocks, with the tolerance of the whole matrix. -/
theorem IsBlockDiagonal.gaussJordan_beside (htolerance : ¬tolerance < 0)
    (hw : gaussJordan tolerance m (x.rows + y.rows) = .ok w) :
    ∃ u v, gaussJordan tolerance x x.rows = .ok u ∧ gaussJordan tolerance y y.rows = .ok v ∧
      w = beside u v := by
  obtain ⟨s, hrun, rfl⟩ := gaussJordan_eq_ok_iff.mp hw
  obtain ⟨t, hrun', hsame⟩ := h.start.through htolerance hrun
  have hrows : ¬tolerance < Scalar.abs 0 := by rwa [abs_zero_float]
  change Elimination.run tolerance (x.rows + y.rows) _ = _ at hrun'
  rw [Elimination.run_beside (Elimination.isSquare_start x _) (Elimination.isSquare_start y _)
    hrows] at hrun'
  obtain ⟨su, hu, hrest⟩ := bind_eq_ok_iff.mp hrun'
  obtain ⟨sv, hv, heq⟩ := bind_eq_ok_iff.mp hrest
  cases heq
  exact ⟨su.inverse, sv.inverse, gaussJordan_eq_ok_iff.mpr ⟨su, hu, rfl⟩,
    gaussJordan_eq_ok_iff.mpr ⟨sv, hv, rfl⟩, hsame.inverse⟩

end Blocks

section Tolerances

variable {α : Type} [Scalar α] {m : DenseMatrix α} {s s₁ s₂ : Elimination α}
  {v w : DenseMatrix (DoubleDouble α)} {tolerance smaller : α} {n : Nat}

/-- No cell of the work table becomes undetermined while a matrix is eliminated. -/
def StaysDetermined (tolerance : α) (m : DenseMatrix α) (n : Nat) : Prop :=
  ∀ k s, k ≤ n → Elimination.through tolerance (List.range k) (Elimination.start m n) = .ok s →
    ∀ r c, r < n → c < n → Scalar.isNaN (s.work.entry r c).value = false

/-- With two tolerances the same pivots are taken, as long as they are determined. -/
theorem Elimination.through_of_staysDetermined (hsmaller : ∀ x, tolerance < x → smaller < x)
    (hdetermined : StaysDetermined smaller m n) {k : Nat} (hk : k ≤ n)
    (h₁ : Elimination.through tolerance (List.range k) (Elimination.start m n) = .ok s₁)
    (h₂ : Elimination.through smaller (List.range k) (Elimination.start m n) = .ok s₂) :
    s₁ = s₂ := by
  induction k generalizing s₁ s₂ with
  | zero =>
      cases h₁
      cases h₂
      rfl
  | succ k ih =>
      rw [List.range_succ, Elimination.through_append] at h₁ h₂
      obtain ⟨t₁, hrun₁, hlast₁⟩ := bind_eq_ok_iff.mp h₁
      obtain ⟨t₂, hrun₂, hlast₂⟩ := bind_eq_ok_iff.mp h₂
      obtain rfl := ih (Nat.le_of_succ_le hk) hrun₁ hrun₂
      obtain ⟨row₁, hsearch₁, hend₁⟩ := Elimination.through_cons_eq_ok_iff.mp hlast₁
      obtain ⟨row₂, hsearch₂, hend₂⟩ := Elimination.through_cons_eq_ok_iff.mp hlast₂
      cases hend₁
      cases hend₂
      have hinside := (isPivot_of_pivotRow? hsearch₁).inside
      rw [((Elimination.isSquare_start m n).through hrun₁).rows_work] at hinside
      have hsame := pivotRow?_of_smaller hsmaller hsearch₁
        (hdetermined k t₁ (Nat.le_of_succ_le hk) hrun₂ row₁ k hinside hk)
      rw [Option.some.inj (hsame.symm.trans hsearch₂)]

theorem gaussJordan_of_staysDetermined (hsmaller : ∀ x, tolerance < x → smaller < x)
    (hdetermined : StaysDetermined smaller m n) (hw : gaussJordan tolerance m n = .ok w)
    (hv : gaussJordan smaller m n = .ok v) : w = v := by
  obtain ⟨s₁, h₁, rfl⟩ := gaussJordan_eq_ok_iff.mp hw
  obtain ⟨s₂, h₂, rfl⟩ := gaussJordan_eq_ok_iff.mp hv
  rw [Elimination.through_of_staysDetermined hsmaller hdetermined (le_refl n) h₁ h₂]

end Tolerances

section Inverses

variable {m x y : DenseMatrix Float} {w : DenseMatrix (DoubleDouble Float)}

/-- The tolerance of the whole matrix is no smaller than that of its second block. -/
theorem IsBlockDiagonal.lt_of_pivotTolerance_lt (h : IsBlockDiagonal m x y) (z : Float)
    (hz : m.pivotTolerance (x.rows + y.rows) < z) : y.pivotTolerance y.rows < z := by
  refine UpTo.lt (upTo_pivotTolerance (by omega) fun r c hr hc => ?_) hz
  exact ⟨x.rows + r, x.rows + c, by omega, by omega, h.lower r c hr hc⟩

/-- The blocks of a matrix are inverted apart.  Outside of the blocks of the result there are
positive zeros.  The second block is the inverse of the second block alone if it is free of `NaN`,
and also if the latter is found without any `NaN` on the way. -/
theorem IsBlockDiagonal.gaussJordan_apart (h : IsBlockDiagonal m x y)
    (hw : gaussJordan (m.pivotTolerance (x.rows + y.rows)) m (x.rows + y.rows) = .ok w) :
    (∀ r c, ¬InBlocks x.rows r c → w.entry r c = 0) ∧
      ((∀ r c, r < y.rows → c < y.rows →
          Scalar.isNaN (w.entry (x.rows + r) (x.rows + c)).value = false) →
        ∃ v, gaussJordan (y.pivotTolerance y.rows) y y.rows = .ok v ∧
          ∀ r c, r < y.rows → c < y.rows → w.entry (x.rows + r) (x.rows + c) = v.entry r c) ∧
      (StaysDetermined (y.pivotTolerance y.rows) y y.rows →
        ∀ v, gaussJordan (y.pivotTolerance y.rows) y y.rows = .ok v →
          ∀ r c, r < y.rows → c < y.rows → w.entry (x.rows + r) (x.rows + c) = v.entry r c) := by
  obtain ⟨u, v, hu, hv, rfl⟩ := h.gaussJordan_beside (upTo_pivotTolerance_self m _).not_lt_zero hw
  have hrows := rows_gaussJordan hu
  have hcols := cols_gaussJordan hu
  have hlower := fun r c => entry_beside_lower (y := v) hrows hcols r c
  refine ⟨fun r c hout => ?_, fun hdetermined => ?_, fun hdetermined v' hv' r c _ _ => ?_⟩
  · rcases cases_of_not_inBlocks hout with ⟨c, hr, rfl⟩ | ⟨r, rfl, hc⟩
    · rw [entry_beside_upper (hrows.symm ▸ hr), entry_eq_zero (by omega)]
    · exact entry_beside_corner hrows hcols r hc
  · refine ⟨v, ?_, fun r c _ _ => hlower r c⟩
    refine gaussJordan_of_smaller h.lt_of_pivotTolerance_lt hv fun r c => ?_
    by_cases hplace : r < v.rows ∧ c < v.cols
    · rw [rows_gaussJordan hv, cols_gaussJordan hv] at hplace
      rw [← hlower]
      exact hdetermined r c hplace.1 hplace.2
    · rw [entry_eq_zero hplace]
      exact LawfulScalar.isNaN_zero
  · rw [hlower, gaussJordan_of_staysDetermined h.lt_of_pivotTolerance_lt hdetermined hv hv']

/-- A block that is not determined and one whose rows have to be exchanged, with zeros of both
signs elsewhere. -/
def undeterminedAndExchanging : DenseMatrix Float :=
  ofFn 3 3 fun r c => ([[nan, -0, 0], [-0, 0, 2], [0, 4, 1]].getD r []).getD c 0

/-- A matrix whose rows have to be exchanged. -/
def exchangingBlock : DenseMatrix Float :=
  ofFn 2 2 fun r c => ([[0, 2], [4, 1]].getD r []).getD c 0

theorem isBlockDiagonal_undeterminedAndExchanging :
    IsBlockDiagonal undeterminedAndExchanging (ofFn 1 1 fun _ _ => nan) exchangingBlock := by
  have hlower : ∀ r < 2, ∀ c < 2,
      undeterminedAndExchanging.entry (1 + r) (1 + c) = exchangingBlock.entry r c := by
    decide +kernel
  have hapart : ∀ r < 3, ∀ c < 3, ¬InBlocks 1 r c →
      (undeterminedAndExchanging.entry r c == 0) = true := by
    decide +kernel
  refine ⟨rfl, rfl, fun r c hr hc => ?_, fun r c hr hc => hlower r hr c hc,
    fun r c hr hc => hapart r hr c hc⟩
  obtain rfl : r = 0 := Nat.lt_one_iff.mp hr
  obtain rfl : c = 0 := Nat.lt_one_iff.mp hc
  decide +kernel

/-- The second block is inverted as it is inverted alone, and there is no NaN in that. -/
theorem gaussJordan_undeterminedAndExchanging :
    StaysDetermined (exchangingBlock.pivotTolerance 2) exchangingBlock 2 ∧
      ∃ w v, gaussJordan (undeterminedAndExchanging.pivotTolerance 3)
          undeterminedAndExchanging 3 = .ok w ∧
        gaussJordan (exchangingBlock.pivotTolerance 2) exchangingBlock 2 = .ok v ∧
        w.entry 1 0 = 0 ∧ ∀ r c, r < 2 → c < 2 → w.entry (1 + r) (1 + c) = v.entry r c := by
  have hcheck : ∀ k < 3, ((Elimination.through (exchangingBlock.pivotTolerance 2) (List.range k)
      (Elimination.start exchangingBlock 2)).toOption.all fun s : Elimination Float =>
        decide (∀ r : Nat, r < 2 → ∀ c : Nat, c < 2 →
          Scalar.isNaN (s.work.entry r c).value = false)) = true := by
    decide +kernel
  have hdetermined : StaysDetermined (exchangingBlock.pivotTolerance 2) exchangingBlock 2 := by
    intro k s hk hrun r c hr hc
    have hstate := hcheck k (Nat.lt_succ_of_le hk)
    rw [hrun] at hstate
    exact of_decide_eq_true hstate r hr c hc
  obtain ⟨w, hw⟩ := exists_ok_of_isOk (x := gaussJordan
    (undeterminedAndExchanging.pivotTolerance 3) undeterminedAndExchanging 3) (by decide +kernel)
  obtain ⟨v, hv⟩ := exists_ok_of_isOk (x := gaussJordan
    (exchangingBlock.pivotTolerance 2) exchangingBlock 2) (by decide +kernel)
  obtain ⟨hout, -, halone⟩ := isBlockDiagonal_undeterminedAndExchanging.gaussJordan_apart hw
  exact ⟨hdetermined, w, v, hw, hv, hout 1 0 (by decide), halone hdetermined v hv⟩

end Inverses

end DenseMatrix
end SeparableTransforms
