import SeparableTransforms.Kernels.Synthetic
import SeparableTransforms.Proofs.DenseMatrix.Tolerance
import SeparableTransforms.Proofs.Transform.Assembly
import SeparableTransforms.Transform.Inverse

/-!
# Inverses of collapsed pass-throughs

The linear part of an expanded matrix consists of three blocks: the linear part of
the matrix that is expanded, and an identity on either side.  They are eliminated one
after the other, so the inverse of an expanded matrix is an expanded inverse.

What the blocks have in common is the tolerance of the pivots.  It is relative to the
largest coefficient and to the size of the whole matrix, and so the copied coordinates
take part in it: their ones must exceed it, and the pivots inside are held against it
instead of the tolerance of the inner matrix.  If none of them is under it, which is
seen from the result, the inner matrix has an inverse of its own, and the two agree.
-/

namespace SeparableTransforms
namespace Transform

open DenseMatrix Outcome

section Blocks

variable {α : Type} [Scalar α] {v : DenseMatrix (DoubleDouble α)} {m : DenseMatrix α}
  {tolerance : α} {d k n r : Nat}

/-- A table with ones on the diagonal before and after it. -/
def bordered (k : Nat) (v : DenseMatrix (DoubleDouble α)) (n : Nat) :
    DenseMatrix (DoubleDouble α) :=
  beside (unitTable k) (beside v (unitTable n))

theorem rows_bordered (hrows : v.rows = d) : (bordered k v n).rows = k + (d + n) :=
  congrArg (fun d => k + (d + n)) hrows

theorem cols_bordered (hcols : v.cols = d) : (bordered k v n).cols = k + (d + n) :=
  congrArg (fun d => k + (d + n)) hcols

theorem entry_bordered_leading (hr : r < k) (c : Nat) :
    (bordered k v n).entry r c = if c = r then 1 else 0 := by
  unfold bordered
  rw [entry_beside_upper (by exact hr)]
  rcases Nat.lt_or_ge c k with hc | hc
  · rw [entry_unitTable hr hc]
    simp only [eq_comm]
  · rw [entry_eq_zero fun h => Nat.not_lt.mpr hc h.2, if_neg (by omega)]

theorem entry_bordered_inner (hrows : v.rows = d) (hr : r < d) (c : Nat) :
    (bordered k v n).entry (k + r) c = if k ≤ c then v.entry r (c - k) else 0 := by
  unfold bordered
  split_ifs with hc
  · obtain ⟨c, rfl⟩ := Nat.exists_eq_add_of_le hc
    rw [entry_beside_lower (p := k) (q := k) rfl rfl, entry_beside_upper (hrows.symm ▸ hr),
      Nat.add_sub_cancel_left]
  · exact entry_beside_corner (p := k) (q := k) rfl rfl r (by omega)

theorem entry_bordered_trailing (hrows : v.rows = d) (hcols : v.cols = d) (hr : r < n) (c : Nat) :
    (bordered k v n).entry (k + (d + r)) c = if c = k + (d + r) then 1 else 0 := by
  unfold bordered
  rcases Nat.lt_or_ge c k with hc | hc
  · rw [entry_beside_corner (p := k) (q := k) rfl rfl _ hc, if_neg (by omega)]
  obtain ⟨c, rfl⟩ := Nat.exists_eq_add_of_le hc
  rw [entry_beside_lower (p := k) (q := k) rfl rfl]
  rcases Nat.lt_or_ge c d with hc' | hc'
  · rw [entry_beside_corner hrows hcols r hc', if_neg (by omega)]
  obtain ⟨c, rfl⟩ := Nat.exists_eq_add_of_le hc'
  rw [entry_beside_lower hrows hcols]
  rcases Nat.lt_or_ge c n with hcn | hcn
  · rw [entry_unitTable hr hcn]
    simp only [Nat.add_left_cancel_iff, eq_comm]
  · rw [entry_eq_zero fun h => Nat.not_lt.mpr hcn h.2, if_neg (by omega)]

theorem eq_bordered {t : DenseMatrix (DoubleDouble α)} (hv : v.rows = d) (hv' : v.cols = d)
    (hrows : t.rows = k + (d + n)) (hcols : t.cols = k + (d + n))
    (hleading : ∀ r c, r < k → c < k + (d + n) → t.entry r c = if c = r then 1 else 0)
    (hinner : ∀ r c, r < d → c < k + (d + n) →
      t.entry (k + r) c = if k ≤ c then v.entry r (c - k) else 0)
    (htrailing : ∀ r c, r < n → c < k + (d + n) →
      t.entry (k + (d + r)) c = if c = k + (d + r) then 1 else 0) : t = bordered k v n := by
  refine ext_entry (hrows.trans (rows_bordered hv).symm) (hcols.trans (cols_bordered hv').symm)
    fun r c hr hc => ?_
  rw [hrows] at hr
  rw [hcols] at hc
  rcases Nat.lt_or_ge r k with hlead | hlead
  · rw [hleading r c hlead hc, entry_bordered_leading hlead]
  obtain ⟨r, rfl⟩ := Nat.exists_eq_add_of_le hlead
  rcases Nat.lt_or_ge r d with hin | hin
  · rw [hinner r c hin hc, entry_bordered_inner hv hin]
  obtain ⟨r, rfl⟩ := Nat.exists_eq_add_of_le hin
  have hr : r < n := by omega
  rw [htrailing r c hr hc, entry_bordered_trailing hv hv' hr]

theorem ofScalar_ite (p : Prop) [Decidable p] :
    DoubleDouble.ofScalar (if p then (1 : α) else 0) = if p then 1 else 0 := by
  split_ifs <;> rfl

theorem start_work_expand (hrows : m.rows - 1 = d) (hcols : m.cols - 1 = d) :
    (Elimination.start (expand k m n) (k + (d + n))).work =
      bordered k (Elimination.start m d).work n := by
  refine eq_bordered (d := d) rfl rfl rfl rfl (fun r c hr hc => ?_) (fun r c hr hc => ?_)
    fun r c hr hc => ?_
  · rw [Elimination.entry_start_work _ (by omega) hc, entry_expand_leading hr (by omega),
      ofScalar_ite]
  · rw [Elimination.entry_start_work _ (by omega) hc,
      entry_expand_inner (by omega) (by omega) (by omega), if_neg (by omega),
      Nat.add_sub_cancel_left]
    rcases Nat.lt_or_ge c k with hk | hk
    · rw [if_neg (by omega), if_neg (by omega)]
      rfl
    rw [if_pos hk]
    rcases Nat.lt_or_ge c (k + d) with hd | hd
    · rw [if_pos (by omega), Elimination.entry_start_work _ hr (by omega)]
    · rw [if_neg (by omega), entry_eq_zero fun h => absurd (show c - k < d from h.2) (by omega)]
      rfl
  · rw [Elimination.entry_start_work _ (by omega) hc,
      entry_expand_trailing (by omega) (by omega) (by omega), ofScalar_ite, hrows, hcols]
    simp only [Nat.add_right_cancel_iff]

theorem start_inverse_expand :
    (Elimination.start (expand k m n) (k + (d + n))).inverse =
      bordered k (Elimination.start m d).inverse n := by
  refine eq_bordered (d := d) rfl rfl rfl rfl (fun r c hr hc => ?_) (fun r c hr hc => ?_)
    fun r c hr hc => ?_
  · rw [Elimination.entry_start_inverse _ (by omega) hc]
    simp only [eq_comm]
  · rw [Elimination.entry_start_inverse _ (by omega) hc]
    rcases Nat.lt_or_ge c k with hk | hk
    · rw [if_neg (by omega), if_neg (by omega)]
    rw [if_pos hk]
    rcases Nat.lt_or_ge c (k + d) with hd | hd
    · rw [Elimination.entry_start_inverse _ hr (by omega)]
      congr 1
      exact propext (by omega)
    · rw [if_neg (by omega), entry_eq_zero fun h => absurd (show c - k < d from h.2) (by omega)]
  · rw [Elimination.entry_start_inverse _ (by omega) hc]
    simp only [eq_comm]

/-- The elimination of an expanded matrix starts with three blocks. -/
theorem start_expand (hrows : m.rows - 1 = d) (hcols : m.cols - 1 = d) :
    Elimination.start (expand k m n) (k + (d + n)) =
      (Elimination.unit k).beside ((Elimination.start m d).beside (Elimination.unit n)) :=
  congrArg₂ Elimination.mk (start_work_expand hrows hcols) start_inverse_expand

end Blocks

section Eliminating

variable {α : Type} [Scalar α] [LawfulScalar α] [PivotScalar α] {m : DenseMatrix α}
  {w : DenseMatrix (DoubleDouble α)} {tolerance : α} {d k n : Nat}

/-- An expanded matrix is eliminated as the matrix that is expanded, if the ones around it exceed
the tolerance. -/
theorem gaussJordan_expand (hrows : m.rows - 1 = d) (hcols : m.cols - 1 = d)
    (htolerance : ¬tolerance < Scalar.abs 0) :
    gaussJordan tolerance (expand k m n) (k + (d + n)) = .ok w ↔
      (k + n = 0 ∨ tolerance < Scalar.abs 1) ∧
        ∃ v, gaussJordan tolerance m d = .ok v ∧ bordered k v n = w := by
  have hunit : ∀ j, (Elimination.unit j : Elimination α).IsSquare j := Elimination.isSquare_unit
  have hinner := Elimination.run_beside (Elimination.isSquare_start m d) (hunit n) htolerance
  have hsquare : ((Elimination.start m d).beside (Elimination.unit n)).IsSquare (d + n) :=
    ⟨rfl, rfl, rfl, rfl⟩
  rw [gaussJordan_eq_ok_iff, start_expand hrows hcols,
    Elimination.run_beside (hunit k) hsquare htolerance, hinner, Elimination.run_unit htolerance,
    Elimination.run_unit htolerance]
  by_cases hones : k + n = 0 ∨ tolerance < Scalar.abs 1
  · have hk : k = 0 ∨ tolerance < Scalar.abs 1 := hones.imp_left (by omega)
    have hn : n = 0 ∨ tolerance < Scalar.abs 1 := hones.imp_left (by omega)
    rw [if_pos hk, if_pos hn]
    simp only [gaussJordan_eq_ok_iff, hones, true_and]
    cases (Elimination.start m d).run tolerance d with
    | error e => simp
    | ok s =>
        simp only [ok_bind, pure_eq_ok, Except.ok.injEq, exists_eq_left']
        rfl
  · obtain ⟨hsome, hlarge⟩ := not_or.mp hones
    simp only [hones, false_and, iff_false, not_exists]
    rintro s ⟨hrun, -⟩
    by_cases hk : k = 0
    · have hn : ¬(n = 0 ∨ tolerance < Scalar.abs 1) := by
        simp only [hlarge, or_false]
        omega
      rw [if_pos (.inl hk), if_neg hn] at hrun
      cases hinner : (Elimination.start m d).run tolerance d <;> rw [hinner] at hrun <;> cases hrun
    · rw [if_neg (by simp [hk, hlarge])] at hrun
      cases hrun

end Eliminating

section Offsets

variable {α : Type} [Scalar α] [LawfulScalar α] {m : DenseMatrix α}
  {v w : DenseMatrix (DoubleDouble α)} {d k n r : Nat}

/-- One more term of an offset of the inverse; zero factors add nothing. -/
def addOffset (sum a : DoubleDouble α) (b : α) : DoubleDouble α :=
  if b == 0 || a.isZero then sum else sum + a * DoubleDouble.ofScalar b

omit [LawfulScalar α] in
theorem inverseOffset_eq (hw : w.rows = d) :
    m.inverseOffset w r =
      (-(List.range d).foldl (fun sum c => addOffset sum (w.entry r c) (m.entry c d)) 0).value := by
  subst hw
  rfl

omit [LawfulScalar α] in
theorem addOffset_of_isZero {sum a : DoubleDouble α} {b : α}
    (h : (b == 0) = true ∨ a.isZero = true) : addOffset sum a b = sum :=
  if_pos (Bool.or_eq_true_iff.mpr h)

omit [LawfulScalar α] in
/-- A row of the inverse that meets no offset has none. -/
theorem inverseOffset_of_isZero (hw : w.rows = d)
    (h : ∀ c, c < d → (m.entry c d == 0) = true ∨ (w.entry r c).isZero = true) :
    m.inverseOffset w r = -0 := by
  rw [inverseOffset_eq hw, foldl_eq_self fun c hc sum =>
    addOffset_of_isZero (h c (List.mem_range.mp hc))]
  rfl

omit [LawfulScalar α] in
/-- A fold over a range that changes something only in the middle. -/
theorem foldl_range_inner {γ : Type} {f : γ → Nat → γ} (hbefore : ∀ c, c < k → ∀ s, f s c = s)
    (hafter : ∀ c, c < n → ∀ s, f s (k + (d + c)) = s) (s : γ) :
    (List.range (k + (d + n))).foldl f s = (List.range d).foldl (fun s c => f s (k + c)) s := by
  have hfirst : (List.range k).foldl f s = s :=
    foldl_eq_self (fun c hc => hbefore c (List.mem_range.mp hc)) s
  have hlast : ∀ t, (List.range n).foldl (fun s c => f s (k + (d + c))) t = t := fun t =>
    foldl_eq_self (fun c hc => hafter c (List.mem_range.mp hc)) t
  rw [List.range_add, List.foldl_append, hfirst, List.foldl_map, List.range_add, List.foldl_append,
    List.foldl_map, hlast]

/-- The offsets of the rows inside are those of the matrix that is expanded. -/
theorem inverseOffset_expand_inner (hrows : m.rows - 1 = d) (hcols : m.cols - 1 = d)
    (hv : v.rows = d) (hv' : v.cols = d) (hr : r < d) :
    (expand k m n).inverseOffset (bordered k v n) (k + r) = m.inverseOffset v r := by
  have hdim : (bordered k v n).rows = k + (d + n) := rows_bordered hv
  have hbefore : ∀ c, c < k → ((bordered k v n).entry (k + r) c).isZero = true := by
    intro c hc
    rw [entry_bordered_inner hv hr, if_neg (by omega)]
    exact DoubleDouble.isZero_zero
  have hafter : ∀ c, c < n → ((bordered k v n).entry (k + r) (k + (d + c))).isZero = true := by
    intro c hc
    rw [entry_bordered_inner hv hr, if_pos (by omega), entry_eq_zero fun h => absurd h.2 (by omega)]
    exact DoubleDouble.isZero_zero
  rw [inverseOffset_eq hdim, inverseOffset_eq hv,
    foldl_range_inner (fun c hc sum => addOffset_of_isZero (.inr (hbefore c hc)))
      fun c hc sum => addOffset_of_isZero (.inr (hafter c hc))]
  congr 2
  refine List.foldl_ext _ _ _ fun sum c hc => ?_
  have hc : c < d := List.mem_range.mp hc
  rw [entry_bordered_inner hv hr, if_pos (by omega), Nat.add_sub_cancel_left,
    entry_expand_inner (by omega) (by omega) (by omega), if_pos (by omega),
    Nat.add_sub_cancel_left, hcols]

omit [LawfulScalar α] in
/-- A copied coordinate has no offset. -/
theorem entry_expand_offset {c : Nat} (hr : r < k + (m.rows - 1) + n)
    (hout : ¬(k ≤ r ∧ r < k + (m.rows - 1))) (hc : c = k + (m.cols - 1) + n) :
    (expand k m n).entry r c = 0 := by
  rcases Nat.lt_or_ge r k with hlead | hlead
  · rw [entry_expand_leading hlead (by omega), if_neg (by omega)]
  · rw [entry_expand_trailing (by omega) (by omega) (by omega), if_neg (by omega)]

/-- The copied coordinates are copied back without an offset. -/
theorem inverseOffset_expand_outer (hrows : m.rows - 1 = d) (hcols : m.cols - 1 = d)
    (hv : v.rows = d) (hv' : v.cols = d) (hr : r < k + (d + n)) (hout : ¬(k ≤ r ∧ r < k + d)) :
    (expand k m n).inverseOffset (bordered k v n) r = -0 := by
  have hdim : (bordered k v n).rows = k + (d + n) := rows_bordered hv
  have hrow : ∀ c, (bordered k v n).entry r c = if c = r then 1 else 0 := by
    intro c
    rcases Nat.lt_or_ge r k with hlead | hlead
    · exact entry_bordered_leading hlead c
    · obtain ⟨i, rfl⟩ := Nat.exists_eq_add_of_le (show k + d ≤ r by omega)
      rw [Nat.add_assoc]
      exact entry_bordered_trailing hv hv' (by omega) c
  refine inverseOffset_of_isZero hdim fun c hc => ?_
  by_cases hcr : c = r
  · subst hcr
    left
    rw [entry_expand_offset (by omega) (by omega) (by omega)]
    exact zero_beq_zero
  · right
    rw [hrow, if_neg hcr]
    exact DoubleDouble.isZero_zero

omit [LawfulScalar α] in
theorem value_ite (p : Prop) [Decidable p] :
    (if p then (1 : DoubleDouble α) else 0).value = if p then 1 else 0 := by
  split_ifs <;> rfl

omit [LawfulScalar α] in
/-- The linear part of the inverse. -/
theorem entry_affineInverse_expand (hv : v.rows = d) (hv' : v.cols = d) {c : Nat}
    (hr : r < k + (d + n)) (hc : c < k + (d + n)) :
    (affineInverse (expand k m n) (bordered k v n)).entry r c =
      (expand k (affineInverse m v) n).entry r c := by
  have hdim : (bordered k v n).rows = k + (d + n) := rows_bordered hv
  have hrows : (affineInverse m v).rows - 1 = d := hv
  have hcols : (affineInverse m v).cols - 1 = d := hv
  rw [entry_affineInverse (by omega) (by omega)]
  rcases Nat.lt_or_ge r k with hlead | hlead
  · rw [entry_bordered_leading hlead, entry_expand_leading hlead (by omega), value_ite]
  obtain ⟨r, rfl⟩ := Nat.exists_eq_add_of_le hlead
  rcases Nat.lt_or_ge r d with hin | hin
  · have hlast : ¬c = k + d + n := by omega
    rw [entry_bordered_inner hv hin, entry_expand_inner (by omega) (by omega) (by omega),
      Nat.add_sub_cancel_left, hcols, if_neg hlast]
    rcases Nat.lt_or_ge c k with hk | hk
    · rw [if_neg (by omega), if_neg (by omega)]
      rfl
    rw [if_pos hk]
    rcases Nat.lt_or_ge c (k + d) with hd | hd
    · rw [if_pos (by omega), entry_affineInverse (by omega) (by omega)]
    · rw [if_neg (by omega), entry_eq_zero fun h => absurd h.2 (by omega)]
      rfl
  obtain ⟨r, rfl⟩ := Nat.exists_eq_add_of_le hin
  rw [entry_bordered_trailing hv hv' (by omega), value_ite,
    entry_expand_trailing (by omega) (by omega) (by omega), hrows, hcols]
  simp only [Nat.add_right_cancel_iff]

variable [PivotScalar α]

/-- The offsets of the inverse. -/
theorem same_entry_affineInverse_expand (hrows : m.rows - 1 = d) (hcols : m.cols - 1 = d)
    (hv : v.rows = d) (hv' : v.cols = d) (hr : r < k + (d + n)) :
    Same ((affineInverse (expand k m n) (bordered k v n)).entry r (k + (d + n)))
      ((expand k (affineInverse m v) n).entry r (k + (d + n))) := by
  have hdim : (bordered k v n).rows = k + (d + n) := rows_bordered hv
  have hrows' : (affineInverse m v).rows - 1 = d := hv
  have hcols' : (affineInverse m v).cols - 1 = d := hv
  have hoffset := entry_affineInverse_offset (m := expand k m n) (hdim.symm ▸ hr)
  rw [hdim] at hoffset
  rw [hoffset]
  by_cases hin : k ≤ r ∧ r < k + d
  · obtain ⟨r, rfl⟩ := Nat.exists_eq_add_of_le hin.1
    have hinner := entry_affineInverse_offset (m := m) (w := v) (r := r) (by omega)
    rw [inverseOffset_expand_inner hrows hcols hv hv' (by omega),
      entry_expand_inner (by omega) (by omega) (by omega), if_pos (by omega),
      Nat.add_sub_cancel_left, hcols', ← hv, hinner]
  · rw [inverseOffset_expand_outer hrows hcols hv hv' hr hin,
      entry_expand_offset (by omega) (by omega) (by omega)]
    exact PivotScalar.same_neg_zero

/-- The inverse of an expanded matrix is the expanded inverse, up to the signs of zeros. -/
theorem affineInverse_expand (hrows : m.rows - 1 = d) (hcols : m.cols - 1 = d)
    (hv : v.rows = d) (hv' : v.cols = d) :
    (affineInverse (expand k m n) (bordered k v n) == expand k (affineInverse m v) n) = true := by
  have hdim : (bordered k v n).rows = k + (d + n) := rows_bordered hv
  have hrows' : (affineInverse m v).rows - 1 = d := hv
  have hcols' : (affineInverse m v).cols - 1 = d := hv
  have hshape : (affineInverse (expand k m n) (bordered k v n)).rows = k + (d + n) + 1 :=
    congrArg (· + 1) hdim
  have hshape' : (affineInverse (expand k m n) (bordered k v n)).cols = k + (d + n) + 1 :=
    congrArg (· + 1) hdim
  refine beq_iff.mpr ⟨by rw [hshape, rows_expand, hrows', Nat.add_assoc k d n],
    by rw [hshape', cols_expand, hcols', Nat.add_assoc k d n], fun r c hr hc => ?_⟩
  rw [hshape] at hr
  rw [hshape'] at hc
  rcases Nat.lt_succ_iff_lt_or_eq.mp hr with hr | rfl
  · rcases Nat.lt_succ_iff_lt_or_eq.mp hc with hc | rfl
    · rw [entry_affineInverse_expand hv hv' hr hc]
    · exact same_entry_affineInverse_expand hrows hcols hv hv' hr
  · have hlast := entry_affineInverse_last (m := expand k m n) (hdim.symm ▸ hc)
    rw [hdim] at hlast
    rw [hlast, entry_expand_trailing (by omega) (by omega) (by omega), hrows', hcols']
    rcases Nat.lt_succ_iff_lt_or_eq.mp hc with hc | rfl
    · rw [if_pos hc, if_neg (by omega)]
    · rw [if_neg (Nat.lt_irrefl _), if_pos rfl]

end Offsets

section Inverses

variable {α : Type} [Scalar α] [LawfulScalar α] [PivotScalar α] {m w : DenseMatrix α} {k n : Nat}

omit [LawfulScalar α] [PivotScalar α] in
/-- A square affine matrix is inverted by eliminating its linear part. -/
theorem inverseWithin_of_square (hm : m.isAffine = true) (hsquare : m.rows = m.cols)
    {tolerance : DenseMatrix α → Nat → α} :
    m.inverseWithin tolerance = .ok w ↔
      ∃ b, gaussJordan (tolerance m (m.rows - 1)) m (m.rows - 1) = .ok b ∧
        affineInverse m b = w := by
  rw [inverseWithin_eq_ok_iff hm]
  simp only [hsquare, true_and]

/-- An expanded matrix has an inverse if the linear part inside can be eliminated with the tolerance
of the whole, and the ones around it exceed that tolerance. -/
theorem inverse_expand_eq_ok_iff (hsquare : m.rows = m.cols) {tolerance : α}
    (htolerance : (expand k m n).pivotTolerance ((expand k m n).rows - 1) = tolerance)
    (hnonneg : ¬tolerance < Scalar.abs 0) :
    (expand k m n).inverse = .ok w ↔ (k + n = 0 ∨ tolerance < Scalar.abs 1) ∧
      ∃ b, gaussJordan tolerance m (m.rows - 1) = .ok b ∧
        affineInverse (expand k m n) (bordered k b n) = w := by
  have hcols : m.cols - 1 = m.rows - 1 := by rw [hsquare]
  have hsquare' : (expand k m n).rows = (expand k m n).cols := by
    rw [rows_expand, cols_expand, hcols]
  have hdim : (expand k m n).rows - 1 = k + (m.rows - 1 + n) := by
    rw [rows_expand, Nat.add_sub_cancel, Nat.add_assoc]
  unfold DenseMatrix.inverse
  rw [inverseWithin_of_square isAffine_expand hsquare', htolerance, hdim]
  simp only [gaussJordan_expand rfl hcols hnonneg]
  constructor
  · rintro ⟨_, ⟨hones, b, hrun, rfl⟩, rfl⟩
    exact ⟨hones, b, hrun, rfl⟩
  · rintro ⟨hones, b, hrun, rfl⟩
    exact ⟨_, ⟨hones, b, hrun, rfl⟩, rfl⟩

/-- If the inverse of an expanded matrix is determined, no pivot was too small for the matrix inside
either. -/
theorem gaussJordan_of_determined [AbsorbingScalar α] {tolerance smaller : α} {d : Nat}
    {b : DenseMatrix (DoubleDouble α)} (hsmaller : ∀ x, tolerance < x → smaller < x)
    (hrun : gaussJordan tolerance m d = .ok b)
    (h : (affineInverse (expand k m n) (bordered k b n)).hasUnconstrained = false) :
    gaussJordan smaller m d = .ok b := by
  have hrows := rows_gaussJordan hrun
  have hcols := cols_gaussJordan hrun
  have hdim : (bordered k b n).rows = k + (d + n) := rows_bordered hrows
  refine gaussJordan_of_smaller hsmaller hrun fun r c => ?_
  by_cases hplace : r < d ∧ c < d
  · have hcell : (affineInverse (expand k m n) (bordered k b n)).entry (k + r) (k + c) =
        (b.entry r c).value := by
      rw [entry_affineInverse (by omega) (by omega), entry_bordered_inner hrows hplace.1,
        if_pos (by omega), Nat.add_sub_cancel_left]
    rw [← hcell]
    refine isNaN_entry_of_hasUnconstrained h ?_ ?_
    · show k + r < (bordered k b n).rows + 1
      omega
    · show k + c < (bordered k b n).rows + 1
      omega
  · rw [entry_eq_zero (by rw [hrows, hcols]; exact hplace)]
    exact LawfulScalar.isNaN_zero

end Inverses

section Transforms

variable {κ α : Type} [Kernel κ α] [Scalar α] {m : DenseMatrix α} {id : NodeId}
  {t : Transform κ α}

/-- A linear transform is inverted by inverting its matrix. -/
theorem inverse_linear_eq_ok_iff (hsquare : m.rows = m.cols) :
    (linear id m : Transform κ α).inverse = .ok t ↔ ∃ w, m.inverse = .ok w ∧ t = linear none w := by
  have hsquare' : m.isSquare = true := beq_iff_eq.mpr hsquare
  unfold Transform.inverse inverseMatrix
  rw [if_pos hsquare']
  cases m.inverse with
  | error e =>
      show (Except.error _ : Except TransformError (Transform κ α)) = .ok t ↔ _
      simp
  | ok w =>
      show (Except.ok (linear none w) : Except TransformError (Transform κ α)) = .ok t ↔ _
      simp [eq_comm]

end Transforms

section Binary64

open Binary64

variable {κ : Type} [Kernel κ Float]

/-- A matrix is that of what the standard assembler makes of a wrapper around an affine matrix. -/
def IsCollapsed (κ : Type) [Kernel κ Float] (options : AssemblyOptions) (k : Nat)
    (v : DenseMatrix Float) (n : Nat) (w : DenseMatrix Float) : Prop :=
  ∃ t w', (Assembler.standard options).passThrough k (linear none v : Transform κ Float) n = .ok t ∧
    t.matrix? = some w' ∧ (w == w') = true

/-- What the inverse of a collapsed wrapper has to do with the matrix inside: its pivots, and the
ones of the copied coordinates, are held against the tolerance of the collapsed matrix.  If the
inverse is determined, it is the collapsed inverse of the matrix. -/
structure InvertsWithin (tolerance : Float) (options : AssemblyOptions) (k : Nat)
    (m : DenseMatrix Float) (n : Nat) (outcome : Except TransformError (Transform κ Float)) :
    Prop where
  invertible_iff : (∃ t, outcome = .ok t) ↔
    (k + n = 0 ∨ tolerance < 1) ∧ ∃ v, m.inverseWithin (fun _ _ => tolerance) = .ok v
  collapsed : ∀ t, outcome = .ok t → ∃ w v, t = linear none w ∧
    m.inverseWithin (fun _ _ => tolerance) = .ok v ∧ IsCollapsed κ options k v n w
  determined : ∀ w, outcome = .ok (linear none w) → w.hasUnconstrained = false →
    ∃ v, (linear none m : Transform κ Float).inverse = .ok (linear none v) ∧
      IsCollapsed κ options k v n w

theorem upTo_pivotTolerance_expand {m : DenseMatrix Float} (hsquare : m.rows = m.cols) (k n : Nat) :
    UpTo (m.pivotTolerance (m.rows - 1))
      ((expand k m n).pivotTolerance ((expand k m n).rows - 1)) := by
  have hdim : (expand k m n).rows - 1 = k + (m.rows - 1) + n := rfl
  refine upTo_pivotTolerance (by omega) fun r c hr hc =>
    ⟨k + r, k + c, by omega, by omega, ?_⟩
  rw [entry_expand_inner (by omega) (by omega) (by omega), if_neg (by omega), if_pos (by omega),
    Nat.add_sub_cancel_left, Nat.add_sub_cancel_left]

theorem abs_one_float : Scalar.abs (1 : Float) = 1 := by
  decide +kernel

/-- A wrapper that copies nothing is collapsed to the matrix itself. -/
theorem invertsWithin_none {m : DenseMatrix Float} (hm : m.isAffine = true)
    (hsquare : m.rows = m.cols) (id : NodeId) (options : AssemblyOptions) :
    InvertsWithin (m.pivotTolerance (m.rows - 1)) options 0 m 0
      (linear id m : Transform κ Float).inverse := by
  have hself : ∀ v, (m.inverseWithin fun _ _ => m.pivotTolerance (m.rows - 1)) = .ok v ↔
      m.inverse = .ok v := fun v =>
    (inverseWithin_of_square hm hsquare).trans (inverseWithin_of_square hm hsquare).symm
  have hcollapsed : ∀ w, IsCollapsed κ options 0 w 0 w := fun w =>
    ⟨_, w, passThroughSimplified_zero _, rfl, beq_refl w⟩
  refine ⟨?_, fun t ht => ?_, fun w hw _ => ?_⟩
  · simp only [hself, inverse_linear_eq_ok_iff hsquare, Nat.add_zero, true_or, true_and]
    constructor
    · rintro ⟨t, w, hw, -⟩
      exact ⟨w, hw⟩
    · rintro ⟨w, hw⟩
      exact ⟨_, w, hw, rfl⟩
  · obtain ⟨w, hw, rfl⟩ := (inverse_linear_eq_ok_iff hsquare).mp ht
    exact ⟨w, w, rfl, (hself w).mpr hw, hcollapsed w⟩
  · obtain ⟨w', hw', heq⟩ := (inverse_linear_eq_ok_iff hsquare).mp hw
    cases heq
    exact ⟨w, (inverse_linear_eq_ok_iff hsquare).mpr ⟨w, hw', rfl⟩, hcollapsed w⟩

/-- A wrapper that copies something is collapsed to an expanded matrix. -/
theorem invertsWithin_expand {m : DenseMatrix Float} (hm : m.isAffine = true)
    (hsquare : m.rows = m.cols) {k n : Nat} (hkn : ¬(k = 0 ∧ n = 0)) (options : AssemblyOptions) :
    InvertsWithin ((expand k m n).pivotTolerance ((expand k m n).rows - 1)) options k m n
      (linear none (expand k m n) : Transform κ Float).inverse := by
  have hlarger := upTo_pivotTolerance_expand hsquare k n
  have hnonneg : ¬(expand k m n).pivotTolerance ((expand k m n).rows - 1) < Scalar.abs 0 := by
    rw [abs_zero_float]
    exact hlarger.not_lt_zero
  have hsquare' : (expand k m n).rows = (expand k m n).cols := by
    rw [rows_expand, cols_expand, hsquare]
  have hinverse := fun w => inverse_expand_eq_ok_iff (w := w) hsquare rfl hnonneg
  have hcols : m.cols - 1 = m.rows - 1 := by rw [hsquare]
  have hcollapsed : ∀ {tolerance b}, gaussJordan tolerance m (m.rows - 1) = .ok b →
      IsCollapsed κ options k (affineInverse m b) n
        (affineInverse (expand k m n) (bordered k b n)) := by
    intro tolerance b hrun
    exact ⟨_, expand k (affineInverse m b) n, passThroughSimplified_linear none _ hkn, rfl,
      affineInverse_expand rfl hcols (rows_gaussJordan hrun) (cols_gaussJordan hrun)⟩
  rw [abs_one_float] at hinverse
  refine ⟨?_, fun t ht => ?_, fun w hw hdetermined => ?_⟩
  · simp only [inverse_linear_eq_ok_iff hsquare', hinverse, inverseWithin_of_square hm hsquare]
    constructor
    · rintro ⟨t, w, ⟨hones, b, hrun, -⟩, -⟩
      exact ⟨hones, _, b, hrun, rfl⟩
    · rintro ⟨hones, v, b, hrun, -⟩
      exact ⟨_, _, ⟨hones, b, hrun, rfl⟩, rfl⟩
  · obtain ⟨w, hw, rfl⟩ := (inverse_linear_eq_ok_iff hsquare').mp ht
    obtain ⟨-, b, hrun, rfl⟩ := (hinverse w).mp hw
    exact ⟨_, _, rfl, (inverseWithin_of_square hm hsquare).mpr ⟨b, hrun, rfl⟩, hcollapsed hrun⟩
  · obtain ⟨w', hw', heq⟩ := (inverse_linear_eq_ok_iff hsquare').mp hw
    cases heq
    obtain ⟨-, b, hrun, rfl⟩ := (hinverse w).mp hw'
    have hown := gaussJordan_of_determined (fun x => hlarger.lt) hrun hdetermined
    exact ⟨_, (inverse_linear_eq_ok_iff hsquare).mpr
      ⟨_, (inverseWithin_of_square hm hsquare).mpr ⟨b, hown, rfl⟩, rfl⟩, hcollapsed hrun⟩

/-- The inverse of what the standard assembler makes of a wrapper around an affine matrix. -/
theorem inverse_collapsed {m : DenseMatrix Float} (hm : m.isAffine = true)
    (hsquare : m.rows = m.cols) (k n : Nat) (id : NodeId) (options : AssemblyOptions) :
    ∃ t x, (Assembler.standard options).passThrough k (linear id m : Transform κ Float) n = .ok t ∧
      t.matrix? = some x ∧
      InvertsWithin (x.pivotTolerance (x.rows - 1)) options k m n t.inverse := by
  by_cases hkn : k = 0 ∧ n = 0
  · obtain ⟨rfl, rfl⟩ := hkn
    exact ⟨linear id m, m, passThroughSimplified_zero _, rfl,
      invertsWithin_none hm hsquare id options⟩
  · exact ⟨linear none (expand k m n), expand k m n, passThroughSimplified_linear id m hkn, rfl,
      invertsWithin_expand hm hsquare hkn options⟩

/-- A coordinate that is doubled and moved. -/
def doubling : DenseMatrix Float :=
  ⟨2, 2, #[2, 6, 0, 1], by decide +kernel⟩

/-- Beside a copied coordinate it is moved back and halved, as it is alone. -/
theorem inverse_doubling :
    ∃ (t : Transform SyntheticKernel Float) (v w : DenseMatrix Float),
      (Assembler.standard {}).passThrough 1 (linear none doubling) 0 = .ok t ∧
      t.inverse = .ok (linear none w) ∧
      (linear none doubling : Transform SyntheticKernel Float).inverse = .ok (linear none v) ∧
      IsCollapsed SyntheticKernel {} 1 v 0 w := by
  have hm : doubling.isAffine = true := by decide +kernel
  have hsquare : doubling.rows = doubling.cols := by decide +kernel
  obtain ⟨t, x, ht, hx, hinverts⟩ :=
    inverse_collapsed (κ := SyntheticKernel) hm hsquare 1 0 none {}
  obtain rfl : linear none (expand 1 doubling 0) = t := Except.ok.inj ht
  obtain rfl : expand 1 doubling 0 = x := Option.some.inj hx
  have hones : (expand 1 doubling 0).pivotTolerance ((expand 1 doubling 0).rows - 1) < 1 := by
    decide +kernel
  have hwithin := exists_ok_of_isOk (x := doubling.inverseWithin fun _ _ =>
    (expand 1 doubling 0).pivotTolerance ((expand 1 doubling 0).rows - 1)) (by decide +kernel)
  obtain ⟨t, hinverse⟩ := hinverts.invertible_iff.mpr ⟨.inr hones, hwithin⟩
  obtain ⟨w, -, rfl, -, -⟩ := hinverts.collapsed t hinverse
  have hdetermined : ((linear none (expand 1 doubling 0) :
      Transform SyntheticKernel Float).inverse.toOption.bind matrix?).any
        hasUnconstrained = false := by decide +kernel
  rw [hinverse] at hdetermined
  obtain ⟨v, hv, hcollapsed⟩ := hinverts.determined w hinverse hdetermined
  exact ⟨_, v, w, ht, hinverse, hv, hcollapsed⟩

/-- A coordinate scaled by a number that is less than the rounding unit. -/
def shrinking : DenseMatrix Float :=
  ⟨2, 2, #[Float.ofBits 0x3c30000000000000, 0, 0, 1], by decide +kernel⟩

/-- A matrix may have an inverse, and not be invertible beside a copied coordinate. -/
theorem not_inverse_collapsed_isOk_eq :
    ¬∀ (m : DenseMatrix Float) (k n : Nat) (t : Transform SyntheticKernel Float),
      m.isAffine = true → m.rows = m.cols → 2 ≤ m.cols → m.cells.all Scalar.isFinite →
      (Assembler.standard {}).passThrough k (linear none m) n = .ok t →
      t.inverse.isOk = (linear none m : Transform SyntheticKernel Float).inverse.isOk := by
  intro hall
  have hinner : (linear none shrinking : Transform SyntheticKernel Float).inverse.isOk = true := by
    decide +kernel
  have hcollapsed : (linear none (expand 1 shrinking 0) :
      Transform SyntheticKernel Float).inverse.isOk = false := by decide +kernel
  have hsame := hall shrinking 1 0 (linear none (expand 1 shrinking 0)) (by decide +kernel)
    (by decide +kernel) (by decide +kernel) (by decide +kernel) rfl
  rw [hinner, hcollapsed] at hsame
  cases hsame

end Binary64

end Transform
end SeparableTransforms
