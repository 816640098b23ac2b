import SeparableTransforms.Proofs.Dimensions
import SeparableTransforms.Proofs.DoubleDouble.Agreement
import SeparableTransforms.Transform.Assembly

/-!
# Affine matrices

The operations on matrices that transforms are built from keep the last row: the
identity, the selection of rows and columns together with the last one, the
expansion by copied coordinates, and the product.

Matrices are compared entry by entry.  A product does not depend on the signs of
the zeros in its factors.
-/

namespace SeparableTransforms

universe u

namespace DenseMatrix

section Comparison

variable {α : Type u} [Scalar α]

theorem cell_eq_entry (m : DenseMatrix α) {r c : Nat} (hr : r < m.rows) (hc : c < m.cols)
    (h : r * m.cols + c < m.cells.size) : m.cells[r * m.cols + c] = m.entry r c := by
  simp [entry, get?, hr, hc, h]

/-- Matrices are stored as equal if their shapes are equal and all entries are the same. -/
theorem beq_iff {a b : DenseMatrix α} :
    (a == b) = true ↔ a.rows = b.rows ∧ a.cols = b.cols ∧
      ∀ r c, r < a.rows → c < a.cols → Same (a.entry r c) (b.entry r c) := by
  show (a.rows == b.rows && a.cols == b.cols && Array.isEqv a.cells b.cells Scalar.agree) = true ↔ _
  simp only [Bool.and_eq_true, beq_iff_eq, and_assoc, Array.isEqv_iff_rel]
  constructor
  · rintro ⟨hrows, hcols, hsize, hcells⟩
    refine ⟨hrows, hcols, fun r c hr hc => ?_⟩
    have hcell : r * a.cols + c < a.cells.size := a.size_cells ▸ cell_lt hr hc
    have hcell' : r * b.cols + c < b.cells.size := by rwa [← hcols, ← hsize]
    rw [← cell_eq_entry a hr hc hcell, ← cell_eq_entry b (hrows ▸ hr) (hcols ▸ hc) hcell']
    have hsame := hcells _ hcell
    simp only [← hcols]
    exact hsame
  · rintro ⟨hrows, hcols, hentries⟩
    have hsize : a.cells.size = b.cells.size := by
      rw [a.size_cells, b.size_cells, hrows, hcols]
    refine ⟨hrows, hcols, hsize, fun i hi => ?_⟩
    have hi' : i < a.rows * a.cols := a.size_cells ▸ hi
    have hpos : 0 < a.cols := Nat.pos_of_ne_zero fun hz => by simp [hz] at hi'
    have hr : i / a.cols < a.rows := Nat.div_lt_of_lt_mul (Nat.mul_comm a.rows _ ▸ hi')
    have hc : i % a.cols < a.cols := Nat.mod_lt _ hpos
    have hplace : i / a.cols * a.cols + i % a.cols = i := by
      rw [Nat.mul_comm]
      exact Nat.div_add_mod i a.cols
    have hsame := hentries _ _ hr hc
    rw [← cell_eq_entry a hr hc (by omega), ← cell_eq_entry b (hrows ▸ hr) (hcols ▸ hc)
      (by rw [← hcols]; omega)] at hsame
    simp only [← hcols, hplace] at hsame
    exact hsame

end Comparison

section Identities

variable {α : Type u} [Scalar α] {m : DenseMatrix α}

theorem rows_of_isIdentity (h : m.isIdentity = true) : m.rows = m.cols := by
  simp only [isIdentity, isSquare, Bool.and_eq_true, beq_iff_eq] at h
  exact h.1

theorem same_of_isIdentity (h : m.isIdentity = true) {r c : Nat} (hr : r < m.rows)
    (hc : c < m.cols) : Same (m.entry r c) (if r = c then 1 else 0) := by
  simp only [isIdentity, Bool.and_eq_true, List.all_eq_true, List.mem_range] at h
  exact .of_beq (h.2 r hr c hc)

end Identities

section Affine

variable {α : Type u} [Scalar α] [LawfulScalar α] {m : DenseMatrix α}

/-- The last row of an affine matrix. -/
def lastRow (cols c : Nat) : α :=
  if c + 1 = cols then 1 else 0

theorem beq_lastRow_iff {a : α} {cols c : Nat} :
    (a == lastRow cols c) = true ↔ Same a (lastRow cols c) := by
  refine ⟨Same.of_beq, fun h => ?_⟩
  unfold lastRow at h ⊢
  split
  · rw [if_pos ‹_›] at h
    exact h.beq_one
  · rw [if_neg ‹_›] at h
    exact h.beq_zero

theorem isAffine_iff :
    m.isAffine = true ↔ 0 < m.rows ∧ 0 < m.cols ∧
      ∀ c, c < m.cols → Same (m.entry (m.rows - 1) c) (lastRow m.cols c) := by
  simp only [isAffine, Bool.and_eq_true, bne_iff_ne, List.all_eq_true, List.mem_range, and_assoc,
    Nat.pos_iff_ne_zero]
  refine and_congr_right fun _ => and_congr_right fun _ => ?_
  exact forall_congr' fun c => imp_congr_right fun _ => beq_lastRow_iff

theorem isAffine_rows_pos (h : m.isAffine = true) : 0 < m.rows :=
  (isAffine_iff.mp h).1

theorem isAffine_cols_pos (h : m.isAffine = true) : 0 < m.cols :=
  (isAffine_iff.mp h).2.1

theorem isAffine_lastRow (h : m.isAffine = true) {c : Nat} (hc : c < m.cols) :
    Same (m.entry (m.rows - 1) c) (lastRow m.cols c) :=
  (isAffine_iff.mp h).2.2 c hc

/-- Before its last column the last row of an affine matrix is zero. -/
theorem isAffine_lastRow_beq_zero (h : m.isAffine = true) {c : Nat} (hc : c < m.cols - 1) :
    (m.entry (m.rows - 1) c == 0) = true := by
  have hsame := isAffine_lastRow h (c := c) (by omega)
  rw [lastRow, if_neg (by omega)] at hsame
  exact hsame.beq_zero

/-- A matrix made of its entries is affine if the last row is right. -/
theorem isAffine_ofFn {rows cols : Nat} {f : Nat → Nat → α}
    (h : ∀ c, c < cols + 1 → Same (f rows c) (if c = cols then 1 else 0)) :
    (ofFn (rows + 1) (cols + 1) f).isAffine = true := by
  refine isAffine_iff.mpr ⟨Nat.succ_pos _, Nat.succ_pos _, fun c hc => ?_⟩
  simp only [rows_ofFn, cols_ofFn, Nat.add_sub_cancel] at hc ⊢
  rw [entry_ofFn f (Nat.lt_succ_self rows) hc]
  simpa [lastRow] using h c hc

theorem isAffine_identity (n : Nat) : (identity (n + 1) : DenseMatrix α).isAffine = true := by
  refine isAffine_ofFn fun c hc => ?_
  by_cases hcn : c = n
  · simp [hcn]
  · simp [hcn, Ne.symm hcn]

end Affine

section Keeping

variable {α : Type u} [Scalar α] {m : DenseMatrix α} {R S : List Nat}

/-- The given rows of an affine matrix together with its last row. -/
def keepRows (m : DenseMatrix α) (R : List Nat) : DenseMatrix α :=
  m.takeRows (R ++ [m.rows - 1])

/-- The given columns of an affine matrix together with its last column. -/
def keepColumns (m : DenseMatrix α) (S : List Nat) : DenseMatrix α :=
  m.takeColumns (S ++ [m.cols - 1])

@[simp] theorem rows_keepRows : (m.keepRows R).rows = R.length + 1 := by
  simp [keepRows, takeRows]

@[simp] theorem cols_keepRows : (m.keepRows R).cols = m.cols :=
  rfl

@[simp] theorem rows_keepColumns : (m.keepColumns S).rows = m.rows :=
  rfl

@[simp] theorem cols_keepColumns : (m.keepColumns S).cols = S.length + 1 := by
  simp [keepColumns, takeColumns]

theorem entry_keepRows {r c : Nat} (hr : r < R.length) (hc : c < m.cols) :
    (m.keepRows R).entry r c = m.entry R[r] c := by
  rw [keepRows, entry_takeRows (by simp; omega) hc, List.getElem_append_left hr]

theorem entry_keepRows_last {c : Nat} (hc : c < m.cols) :
    (m.keepRows R).entry R.length c = m.entry (m.rows - 1) c := by
  rw [keepRows, entry_takeRows (by simp) hc]
  simp

theorem entry_keepColumns {r c : Nat} (hr : r < m.rows) (hc : c < S.length) :
    (m.keepColumns S).entry r c = m.entry r S[c] := by
  rw [keepColumns, entry_takeColumns hr (by simp; omega), List.getElem_append_left hc]

theorem entry_keepColumns_last {r : Nat} (hr : r < m.rows) :
    (m.keepColumns S).entry r S.length = m.entry r (m.cols - 1) := by
  rw [keepColumns, entry_takeColumns hr (by simp)]
  simp

/-- Places before the last one, together with the last one. -/
theorem lt_of_mem_append_last {K : List Nat} {n : Nat} (hn : 0 < n) (hK : ∀ k ∈ K, k < n - 1) :
    ∀ k ∈ K ++ [n - 1], k < n := by
  intro k hk
  rcases List.mem_append.mp hk with hk | hk
  · exact (hK k hk).trans_le (Nat.sub_le n 1)
  · rw [List.mem_singleton.mp hk]
    exact Nat.sub_lt hn Nat.one_pos

/-- The requested rows of an affine matrix exist. -/
theorem selectRows_last (h : 0 < m.rows) (hR : ∀ r ∈ R, r < m.rows - 1) :
    m.selectRows (R ++ [m.rows - 1]) = .ok (m.keepRows R) :=
  selectRows_eq_ok_iff.mpr (lt_of_mem_append_last h hR)

/-- The requested columns of an affine matrix exist. -/
theorem selectColumns_last (h : 0 < m.cols) (hS : ∀ c ∈ S, c < m.cols - 1) :
    m.selectColumns (S ++ [m.cols - 1]) = .ok (m.keepColumns S) :=
  selectColumns_eq_ok_iff.mpr (lt_of_mem_append_last h hS)

theorem submatrix_last (hrows : 0 < m.rows) (hR : ∀ r ∈ R, r < m.rows - 1) (hcols : 0 < m.cols)
    (hS : ∀ c ∈ S, c < m.cols - 1) :
    m.submatrix (R ++ [m.rows - 1]) (S ++ [m.cols - 1]) = .ok ((m.keepRows R).keepColumns S) := by
  rw [submatrix, selectRows_last hrows hR]
  exact selectColumns_last (m := m.keepRows R) hcols hS

/-- Removing the columns outside a list keeps those in it. -/
theorem removeColumns_unused (h : 0 < m.cols) (hS : Increasing S (m.cols - 1)) :
    (m.removeColumns ((List.range (m.cols - 1)).filter fun c => !S.contains c)) =
      m.keepColumns S := by
  unfold removeColumns keepColumns
  congr 1
  obtain ⟨n, hn⟩ : ∃ n, m.cols = n + 1 := ⟨m.cols - 1, by omega⟩
  simp only [hn, Nat.add_sub_cancel] at hS ⊢
  rw [List.range_succ, List.filter_append]
  congr 1
  · conv_rhs => rw [← hS.filter_range]
    refine List.filter_congr fun c hc => ?_
    simp [List.contains_eq_mem, List.mem_range.mp hc]
  · simp

end Keeping

section KeepingAffine

variable {α : Type u} [Scalar α] [LawfulScalar α] {m : DenseMatrix α} {R S : List Nat}

theorem isAffine_keepRows (h : m.isAffine = true) (R : List Nat) :
    (m.keepRows R).isAffine = true := by
  have hcols : 0 < m.cols := isAffine_cols_pos h
  refine isAffine_iff.mpr ⟨by simp, hcols, fun c hc => ?_⟩
  rw [rows_keepRows, Nat.add_sub_cancel, entry_keepRows_last (m := m) hc]
  exact isAffine_lastRow h hc

theorem isAffine_keepColumns (h : m.isAffine = true) (hS : ∀ c ∈ S, c < m.cols - 1) :
    (m.keepColumns S).isAffine = true := by
  have hrows : 0 < m.rows := isAffine_rows_pos h
  have hcols : 0 < m.cols := isAffine_cols_pos h
  have hrow : m.rows - 1 < m.rows := Nat.sub_lt hrows Nat.one_pos
  refine isAffine_iff.mpr ⟨hrows, by simp, fun c hc => ?_⟩
  rw [cols_keepColumns] at hc
  rcases Nat.lt_succ_iff_lt_or_eq.mp hc with hlt | rfl
  · have hbound := hS _ (List.getElem_mem hlt)
    have hlast := isAffine_lastRow h (c := S[c]) (by omega)
    rw [rows_keepColumns, entry_keepColumns hrow hlt, cols_keepColumns]
    rw [lastRow, if_neg (by omega)] at hlast ⊢
    exact hlast
  · have hlast := isAffine_lastRow h (c := m.cols - 1) (by omega)
    rw [rows_keepColumns, entry_keepColumns_last hrow, cols_keepColumns]
    rw [lastRow, if_pos (by omega)] at hlast
    rw [lastRow, if_pos rfl]
    exact hlast

end KeepingAffine

section Skipping

universe v

variable {β : Type u} {γ : Type v}

/-- A fold does not need the elements at which it changes nothing. -/
theorem foldl_filter_eq {f : γ → β → γ} {q : β → Bool} {l : List β}
    (h : ∀ x ∈ l, q x = false → ∀ s, f s x = s) (s : γ) :
    (l.filter q).foldl f s = l.foldl f s := by
  rw [List.foldl_filter]
  refine List.foldl_ext _ _ s fun t x hx => ?_
  split
  · rfl
  · rename_i hq
    exact (h x hx (by simpa using hq) t).symm

theorem foldl_eq_self {f : γ → β → γ} {l : List β} (h : ∀ x ∈ l, ∀ s, f s x = s) (s : γ) :
    l.foldl f s = s := by
  have hskip := foldl_filter_eq (q := fun _ => false) (fun x hx _ => h x hx) s
  rw [← hskip, List.filter_false, List.foldl_nil]

/-- A fold over a range that changes something at a single place only. -/
theorem foldl_range_eq_single {f : γ → Nat → γ} {n d : Nat} (hd : d < n)
    (h : ∀ c, c < n → c ≠ d → ∀ s, f s c = s) (s : γ) : (List.range n).foldl f s = f s d := by
  have honly : (List.range n).filter (fun c => c == d) = [d] := by
    refine (increasing_filter_range _ _).eq_of_mem_iff (n := d + 1)
      ⟨List.pairwise_singleton _ d, by simp⟩ fun c => ?_
    simp only [List.mem_filter, List.mem_range, beq_iff_eq, List.mem_singleton]
    exact ⟨And.right, fun hcd => ⟨hcd ▸ hd, hcd⟩⟩
  have hskip : ∀ c ∈ List.range n, (c == d) = false → ∀ t, f t c = t :=
    fun c hc hne => h c (List.mem_range.mp hc) (by simpa using hne)
  rw [← foldl_filter_eq hskip, honly, List.foldl_cons, List.foldl_nil]

/-- A sum over the positions of a list is a sum over the list. -/
theorem foldl_range_getD (f : γ → Nat → γ) (l : List Nat) (start : γ) :
    (List.range l.length).foldl (fun s i => f s (l.getD i 0)) start = l.foldl f start := by
  have hmap : (List.range l.length).map (fun i => l.getD i 0) = l := by
    apply List.ext_getElem (by simp)
    intro i hi hi'
    simp [hi']
  conv_rhs => rw [← hmap, List.foldl_map]

end Skipping

section Product

variable {α : Type u} [Scalar α] {a b p : DenseMatrix α}

theorem multiply_eq (h : a.cols = b.rows) : a.multiply b = .ok (ofFn a.rows b.cols (dot a b)) := by
  rw [multiply, if_pos h]

theorem accumulate_of_isZero {x y : α} (hx : (x == 0) = true) (sum : DoubleDouble α) :
    accumulate sum x y = sum := by
  simp [accumulate, hx]

theorem accumulate_of_isZero_right {x y : α} (hy : (y == 0) = true) (sum : DoubleDouble α) :
    accumulate sum x y = sum := by
  simp [accumulate, hy]

/-- Entries of products are equal if their terms change every sum alike. -/
theorem dot_eq_of_terms {a' b' : DenseMatrix α} {r r' c c' : Nat} (hcols : a'.cols = a.cols)
    (h : ∀ k, k < a.cols → ∀ sum, accumulate sum (a.entry r k) (b.entry k c) =
      accumulate sum (a'.entry r' k) (b'.entry k c')) : dot a b r c = dot a' b' r' c' := by
  unfold dot
  rw [hcols]
  exact congrArg DoubleDouble.value
    (List.foldl_ext _ _ 0 fun sum k hk => h k (List.mem_range.mp hk) sum)

variable [LawfulScalar α]

theorem dot_congr {a' b' : DenseMatrix α} {r r' c c' : Nat} (hcols : a.cols = a'.cols)
    (ha : ∀ k, k < a.cols → Same (a.entry r k) (a'.entry r' k))
    (hb : ∀ k, k < a.cols → Same (b.entry k c) (b'.entry k c')) :
    Same (dot a b r c) (dot a' b' r' c') := by
  unfold dot
  rw [← hcols]
  refine (List.foldl_rel (DoubleDouble.Alike.refl _) fun k hk s t hst => ?_).value
  rw [List.mem_range] at hk
  exact DoubleDouble.alike_accumulate hst (ha k hk) (hb k hk)

/-- The last row of a product of affine matrices. -/
theorem dot_lastRow (ha : a.isAffine = true) (hb : b.isAffine = true) (h : a.cols = b.rows)
    {c : Nat} (hc : c < b.cols) :
    Same (dot a b (a.rows - 1) c) (lastRow b.cols c) := by
  obtain ⟨n, hn⟩ : ∃ n, a.cols = n + 1 := ⟨a.cols - 1, by have := isAffine_cols_pos ha; omega⟩
  have hzeros : ∀ k ∈ List.range n, ∀ s : DoubleDouble α,
      accumulate s (a.entry (a.rows - 1) k) (b.entry k c) = s := by
    intro k hk s
    rw [List.mem_range] at hk
    exact accumulate_of_isZero (isAffine_lastRow_beq_zero ha (by omega)) s
  have hone := isAffine_lastRow ha (c := n) (by omega)
  rw [lastRow, if_pos (by omega)] at hone
  have hlast := isAffine_lastRow hb hc
  rw [show b.rows - 1 = n by omega] at hlast
  unfold dot
  rw [hn, List.range_succ, List.foldl_append, foldl_eq_self hzeros, List.foldl_cons, List.foldl_nil]
  unfold accumulate
  rw [hone.isZero_eq, one_beq_zero, Bool.false_or]
  split
  · rename_i hz
    exact (Same.of_beq hz).symm.trans hlast
  · exact (DoubleDouble.alike_copy (.refl _) hone).value.trans hlast

theorem isAffine_product (ha : a.isAffine = true) (hb : b.isAffine = true) (h : a.cols = b.rows) :
    (ofFn a.rows b.cols (dot a b)).isAffine = true := by
  have hrows := isAffine_rows_pos ha
  have hcols := isAffine_cols_pos hb
  refine isAffine_iff.mpr ⟨hrows, hcols, fun c hc => ?_⟩
  have hc : c < b.cols := hc
  rw [rows_ofFn, cols_ofFn, entry_ofFn (dot a b) (Nat.sub_lt hrows Nat.one_pos) hc]
  exact dot_lastRow ha hb h hc

end Product

end DenseMatrix
end SeparableTransforms
