import SeparableTransforms.Proofs.DenseMatrix.Affine

/-!
# Products of narrowed matrices

Selecting rows of a product is selecting rows of its first factor, and selecting
columns is selecting columns of the second.  Columns of zeros of the first factor may
be dropped together with the rows of the second that they meet: the terms they belong
to are left out of every sum, so the product stays exactly the same, whatever the other
factor holds in these rows.

Rows and columns of an affine matrix are selected together with the last one.
-/

namespace SeparableTransforms

universe u

namespace DenseMatrix

section Narrowing

variable {α : Type u} [Scalar α] {a b m : DenseMatrix α} {R S : List Nat}

/-- The product of two matrices that fit. -/
def product (a b : DenseMatrix α) : DenseMatrix α :=
  ofFn a.rows b.cols (dot a b)

@[simp] theorem rows_product : (product a b).rows = a.rows :=
  rfl

@[simp] theorem cols_product : (product a b).cols = b.cols :=
  rfl

theorem entry_product {r c : Nat} (hr : r < a.rows) (hc : c < b.cols) :
    (product a b).entry r c = dot a b r c :=
  entry_ofFn _ hr hc

theorem multiply_eq_product (h : a.cols = b.rows) : a.multiply b = .ok (product a b) :=
  multiply_eq h

/-- Rows of a product are products of rows. -/
theorem product_takeRows (hR : ∀ r ∈ R, r < a.rows) :
    product (a.takeRows R) b = (product a b).takeRows R := by
  refine ext_entry rfl rfl fun r c hr hc => ?_
  have hr : r < R.length := hr
  have hc : c < b.cols := hc
  rw [entry_product (a := a.takeRows R) hr hc, entry_takeRows (m := product a b) hr hc,
    entry_product (hR _ (List.getElem_mem hr)) hc]
  refine dot_eq_of_terms rfl fun k hk sum => ?_
  rw [entry_takeRows (m := a) hr hk]

/-- Columns of a product are products with columns. -/
theorem product_takeColumns (h : a.cols = b.rows) (hS : ∀ c ∈ S, c < b.cols) :
    product a (b.takeColumns S) = (product a b).takeColumns S := by
  refine ext_entry rfl rfl fun r c hr hc => ?_
  have hr : r < a.rows := hr
  have hc : c < S.length := hc
  rw [entry_product (b := b.takeColumns S) hr hc, entry_takeColumns (m := product a b) hr hc,
    entry_product hr (hS _ (List.getElem_mem hc))]
  refine dot_eq_of_terms rfl fun k hk sum => ?_
  rw [entry_takeColumns (m := b) (h ▸ hk) hc]

/-- Columns of zeros of the first factor may be left out together with the rows that they meet. -/
theorem product_takeColumns_takeRows (hS : Increasing S a.cols)
    (hzero : ∀ r, r < a.rows → ∀ k, k < a.cols → k ∉ S → (a.entry r k == 0) = true) :
    product (a.takeColumns S) (b.takeRows S) = product a b := by
  refine ext_entry rfl rfl fun r c hr hc => ?_
  have hr : r < a.rows := hr
  have hc : c < b.cols := hc
  rw [entry_product (a := a.takeColumns S) (b := b.takeRows S) hr hc, entry_product hr hc]
  have hskip : ∀ k ∈ List.range a.cols, S.contains k = false → ∀ s : DoubleDouble α,
      accumulate s (a.entry r k) (b.entry k c) = s := by
    intro k hk hout s
    exact accumulate_of_isZero (hzero r hr k (List.mem_range.mp hk) (by simpa using hout)) s
  unfold dot
  rw [← foldl_filter_eq hskip, hS.filter_range, ← foldl_range_getD _ S]
  refine congrArg DoubleDouble.value (List.foldl_ext _ _ 0 fun s k hk => ?_)
  have hk : k < S.length := List.mem_range.mp hk
  rw [entry_takeColumns hr hk, entry_takeRows hk hc, List.getD_eq_getElem S 0 hk]

/-- All rows of an affine matrix. -/
theorem keepRows_range (h : 0 < m.rows) : m.keepRows (List.range (m.rows - 1)) = m := by
  refine ext_entry (by simp; omega) rfl fun r c hr hc => ?_
  rw [rows_keepRows, List.length_range] at hr
  rw [cols_keepRows] at hc
  rcases Nat.lt_succ_iff_lt_or_eq.mp hr with hlt | rfl
  · rw [entry_keepRows (by simpa using hlt) hc]
    simp
  · have hlast := entry_keepRows_last (m := m) (R := List.range (m.rows - 1)) hc
    rwa [List.length_range] at hlast

/-- All columns of an affine matrix. -/
theorem keepColumns_range (h : 0 < m.cols) : m.keepColumns (List.range (m.cols - 1)) = m := by
  refine ext_entry rfl (by simp; omega) fun r c hr hc => ?_
  rw [rows_keepColumns] at hr
  rw [cols_keepColumns, List.length_range] at hc
  rcases Nat.lt_succ_iff_lt_or_eq.mp hc with hlt | rfl
  · rw [entry_keepColumns hr (by simpa using hlt)]
    simp
  · have hlast := entry_keepColumns_last (m := m) (S := List.range (m.cols - 1)) hr
    rwa [List.length_range] at hlast

/-- It does not matter whether rows or columns are selected first. -/
theorem keepRows_keepColumns (hrows : 0 < m.rows) (hR : ∀ r ∈ R, r < m.rows - 1)
    (hcols : 0 < m.cols) (hS : ∀ c ∈ S, c < m.cols - 1) :
    (m.keepColumns S).keepRows R = (m.keepRows R).keepColumns S := by
  refine ext_entry rfl rfl fun r c hr hc => ?_
  have hr : r < (R ++ [m.rows - 1]).length := hr
  have hc : c < (S ++ [m.cols - 1]).length := hc
  have hrow := lt_of_mem_append_last hrows hR _ (List.getElem_mem hr)
  have hcol := lt_of_mem_append_last hcols hS _ (List.getElem_mem hc)
  calc ((m.keepColumns S).keepRows R).entry r c
      = (m.keepColumns S).entry (R ++ [m.rows - 1])[r] c := entry_takeRows hr hc
    _ = m.entry (R ++ [m.rows - 1])[r] (S ++ [m.cols - 1])[c] := entry_takeColumns hrow hc
    _ = (m.keepRows R).entry r (S ++ [m.cols - 1])[c] := (entry_takeRows hr hcol).symm
    _ = ((m.keepRows R).keepColumns S).entry r c := (entry_takeColumns hr hc).symm

/-- Rows of selected rows are rows of the matrix. -/
theorem keepRows_keepRows {D : List Nat} (h : ∀ d ∈ R, d ∈ D) :
    (m.keepRows D).keepRows (R.map D.idxOf) = m.keepRows R := by
  refine ext_entry (by simp) rfl fun r c hr hc => ?_
  rw [rows_keepRows, List.length_map] at hr
  have hc : c < m.cols := hc
  rcases Nat.lt_succ_iff_lt_or_eq.mp hr with hlt | rfl
  · have hplace := List.idxOf_lt_length_of_mem (h _ (List.getElem_mem hlt))
    have hrow := entry_keepRows (m := m.keepRows D) (R := R.map D.idxOf) (r := r)
      (by simpa using hlt) hc
    rw [List.getElem_map, entry_keepRows hplace hc, List.getElem_idxOf] at hrow
    rw [hrow, entry_keepRows hlt hc]
  · have hlast := entry_keepRows_last (m := m.keepRows D) (R := R.map D.idxOf) hc
    rw [List.length_map, rows_keepRows, Nat.add_sub_cancel] at hlast
    rw [hlast, entry_keepRows_last hc, entry_keepRows_last hc]

/-- Rows of a part are rows of the whole. -/
theorem keepRows_positions {D : List Nat} (h : ∀ d ∈ R, d ∈ D) (hcols : 0 < m.cols)
    (hS : ∀ c ∈ S, c < m.cols - 1) :
    ((m.keepRows D).keepColumns S).keepRows (R.map D.idxOf) = (m.keepRows R).keepColumns S := by
  have hposition : ∀ r ∈ R.map D.idxOf, r < (m.keepRows D).rows - 1 := by
    intro r hr
    obtain ⟨d, hd, rfl⟩ := List.mem_map.mp hr
    rw [rows_keepRows, Nat.add_sub_cancel]
    exact List.idxOf_lt_length_of_mem (h d hd)
  have hrows : 0 < (m.keepRows D).rows := by
    rw [rows_keepRows]
    exact Nat.succ_pos _
  rw [keepRows_keepColumns hrows hposition hcols hS, keepRows_keepRows h]

/-- Selecting columns of the second factor selects columns of the product. -/
theorem product_keepColumns_right (h : a.cols = b.rows) (hb : 0 < b.cols)
    (hS : ∀ c ∈ S, c < b.cols - 1) :
    product a (b.keepColumns S) = (product a b).keepColumns S :=
  product_takeColumns h (lt_of_mem_append_last hb hS)

/-- Selecting rows of the first factor selects rows of the product. -/
theorem product_keepRows (ha : 0 < a.rows) (hR : ∀ r ∈ R, r < a.rows - 1) :
    product (a.keepRows R) b = (product a b).keepRows R :=
  product_takeRows (lt_of_mem_append_last ha hR)

/-- The columns of zeros of the first factor leave every sum as it is. -/
theorem product_keepColumns (h : a.cols = b.rows) (hb : 0 < b.rows)
    (hS : Increasing S (a.cols - 1))
    (hzero : ∀ r, r < a.rows → ∀ c, c < a.cols - 1 → c ∉ S → (a.entry r c == 0) = true) :
    product (a.keepColumns S) (b.keepRows S) = product a b := by
  have hlast : a.cols - 1 + 1 = a.cols := by omega
  unfold keepColumns keepRows
  rw [← h]
  refine product_takeColumns_takeRows (hlast ▸ hS.snoc) fun r hr k hk hout => ?_
  rw [List.mem_append, List.mem_singleton, not_or] at hout
  exact hzero r hr k (by omega) hout.1

end Narrowing

section Congruence

variable {α : Type u} [Scalar α] [LawfulScalar α] {a a' b b' m m' : DenseMatrix α}

theorem beq_refl (m : DenseMatrix α) : (m == m) = true :=
  beq_iff.mpr ⟨rfl, rfl, fun _ _ _ _ => Same.refl _⟩

theorem beq_symm (h : (a == b) = true) : (b == a) = true := by
  obtain ⟨hrows, hcols, hentries⟩ := beq_iff.mp h
  exact beq_iff.mpr ⟨hrows.symm, hcols.symm, fun r c hr hc =>
    (hentries r c (hrows ▸ hr) (hcols ▸ hc)).symm⟩

theorem beq_trans (h : (a == b) = true) (h' : (b == m) = true) : (a == m) = true := by
  obtain ⟨hrows, hcols, hentries⟩ := beq_iff.mp h
  obtain ⟨hrows', hcols', hentries'⟩ := beq_iff.mp h'
  exact beq_iff.mpr ⟨hrows.trans hrows', hcols.trans hcols', fun r c hr hc =>
    (hentries r c hr hc).trans (hentries' r c (hrows ▸ hr) (hcols ▸ hc))⟩

/-- A product does not depend on the signs of zeros. -/
theorem product_congr (hfit : a.cols = b.rows) (ha : (a == a') = true) (hb : (b == b') = true) :
    (product a b == product a' b') = true := by
  obtain ⟨hrows, hcols, hentries⟩ := beq_iff.mp ha
  obtain ⟨hrows', hcols', hentries'⟩ := beq_iff.mp hb
  refine beq_iff.mpr ⟨hrows, hcols', fun r c hr hc => ?_⟩
  rw [rows_product] at hr
  rw [cols_product] at hc
  rw [entry_product hr hc, entry_product (hrows ▸ hr) (hcols' ▸ hc)]
  exact dot_congr hcols (fun k hk => hentries r k hr hk)
    fun k hk => hentries' k c (hfit ▸ hk) hc

omit [LawfulScalar α] in
theorem keepRows_congr {R : List Nat} (hm : 0 < m.rows) (hR : ∀ r ∈ R, r < m.rows - 1)
    (h : (m == m') = true) : (m.keepRows R == m'.keepRows R) = true := by
  obtain ⟨hrows, hcols, hentries⟩ := beq_iff.mp h
  refine beq_iff.mpr ⟨by simp, hcols, fun r c hr hc => ?_⟩
  rw [rows_keepRows] at hr
  rw [cols_keepRows] at hc
  rcases Nat.lt_succ_iff_lt_or_eq.mp hr with hlt | rfl
  · have hbound := hR _ (List.getElem_mem hlt)
    rw [entry_keepRows hlt hc, entry_keepRows hlt (hcols ▸ hc)]
    exact hentries _ _ (by omega) hc
  · rw [entry_keepRows_last hc, entry_keepRows_last (hcols ▸ hc), ← hrows]
    exact hentries _ _ (by omega) hc

omit [LawfulScalar α] in
theorem keepColumns_congr {S : List Nat} (hm : 0 < m.cols) (hS : ∀ c ∈ S, c < m.cols - 1)
    (h : (m == m') = true) : (m.keepColumns S == m'.keepColumns S) = true := by
  obtain ⟨hrows, hcols, hentries⟩ := beq_iff.mp h
  refine beq_iff.mpr ⟨hrows, by simp, fun r c hr hc => ?_⟩
  rw [rows_keepColumns] at hr
  rw [cols_keepColumns] at hc
  rcases Nat.lt_succ_iff_lt_or_eq.mp hc with hlt | rfl
  · have hbound := hS _ (List.getElem_mem hlt)
    rw [entry_keepColumns hr hlt, entry_keepColumns (hrows ▸ hr) hlt]
    exact hentries _ _ hr (by omega)
  · rw [entry_keepColumns_last hr, entry_keepColumns_last (hrows ▸ hr), ← hcols]
    exact hentries _ _ hr (by omega)

/-- An identity matrix is stored as equal to the one that is made. -/
theorem beq_identity_of_isIdentity (h : m.isIdentity = true) :
    (identity m.cols == m) = true := by
  have hsquare := rows_of_isIdentity h
  refine beq_iff.mpr ⟨hsquare.symm, rfl, fun r c hr hc => ?_⟩
  have hr : r < m.cols := hr
  have hc : c < m.cols := hc
  have hentry : (identity m.cols : DenseMatrix α).entry r c = if r = c then 1 else 0 :=
    entry_ofFn _ hr hc
  rw [hentry]
  exact (same_of_isIdentity h (hsquare ▸ hr) hc).symm

end Congruence

end DenseMatrix
end SeparableTransforms
