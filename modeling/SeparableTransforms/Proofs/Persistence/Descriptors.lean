import SeparableTransforms.Kernels.Synthetic
import SeparableTransforms.Persistence.Descriptor
import SeparableTransforms.Proofs.Binary64.Agreement
import SeparableTransforms.Proofs.DenseMatrix.Narrowing
import SeparableTransforms.Proofs.Transform.Evaluation

/-!
# Which descriptors can be read back

A descriptor that is written and read again comes back as it was, if every size fits
into 64 bits and every coefficient of a matrix is finite.  A coefficient that is
infinite or not determined is written as nothing, and nothing is not read as a float.
Then the reading fails, since a descriptor needs all that is written inside it.

The proof goes through the tree.  What is read of a record that has been written is
said once for each kind, in terms of what is read of the values of its fields.
-/

namespace SeparableTransforms

namespace Document

section Numbers

variable {x y : Float} {l l' : List Float} {n k : Nat}

/-- A float is read back if it is finite. -/
theorem float?_ofFloat_eq_some_iff : float? (ofFloat x) = some y ↔ x.isFinite = true ∧ x = y := by
  unfold ofFloat
  split
  · rename_i hfinite
    simp [float?, hfinite]
  · rename_i hinfinite
    simp [float?, hinfinite]

/-- A list of floats is read back if all of them are finite. -/
theorem mapM_float?_eq_some_iff :
    (l.map ofFloat).mapM float? = some l' ↔ (∀ x ∈ l, x.isFinite = true) ∧ l = l' := by
  induction l generalizing l' with
  | nil => simp
  | cons x l ih =>
      simp only [List.map_cons, List.mapM_cons, Option.bind_eq_bind, Option.bind_eq_some_iff,
        float?_ofFloat_eq_some_iff, ih, Option.pure_def, Option.some.injEq, List.forall_mem_cons]
      constructor
      · rintro ⟨_, ⟨hx, rfl⟩, _, ⟨hl, rfl⟩, rfl⟩
        exact ⟨⟨hx, hl⟩, rfl⟩
      · rintro ⟨⟨hx, hl⟩, rfl⟩
        exact ⟨x, ⟨hx, rfl⟩, l, ⟨hl, rfl⟩, rfl⟩

/-- A size is read back if it fits. -/
theorem size?_ofSize_eq_some_iff : size? (ofSize n) = some k ↔ n < UInt64.size ∧ n = k := by
  simp only [ofSize, size?, Int.natCast_nonneg, Int.toNat_natCast, true_and]
  split
  · rename_i hfits
    simp [hfits]
  · rename_i hlarge
    simp [hlarge]

end Numbers

end Document

namespace DenseMatrix

section Columns

variable {α : Type} [Zero α] {m : DenseMatrix α}

theorem length_columnMajor : m.columnMajor.length = m.rows * m.cols := by
  rw [columnMajor, List.length_map, List.length_range, m.size_cells]

/-- The place of an entry in the list of the columns. -/
theorem columnMajor_getElem? {r c : Nat} (hr : r < m.rows) (hc : c < m.cols) :
    m.columnMajor[c * m.rows + r]? = some (m.entry r c) := by
  have hplace : c * m.rows + r < m.cells.size := by
    rw [m.size_cells, Nat.mul_comm m.rows]
    exact cell_lt hc hr
  have hpos : 0 < m.rows := Nat.lt_of_le_of_lt (Nat.zero_le r) hr
  have hrow : (c * m.rows + r) % m.rows = r := by
    rw [Nat.mul_comm, Nat.mul_add_mod, Nat.mod_eq_of_lt hr]
  have hcol : (c * m.rows + r) / m.rows = c := by
    rw [Nat.mul_comm, Nat.mul_add_div hpos, Nat.div_eq_of_lt hr, Nat.add_zero]
  rw [columnMajor, List.getElem?_map, List.getElem?_range hplace, Option.map_some, hrow, hcol]

/-- A matrix is made of its columns. -/
theorem ofColumnMajor?_columnMajor (m : DenseMatrix α) :
    ofColumnMajor? m.rows m.cols m.columnMajor = some m := by
  rw [ofColumnMajor?, if_pos length_columnMajor]
  refine congrArg some (ext_entry rfl rfl fun r c hr hc => (entry_ofFn _ hr hc).trans ?_)
  have hplace := columnMajor_getElem? (m := m) hr hc
  rw [List.getElem?_toArray, rows_ofFn] at *
  rw [hplace, Option.getD_some]

/-- What holds for all entries holds for the list of the columns. -/
theorem forall_columnMajor_iff {q : α → Prop} :
    (∀ a ∈ m.columnMajor, q a) ↔ ∀ r < m.rows, ∀ c < m.cols, q (m.entry r c) := by
  constructor
  · intro h r hr c hc
    exact h _ (List.mem_of_getElem? (columnMajor_getElem? hr hc))
  · intro h a ha
    obtain ⟨i, hi, rfl⟩ := List.mem_map.mp ha
    have hi : i < m.rows * m.cols := m.size_cells ▸ List.mem_range.mp hi
    have hpos : 0 < m.rows := Nat.pos_of_ne_zero fun hz => by simp [hz] at hi
    exact h _ (Nat.mod_lt i hpos) _ (Nat.div_lt_of_lt_mul hi)

end Columns

section Documents

variable {m m' : DenseMatrix Float}

/-- The numbers of rows and columns fit into 64 bits. -/
def Sized (m : DenseMatrix Float) : Prop :=
  m.rows < UInt64.size ∧ m.cols < UInt64.size

/-- No entry is infinite or not determined. -/
def Finite (m : DenseMatrix Float) : Prop :=
  ∀ r < m.rows, ∀ c < m.cols, (m.entry r c).isFinite = true

/-- A matrix is read back if its sizes fit and its entries are finite. -/
theorem ofDocument?_toDocument_eq_some_iff :
    ofDocument? m.toDocument = some m' ↔ (m.Sized ∧ m.Finite) ∧ m = m' := by
  have hfinite : (∀ x ∈ m.columnMajor, x.isFinite = true) ↔ m.Finite := forall_columnMajor_iff
  have hread : ofDocument? m.toDocument =
      ((m.columnMajor.map Document.ofFloat).mapM Document.float?).bind fun values =>
        (Document.ofSize m.rows).size?.bind fun rows =>
          (Document.ofSize m.cols).size?.bind fun cols => ofColumnMajor? rows cols values := rfl
  rw [hread]
  simp only [Option.bind_eq_some_iff, Document.mapM_float?_eq_some_iff,
    Document.size?_ofSize_eq_some_iff, hfinite]
  constructor
  · rintro ⟨_, ⟨hentries, rfl⟩, _, ⟨hrows, rfl⟩, _, ⟨hcols, rfl⟩, hmade⟩
    rw [ofColumnMajor?_columnMajor] at hmade
    exact ⟨⟨⟨hrows, hcols⟩, hentries⟩, Option.some.inj hmade⟩
  · rintro ⟨⟨⟨hrows, hcols⟩, hentries⟩, rfl⟩
    exact ⟨_, ⟨hentries, rfl⟩, _, ⟨hrows, rfl⟩, _, ⟨hcols, rfl⟩, ofColumnMajor?_columnMajor m⟩

end Documents

end DenseMatrix

namespace Descriptor

section Equality

variable {α : Type} [Scalar α] [LawfulScalar α]

theorem beq_refl (d : Descriptor α) : (d == d) = true := by
  show d.same d = true
  induction d with
  | linear m => exact DenseMatrix.beq_refl m
  | chain a b iha ihb => simp [same, iha, ihb]
  | passThrough k t n ih => simp [same, ih]
  | kernel name s t => simp [same]

end Equality

section Kinds

variable {inside : Bool} {a b c : Document}

theorem Kind.ofDocument?_label (inside : Bool) (kind : Kind) :
    Kind.ofDocument? inside (.text kind.label) = some kind := by
  cases kind with
  | _ => rfl

/-- The kind of a written record is found by its name, and the fields follow it. -/
theorem read?_stored (inside : Bool) (kind : Kind) (values : List Document) :
    read? inside (stored kind values) =
      ofFields? kind (("kind", .text kind.label) :: kind.fieldNames.zip values)
        (("kind", none) :: readFields (kind.fieldNames.zip values)) := by
  simp only [read?, stored, Document.field?, List.lookup_cons_self, Option.bind_eq_bind,
    Option.bind_some, Kind.ofDocument?_label, readFields]

/-- A linear descriptor is read through its matrix. -/
theorem read?_linear :
    read? inside (stored .linear [a]) = (DenseMatrix.ofDocument? a).map linear := by
  rw [read?_stored]
  simp [Kind.fieldNames, Document.field?, ofFields?, List.lookup, Option.map_eq_bind]

/-- A chain is read through its two parts. -/
theorem read?_chain :
    read? inside (stored .chain [a, b]) =
      (read? true a).bind fun first => (read? true b).map (chain first) := by
  rw [read?_stored]
  simp [readFields, Kind.fieldNames, ofFields?, List.lookup, Option.map_eq_bind]

/-- A pass-through is read through its sizes and what it wraps. -/
theorem read?_passThrough :
    read? inside (stored .passThrough [a, b, c]) =
      a.size?.bind fun k => (read? true b).bind fun t => c.size?.map (passThrough k t) := by
  rw [read?_stored]
  simp [readFields, Kind.fieldNames, Document.field?, ofFields?, List.lookup, Option.map_eq_bind]

/-- The descriptor of a kernel is read through its name and its dimensions. -/
theorem read?_kernel :
    read? inside (stored .kernel [a, b, c]) =
      a.text?.bind fun name => b.size?.bind fun s => c.size?.map (kernel name s) := by
  rw [read?_stored]
  simp [Kind.fieldNames, Document.field?, ofFields?, List.lookup, Option.map_eq_bind]

end Kinds

section Restoring

variable {inside : Bool} {d d' : Descriptor Float}

/-- Every size in the tree fits into 64 bits. -/
def Sized : Descriptor Float → Prop
  | linear m => m.Sized
  | chain a b => a.Sized ∧ b.Sized
  | passThrough k t n => k < UInt64.size ∧ t.Sized ∧ n < UInt64.size
  | kernel _ s t => s < UInt64.size ∧ t < UInt64.size

/-- No coefficient in the tree is infinite or not determined. -/
def Finite : Descriptor Float → Prop
  | linear m => m.Finite
  | chain a b => a.Finite ∧ b.Finite
  | passThrough _ t _ => t.Finite
  | kernel _ _ _ => True

/-- A descriptor is read back, inside another one or on its own, if its sizes fit and its
coefficients are finite. -/
theorem read?_toDocument_eq_some_iff :
    read? inside d.toDocument = some d' ↔ (d.Sized ∧ d.Finite) ∧ d = d' := by
  induction d generalizing inside d' with
  | linear m =>
      rw [toDocument, read?_linear]
      simp only [Option.map_eq_some_iff, DenseMatrix.ofDocument?_toDocument_eq_some_iff]
      constructor
      · rintro ⟨_, ⟨hm, rfl⟩, rfl⟩
        exact ⟨hm, rfl⟩
      · rintro ⟨hm, rfl⟩
        exact ⟨m, ⟨hm, rfl⟩, rfl⟩
  | chain a b iha ihb =>
      rw [toDocument, read?_chain]
      simp only [Option.bind_eq_some_iff, Option.map_eq_some_iff, iha, ihb]
      constructor
      · rintro ⟨_, ⟨⟨hsized, hfinite⟩, rfl⟩, _, ⟨⟨hsized', hfinite'⟩, rfl⟩, rfl⟩
        exact ⟨⟨⟨hsized, hsized'⟩, hfinite, hfinite'⟩, rfl⟩
      · rintro ⟨⟨⟨hsized, hsized'⟩, hfinite, hfinite'⟩, rfl⟩
        exact ⟨a, ⟨⟨hsized, hfinite⟩, rfl⟩, b, ⟨⟨hsized', hfinite'⟩, rfl⟩, rfl⟩
  | passThrough k t n ih =>
      rw [toDocument, read?_passThrough]
      simp only [Option.bind_eq_some_iff, Option.map_eq_some_iff, ih,
        Document.size?_ofSize_eq_some_iff]
      constructor
      · rintro ⟨_, ⟨hk, rfl⟩, _, ⟨⟨hsized, hfinite⟩, rfl⟩, _, ⟨hn, rfl⟩, rfl⟩
        exact ⟨⟨⟨hk, hsized, hn⟩, hfinite⟩, rfl⟩
      · rintro ⟨⟨⟨hk, hsized, hn⟩, hfinite⟩, rfl⟩
        exact ⟨k, ⟨hk, rfl⟩, t, ⟨⟨hsized, hfinite⟩, rfl⟩, n, ⟨hn, rfl⟩, rfl⟩
  | kernel name s t =>
      rw [toDocument, read?_kernel]
      simp only [Document.text?, Option.bind_some, Option.bind_eq_some_iff, Option.map_eq_some_iff,
        Document.size?_ofSize_eq_some_iff]
      constructor
      · rintro ⟨_, ⟨hs, rfl⟩, _, ⟨ht, rfl⟩, rfl⟩
        exact ⟨⟨⟨hs, ht⟩, trivial⟩, rfl⟩
      · rintro ⟨⟨⟨hs, ht⟩, _⟩, rfl⟩
        exact ⟨s, ⟨hs, rfl⟩, t, ⟨ht, rfl⟩, rfl⟩

/-- A descriptor that has been written is read back as an equal one exactly if its sizes fit into
64 bits and all of its coefficients are finite; of any other one nothing is read back. -/
theorem ofDocument?_toDocument (d : Descriptor Float) :
    ((∃ d', ofDocument? d.toDocument = some d' ∧ (d' == d) = true) ↔ d.Sized ∧ d.Finite) ∧
      (¬(d.Sized ∧ d.Finite) → ofDocument? d.toDocument = none) := by
  refine ⟨⟨?_, fun h => ⟨d, read?_toDocument_eq_some_iff.mpr ⟨h, rfl⟩, beq_refl d⟩⟩, fun h => ?_⟩
  · rintro ⟨d', hread, _⟩
    exact (read?_toDocument_eq_some_iff.mp hread).1
  · refine Option.eq_none_iff_forall_not_mem.mpr fun d' hread => ?_
    exact h (read?_toDocument_eq_some_iff.mp hread).1

/-- A scale that is not determined. -/
def unknownScale : Transform SyntheticKernel Float :=
  .linear none ⟨2, 2, #[Binary64.nan, 0, 0, 1], by decide +kernel⟩

/-- A well-formed transform may have a descriptor that cannot be read back. -/
theorem not_restored :
    ¬∀ t : Transform SyntheticKernel Float, t.WellFormed →
      ∃ d : Descriptor Float, ofDocument? t.describe.toDocument = some d ∧
        (d == t.describe) = true := by
  intro hall
  obtain ⟨d, hread, _⟩ := hall unknownScale (by decide +kernel)
  have hnone : (ofDocument? unknownScale.describe.toDocument).isNone = true := by decide +kernel
  rw [hread] at hnone
  cases hnone

end Restoring

end Descriptor
end SeparableTransforms
