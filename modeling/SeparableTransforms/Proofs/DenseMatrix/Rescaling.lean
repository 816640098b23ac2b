import SeparableTransforms.DenseMatrix.UniformScale

/-!
# Rescaling in place

`uniformScale` makes a new matrix out of an old one.  Here the same is done on a matrix
that is kept: axis by axis and entry by entry, each entry is read from the matrix as it
is by then and replaced in it.  The scales of all axes are taken before the first entry is
replaced.

Both ways agree.  Every entry is replaced at most once, so it is still the old one when it
is read, and no entry is replaced before the last check.  So a matrix that is refused, or
that has nothing to rescale, is left as it was.
-/

namespace SeparableTransforms
namespace DenseMatrix

section Entries

variable {α : Type} [Zero α] {m : DenseMatrix α} {f g : Nat → Nat → α → α}

/-- Applies a function to every entry, which may depend on the place. -/
def mapEntries (m : DenseMatrix α) (f : Nat → Nat → α → α) : DenseMatrix α :=
  ofFn m.rows m.cols fun r c => f r c (m.entry r c)

@[simp] theorem rows_mapEntries : (m.mapEntries f).rows = m.rows :=
  rfl

@[simp] theorem cols_mapEntries : (m.mapEntries f).cols = m.cols :=
  rfl

theorem entry_mapEntries {r c : Nat} (hr : r < m.rows) (hc : c < m.cols) :
    (m.mapEntries f).entry r c = f r c (m.entry r c) :=
  entry_ofFn _ hr hc

theorem mapEntries_congr
    (h : ∀ r c, r < m.rows → c < m.cols → f r c (m.entry r c) = g r c (m.entry r c)) :
    m.mapEntries f = m.mapEntries g := by
  refine ext_entry rfl rfl fun r c hr hc => ?_
  rw [rows_mapEntries] at hr
  rw [cols_mapEntries] at hc
  rw [entry_mapEntries hr hc, entry_mapEntries hr hc, h r c hr hc]

theorem mapEntries_mapEntries :
    (m.mapEntries f).mapEntries g = m.mapEntries fun r c x => g r c (f r c x) := by
  refine ext_entry rfl rfl fun r c hr hc => ?_
  simp only [rows_mapEntries, cols_mapEntries] at hr hc
  rw [entry_mapEntries (m := m.mapEntries f) hr hc, entry_mapEntries hr hc,
    entry_mapEntries hr hc]

theorem mapEntries_eq_self
    (h : ∀ r c, r < m.rows → c < m.cols → f r c (m.entry r c) = m.entry r c) :
    m.mapEntries f = m :=
  (mapEntries_congr (g := fun _ _ x => x) h).trans (ofFn_entry m)

/-- Replacing an entry leaves all others. -/
theorem set_eq_mapEntries {r c : Nat} (hr : r < m.rows) (hc : c < m.cols) (change : α → α) :
    m.set r c (change (m.entry r c)) =
      .ok (m.mapEntries fun i j x => if i = r ∧ j = c then change x else x) := by
  rw [set, if_pos ⟨hr, hc⟩]
  refine congrArg Except.ok (ext_entry rfl rfl fun i j hi hj => ?_)
  rw [rows_ofFn] at hi
  rw [cols_ofFn] at hj
  rw [entry_ofFn _ hi hj, entry_mapEntries hi hj]
  by_cases hplace : i = r ∧ j = c
  · rw [if_pos hplace, if_pos hplace, hplace.1, hplace.2]
  · rw [if_neg hplace, if_neg hplace]

end Entries

section Writing

variable {α : Type}

/-- Steps on a matrix that may fail; what has been written before a failure stays written. -/
abbrev Writing (α β : Type) := ExceptT MatrixError (StateM (DenseMatrix α)) β

/-- Replaces an entry by what a change makes of it. -/
def writeEntry [Zero α] (r c : Nat) (change : α → α) : Writing α Unit := do
  let m ← get
  let next ← ofExcept (m.set r c (change (m.entry r c)))
  modify fun _ => next

variable [Radical α]

/-- The factor that brings an axis of the given scale to the common one. -/
def rescaleFactor (common scale : α) : DoubleDouble α :=
  DoubleDouble.ofScalar common / DoubleDouble.ofScalar scale

/-- A coefficient of the linear part after its axis has been rescaled. -/
def rescaledCoefficient (factor : DoubleDouble α) (x : α) : α :=
  (DoubleDouble.ofScalar x * factor).value

/-- The offset after its axis has been rescaled. -/
def rescaledOffset (factor : DoubleDouble α) (anchor x : α) : α :=
  let a := DoubleDouble.ofScalar anchor
  ((DoubleDouble.ofScalar x - a) * factor + a).value

/-- Rescales an axis: the coefficients from left to right, then the offset. -/
def writeAxis (factor : DoubleDouble α) (anchor : α) (translation r : Nat) : Writing α Unit := do
  forM (List.range translation) fun c => writeEntry r c (rescaledCoefficient factor)
  writeEntry r translation (rescaledOffset factor anchor)

/-- Rescales an axis that does not have the common scale yet, and tells whether any axis has been
rescaled so far. -/
def visitAxis (common : α) (anchor : List α) (translation : Nat) (changed : Bool) :
    α × Nat → Writing α Bool
  | (scale, r) =>
      if needsRescale common scale then do
        writeAxis (rescaleFactor common scale) (anchor.getD r 0) translation r
        return true
      else return changed

/-- Gives all axes one scale, entry by entry. -/
def writeUniformScale (selector : α) (anchor : List α) : Writing α Bool := do
  let m ← get
  if !m.isAffine then
    throw .notAffine
  if anchor.length ≠ m.rows - 1 then
    throw (.dimensionMismatch .anchor (m.rows - 1) anchor.length)
  match commonScale? selector m.axisScales with
  | none => return false
  | some common => m.axisScales.zipIdx.foldlM (visitAxis common anchor (m.cols - 1)) false

end Writing

section Runs

variable {α β γ : Type} {m m' : DenseMatrix α} {x : Writing α β} {f : β → Writing α γ}

theorem run_bind_ok {b : β} (h : x.run.run m = (.ok b, m')) :
    (x >>= f).run.run m = (f b).run.run m' := by
  rw [ExceptT.run_bind, StateT.run_bind, h]
  rfl

theorem run_bind_error {e : MatrixError} (h : x.run.run m = (.error e, m')) :
    (x >>= f).run.run m = (.error e, m') := by
  rw [ExceptT.run_bind, StateT.run_bind, h]
  rfl

end Runs

section Agreement

variable {α : Type} {m : DenseMatrix α} {r c n : Nat}

theorem run_writeEntry [Zero α] (hr : r < m.rows) (hc : c < m.cols) (change : α → α) :
    (writeEntry r c change).run.run m =
      (.ok (), m.mapEntries fun i j x => if i = r ∧ j = c then change x else x) := by
  refine (run_bind_ok rfl).trans ?_
  rw [set_eq_mapEntries hr hc change]
  exact run_bind_ok rfl

/-- The first entries of a row, each of them replaced once. -/
theorem run_writeEntries [Zero α] (hr : r < m.rows) (hn : n ≤ m.cols) (change : α → α) :
    (forM (List.range n) fun c => writeEntry r c change).run.run m =
      (.ok (), m.mapEntries fun i j x => if i = r ∧ j < n then change x else x) := by
  induction n with
  | zero =>
      have hnone : m.mapEntries (fun i j x => if i = r ∧ j < 0 then change x else x) = m :=
        mapEntries_eq_self fun i j _ _ => if_neg fun h => Nat.not_lt_zero j h.2
      rw [hnone]
      rfl
  | succ n ih =>
      have hlast := run_writeEntry
        (m := m.mapEntries fun i j x => if i = r ∧ j < n then change x else x) hr
        (show n < m.cols by omega) change
      rw [List.range_succ, List.forM_append]
      refine (run_bind_ok (ih (by omega))).trans ((run_bind_ok hlast).trans ?_)
      show (Except.ok (), _) = _
      rw [mapEntries_mapEntries]
      refine congrArg (Prod.mk _) (mapEntries_congr fun i j _ _ => ?_)
      by_cases hi : i = r
      · rcases Nat.lt_trichotomy j n with hj | hj | hj
        · simp [hi, show j ≠ n by omega, show j < n by omega, show j < n + 1 by omega]
        · simp [hi, hj]
        · simp [hi, show j ≠ n by omega, show ¬j < n by omega, show ¬j < n + 1 by omega]
      · simp [hi]

variable [Radical α] {common anchor : α} {factor : DoubleDouble α}

theorem run_writeAxis (hr : r < m.rows) (hcols : 0 < m.cols) :
    (writeAxis factor anchor (m.cols - 1) r).run.run m =
      (.ok (), m.mapEntries fun i j x =>
        if i = r then
          if j + 1 = m.cols then rescaledOffset factor anchor x else rescaledCoefficient factor x
        else x) := by
  have hoffset := run_writeEntry
    (m := m.mapEntries fun i j x =>
      if i = r ∧ j < m.cols - 1 then rescaledCoefficient factor x else x) hr
    (show m.cols - 1 < m.cols by omega) (rescaledOffset factor anchor)
  refine (run_bind_ok (run_writeEntries hr (Nat.sub_le _ _) _)).trans (hoffset.trans ?_)
  rw [mapEntries_mapEntries]
  refine congrArg (Prod.mk _) (mapEntries_congr fun i j _ hj => ?_)
  by_cases hi : i = r
  · by_cases hlast : j + 1 = m.cols
    · obtain rfl : j = m.cols - 1 := by omega
      simp [hi, hlast]
    · simp [hi, hlast, show j ≠ m.cols - 1 by omega, show j < m.cols - 1 by omega]
  · simp [hi]

/-- What becomes of an entry, by the scale of its axis. -/
def rescaledAt (common : α) (anchor : List α) (cols r c : Nat) (x : α) : Option α → α
  | some scale =>
      if needsRescale common scale then
        if c + 1 = cols then rescaledOffset (rescaleFactor common scale) (anchor.getD r 0) x
        else rescaledCoefficient (rescaleFactor common scale) x
      else x
  | none => x

theorem rescaleAxes_eq_mapEntries (common : α) (scales anchor : List α) :
    m.rescaleAxes common scales anchor =
      m.mapEntries fun r c x => rescaledAt common anchor m.cols r c x scales[r]? := by
  refine ext_entry rfl rfl fun r c hr hc => ?_
  have hr : r < m.rows := hr
  have hc : c < m.cols := hc
  rw [rescaleAxes, entry_ofFn _ hr hc, entry_mapEntries hr hc]
  cases scales[r]? with
  | none => rfl
  | some scale =>
      by_cases hneeds : needsRescale common scale = true
      · simp only [rescaledAt, if_pos hneeds, rescaledEntry]
        rfl
      · simp only [rescaledAt, if_neg hneeds]

/-- Axes that all have the common scale, or none, are left alone. -/
theorem rescaleAxes_eq_self {scales anchor : List α}
    (h : scales.any (needsRescale common) = false) :
    m.rescaleAxes common scales anchor = m := by
  rw [rescaleAxes_eq_mapEntries]
  refine mapEntries_eq_self fun r c _ _ => ?_
  cases hscale : scales[r]? with
  | none => rfl
  | some scale =>
      have hneeds := List.any_eq_false.mp h scale (List.mem_of_getElem? hscale)
      simp only [rescaledAt, if_neg hneeds]

theorem run_visitAxis (common : α) (anchor : List α) (hr : r < m.rows) (hcols : 0 < m.cols)
    (scale : α) (changed : Bool) :
    (visitAxis common anchor (m.cols - 1) changed (scale, r)).run.run m =
      (.ok (changed || needsRescale common scale), m.mapEntries fun i j x =>
        if i = r then rescaledAt common anchor m.cols i j x (some scale) else x) := by
  unfold visitAxis rescaledAt
  by_cases hneeds : needsRescale common scale = true
  · simp only [if_pos hneeds]
    refine (run_bind_ok (run_writeAxis hr hcols)).trans ?_
    rw [hneeds, Bool.or_true]
    refine congrArg (Prod.mk _) (mapEntries_congr fun i j _ _ => ?_)
    by_cases hi : i = r
    · rw [if_pos hi, if_pos hi, hi]
    · rw [if_neg hi, if_neg hi]
  · simp only [if_neg hneeds, ite_self]
    rw [mapEntries_eq_self fun _ _ _ _ => rfl, Bool.eq_false_iff.mpr hneeds, Bool.or_false]
    rfl

/-- The axes from the first of the given scales on, each of them visited once. -/
theorem run_visitAxes (common : α) (anchor : List α) (hcols : 0 < m.cols) (scales : List α)
    (first : Nat) (changed : Bool) (hrows : first + scales.length ≤ m.rows) :
    ((scales.zipIdx first).foldlM (visitAxis common anchor (m.cols - 1)) changed).run.run m =
      (.ok (changed || scales.any (needsRescale common)), m.mapEntries fun r c x =>
        if first ≤ r then rescaledAt common anchor m.cols r c x scales[r - first]? else x) := by
  induction scales generalizing first changed m with
  | nil =>
      have hnone : m.mapEntries (fun r c x =>
          if first ≤ r then rescaledAt common anchor m.cols r c x [][r - first]? else x) = m :=
        mapEntries_eq_self fun r c _ _ => by simp [rescaledAt]
      rw [hnone, List.any_nil, Bool.or_false]
      rfl
  | cons scale rest ih =>
      rw [List.length_cons] at hrows
      have hfirst := run_visitAxis common anchor (show first < m.rows by omega) hcols scale changed
      have hrest := ih (m := m.mapEntries fun i j x =>
          if i = first then rescaledAt common anchor m.cols i j x (some scale) else x)
        hcols (first + 1) (changed || needsRescale common scale)
        (show first + 1 + rest.length ≤ m.rows by omega)
      rw [List.zipIdx_cons, List.foldlM_cons, List.any_cons, ← Bool.or_assoc]
      refine (run_bind_ok hfirst).trans (hrest.trans ?_)
      rw [mapEntries_mapEntries]
      refine congrArg (Prod.mk _) (mapEntries_congr fun r c _ _ => ?_)
      rcases Nat.lt_trichotomy r first with hr | hr | hr
      · simp [show ¬first + 1 ≤ r by omega, show ¬first ≤ r by omega, show r ≠ first by omega]
      · simp [hr, show ¬first + 1 ≤ first by omega]
      · obtain ⟨k, rfl⟩ := Nat.exists_eq_add_of_lt hr
        simp [show first + k + 1 - (first + 1) = k by omega,
          show first + k + 1 - first = k + 1 by omega, show first + 1 ≤ first + k + 1 by omega,
          show first ≤ first + k + 1 by omega, show first + k + 1 ≠ first by omega]

/-- Entry by entry, rescaling answers the same and leaves the matrix that it makes; after an error
the matrix is as before. -/
theorem run_writeUniformScale (m : DenseMatrix α) (selector : α) (anchor : List α) :
    (writeUniformScale selector anchor).run.run m =
      match m.uniformScale selector anchor with
      | .ok (next, changed) => (.ok changed, next)
      | .error e => (.error e, m) := by
  refine (run_bind_ok rfl).trans ?_
  unfold uniformScale
  cases haffine : m.isAffine with
  | false => exact run_bind_error rfl
  | true =>
      obtain ⟨hrows, hcols⟩ : 0 < m.rows ∧ 0 < m.cols := by
        simp only [isAffine, Bool.and_eq_true, bne_iff_ne] at haffine
        omega
      by_cases hanchor : anchor.length ≠ m.rows - 1
      · simp only [if_pos hanchor]
        exact run_bind_error rfl
      · simp only [if_neg hanchor]
        cases hcommon : commonScale? selector m.axisScales with
        | none => rfl
        | some common =>
            have hscales : 0 + m.axisScales.length ≤ m.rows := by
              rw [axisScales, List.length_map, List.length_range]
              omega
            refine (run_visitAxes common anchor hcols m.axisScales 0 false hscales).trans ?_
            simp only [Nat.zero_le, if_true, Nat.sub_zero, Bool.false_or,
              ← rescaleAxes_eq_mapEntries]
            cases hany : m.axisScales.any (needsRescale common) with
            | true => rfl
            | false => rw [rescaleAxes_eq_self hany]; rfl

end Agreement

end DenseMatrix
end SeparableTransforms
