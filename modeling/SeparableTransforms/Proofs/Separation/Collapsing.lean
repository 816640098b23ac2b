import SeparableTransforms.Proofs.Separation.Columns
import SeparableTransforms.Proofs.Separation.Separability

/-!
# Separating what has been collapsed

A wrapper around an affine matrix and the expanded matrix compute the same, but they
are separated by different rules.  The wrapper hands the requested coordinates that it
does not copy to the matrix inside, and does not look at the matrix if there are none.
The expanded matrix keeps every row that depends on nothing else.

The rules agree as soon as a requested coordinate lies inside.  If none does, the rows
of the matrix that depend on no coordinate at all are the difference: the expanded
matrix computes them and the wrapper does not.
-/

namespace SeparableTransforms

section Inside

variable {k s c : Nat} {S : List Nat}

theorem inside_eq_nil_iff : inside k s S = [] ↔ ∀ d ∈ S, ¬(k ≤ d ∧ d < k + s) := by
  constructor
  · intro h d hd hin
    rcases outside_of_inside_eq_nil h hd with _ | _ <;> omega
  · intro h
    refine List.eq_nil_iff_forall_not_mem.mpr fun d hd => ?_
    obtain ⟨hs, hmem⟩ := mem_inside_iff.mp hd
    exact h _ hmem (by omega)

/-- Requested coordinates that are all copied give outputs. -/
theorem copyAround_nil_ne_nil (hne : S ≠ []) (hout : inside k s S = []) :
    copyAround k s c S [] ≠ [] := by
  obtain ⟨d, hd⟩ := List.exists_mem_of_ne_nil _ hne
  rcases outside_of_inside_eq_nil hout hd with hlead | htrail
  · exact List.ne_nil_of_mem (mem_copyAround_iff.mpr (.inl ⟨hd, hlead⟩))
  · exact List.ne_nil_of_mem (mem_copyAround_iff.mpr (.inr (.inr ⟨d, hd, htrail, rfl⟩)))

end Inside

namespace Transform

section Rows

variable {α : Type} [Scalar α] {m : DenseMatrix α} {k n d : Nat} {S : List Nat}

/-- The outputs of a wrapper around an affine matrix, `k` of them copied before, that depend on
no coordinate. -/
def constantOutputs (k : Nat) (m : DenseMatrix α) : List Nat :=
  (determinedRows m []).map fun r => r + k

theorem mem_constantOutputs_iff :
    d ∈ constantOutputs k m ↔ ∃ r ∈ determinedRows m [], r + k = d :=
  List.mem_map

theorem bounds_of_mem_constantOutputs (h : d ∈ constantOutputs k m) :
    k ≤ d ∧ d < k + (m.rows - 1) := by
  obtain ⟨r, hr, rfl⟩ := mem_constantOutputs_iff.mp h
  have := (mem_determinedRows_iff.mp hr).1
  omega

/-- Around no coordinate that is requested the constant outputs stand apart from the copied ones. -/
theorem mem_copyAround_constant :
    d ∈ copyAround k (m.cols - 1) (m.rows - 1) S (determinedRows m []) ↔
      d ∈ copyAround k (m.cols - 1) (m.rows - 1) S [] ∨ d ∈ constantOutputs k m := by
  rw [mem_copyAround_iff, mem_copyAround_iff, mem_constantOutputs_iff]
  simp only [List.not_mem_nil, false_and, exists_false, false_or]
  constructor
  · rintro (h | h | h)
    · exact .inl (.inl h)
    · exact .inr h
    · exact .inl (.inr h)
  · rintro ((h | h) | h)
    · exact .inl h
    · exact .inr (.inr h)
    · exact .inr (.inl h)

theorem not_mem_copyAround_of_constant (h : d ∈ constantOutputs k m) :
    d ∉ copyAround k (m.cols - 1) (m.rows - 1) S [] := by
  have hbounds := bounds_of_mem_constantOutputs h
  rw [mem_copyAround_iff]
  rintro (⟨_, hlead⟩ | ⟨r, hr, _⟩ | ⟨e, _, hk, rfl⟩)
  · omega
  · cases hr
  · omega

/-- Without the constant outputs the copied ones remain. -/
theorem filter_copyAround_constant (hS : Increasing S (k + (m.cols - 1) + n)) :
    (copyAround k (m.cols - 1) (m.rows - 1) S (determinedRows m [])).filter
        (fun d => !(constantOutputs k m).contains d) =
      copyAround k (m.cols - 1) (m.rows - 1) S [] := by
  have hall := increasing_copyAround (T := determinedRows m []) hS (increasing_filter_range _ _)
  refine (hall.filter _).eq_of_mem_iff (increasing_copyAround hS (increasing_nil _)) fun d => ?_
  simp only [List.mem_filter, mem_copyAround_constant, Bool.not_eq_true', List.contains_eq_mem,
    decide_eq_false_iff_not]
  constructor
  · rintro ⟨hd | hd, hnot⟩
    · exact hd
    · exact absurd hd hnot
  · intro hd
    exact ⟨.inl hd, fun hconstant => not_mem_copyAround_of_constant hconstant hd⟩

variable [LawfulScalar α]

theorem isIgnorable_ofScalar_ite {q : Prop} [Decidable q] :
    (Coefficient.ofScalar (if q then (1 : α) else 0)).isIgnorable = !decide q := by
  by_cases hq : q
  · simp [hq, Coefficient.ofScalar, LawfulScalar.isNaN_one, Coefficient.isIgnorable]
  · simp [hq, Coefficient.ofScalar, LawfulScalar.isNaN_zero, Coefficient.isIgnorable]

/-- A row of an expanded matrix ignores what the copied or the mapped row does. -/
theorem isIgnorable_expand {r c : Nat} (hr : r < k + (m.rows - 1) + n)
    (hc : c < k + (m.cols - 1) + n) :
    ((expand k m n).coefficient r c).isIgnorable =
      if r < k then !decide (c = r)
      else if r < k + (m.rows - 1) then
        if k ≤ c ∧ c < k + (m.cols - 1) then (m.coefficient (r - k) (c - k)).isIgnorable
        else true
      else !decide (c + (m.rows - 1) = r + (m.cols - 1)) := by
  unfold DenseMatrix.coefficient
  split
  · rw [entry_expand_leading (by omega) (by omega), isIgnorable_ofScalar_ite]
  · split
    · rw [entry_expand_inner (by omega) (by omega) (by omega), if_neg (by omega)]
      split
      · rfl
      · exact isIgnorable_of_isZero isZero_ofScalar_zero
    · rw [entry_expand_trailing (by omega) (by omega) (by omega), isIgnorable_ofScalar_ite]

/-- A copied output depends on the coordinate that it copies. -/
theorem mem_determinedRows_expand_leading {r : Nat} (hr : r < k) :
    r ∈ determinedRows (expand k m n) S ↔ r ∈ S := by
  rw [mem_determinedRows_iff, rows_expand, cols_expand, Nat.add_sub_cancel, Nat.add_sub_cancel]
  constructor
  · rintro ⟨hbound, hrow⟩
    by_contra hout
    have hcopy := hrow r (by omega) hout
    rw [isIgnorable_expand hbound (by omega), if_pos hr] at hcopy
    simp at hcopy
  · intro hmem
    refine ⟨by omega, fun c hc hout => ?_⟩
    have hne : c ≠ r := fun h => hout (h ▸ hmem)
    rw [isIgnorable_expand (by omega) hc, if_pos hr]
    simpa using hne

/-- An output of the matrix depends on the coordinates inside. -/
theorem mem_determinedRows_expand_inner {r : Nat} :
    k + r ∈ determinedRows (expand k m n) S ∧ r < m.rows - 1 ↔
      r ∈ determinedRows m (inside k (m.cols - 1) S) := by
  rw [mem_determinedRows_iff, mem_determinedRows_iff, rows_expand, cols_expand, Nat.add_sub_cancel,
    Nat.add_sub_cancel]
  constructor
  · rintro ⟨⟨hbound, hrow⟩, hr⟩
    refine ⟨hr, fun c hc hout => ?_⟩
    have hcell := hrow (k + c) (by omega) fun hmem => hout (mem_inside_iff.mpr ⟨hc, hmem⟩)
    rw [isIgnorable_expand hbound (by omega), if_neg (by omega), if_pos (by omega),
      if_pos (by omega), Nat.add_sub_cancel_left, Nat.add_sub_cancel_left] at hcell
    exact hcell
  · rintro ⟨hr, hrow⟩
    refine ⟨⟨by omega, fun c hc hout => ?_⟩, hr⟩
    rw [isIgnorable_expand (by omega) hc, if_neg (by omega), if_pos (by omega),
      Nat.add_sub_cancel_left]
    split
    · rename_i hcol
      refine hrow (c - k) (by omega) fun hmem => hout ?_
      have := (mem_inside_iff.mp hmem).2
      rwa [Nat.add_sub_cancel' hcol.1] at this
    · rfl

theorem mem_determinedRows_expand_trailing {i : Nat} (hi : i < n) :
    k + (m.rows - 1) + i ∈ determinedRows (expand k m n) S ↔ k + (m.cols - 1) + i ∈ S := by
  rw [mem_determinedRows_iff, rows_expand, cols_expand, Nat.add_sub_cancel, Nat.add_sub_cancel]
  constructor
  · rintro ⟨hbound, hrow⟩
    by_contra hout
    have hcopy := hrow (k + (m.cols - 1) + i) (by omega) hout
    rw [isIgnorable_expand hbound (by omega), if_neg (by omega), if_neg (by omega)] at hcopy
    simp at hcopy
    omega
  · intro hmem
    refine ⟨by omega, fun c hc hout => ?_⟩
    have hne : c ≠ k + (m.cols - 1) + i := fun h => hout (h ▸ hmem)
    rw [isIgnorable_expand (by omega) hc, if_neg (by omega), if_neg (by omega)]
    simp
    omega

/-- An expanded matrix determines the copied outputs and those that the matrix determines. -/
theorem determinedRows_expand (hS : Increasing S (k + (m.cols - 1) + n)) :
    determinedRows (expand k m n) S =
      copyAround k (m.cols - 1) (m.rows - 1) S
        (determinedRows m (inside k (m.cols - 1) S)) := by
  have hexpanded : Increasing (determinedRows (expand k m n) S) (k + (m.rows - 1) + n) :=
    increasing_filter_range _ _
  refine hexpanded.eq_of_mem_iff (increasing_copyAround hS (increasing_filter_range _ _))
    fun r => ?_
  rw [mem_copyAround_iff]
  constructor
  · intro hr
    have hbound := hexpanded.bounded r hr
    rcases Nat.lt_or_ge r k with hlead | hlead
    · exact .inl ⟨(mem_determinedRows_expand_leading hlead).mp hr, hlead⟩
    obtain ⟨r, rfl⟩ := Nat.exists_eq_add_of_le hlead
    rcases Nat.lt_or_ge r (m.rows - 1) with hinner | htrail
    · exact .inr (.inl ⟨r, mem_determinedRows_expand_inner.mp ⟨hr, hinner⟩, Nat.add_comm r k⟩)
    · obtain ⟨i, rfl⟩ := Nat.exists_eq_add_of_le htrail
      rw [← Nat.add_assoc] at hr
      exact .inr (.inr ⟨_, (mem_determinedRows_expand_trailing (by omega)).mp hr, by omega,
        by omega⟩)
  · rintro (⟨hr, hlead⟩ | ⟨r, hr, rfl⟩ | ⟨d, hd, hk, rfl⟩)
    · exact (mem_determinedRows_expand_leading hlead).mpr hr
    · rw [Nat.add_comm]
      exact (mem_determinedRows_expand_inner.mpr hr).1
    · obtain ⟨i, rfl⟩ := Nat.exists_eq_add_of_le hk
      have hi := hS.bounded _ hd
      have hplace : k + (m.cols - 1) + i - (m.cols - 1) + (m.rows - 1) =
          k + (m.rows - 1) + i := by omega
      rw [hplace]
      exact (mem_determinedRows_expand_trailing (by omega)).mpr hd

end Rows

section Determined

variable {κ α : Type} [Kernel κ α] [Scalar α] {m : DenseMatrix α} {k n : Nat} {id id' : NodeId}
  {S : List Nat}

/-- If no requested coordinate lies inside, a wrapper gives the copied outputs only. -/
theorem determined_passThrough_outside (hout : inside k (m.cols - 1) S = []) :
    (passThrough id k (linear id' m) n : Transform κ α).determined S =
      some (copyAround k (m.cols - 1) (m.rows - 1) S []) := by
  have hempty : (inside k (m.cols - 1) S).isEmpty = true := by simpa using hout
  simp only [determined, sourceDimensions, targetDimensions, hempty, if_true]

/-- A transform without kernels does not end in one. -/
theorem endsInKernel_of_admissible_false {t : Transform κ α} (h : t.Admissible fun _ => False) :
    endsInKernel t.steps = false := by
  by_contra hnot
  obtain ⟨earlier, id, kernel, hsteps⟩ := endsInKernel_iff.mp (Bool.not_eq_false _ |>.mp hnot)
  have hlinked := h.fits.linked_steps
  rw [hsteps] at hlinked
  obtain ⟨_, _, hlast⟩ := linked_append.mp hlinked
  exact (linked_singleton.mp hlast).admissible.2

variable [LawfulScalar α]

/-- The outputs of an expanded matrix, from requested coordinates of the wrapper. -/
theorem determined_linear_expand (hS : Increasing S (k + (m.cols - 1) + n)) :
    (linear id (expand k m n) : Transform κ α).determined S =
      some (copyAround k (m.cols - 1) (m.rows - 1) S
        (determinedRows m (inside k (m.cols - 1) S))) :=
  congrArg some (determinedRows_expand hS)

/-- If a requested coordinate lies inside, the wrapper and the expanded matrix agree. -/
theorem determined_passThrough_inside (hS : Increasing S (k + (m.cols - 1) + n))
    (hin : inside k (m.cols - 1) S ≠ []) :
    (passThrough id k (linear id' m) n : Transform κ α).determined S =
      (linear none (expand k m n) : Transform κ α).determined S := by
  rw [determined_linear_expand hS]
  have hempty : (inside k (m.cols - 1) S).isEmpty = false := by simpa using hin
  simp only [determined, sourceDimensions, targetDimensions, hempty, Bool.false_eq_true, if_false,
    Option.map_some]

end Determined

end Transform

namespace Separation

open Transform Outcome

section Kernelless

variable {κ α : Type} [Kernel κ α] [Scalar α] [LawfulScalar α] {t : Transform κ α}
  {S D R : List Nat} {targets : Option (List Nat)}

/-- What is reported for proper sources if no kernel is left without some of its outputs. -/
def reportedFor (S D : List Nat) : Option (List Nat) → Option (List Nat × List Nat)
  | none => if D.isEmpty then none else some (S, D)
  | some R => if !D.isEmpty && R.all D.contains then some (S, R) else none

/-- Without kernels the options of the assembler do not matter, and the outputs that are determined
decide. -/
theorem reported_bySources_kernelless (options : AssemblyOptions)
    (h : t.Admissible fun _ => False) (hS : Increasing S t.sourceDimensions) (hne : S ≠ [])
    (hR : ∀ R ∈ targets, Increasing R t.targetDimensions) (hD : t.determined S = some D) :
    reported (bySources (.standard options) t S targets) = reportedFor S D targets := by
  by_cases hDne : D = []
  · subst hDne
    rw [reported_bySources_undetermined h hS hne (.inr hD)]
    cases targets with
    | _ => simp [separableSources, hD, reportedFor]
  have hDempty : D.isEmpty = false := by simpa using hDne
  cases targets with
  | none =>
      rw [reported_bySources_none h hS hne]
      simp [separableSources, hD, hDne, reportedFor]
  | some R =>
      show _ = if !D.isEmpty && R.all D.contains then some (S, R) else none
      by_cases hsub : ∀ d ∈ R, d ∈ D
      · obtain ⟨reduced, _, hpart, hok, _⟩ :=
          bySources_requested options h hS hne hD hDne (hR R rfl) hsub
        have hkernel := endsInKernel_of_admissible_false hpart.fits.admissible
        obtain ⟨s, hs, hsource, htarget, _⟩ := hok fun hend => by
          rw [hkernel] at hend
          cases hend
        have hall : R.all D.contains = true := by simpa using hsub
        rw [hs, hDempty, hall]
        show some (s.sourceDimensions, s.targetDimensions) = _
        rw [hsource, htarget]
        rfl
      · obtain ⟨d, hd, hout⟩ : ∃ d ∈ R, d ∉ D := by simpa using hsub
        obtain ⟨e, _, herror⟩ := bySources_missing options h hS hne hD hDne hd hout
        have hall : R.all D.contains = false := by simpa using ⟨d, hd, hout⟩
        rw [herror, hall, Bool.and_false]
        rfl

/-- The same for a whole request. -/
theorem reported_separate_kernelless (options : AssemblyOptions) (trimming : SeparationOptions)
    (h : t.Admissible fun _ => False) (hS : Increasing S t.sourceDimensions) (hne : S ≠ [])
    (hproper : S.length < t.sourceDimensions)
    (htargets : Increasing (targets.getD []) t.targetDimensions) (hD : t.determined S = some D) :
    reported (separate (.standard options) t (some S) targets trimming) =
      reportedFor S D (nonempty targets) := by
  have hsource : Increasing (Option.getD (some S) []) t.sourceDimensions := hS
  rw [separate_eq hsource htargets, properSources_eq_some_iff.mpr ⟨rfl, hne, hproper⟩]
  exact reported_bySources_kernelless options h hS hne (increasing_of_mem_nonempty htargets) hD

end Kernelless

section Collapsing

variable {κ α : Type} [Kernel κ α] [Scalar α] {m : DenseMatrix α} {k n : Nat} {id id' : NodeId}
  {S : List Nat} {targets : Option (List Nat)} {options : AssemblyOptions}
  {trimming : SeparationOptions}

/-- What the wrapper reports, given what the expanded matrix reports. -/
structure Reports (k : Nat) (m : DenseMatrix α) (S : List Nat) (targets : Option (List Nat))
    (wrapper expanded : Option (List Nat × List Nat)) : Prop where
  inside : (∃ d ∈ S, k ≤ d ∧ d < k + (m.cols - 1)) → wrapper = expanded
  outside_any : (∀ d ∈ S, ¬(k ≤ d ∧ d < k + (m.cols - 1))) → nonempty targets = none →
    wrapper = expanded.map fun dims =>
      (dims.1, dims.2.filter fun d => !(constantOutputs k m).contains d)
  outside_some : (∀ d ∈ S, ¬(k ≤ d ∧ d < k + (m.cols - 1))) → ∀ R, nonempty targets = some R →
    wrapper = if R.any (constantOutputs k m).contains then none else expanded

theorem reports_none : Reports k m S targets none none where
  inside _ := rfl
  outside_any _ _ := rfl
  outside_some _ R _ := by simp

/-- Where all requested coordinates are copied, the constant outputs are the difference. -/
theorem reports_outside (hS : Increasing S (k + (m.cols - 1) + n)) (hne : S ≠ [])
    (hin : inside k (m.cols - 1) S = []) :
    Reports k m S targets
      (reportedFor S (copyAround k (m.cols - 1) (m.rows - 1) S []) (nonempty targets))
      (reportedFor S (copyAround k (m.cols - 1) (m.rows - 1) S (determinedRows m []))
        (nonempty targets)) := by
  have hcopied := copyAround_nil_ne_nil (c := m.rows - 1) hne hin
  have hempty : (copyAround k (m.cols - 1) (m.rows - 1) S []).isEmpty = false := by
    simpa using hcopied
  have hempty' : (copyAround k (m.cols - 1) (m.rows - 1) S (determinedRows m [])).isEmpty =
      false := by
    obtain ⟨d, hd⟩ := List.exists_mem_of_ne_nil _ hcopied
    have := List.ne_nil_of_mem (mem_copyAround_constant.mpr (.inl hd))
    simpa using this
  refine ⟨fun hinside => ?_, fun _ hnone => ?_, fun _ R hsome => ?_⟩
  · obtain ⟨d, hd, hmem⟩ := hinside
    exact absurd hmem (inside_eq_nil_iff.mp hin d hd)
  · rw [hnone]
    simp only [reportedFor, hempty, hempty', Bool.false_eq_true, if_false, Option.map_some,
      filter_copyAround_constant hS]
  · rw [hsome]
    simp only [reportedFor, hempty, hempty', Bool.not_false, Bool.true_and]
    by_cases hconstant : R.any (constantOutputs k m).contains = true
    · obtain ⟨d, hd, hmem⟩ := List.any_eq_true.mp hconstant
      have hnot := not_mem_copyAround_of_constant (S := S) (List.contains_iff_mem.mp hmem)
      rw [if_pos hconstant, if_neg]
      simpa using ⟨d, hd, hnot⟩
    · rw [if_neg hconstant]
      have hother : ∀ d ∈ R, d ∉ constantOutputs k m := by simpa using hconstant
      refine if_congr ?_ rfl rfl
      rw [List.all_eq_true, List.all_eq_true]
      refine forall₂_congr fun d hd => ?_
      simp only [List.contains_iff_mem, mem_copyAround_constant, hother d hd, or_false]

variable [LawfulScalar α]

/-- The wrapper and the expanded matrix differ in the constant outputs, and only where no requested
coordinate lies inside. -/
theorem reports_separate (hm : m.isAffine = true) (hcols : 2 ≤ m.cols) (hne : S ≠ [])
    (hproper : S.length < k + (m.cols - 1) + n) :
    Reports k m S targets
      (reported (separate (.standard options) (passThrough id k (linear id' m) n : Transform κ α)
        (some S) targets trimming))
      (reported (separate (.standard options) (linear none (expand k m n) : Transform κ α)
        (some S) targets trimming)) := by
  have hwrapper : (passThrough id k (linear id' m) n : Transform κ α).Admissible fun _ => False :=
    ⟨hm, hcols⟩
  have hexpanded : (linear none (expand k m n) : Transform κ α).Admissible fun _ => False :=
    ⟨isAffine_expand, by rw [cols_expand]; omega⟩
  by_cases hvalid : Increasing S (k + (m.cols - 1) + n) ∧
      Increasing (targets.getD []) (k + (m.rows - 1) + n)
  · obtain ⟨hS, htargets⟩ := hvalid
    rw [reported_separate_kernelless options trimming hexpanded hS hne hproper htargets
      (determined_linear_expand hS)]
    by_cases hin : inside k (m.cols - 1) S = []
    · rw [reported_separate_kernelless options trimming hwrapper hS hne hproper htargets
        (determined_passThrough_outside hin), hin]
      exact reports_outside hS hne hin
    · rw [reported_separate_kernelless options trimming hwrapper hS hne hproper htargets
        ((determined_passThrough_inside hS hin).trans (determined_linear_expand hS))]
      refine ⟨fun _ => rfl, fun hout => ?_, fun hout => ?_⟩
      · exact absurd (inside_eq_nil_iff.mpr hout) hin
      · exact absurd (inside_eq_nil_iff.mpr hout) hin
  · have hrefused : ∀ t : Transform κ α, t.sourceDimensions = k + (m.cols - 1) + n →
        t.targetDimensions = k + (m.rows - 1) + n →
        reported (separate (.standard options) t (some S) targets trimming) = none := by
      intro t hsource htarget
      have hrequest : ¬(Increasing ((some S).getD []) t.sourceDimensions ∧
          Increasing (targets.getD []) t.targetDimensions) := by
        rw [hsource, htarget]
        exact hvalid
      obtain ⟨_, herror⟩ := separate_refused hrequest
      rw [herror, reported_error]
    rw [hrefused _ rfl rfl, hrefused _ rfl rfl]
    exact reports_none

end Collapsing

section Binary64

variable {κ : Type} [Kernel κ Float]

/-- Separating a wrapper around an affine matrix, and what the standard assembler makes of it, is
reported alike, but for the constant outputs of the matrix where no requested coordinate lies
inside: the wrapper does not compute them. -/
theorem separate_collapsed {m : DenseMatrix Float} (hm : m.isAffine = true) (hcols : 2 ≤ m.cols)
    {k n : Nat} (hkn : 0 < k + n) (id id' : NodeId) (options : AssemblyOptions) :
    ∃ t, (Assembler.standard options).passThrough k (linear id' m : Transform κ Float) n = .ok t ∧
      ∀ (S : List Nat) (targets : Option (List Nat)) (trimming : SeparationOptions), S ≠ [] →
        S.length < k + (m.cols - 1) + n →
        Reports k m S targets
          (reported (separate (.standard options)
            (passThrough id k (linear id' m) n : Transform κ Float) (some S) targets trimming))
          (reported (separate (.standard options) t (some S) targets trimming)) := by
  have hsome : ¬(k = 0 ∧ n = 0) := by omega
  exact ⟨_, passThroughSimplified_linear id' m hsome, fun S targets trimming hne hproper =>
    reports_separate hm hcols hne hproper⟩

/-- A coordinate that is mapped to five whatever it is. -/
def constantFive : DenseMatrix Float :=
  ⟨2, 2, #[0, 5, 0, 1], by decide +kernel⟩

/-- The wrapper reports the copied coordinate, and the expanded matrix the constant one as well. -/
theorem separate_constantFive :
    ∃ t : Transform SyntheticKernel Float,
      (Assembler.standard {}).passThrough 1 (linear none constantFive) 0 = .ok t ∧
      reported (separate (.standard {})
        (passThrough none 1 (linear none constantFive) 0 : Transform SyntheticKernel Float)
        (some [0]) none ⟨false⟩) =
      (reported (separate (.standard {}) t (some [0]) none ⟨false⟩)).map fun dims =>
        (dims.1, dims.2.filter fun d => !(constantOutputs 1 constantFive).contains d) := by
  have hm : constantFive.isAffine = true := by decide +kernel
  have hcols : 2 ≤ constantFive.cols := by decide +kernel
  obtain ⟨t, ht, hreports⟩ :=
    separate_collapsed (κ := SyntheticKernel) hm hcols (k := 1) (n := 0) (by omega) none none {}
  exact ⟨t, ht, (hreports [0] none ⟨false⟩ (by simp) (by decide +kernel)).outside_any
    (by decide +kernel) rfl⟩

/-- A wrapper and what the standard assembler makes of it may report different outputs. -/
theorem not_separate_collapsed_eq :
    ¬∀ (m : DenseMatrix Float) (k n : Nat) (S : List Nat) (targets : Option (List Nat))
      (t : Transform SyntheticKernel Float), m.isAffine = true → 2 ≤ m.cols → 0 < k + n → S ≠ [] →
      S.length < k + (m.cols - 1) + n →
      (Assembler.standard {}).passThrough k (linear none m) n = .ok t →
      reported (separate (.standard {})
        (passThrough none k (linear none m) n : Transform SyntheticKernel Float) (some S) targets
        ⟨false⟩) =
      reported (separate (.standard {}) t (some S) targets ⟨false⟩) := by
  intro hall
  have hwrapper : reported (separate (.standard {})
      (passThrough none 1 (linear none constantFive) 0 : Transform SyntheticKernel Float)
      (some [0]) none ⟨false⟩) = some ([0], [0]) := by decide +kernel
  have hexpanded : reported (separate (.standard {})
      (linear none (expand 1 constantFive 0) : Transform SyntheticKernel Float)
      (some [0]) none ⟨false⟩) = some ([0], [0, 1]) := by decide +kernel
  have hsame := hall constantFive 1 0 [0] none (linear none (expand 1 constantFive 0))
    (by decide +kernel) (by decide +kernel) (by omega) (by simp) (by decide +kernel) rfl
  rw [hwrapper, hexpanded] at hsame
  cases hsame

end Binary64

end Separation
end SeparableTransforms
