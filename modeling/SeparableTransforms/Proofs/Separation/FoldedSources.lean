import SeparableTransforms.Kernels.Synthetic
import SeparableTransforms.Proofs.DenseMatrix.Undetermined
import SeparableTransforms.Proofs.Separation.Soundness
import SeparableTransforms.Proofs.Transform.LinearFolding

/-!
# Sources and folding

Linear steps may be folded before they are separated by sources or not.  Step by step,
an output remains if every step on the way knows that it needs nothing else.  The
product knows this as well: a term of an excluded entry has a factor that is zero or
not determined, so that the entry is zero or not determined, too.  It may know more,
because terms cancel.

If every coefficient is known, the product of the narrowed steps is exactly the
product with the same rows and columns selected.
-/

namespace SeparableTransforms
namespace Transform

open Outcome

section Products

variable {α : Type} [Scalar α] [LawfulScalar α] {a b : DenseMatrix α} {R S T : List Nat} {r : Nat}

/-- The same entries are ignorable in matrices that are stored as equal. -/
theorem determinedRows_congr [AbsorbingScalar α] (h : (a == b) = true) (S : List Nat) :
    determinedRows a S = determinedRows b S := by
  obtain ⟨hrows, hcols, hentries⟩ := DenseMatrix.beq_iff.mp h
  refine (increasing_filter_range _ _).eq_of_mem_iff (increasing_filter_range _ _) fun r => ?_
  have hsame : r < a.rows - 1 → ∀ c, c < a.cols - 1 →
      ((a.coefficient r c).isIgnorable = true ↔ (b.coefficient r c).isIgnorable = true) := by
    intro hr c hc
    have hentry := hentries r c (by omega) (by omega)
    unfold DenseMatrix.coefficient
    rw [DenseMatrix.isIgnorable_ofScalar_iff, DenseMatrix.isIgnorable_ofScalar_iff,
      AbsorbingScalar.isNaN_congr hentry, hentry.isZero_eq]
  show r ∈ determinedRows a S ↔ r ∈ determinedRows b S
  rw [mem_determinedRows_iff, mem_determinedRows_iff, ← hrows, ← hcols]
  exact and_congr_right fun hr => forall_congr' fun c => forall_congr' fun hc =>
    imp_congr_right fun _ => hsame hr c hc

/-- A row of a product is determined if it needs only rows that are. -/
theorem mem_determinedRows_product [AbsorbingScalar α] (hfit : a.cols = b.rows)
    (hb : b.isAffine = true) (hr : r ∈ determinedRows a T)
    (hT : ∀ k ∈ T, k ∈ determinedRows b S) : r ∈ determinedRows (a.product b) S := by
  obtain ⟨hbound, hrow⟩ := mem_determinedRows_iff.mp hr
  refine mem_determinedRows_iff.mpr ⟨hbound, fun c hc hout => ?_⟩
  rw [DenseMatrix.cols_product] at hc
  rw [DenseMatrix.coefficient, DenseMatrix.entry_product (by omega) (by omega)]
  refine DenseMatrix.isIgnorable_dot fun k hk => ?_
  by_cases hlast : k = a.cols - 1
  · -- the offset of the first factor meets the last row of the second
    refine .inr (DenseMatrix.isIgnorable_ofScalar_iff.mpr (.inr ?_))
    rw [hlast, hfit]
    exact DenseMatrix.isAffine_lastRow_beq_zero hb hc
  · by_cases hk' : k ∈ T
    · exact .inr ((mem_determinedRows_iff.mp (hT k hk')).2 c hc hout)
    · exact .inl (hrow k (by omega) hk')

/-- The product of narrowed matrices is the product with rows and columns selected, as far as the
coefficients of the first are known. -/
theorem product_narrowed (hfit : a.cols = b.rows) (hb : 0 < b.rows) (hcols : 0 < b.cols)
    (hrows : 0 < a.rows) (haffine : a.isAffine = true) (hknown : a.hasUnconstrained = false)
    (hR : ∀ r ∈ R, r ∈ determinedRows a T) (hT : Increasing T (a.cols - 1))
    (hS : ∀ c ∈ S, c < b.cols - 1) :
    ((a.keepRows R).keepColumns T).product ((b.keepRows T).keepColumns S) =
      ((a.product b).keepRows R).keepColumns S := by
  have hbound : ∀ r ∈ R, r < a.rows - 1 := fun r hr => (mem_determinedRows_iff.mp (hR r hr)).1
  have hzero : ∀ r, r < (a.keepRows R).rows → ∀ c, c < (a.keepRows R).cols - 1 → c ∉ T →
      ((a.keepRows R).entry r c == 0) = true := by
    intro r hr c hc hout
    rw [DenseMatrix.rows_keepRows] at hr
    rw [DenseMatrix.cols_keepRows] at hc
    rcases Nat.lt_succ_iff_lt_or_eq.mp hr with hlt | rfl
    · obtain ⟨hrow, hignorable⟩ := mem_determinedRows_iff.mp (hR _ (List.getElem_mem hlt))
      rw [DenseMatrix.entry_keepRows hlt (by omega)]
      exact isZero_of_isIgnorable hknown (by omega) (by omega) (hignorable c hc hout)
    · rw [DenseMatrix.entry_keepRows_last (by omega)]
      exact DenseMatrix.isAffine_lastRow_beq_zero haffine hc
  have hcross : ((a.keepRows R).keepColumns T).cols = (b.keepRows T).rows := by
    rw [DenseMatrix.cols_keepColumns, DenseMatrix.rows_keepRows]
  rw [DenseMatrix.product_keepColumns_right hcross hcols hS,
    DenseMatrix.product_keepColumns (a := a.keepRows R) hfit hb hT hzero,
    DenseMatrix.product_keepRows hrows hbound]

end Products

section Walk

variable {κ α : Type} [Kernel κ α] [Scalar α] {assembler : Assembler κ α}
  {options : AssemblyOptions} {P : κ → Prop} {n m : Nat} {R S : List Nat} {p matrix : DenseMatrix α}
  {id : NodeId} {s t : Transform κ α} {steps : List (SourceStep κ α)}
  {parts : List (Transform κ α)}

omit [Kernel κ α] in
theorem known_of_mem_steps (h : t.Known) (hs : s ∈ t.steps) : s.Known := by
  induction t with
  | chain id a b iha ihb =>
      obtain ⟨ha, hb⟩ := known_chain h
      exact (List.mem_append.mp hs).elim (iha ha) (ihb hb)
  | _ =>
      obtain rfl := List.mem_singleton.mp hs
      exact h

/-- A linear step that is reduced as its matrix is. -/
def SourceStep.IsLinear (assembler : Assembler κ α) (s : SourceStep κ α) : Prop :=
  ∃ id matrix, s = ⟨linear id matrix, keepMatrixSources assembler matrix⟩

theorem isLinear_sourceSteps (h : ∀ s ∈ t.steps, ∃ id matrix, s = linear id matrix) :
    ∀ s ∈ t.sourceSteps assembler, s.IsLinear assembler := by
  induction t with
  | linear id matrix =>
      intro s hs
      exact ⟨id, matrix, List.mem_singleton.mp hs⟩
  | chain id a b iha ihb =>
      intro s hs
      exact (List.mem_append.mp hs).elim (iha (fun s' hs' => h s' (List.mem_append_left _ hs')) s)
        (ihb (fun s' hs' => h s' (List.mem_append_right _ hs')) s)
  | passThrough id k inner trailing ih =>
      obtain ⟨_, _, hlinear⟩ := h _ (List.mem_singleton_self _)
      cases hlinear
  | kernel id kernel =>
      obtain ⟨_, _, hlinear⟩ := h _ (List.mem_singleton_self _)
      cases hlinear

variable [LawfulScalar α]

variable (options) in
/-- What is kept of a linear step are the determined rows. -/
theorem keep_linear (h : Fits P n (linear id matrix : Transform κ α) m) (hS : Increasing S n)
    (hne : S ≠ []) :
    ∃ id', SourceStep.keep
        (⟨linear id matrix, keepMatrixSources (.standard options) matrix⟩ : SourceStep κ α) S =
      .ok (linear id' ((matrix.keepRows (determinedRows matrix S)).keepColumns S),
        determinedRows matrix S) := by
  obtain ⟨haffine, hrows, hcols, hpos⟩ := h.linear
  have hcols' : matrix.cols - 1 = n := by omega
  unfold SourceStep.keep
  rw [h.source]
  split
  · rename_i hfull
    obtain rfl := isFull_iff.mp hfull
    have hall : determinedRows matrix (List.range n) = List.range (matrix.rows - 1) :=
      hcols' ▸ determinedRows_range matrix
    have hwhole : (matrix.keepRows (List.range (matrix.rows - 1))).keepColumns (List.range n) =
        matrix := by
      rw [DenseMatrix.keepRows_range (by omega), ← hcols', DenseMatrix.keepColumns_range (by omega)]
    exact ⟨id, by rw [hall, hwhole]; rfl⟩
  · exact ⟨none, keepMatrixSources_eq haffine (hcols'.symm ▸ hS) hne⟩

omit [LawfulScalar α] [Scalar α] in
/-- The last step of a walk is reduced to the outputs that remain before it. -/
theorem keepForward_snoc {earlier : List (SourceStep κ α)} {last : SourceStep κ α}
    (hne : earlier ≠ []) {i : Nat} (h : keepForward (earlier ++ [last]) i S = .ok (parts, R)) :
    ∃ before T kept, keepForward earlier i S = .ok (before, T) ∧ T ≠ [] ∧
      last.keep T = .ok (kept, R) ∧ parts = before ++ [kept] := by
  rw [keepForward_append hne (List.cons_ne_nil _ _)] at h
  obtain ⟨⟨before, T⟩, hbefore, h⟩ := bind_eq_ok_iff.mp h
  cases T with
  | nil => cases h
  | cons d T =>
      simp only [List.isEmpty_cons, Bool.false_eq_true, if_false, keepForward_singleton] at h
      obtain ⟨⟨found, R'⟩, hfound, h⟩ := bind_eq_ok_iff.mp h
      obtain ⟨⟨kept, R''⟩, hkept, hpair⟩ := map_eq_ok_iff.mp hfound
      cases hpair
      cases h
      exact ⟨before, d :: T, kept, hbefore, List.cons_ne_nil d T, hkept, rfl⟩

/-- A walk over linear steps finds outputs that the product determines, and narrows the steps to
the product with the same rows and columns selected. -/
theorem keepForward_linear [AbsorbingScalar α]
    (hsteps : ∀ s ∈ steps, s.IsLinear (.standard options))
    (hlinked : Linked P n (steps.map SourceStep.step) m)
    (hp : Multiplies (steps.map SourceStep.step).reverse p) (hS : Increasing S n) (hne : S ≠ [])
    {i : Nat} (hwalk : keepForward steps i S = .ok (parts, R)) :
    Increasing R m ∧ (∀ r ∈ R, r ∈ determinedRows p S) ∧
      ((∀ s ∈ steps, s.step.Known) →
        Multiplies parts.reverse ((p.keepRows R).keepColumns S)) := by
  induction steps using List.reverseRecOn generalizing m p parts R with
  | nil => cases hp
  | append_singleton earlier s ih =>
      obtain ⟨id, matrix, rfl⟩ := hsteps s (by simp)
      rw [List.map_append, List.map_singleton] at hlinked hp
      rw [List.reverse_append, List.reverse_singleton, List.singleton_append] at hp
      obtain ⟨l, hearlier, hlast⟩ := linked_append.mp hlinked
      have hlast := linked_singleton.mp hlast
      obtain ⟨haffine, hrows, hcols, _⟩ := hlast.linear
      have hm : matrix.rows - 1 = m := by omega
      obtain ⟨_, _, heq, hp⟩ := hp
      obtain ⟨rfl, rfl⟩ := by simpa using heq
      by_cases hnil : earlier = []
      · subst hnil
        obtain rfl : n = l := hearlier
        obtain rfl : p = matrix := by
          rcases hp with ⟨_, rfl⟩ | ⟨q, hq, _⟩
          · rfl
          · cases hq
        obtain ⟨id', hkeep⟩ := keep_linear options hlast hS hne
        rw [List.nil_append, keepForward_singleton, hkeep] at hwalk
        cases hwalk
        exact ⟨hm ▸ increasing_filter_range _ _, fun _ hr => hr, fun _ => multiplies_singleton⟩
      · obtain ⟨q, hq, rfl⟩ := hp.resolve_left fun h => hnil (by simpa using h.1)
        obtain ⟨before, T, kept, hbefore, hTne, hkept, rfl⟩ := keepForward_snoc hnil hwalk
        obtain ⟨hT, hdetermined, hnarrowed⟩ :=
          ih (fun s hs => hsteps s (List.mem_append_left _ hs)) hearlier hq hbefore
        obtain ⟨id', hkeep⟩ := keep_linear options hlast hT hTne
        rw [hkeep] at hkept
        cases hkept
        have hfits := hq.fits (n := n) (m := l) (by rwa [List.reverse_reverse])
        obtain ⟨haffine', hrows', hcols', _⟩ := hfits.linear
        have hTcols : Increasing T (matrix.cols - 1) := by
          rwa [hcols, Nat.add_sub_cancel]
        refine ⟨hm ▸ increasing_filter_range _ _, fun r hr =>
          mem_determinedRows_product (by omega) haffine' hr hdetermined, fun hknown => ?_⟩
        have hlastknown : matrix.hasUnconstrained = false :=
          hknown _ (List.mem_append_right _ (List.mem_singleton_self _)) matrix
            (List.mem_singleton_self matrix)
        have hcross := product_narrowed (b := q) (S := S) (by omega) (by omega) (by omega)
          (by omega) haffine hlastknown (fun _ hr => hr) hTcols
          (fun c hc => by have := hS.bounded c hc; omega)
        rw [List.reverse_append, List.reverse_singleton, List.singleton_append, ← hcross]
        exact (hnarrowed fun s hs => hknown s (List.mem_append_left _ hs)).cons

variable (options) in
/-- What is kept of a linear transform are the determined rows. -/
theorem keepSources_linear (h : Fits P n (linear id matrix : Transform κ α) m)
    (hS : Increasing S n) (hne : S ≠ []) :
    ∃ id', (linear id matrix : Transform κ α).keepSources (.standard options) S =
      .ok (linear id' ((matrix.keepRows (determinedRows matrix S)).keepColumns S),
        determinedRows matrix S) :=
  keep_linear options h hS hne

/-- What is kept of a chain of linear steps is determined by the product, and narrows it. -/
theorem keepSources_steps [AbsorbingScalar α] [CommutativeScalar α] (h : Fits P n t m)
    (hlinear : ∀ s ∈ t.steps, ∃ id matrix, s = linear id matrix)
    (hp : Multiplies t.steps.reverse p) (hS : Increasing S n) (hne : S ≠ [])
    (hproper : S.length < n) {t' : Transform κ α}
    (hkeep : t.keepSources (.standard options) S = .ok (t', R)) :
    (∀ r ∈ R, r ∈ determinedRows p S) ∧
      (t.Known → ∃ q, Multiplies t'.steps.reverse q ∧
        (q == (p.keepRows R).keepColumns S) = true) := by
  have hsteps := map_step_sourceSteps (.standard options) t
  have hnotfull : isFull S t.sourceDimensions = false := by
    rw [h.source]
    refine Bool.eq_false_iff.mpr fun hfull => ?_
    have := hS.isFull_iff_length.mp hfull
    omega
  rw [keepSources, keepSourceSteps_eq hnotfull fun only honly => by
    rw [sourceStep_of_sourceSteps honly]] at hkeep
  obtain ⟨⟨parts, R'⟩, hwalk, hkeep⟩ := bind_eq_ok_iff.mp hkeep
  obtain ⟨composed, hcomposed, hkeep⟩ := bind_eq_ok_iff.mp hkeep
  cases hkeep
  obtain ⟨_, hdetermined, hnarrowed⟩ := keepForward_linear (P := P) (n := n) (m := m)
    (isLinear_sourceSteps hlinear) (by rw [hsteps]; exact h.linked_steps) (by rwa [hsteps]) hS hne
    hwalk
  refine ⟨hdetermined, fun hknown => ?_⟩
  have hmultiplies := hnarrowed fun s hs =>
    known_of_mem_steps hknown (hsteps ▸ List.mem_map_of_mem hs)
  obtain ⟨_, hparts⟩ := (walks_sourceSteps h hS hne).of_keepForward hwalk
  have hlinked : Linked P S.length parts.reverse.reverse R.length := by
    rw [List.reverse_reverse]
    exact hparts.linked
  exact hmultiplies.steps_compose hlinked (by rwa [List.reverse_reverse])

end Walk

end Transform

namespace Separation

open Transform Outcome

section Folding

variable {κ : Type} [Kernel κ Float] {t : Transform κ Float}

/-- Folding linear steps before they are separated by sources loses no target that is found without
folding, and if every coefficient is known, these targets are computed by the same matrix. -/
theorem separate_sources_compose (ht : t.WellFormed)
    (hlinear : ∀ s ∈ t.steps, ∃ id m, s = linear id m) {sources : List Nat} (hne : sources ≠ [])
    (hproper : sources.length < t.sourceDimensions) {options : AssemblyOptions}
    {extra : SeparationOptions} {narrowed : Separation κ Float}
    (hs : separate (.standard options) t (some sources) none extra = .ok narrowed) :
    ∃ folded, (Assembler.standard {}).compose t.steps = .ok folded ∧
      ∀ (options' : AssemblyOptions) (extra' : SeparationOptions), ∃ whole : Separation κ Float,
        separate (.standard options') folded (some sources) none extra' = .ok whole ∧
        (∀ d ∈ narrowed.targetDimensions, d ∈ whole.targetDimensions) ∧
        (t.Known → ∃ id id' m m',
          (Assembler.standard {}).compose narrowed.transform.steps = .ok (linear id m) ∧
          whole.transform = linear id' m' ∧
          (m'.keepRows (narrowed.targetDimensions.map whole.targetDimensions.idxOf) == m) =
            true) := by
  have hfits := ht.admissible.fits
  have hfold : ({} : AssemblyOptions).foldLinear = true := rfl
  have hlinked : Linked _ _ t.steps.reverse.reverse _ :=
    t.steps.reverse_reverse ▸ hfits.linked_steps
  obtain ⟨p, hp⟩ := exists_multiplies (List.reverse_ne_nil_iff.mpr t.steps_ne_nil)
    fun s hs => hlinear s (List.mem_reverse.mp hs)
  obtain ⟨id, q, hfolded, hqp, hfitsq⟩ := hp.compose hfold hlinked
  rw [List.reverse_reverse] at hfolded
  have hS : Increasing sources t.sourceDimensions := (increasing_of_separate hs).1
  -- the steps separated without folding
  have hseparates := separates_of_separate ht.admissible hs
  obtain ⟨t', K, hkeep, hKne, rfl⟩ := (separate_sources_iff hne hS hproper).mp hs
  obtain ⟨hdetermined, hnarrowed⟩ := keepSources_steps hfits hlinear hp hS hne hproper hkeep
  rw [← determinedRows_congr hqp] at hdetermined
  -- the folded steps separated
  obtain ⟨_, hrows, hcols, _⟩ := hfitsq.linear
  have hrow : ∀ r ∈ K, r < q.rows - 1 := fun r hr =>
    (mem_determinedRows_iff.mp (hdetermined r hr)).1
  have hcol : ∀ c ∈ sources, c < q.cols - 1 := fun c hc => by
    have := hS.bounded c hc
    omega
  have hDne : determinedRows q sources ≠ [] := by
    obtain ⟨d, hd⟩ := List.exists_mem_of_ne_nil _ hKne
    exact List.ne_nil_of_mem (hdetermined d hd)
  refine ⟨_, hfolded, fun options' extra' => ?_⟩
  obtain ⟨id', hwhole⟩ := keepSources_linear options' hfitsq hS hne
  refine ⟨⟨linear id' ((q.keepRows (determinedRows q sources)).keepColumns sources), sources,
    determinedRows q sources⟩, ?_, hdetermined, fun hknown => ?_⟩
  · exact (separate_sources_iff hne (by rwa [hfitsq.source]) (by rwa [hfitsq.source])).mpr
      ⟨_, _, hwhole, hDne, rfl⟩
  · obtain ⟨x, hx, hsame⟩ := hnarrowed hknown
    obtain ⟨id'', m, hm, hmx, _⟩ := hx.compose hfold
      (t'.steps.reverse_reverse ▸ hseparates.fits.linked_steps)
    rw [List.reverse_reverse] at hm
    refine ⟨id'', id', m, _, hm, rfl, ?_⟩
    have hqrow : ((q.keepRows K).keepColumns sources == (p.keepRows K).keepColumns sources) = true :=
      DenseMatrix.keepColumns_congr (m := q.keepRows K) (by rw [DenseMatrix.cols_keepRows]; omega)
        hcol (DenseMatrix.keepRows_congr (by omega) hrow hqp)
    show (((q.keepRows (determinedRows q sources)).keepColumns sources).keepRows
      (K.map (determinedRows q sources).idxOf) == m) = true
    rw [DenseMatrix.keepRows_positions hdetermined (by omega) hcol]
    exact DenseMatrix.beq_trans hqrow
      (DenseMatrix.beq_symm (DenseMatrix.beq_trans hmx hsame))

/-- Two linear steps with an infinite coefficient.  The second target needs the difference of two
intermediate coordinates, in which the second source cancels. -/
def cancellingChain : Transform SyntheticKernel Float :=
  chain none
    (linear none ⟨4, 3, #[1, 0, 0, 1, 1, 0, 0, 1, 0, 0, 0, 1], by decide +kernel⟩)
    (linear none ⟨4, 4, #[2, 0, 0, 1, 0, 1, -1, 0, 1 / 0, 0, 0, 0, 0, 0, 0, 1], by decide +kernel⟩)

/-- Folded, the cancelling chain finds the second target from the first source as well. -/
theorem separate_sources_cancellingChain :
    ∃ (narrowed whole : Separation SyntheticKernel Float)
        (folded : Transform SyntheticKernel Float) (id id' : NodeId) (m m' : DenseMatrix Float),
      separate (.standard .verbatim) cancellingChain (some [0]) none ⟨false⟩ = .ok narrowed ∧
      (Assembler.standard {}).compose cancellingChain.steps = .ok folded ∧
      separate (.standard {}) folded (some [0]) none ⟨false⟩ = .ok whole ∧
      narrowed.targetDimensions = [0, 2] ∧ whole.targetDimensions = [0, 1, 2] ∧
      (Assembler.standard {}).compose narrowed.transform.steps = .ok (linear id m) ∧
      whole.transform = linear id' m' ∧ (m'.keepRows [0, 2] == m) = true := by
  have hwell : cancellingChain.WellFormed := by decide +kernel
  have hlinear : ∀ s ∈ cancellingChain.steps, ∃ id m, s = linear id m := by
    simp [cancellingChain, steps]
  have hknown : cancellingChain.Known := by
    unfold Known
    decide +kernel
  have hfound : (fun s => s.targetDimensions) <$>
      separate (.standard .verbatim) cancellingChain (some [0]) none ⟨false⟩ = .ok [0, 2] := by
    decide +kernel
  have hfound' : ((Assembler.standard {}).compose cancellingChain.steps >>= fun folded =>
      (fun s => s.targetDimensions) <$> separate (.standard {}) folded (some [0]) none ⟨false⟩) =
        .ok [0, 1, 2] := by
    decide +kernel
  obtain ⟨narrowed, hnarrowed, htargets⟩ := map_eq_ok_iff.mp hfound
  obtain ⟨folded, hfolded, hall⟩ := separate_sources_compose hwell hlinear
    (List.cons_ne_nil 0 []) (by decide +kernel) hnarrowed
  obtain ⟨whole, hwhole, _, hsame⟩ := hall {} ⟨false⟩
  obtain ⟨id, id', m, m', hm, hm', hrows⟩ := hsame hknown
  rw [hfolded, ok_bind, hwhole, map_ok] at hfound'
  have htargets' : whole.targetDimensions = [0, 1, 2] := Except.ok.inj hfound'
  rw [htargets, htargets'] at hrows
  exact ⟨narrowed, whole, folded, id, id', m, m', hnarrowed, hfolded, hwhole, htargets, htargets',
    hm, hm', hrows⟩

end Folding

end Separation
end SeparableTransforms
