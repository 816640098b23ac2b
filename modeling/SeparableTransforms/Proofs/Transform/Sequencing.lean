import SeparableTransforms.Proofs.Transform.Collapsing
import SeparableTransforms.Proofs.Transform.NormalForm

/-!
# Transforms in sequence

A transform is *coherent* if its matrices are affine and the parts of its chains fit.
Every well-formed transform is, and so is its inverse, although an inverse kernel may
take no coordinate at all.

A coherent chain is evaluated part after part: the second part gets the image under
the first, the derivatives are multiplied, and the first part that fails decides the
error.  So a coherent transform maps a point through its steps, and from steps in
sequence the standard assembler makes a coherent transform again.
-/

namespace SeparableTransforms

section After

variable {α : Type} [Scalar α]

/-- One evaluation after another: the last point, and the product of the derivatives if there are
both. -/
def Evaluation.after (final middle : Evaluation α) : Evaluation α :=
  ⟨final.point, Option.map₂ DenseMatrix.product final.jacobian middle.jacobian⟩

end After

namespace Transform

open Outcome

section Coherent

variable {κ α : Type} [Kernel κ α] [Scalar α] {t : Transform κ α}

/-- Every matrix is affine and takes a coordinate, and neighbours in a chain fit. -/
def Coherent : Transform κ α → Prop
  | linear _ m => m.isAffine = true ∧ 2 ≤ m.cols
  | chain _ a b => a.Coherent ∧ b.Coherent ∧ a.targetDimensions = b.sourceDimensions
  | passThrough _ _ t _ => t.Coherent
  | kernel _ _ => True

instance decidableCoherent : (t : Transform κ α) → Decidable t.Coherent
  | linear _ m => inferInstanceAs (Decidable (m.isAffine = true ∧ 2 ≤ m.cols))
  | chain _ a b =>
      have := decidableCoherent a
      have := decidableCoherent b
      inferInstanceAs (Decidable (_ ∧ _ ∧ _))
  | passThrough _ _ t _ => decidableCoherent t
  | kernel _ _ => .isTrue trivial

/-- A coherent transform is well-formed if its kernels take a coordinate. -/
theorem wellFormed_iff_coherent :
    t.WellFormed ↔ t.Coherent ∧ ∀ node ∈ t.kernels, 0 < Kernel.sourceDimensions node.2 := by
  induction t with
  | linear id m => simp [WellFormed, Coherent, kernels]
  | chain id a b iha ihb =>
      simp only [WellFormed, Coherent, kernels, List.mem_append, iha, ihb, or_imp, forall_and]
      constructor
      · rintro ⟨⟨ha, hka⟩, ⟨hb, hkb⟩, hfit⟩
        exact ⟨⟨ha, hb, hfit⟩, hka, hkb⟩
      · rintro ⟨⟨ha, hb, hfit⟩, hka, hkb⟩
        exact ⟨⟨ha, hka⟩, ⟨hb, hkb⟩, hfit⟩
  | passThrough id k t n ih => simpa only [WellFormed, Coherent, kernels] using ih
  | kernel id k => simp [WellFormed, Coherent, kernels]

theorem WellFormed.coherent (h : t.WellFormed) : t.Coherent :=
  (wellFormed_iff_coherent.mp h).1

end Coherent

section Parts

variable {κ α : Type} [Kernel κ α] [Scalar α] {id : NodeId} {a b t : Transform κ α}
  {p : List α} {derivative : Bool}

/-- Parts that fit are evaluated one after the other. -/
theorem evaluate_chain_of_fit (hfit : a.targetDimensions = b.sourceDimensions) :
    (chain id a b).evaluate p derivative = (do
      let middle ← a.evaluate p derivative
      let final ← b.evaluate middle.point derivative
      return final.after middle) := by
  by_cases hlen : p.length = a.sourceDimensions
  · rw [evaluate_chain hlen]
    cases hmiddle : a.evaluate p derivative with
    | error e => rfl
    | ok middle =>
        simp only [ok_bind]
        cases hfinal : b.evaluate middle.point derivative with
        | error e => rfl
        | ok final =>
            simp only [ok_bind, Evaluation.after]
            cases hj₂ : final.jacobian with
            | none => simp
            | some j₂ =>
                cases hj₁ : middle.jacobian with
                | none => simp
                | some j₁ =>
                    have hshape : j₂.cols = j₁.rows := by
                      rw [(shaped_of_evaluate hfinal).cols j₂ hj₂,
                        (shaped_of_evaluate hmiddle).rows j₁ hj₁, hfit]
                    simp [DenseMatrix.multiply_eq_product hshape]
  · rw [evaluate_of_length_ne (t := chain id a b) hlen, evaluate_of_length_ne hlen]
    rfl

/-- A chain of parts that fit maps a point through one after the other. -/
theorem apply_chain (hfit : a.targetDimensions = b.sourceDimensions) :
    (chain id a b).apply p = a.apply p >>= b.apply := by
  rw [apply_eq_map, evaluate_chain_of_fit hfit, apply_eq_map]
  cases a.evaluate p false with
  | error e => rfl
  | ok middle =>
      simp only [ok_bind, map_ok]
      rw [apply_eq_map]
      cases b.evaluate middle.point false with
      | error e => rfl
      | ok final => rfl

theorem apply_linear {m : DenseMatrix α} (hlen : p.length = m.cols - 1) :
    (linear id m : Transform κ α).apply p = .ok (applyAffine m p) :=
  apply_linear_iff.mpr ⟨hlen, rfl⟩

theorem apply_passThrough {k n : Nat} (hlen : p.length = k + t.sourceDimensions + n) :
    (passThrough id k t n).apply p =
      (fun w => p.take k ++ w ++ p.drop (k + t.sourceDimensions)) <$>
        t.apply ((p.drop k).take t.sourceDimensions) := by
  rw [apply_eq_map, evaluate_passThrough hlen, apply_eq_map]
  cases t.evaluate ((p.drop k).take t.sourceDimensions) false with
  | error e => rfl
  | ok result => rfl

end Parts

section Steps

variable {κ α : Type} [Kernel κ α] [Scalar α] {steps : List (Transform κ α)} {t : Transform κ α}
  {p : List α}

/-- The image of a point under steps that apply one after the other. -/
def applySteps (steps : List (Transform κ α)) (p : List α) : Except TransformError (List α) :=
  steps.foldlM (fun q s => s.apply q) p

theorem applySteps_cons (s : Transform κ α) (steps : List (Transform κ α)) (p : List α) :
    applySteps (s :: steps) p = s.apply p >>= applySteps steps :=
  List.foldlM_cons

theorem applySteps_singleton (s : Transform κ α) (p : List α) :
    applySteps [s] p = s.apply p := by
  rw [applySteps_cons]
  exact bind_pure _

theorem applySteps_append (steps rest : List (Transform κ α)) (p : List α) :
    applySteps (steps ++ rest) p = applySteps steps p >>= applySteps rest :=
  List.foldlM_append

/-- A coherent transform maps a point through its steps. -/
theorem apply_eq_applySteps (h : t.Coherent) (p : List α) : t.apply p = applySteps t.steps p := by
  induction t generalizing p with
  | chain id a b iha ihb =>
      obtain ⟨ha, hb, hfit⟩ := h
      rw [apply_chain hfit, steps, applySteps_append, ← iha ha]
      exact congrArg (a.apply p >>= ·) (funext (ihb hb))
  | _ => exact (applySteps_singleton _ p).symm

end Steps

section Sequenced

variable {κ α : Type} [Kernel κ α] [Scalar α] {s t : Transform κ α} {n m : Nat}
  {steps rest : List (Transform κ α)}

/-- Coherent steps each of which takes what the one before it gives, from `n` coordinates to
`m`. -/
def Sequenced : Nat → List (Transform κ α) → Nat → Prop
  | n, [], m => n = m
  | n, s :: rest, m => s.Coherent ∧ s.sourceDimensions = n ∧ Sequenced s.targetDimensions rest m

theorem sequenced_append :
    Sequenced n (steps ++ rest) m ↔ ∃ l, Sequenced n steps l ∧ Sequenced l rest m := by
  induction steps generalizing n with
  | nil => simp [Sequenced]
  | cons s steps ih => simp [Sequenced, ih, and_assoc]

theorem Coherent.sequenced (h : t.Coherent) :
    Sequenced t.sourceDimensions t.steps t.targetDimensions := by
  induction t with
  | chain id a b iha ihb =>
      obtain ⟨ha, hb, hfit⟩ := h
      have hb := ihb hb
      rw [← hfit] at hb
      exact sequenced_append.mpr ⟨a.targetDimensions, iha ha, hb⟩
  | _ => exact ⟨h, rfl, rfl⟩

/-- An identity has as many sources as targets, and it has a source. -/
theorem Coherent.dimensions_of_isIdentity (h : s.Coherent) (hs : s.isIdentity = true) :
    s.sourceDimensions = s.targetDimensions ∧ 0 < s.sourceDimensions := by
  cases s with
  | linear id matrix =>
      have hsquare := DenseMatrix.rows_of_isIdentity hs
      have hcols := h.2
      simp only [sourceDimensions, targetDimensions]
      omega
  | _ => cases hs

variable (options : AssemblyOptions) in
/-- Steps stay in sequence without the identities. -/
theorem Sequenced.elideSteps (h : Sequenced n steps m) :
    Sequenced n (elideSteps options steps) m := by
  unfold Transform.elideSteps
  split
  · induction steps generalizing n with
    | nil => exact h
    | cons s steps ih =>
        obtain ⟨hs, hn, hsteps⟩ := h
        rw [List.filter_cons]
        split
        · exact ⟨hs, hn, ih hsteps⟩
        · rename_i hid
          have hid : s.isIdentity = true := by simpa using hid
          rw [← hn, (hs.dimensions_of_isIdentity hid).1]
          exact ih hsteps
  · exact h

/-- If all steps are left out, the first of them is an identity and takes a coordinate. -/
theorem Sequenced.pos_of_elideSteps {options : AssemblyOptions} (h : Sequenced n steps m)
    (hne : steps ≠ []) (hnil : Transform.elideSteps options steps = []) : 0 < n := by
  obtain ⟨first, rest, rfl⟩ := List.exists_cons_of_ne_nil hne
  obtain ⟨hfirst, rfl, -⟩ := h
  unfold Transform.elideSteps at hnil
  split at hnil
  · have hid := List.filter_eq_nil_iff.mp hnil first List.mem_cons_self
    exact (hfirst.dimensions_of_isIdentity (by simpa using hid)).2
  · cases hnil

/-- Steps in sequence can be joined. -/
theorem Sequenced.foldlM_join (hs : s.Coherent) (hrest : Sequenced s.targetDimensions rest m) :
    ∃ t, rest.foldlM join s = .ok t ∧ t.Coherent ∧ t.sourceDimensions = s.sourceDimensions ∧
      t.targetDimensions = m := by
  induction rest generalizing s with
  | nil => exact ⟨s, rfl, hs, rfl, hrest⟩
  | cons next rest ih =>
      obtain ⟨hnext, hfit, hrest⟩ := hrest
      obtain ⟨t, ht, hcoherent, hsource, htarget⟩ :=
        ih (s := chain none s next) ⟨hs, hnext, hfit.symm⟩ hrest
      refine ⟨t, ?_, hcoherent, hsource, htarget⟩
      rw [List.foldlM_cons, join_eq_ok hfit.symm]
      exact ht

end Sequenced

section Folding

variable {κ α : Type} [Scalar α] {steps folded : List (Transform κ α)} {options : AssemblyOptions}

/-- The last step leaves something on the stack, be it the step itself or what it is folded
into. -/
theorem foldSteps_ne_nil (hsteps : steps ≠ []) (h : foldSteps options steps = .ok folded) :
    folded ≠ [] := by
  obtain ⟨stack, hstack, rfl⟩ := map_eq_ok_iff.mp h
  rw [← List.dropLast_append_getLast hsteps, List.foldlM_append] at hstack
  obtain ⟨earlier, -, hlast⟩ := bind_eq_ok_iff.mp hstack
  rw [List.foldlM_cons] at hlast
  obtain ⟨pushed, hpush, hpushed⟩ := bind_eq_ok_iff.mp hlast
  obtain rfl : pushed = stack := Except.ok.inj hpushed
  rcases pushStep_cases hpush with ⟨rfl, -⟩ | ⟨-, -, top, below, product, -, -, rfl⟩
  · simp
  · simp

end Folding

section Concatenating

variable {κ α : Type} [Kernel κ α] [Scalar α] [LawfulScalar α] {a b : Transform κ α}
  {folded : List (Transform κ α)} {options : AssemblyOptions}

/-- A concatenation of what fits succeeds if the folded steps are in sequence, and it is a coherent
transform made of them. -/
theorem concatenateWith_coherent (ha : a.Coherent) (hb : b.Coherent)
    (hfit : a.targetDimensions = b.sourceDimensions)
    (hfold : foldSteps options (a.steps ++ b.steps) = .ok folded)
    (hfolded : Sequenced a.sourceDimensions folded b.targetDimensions) (hne : folded ≠ []) :
    ∃ t, concatenateWith options a b = .ok t ∧ t.Coherent ∧
      t.sourceDimensions = a.sourceDimensions ∧ MadeOf options a.sourceDimensions folded t := by
  suffices h : ∃ t, concatenateWith options a b = .ok t ∧ t.Coherent ∧
      t.sourceDimensions = a.sourceDimensions by
    obtain ⟨t, ht, hcoherent, hsource⟩ := h
    obtain ⟨folded', hfold', hmade⟩ := madeOf_of_concatenateWith ht
    obtain rfl : folded = folded' := Except.ok.inj (hfold.symm.trans hfold')
    exact ⟨t, ht, hcoherent, hsource, hmade⟩
  have helided := hfolded.elideSteps options
  unfold concatenateWith
  rw [if_neg (not_not.mpr hfit)]
  split
  · exact ⟨chain none a b, join_eq_ok hfit, ⟨ha, hb, hfit⟩, rfl⟩
  · rw [hfold, ok_bind]
    cases hsteps : elideSteps options folded with
    | nil =>
        have hpos := hfolded.pos_of_elideSteps hne hsteps
        refine ⟨linear none (DenseMatrix.identity (a.sourceDimensions + 1)), ?_,
          ⟨DenseMatrix.isAffine_identity _, Nat.succ_le_succ hpos⟩, rfl⟩
        rw [joinAll, ok_bind]
        exact identity_eq_ok hpos
    | cons first rest =>
        rw [hsteps] at helided
        obtain ⟨hfirst, hsource, hrest⟩ := helided
        obtain ⟨t, hjoin, hcoherent, hsource', -⟩ := Sequenced.foldlM_join hfirst hrest
        refine ⟨t, ?_, hcoherent, hsource'.trans hsource⟩
        rw [joinAll, hjoin]
        rfl

end Concatenating

end Transform
end SeparableTransforms
