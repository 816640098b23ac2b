import SeparableTransforms.Proofs.DenseMatrix.Neutral
import SeparableTransforms.Proofs.Transform.Assembly

/-!
# Folding linear steps

Linear steps fold into a single one.  Its matrix is the product of theirs, each
step multiplied to the left of the product of the steps before it.  Where the
product is an identity it may be replaced by a new one, which is the same matrix
up to the sign of zero.  Identities that are left out of linear steps leave their
product as it is, too.
-/

namespace SeparableTransforms
namespace Transform

open Outcome

section Steps

variable {κ α : Type}

theorem elideSteps_singleton [Scalar α] (options : AssemblyOptions) (s : Transform κ α) :
    elideSteps options [s] = [s] ∨ elideSteps options [s] = [] ∧ s.isIdentity = true := by
  unfold elideSteps
  split
  · cases hid : s.isIdentity with
    | true => exact .inr ⟨by simp [hid], rfl⟩
    | false => exact .inl (by simp [hid])
  · exact .inl rfl

theorem compose_snoc {assembler : Assembler κ α} {steps : List (Transform κ α)} {s : Transform κ α}
    (hne : steps ≠ []) :
    assembler.compose (steps ++ [s]) =
      (assembler.compose steps >>= fun t => assembler.concatenate t s) := by
  cases steps with
  | nil => exact absurd rfl hne
  | cons first rest =>
      show (rest ++ [s]).foldlM assembler.concatenate first = _
      rw [List.foldlM_append]
      congr 1
      funext t
      exact bind_pure _

end Steps

section Products

variable {κ α : Type} [Scalar α]

/-- The product of the matrices of linear steps, which are listed from last to first. -/
def Multiplies : List (Transform κ α) → DenseMatrix α → Prop
  | [], _ => False
  | s :: earlier, p => ∃ id m, s = linear id m ∧
      (earlier = [] ∧ p = m ∨ ∃ q, Multiplies earlier q ∧ p = m.product q)

variable {id : NodeId} {m p q : DenseMatrix α} {steps earlier : List (Transform κ α)}

theorem multiplies_singleton : Multiplies [(linear id m : Transform κ α)] m :=
  ⟨id, m, rfl, .inl ⟨rfl, rfl⟩⟩

theorem Multiplies.cons (h : Multiplies earlier q) :
    Multiplies (linear id m :: earlier) (m.product q) :=
  ⟨id, m, rfl, .inr ⟨q, h, rfl⟩⟩

theorem Multiplies.ne_nil (h : Multiplies steps p) : steps ≠ [] := by
  rintro rfl
  exact h

theorem Multiplies.single (h : Multiplies steps p) : ∀ s ∈ steps, s.steps = [s] := by
  induction steps generalizing p with
  | nil => cases h
  | cons s earlier ih =>
      obtain ⟨id, m, rfl, hp⟩ := h
      intro s' hs'
      rcases List.mem_cons.mp hs' with rfl | hs'
      · rfl
      · rcases hp with ⟨rfl, _⟩ | ⟨q, hq, _⟩
        · cases hs'
        · exact ih hq s' hs'

/-- Linear steps have a product. -/
theorem exists_multiplies (hne : steps ≠ []) (h : ∀ s ∈ steps, ∃ id m, s = linear id m) :
    ∃ p, Multiplies steps p := by
  induction steps with
  | nil => exact absurd rfl hne
  | cons s earlier ih =>
      obtain ⟨id, m, rfl⟩ := h s List.mem_cons_self
      by_cases hnil : earlier = []
      · exact ⟨m, hnil ▸ multiplies_singleton⟩
      · obtain ⟨q, hq⟩ := ih hnil fun s' hs' => h s' (List.mem_cons_of_mem _ hs')
        exact ⟨m.product q, hq.cons⟩

end Products

section Folding

variable {κ α : Type} [Kernel κ α] [Scalar α] [LawfulScalar α] {P : κ → Prop} {n m l : Nat}
  {id id' : NodeId} {a b p : DenseMatrix α} {steps : List (Transform κ α)}
  {options : AssemblyOptions}

/-- The product of linked linear steps fits where the steps do. -/
theorem Multiplies.fits (h : Multiplies steps p) (hlinked : Linked P n steps.reverse m) :
    Fits P n (linear none p : Transform κ α) m := by
  induction steps generalizing p m with
  | nil => cases h
  | cons s earlier ih =>
      obtain ⟨id, matrix, rfl, hp⟩ := h
      rw [List.reverse_cons] at hlinked
      obtain ⟨l, hearlier, hlast⟩ := linked_append.mp hlinked
      have hlast := linked_singleton.mp hlast
      obtain ⟨haffine, hrows, hcols, _⟩ := hlast.linear
      rcases hp with ⟨rfl, rfl⟩ | ⟨q, hq, rfl⟩
      · obtain rfl : n = l := hearlier
        exact ⟨hlast.admissible, hlast.source, hlast.target⟩
      · obtain ⟨haffine', hrows', hcols', hpos⟩ := (ih hq hearlier).linear
        exact fits_linear (DenseMatrix.isAffine_product haffine haffine' (by omega)) hrows hcols'
          hpos

/-- Two linear transforms fold into one. -/
theorem concatenateWith_linear (hfold : options.foldLinear = true)
    (ha : Fits P n (linear id a : Transform κ α) l) (hb : Fits P l (linear id' b) m) :
    ∃ p, concatenateWith options (linear id a : Transform κ α) (linear id' b) =
        .ok (linear none p) ∧
      (p == b.product a) = true ∧ Fits P n (linear none p : Transform κ α) m := by
  obtain ⟨haffine, hrows, hcols, hpos⟩ := ha.linear
  obtain ⟨haffine', hrows', hcols', hpos'⟩ := hb.linear
  have hfit : b.cols = a.rows := by omega
  have hproduct := DenseMatrix.isAffine_product haffine' haffine hfit
  have hfolded : foldSteps options [(linear id a : Transform κ α), linear id' b] =
      .ok [linear none (b.product a)] := by
    have hmade : ofMatrix (b.product a) = .ok (linear none (b.product a) : Transform κ α) :=
      ofMatrix_eq_ok hproduct (by rw [DenseMatrix.cols_product]; omega)
    simp [foldSteps, pushStep, hfold, DenseMatrix.multiply_eq_product hfit, hmade]
  have hflat : Flat P n [(linear none (b.product a) : Transform κ α)] m :=
    ⟨linked_singleton.mpr (fits_linear hproduct hrows' hcols hpos), by simp [Transform.steps]⟩
  obtain ⟨t, ht, hfits, hmade⟩ := concatenateWith_made ha hb hfolded hflat
  rcases hmade with hsteps | ⟨hnil, rfl⟩
  · have hkept := (elideSteps_singleton options _).resolve_right fun h =>
      t.steps_ne_nil (hsteps.trans h.1)
    obtain rfl := eq_of_steps_singleton (hsteps.trans hkept)
    exact ⟨_, ht, DenseMatrix.beq_refl _, hfits⟩
  · have hid := ((elideSteps_singleton options _).resolve_left fun hkept => by
      rw [hkept] at hnil
      cases hnil).2
    have hsame := DenseMatrix.beq_identity_of_isIdentity hid
    rw [DenseMatrix.cols_product, hcols] at hsame
    exact ⟨_, ht, hsame, hfits⟩

/-- Linear steps fold into one with their product. -/
theorem Multiplies.compose (h : Multiplies steps p) (hfold : options.foldLinear = true)
    (hlinked : Linked P n steps.reverse m) :
    ∃ id q, (Assembler.standard options).compose steps.reverse = .ok (linear id q) ∧
      (q == p) = true ∧ Fits P n (linear id q : Transform κ α) m := by
  induction steps generalizing p m with
  | nil => cases h
  | cons s earlier ih =>
      obtain ⟨id, matrix, rfl, hp⟩ := h
      rw [List.reverse_cons] at hlinked ⊢
      obtain ⟨l, hearlier, hlast⟩ := linked_append.mp hlinked
      have hlast := linked_singleton.mp hlast
      rcases hp with ⟨rfl, rfl⟩ | ⟨q, hq, rfl⟩
      · obtain rfl : n = l := hearlier
        exact ⟨id, p, rfl, DenseMatrix.beq_refl _, hlast⟩
      · obtain ⟨id', q', hq', hsame, hfits⟩ := ih hq hearlier
        obtain ⟨x, hx, hsame', hfits'⟩ := concatenateWith_linear hfold hfits hlast
        have hne : earlier.reverse ≠ [] := by simpa using hq.ne_nil
        refine ⟨none, x, ?_, ?_, hfits'⟩
        · rw [compose_snoc hne, hq']
          exact hx
        · obtain ⟨_, hrows, _, _⟩ := hfits.linear
          obtain ⟨_, _, hcols, _⟩ := hlast.linear
          exact DenseMatrix.beq_trans hsame'
            (DenseMatrix.product_congr (by omega) (DenseMatrix.beq_refl _) hsame)

end Folding

section Eliding

variable {κ α : Type} [Kernel κ α] [Scalar α] [LawfulScalar α] [CommutativeScalar α]
  {P : κ → Prop} {n m : Nat} {p : DenseMatrix α} {t : Transform κ α} {steps : List (Transform κ α)}
  {options : AssemblyOptions}

/-- Linear steps keep their product if the identities among them are left out. -/
theorem Multiplies.filter (h : Multiplies steps p) (hlinked : Linked P n steps.reverse m) :
    (steps.filter (fun s => !s.isIdentity) = [] ∧ n = m ∧
        (DenseMatrix.identity (n + 1) == p) = true) ∨
      ∃ q, Multiplies (steps.filter fun s => !s.isIdentity) q ∧ (q == p) = true := by
  induction steps generalizing p m with
  | nil => cases h
  | cons s earlier ih =>
      obtain ⟨id, matrix, rfl, hp⟩ := h
      rw [List.reverse_cons] at hlinked
      obtain ⟨l, hearlier, hlast⟩ := linked_append.mp hlinked
      have hlast := linked_singleton.mp hlast
      obtain ⟨_, hrows, hcols, _⟩ := hlast.linear
      cases hid : matrix.isIdentity with
      | true =>
          have hlm : l = m := hlast.eq_of_isIdentity hid
          have hskip : (linear id matrix :: earlier).filter (fun s => !s.isIdentity) =
              earlier.filter fun s => !s.isIdentity :=
            List.filter_cons_of_neg (by simp [isIdentity, hid])
          rw [hskip]
          rcases hp with ⟨rfl, rfl⟩ | ⟨q, hq, rfl⟩
          · obtain rfl : n = l := hearlier
            have hsame := DenseMatrix.beq_identity_of_isIdentity hid
            rw [hcols] at hsame
            exact .inl ⟨rfl, hlm, hsame⟩
          · obtain ⟨_, hrows', _, _⟩ := (hq.fits hearlier).linear
            have hneutral := DenseMatrix.product_of_isIdentity_left (m := q) hid (by omega)
            rcases ih hq hearlier with ⟨hnil, hnl, hsame⟩ | ⟨x, hx, hsame⟩
            · exact .inl ⟨hnil, hnl.trans hlm,
                DenseMatrix.beq_trans hsame (DenseMatrix.beq_symm hneutral)⟩
            · exact .inr ⟨x, hx, DenseMatrix.beq_trans hsame (DenseMatrix.beq_symm hneutral)⟩
      | false =>
          have hkeep : (linear id matrix :: earlier).filter (fun s => !s.isIdentity) =
              linear id matrix :: earlier.filter fun s => !s.isIdentity :=
            List.filter_cons_of_pos (by simp [isIdentity, hid])
          rw [hkeep]
          refine .inr ?_
          rcases hp with ⟨rfl, rfl⟩ | ⟨q, hq, rfl⟩
          · exact ⟨p, multiplies_singleton, DenseMatrix.beq_refl _⟩
          · obtain ⟨_, hrows', _, _⟩ := (hq.fits hearlier).linear
            rcases ih hq hearlier with ⟨hnil, rfl, hsame⟩ | ⟨x, hx, hsame⟩
            · -- all the steps before are identities
              have hneutral := DenseMatrix.product_of_isIdentity_right (m := matrix)
                (isIdentity_identity (n + 1)) (by rw [hcols]; rfl)
              refine ⟨matrix, hnil ▸ multiplies_singleton, DenseMatrix.beq_trans
                (DenseMatrix.beq_symm hneutral) ?_⟩
              exact DenseMatrix.product_congr (by rw [hcols]; rfl) (DenseMatrix.beq_refl _) hsame
            · refine ⟨matrix.product x, hx.cons, ?_⟩
              have hxrows := (DenseMatrix.beq_iff.mp hsame).1
              exact DenseMatrix.product_congr (by omega) (DenseMatrix.beq_refl _) hsame

/-- What is made of linear steps has their product. -/
theorem Multiplies.madeOf {folded : List (Transform κ α)} (h : Multiplies folded.reverse p)
    (hlinked : Linked P n folded m) (hmade : MadeOf options n folded t) :
    ∃ q, Multiplies t.steps.reverse q ∧ (q == p) = true := by
  have hlinked : Linked P n folded.reverse.reverse m := by rwa [List.reverse_reverse]
  unfold MadeOf elideSteps at hmade
  split at hmade
  · rcases hmade with hsteps | ⟨hnil, rfl⟩
    · rw [hsteps, ← List.filter_reverse]
      rcases h.filter hlinked with ⟨hnil, _⟩ | hkept
      · rw [List.filter_reverse, List.reverse_eq_nil_iff] at hnil
        exact absurd (hsteps.trans hnil) t.steps_ne_nil
      · exact hkept
    · rcases h.filter hlinked with ⟨_, _, hsame⟩ | ⟨q, hq, _⟩
      · exact ⟨_, multiplies_singleton, hsame⟩
      · rw [List.filter_reverse, hnil] at hq
        cases hq
  · rcases hmade with hsteps | ⟨hnil, _⟩
    · exact ⟨p, hsteps ▸ h, DenseMatrix.beq_refl p⟩
    · rw [hnil] at h
      cases h

/-- A chain composed of linear steps keeps their product, whatever is simplified. -/
theorem Multiplies.steps_compose (h : Multiplies steps p) (hlinked : Linked P n steps.reverse m)
    (ht : (Assembler.standard options).compose steps.reverse = .ok t) :
    ∃ q, Multiplies t.steps.reverse q ∧ (q == p) = true := by
  cases hfold : options.foldLinear with
  | true =>
      obtain ⟨id, q, hq, hsame, _⟩ := h.compose hfold hlinked
      obtain rfl : linear id q = t := Except.ok.inj (hq.symm.trans ht)
      exact ⟨q, multiplies_singleton, hsame⟩
  | false =>
      induction steps generalizing p m t with
      | nil => cases h
      | cons s earlier ih =>
          obtain ⟨id, matrix, rfl, hp⟩ := h
          rw [List.reverse_cons] at hlinked ht
          obtain ⟨l, hearlier, hlast⟩ := linked_append.mp hlinked
          have hlast := linked_singleton.mp hlast
          rcases hp with ⟨rfl, rfl⟩ | ⟨q, hq, rfl⟩
          · obtain rfl : linear id p = t := Except.ok.inj ht
            exact ⟨p, multiplies_singleton, DenseMatrix.beq_refl _⟩
          · have hne : earlier.reverse ≠ [] := by simpa using hq.ne_nil
            rw [compose_snoc hne] at ht
            obtain ⟨first, hfirst, ht⟩ := bind_eq_ok_iff.mp ht
            obtain ⟨first', hfirst', hfits, _⟩ := compose_eq_ok options hearlier hne
            obtain rfl : first' = first := Except.ok.inj (hfirst'.symm.trans hfirst)
            obtain ⟨q', hq', hsame⟩ := ih hq hearlier hfirst
            have hflat := hfits.flat.append hlast.flat
            obtain ⟨t', ht', _, hmade⟩ :=
              concatenateWith_made hfits hlast (foldSteps_unfolded hfold) hflat
            obtain rfl : t' = t := Except.ok.inj (ht'.symm.trans ht)
            have hall : Multiplies (first'.steps ++ (linear id matrix).steps).reverse
                (matrix.product q') := by
              rw [List.reverse_append]
              exact hq'.cons
            obtain ⟨x, hx, hsame'⟩ := hall.madeOf hflat.linked hmade
            obtain ⟨_, _, hcols, _⟩ := hlast.linear
            obtain ⟨_, hrows, _, _⟩ := (hq.fits hearlier).linear
            have hxrows := (DenseMatrix.beq_iff.mp hsame).1
            exact ⟨x, hx, DenseMatrix.beq_trans hsame'
              (DenseMatrix.product_congr (by omega) (DenseMatrix.beq_refl _) hsame)⟩

end Eliding

end Transform
end SeparableTransforms
