import SeparableTransforms.Proofs.DenseMatrix.Exact
import SeparableTransforms.Proofs.Transform.Concatenation

/-!
# Folding in exact arithmetic

Over the rationals the product of two affine matrices maps a point as the two matrices
do one after the other, its linear part is the product of their linear parts, and an
identity copies the point and its derivative.  So folding the linear steps of a chain
and leaving out identities changes nothing at all.

The proof follows an evaluation on its way through the steps.  What is carried from
step to step is the point reached so far together with the derivative there, and a
step *advances* it by the chain rule.  Since products are associative, a transform
advances an evaluation as its steps do, and two linear steps advance it as their
product does.
-/

namespace SeparableTransforms
namespace Transform

open Outcome DenseMatrix

section Affine

variable {m m₁ m₂ : DenseMatrix Rat} {p q : List Rat}

theorem eq_of_samePoint_rat (h : SamePoint p q) : p = q := by
  induction h with
  | nil => rfl
  | cons hx _ ih => rw [same_rat_iff.mp hx, ih]

/-- The coordinates of a point with a one behind the last of them. -/
def homogeneous (p : List Rat) (c : Nat) : Rat :=
  if c = p.length then 1 else p.getD c 0

/-- A coordinate of the image is the product of a row with the homogeneous coordinates. -/
theorem affineCoordinate_rat (hlen : p.length = m.cols - 1) (hcols : 0 < m.cols) (r : Nat) :
    affineCoordinate m p r = ∑ c ∈ Finset.range m.cols, m.entry r c * homogeneous p c := by
  have hsum := DoubleDouble.foldl_range_rat
    (fun sum c => sum.addTerm (m.entry r c) (p.getD c 0)) (fun c => m.entry r c * p.getD c 0)
    (fun s c => DoubleDouble.addTerm_exact s _ _) (m.cols - 1) (m.entry r (m.cols - 1))
  have hterms : ∀ c ∈ Finset.range (m.cols - 1),
      m.entry r c * homogeneous p c = m.entry r c * p.getD c 0 := by
    intro c hc
    have hc := Finset.mem_range.mp hc
    rw [homogeneous, if_neg (by omega)]
  have hlast : homogeneous p (m.cols - 1) = 1 := if_pos hlen.symm
  calc affineCoordinate m p r
      = m.entry r (m.cols - 1) + ∑ c ∈ Finset.range (m.cols - 1), m.entry r c * p.getD c 0 := by
        rw [affineCoordinate_eq hlen]
        exact congrArg DoubleDouble.value hsum
    _ = ∑ c ∈ Finset.range (m.cols - 1 + 1), m.entry r c * homogeneous p c := by
        rw [Finset.sum_range_succ, Finset.sum_congr rfl hterms, hlast, mul_one, add_comm]
    _ = ∑ c ∈ Finset.range m.cols, m.entry r c * homogeneous p c := by
        rw [Nat.sub_add_cancel hcols]

theorem entry_lastRow_rat (h : m.isAffine = true) {c : Nat} (hc : c < m.cols) :
    m.entry (m.rows - 1) c = if c + 1 = m.cols then 1 else 0 :=
  same_rat_iff.mp (isAffine_lastRow h hc)

/-- An affine matrix maps homogeneous coordinates to homogeneous coordinates. -/
theorem homogeneous_applyAffine (h : m.isAffine = true) (hlen : p.length = m.cols - 1) {r : Nat}
    (hr : r < m.rows) :
    homogeneous (applyAffine m p) r =
      ∑ c ∈ Finset.range m.cols, m.entry r c * homogeneous p c := by
  have hcols := isAffine_cols_pos h
  unfold homogeneous
  rw [length_applyAffine]
  by_cases hlast : r = m.rows - 1
  · obtain ⟨n, hn⟩ : ∃ n, m.cols = n + 1 := ⟨m.cols - 1, by omega⟩
    have hzero : ∀ c ∈ Finset.range n, m.entry r c * homogeneous p c = 0 := by
      intro c hc
      have hc := Finset.mem_range.mp hc
      rw [hlast, entry_lastRow_rat h (by omega), if_neg (by omega), zero_mul]
    have hone : m.entry r n * homogeneous p n = 1 := by
      rw [hlast, entry_lastRow_rat h (by omega), if_pos hn.symm, homogeneous, if_pos (by omega),
        mul_one]
    rw [if_pos hlast]
    show (1 : Rat) = ∑ c ∈ Finset.range m.cols, m.entry r c * homogeneous p c
    rw [hn, Finset.sum_range_succ, Finset.sum_eq_zero hzero, hone, zero_add]
  · rw [if_neg hlast, getD_applyAffine (by omega)]
    exact affineCoordinate_rat hlen hcols r

/-- The product of two matrices maps a point as the matrices do one after the other. -/
theorem applyAffine_product (h₁ : m₁.isAffine = true) (hfit : m₂.cols = m₁.rows)
    (hlen : p.length = m₁.cols - 1) :
    applyAffine (product m₂ m₁) p = applyAffine m₂ (applyAffine m₁ p) := by
  have hcols := isAffine_cols_pos h₁
  have hrows := isAffine_rows_pos h₁
  have hmid : (applyAffine m₁ p).length = m₂.cols - 1 := by rw [length_applyAffine, hfit]
  unfold applyAffine
  rw [rows_product]
  refine List.map_congr_left fun r hr => ?_
  have hr := List.mem_range.mp hr
  have hentry : ∀ c ∈ Finset.range m₁.cols,
      (product m₂ m₁).entry r c * homogeneous p c =
        ∑ k ∈ Finset.range m₂.cols, m₂.entry r k * (m₁.entry k c * homogeneous p c) := by
    intro c hc
    rw [entry_product (by omega) (Finset.mem_range.mp hc), dot_rat, Finset.sum_mul]
    exact Finset.sum_congr rfl fun k _ => mul_assoc _ _ _
  have hmiddle : ∀ k ∈ Finset.range m₂.cols,
      m₂.entry r k * homogeneous (applyAffine m₁ p) k =
        ∑ c ∈ Finset.range m₁.cols, m₂.entry r k * (m₁.entry k c * homogeneous p c) := by
    intro k hk
    rw [homogeneous_applyAffine h₁ hlen (hfit ▸ Finset.mem_range.mp hk), Finset.mul_sum]
  calc affineCoordinate (product m₂ m₁) p r
      = ∑ c ∈ Finset.range m₁.cols, (product m₂ m₁).entry r c * homogeneous p c :=
        affineCoordinate_rat (m := product m₂ m₁) hlen hcols r
    _ = ∑ k ∈ Finset.range m₂.cols, m₂.entry r k * homogeneous (applyAffine m₁ p) k := by
        rw [Finset.sum_congr rfl hentry, Finset.sum_congr rfl hmiddle, Finset.sum_comm]
    _ = affineCoordinate m₂ (applyAffine m₁ p) r :=
        (affineCoordinate_rat hmid (by omega) r).symm

theorem isIdentity_coefficients (h : m.isIdentity = true) :
    (coefficients m).isIdentity = true := by
  have hsquare := rows_of_isIdentity h
  simp only [DenseMatrix.isIdentity, isSquare, Bool.and_eq_true, beq_iff_eq, List.all_eq_true,
    List.mem_range]
  refine ⟨congrArg (· - 1) hsquare, fun r hr c hc => ?_⟩
  have hr : r < m.rows - 1 := hr
  have hc : c < m.cols - 1 := hc
  rw [entry_coefficients hr hc]
  have hsame := same_of_isIdentity h (r := r) (c := c) (by omega) (by omega)
  exact same_rat_iff.mp hsame

end Affine

section Advancing

variable {κ : Type} [Kernel κ Rat] {a b s t : Transform κ Rat} {id : NodeId} {wanted : Bool}
  {e e' : Evaluation Rat}

/-- An evaluation without the derivative, unless that has been asked for. -/
def observe (wanted : Bool) (e : Evaluation Rat) : Evaluation Rat :=
  ⟨e.point, if wanted then e.jacobian else none⟩

/-- What has been reached before a step, with the step behind it. -/
def advance (wanted : Bool) (e : Evaluation Rat) (t : Transform κ Rat) :
    Except TransformError (Evaluation Rat) :=
  (fun result => observe wanted (result.after e)) <$> t.evaluate e.point wanted

/-- An evaluation that a transform of `n` coordinates can follow. -/
structure Reached (wanted : Bool) (n : Nat) (e : Evaluation Rat) : Prop where
  point : e.point.length = n
  rows : ∀ j, e.jacobian = some j → j.rows = n
  unwanted : wanted = false → e.jacobian = none

/-- What is reached by a step is followed by a transform of as many coordinates. -/
theorem reached_of_advance (h : advance wanted e t = .ok e') :
    Reached wanted t.targetDimensions e' := by
  obtain ⟨result, hresult, rfl⟩ := map_eq_ok_iff.mp h
  have hshape := shaped_of_evaluate hresult
  refine ⟨hshape.point, fun j hj => ?_, fun hwanted => by simp [observe, hwanted]⟩
  cases wanted with
  | false => cases hj
  | true =>
      obtain ⟨j₂, j₁, hj₂, -, rfl⟩ := Option.map₂_eq_some_iff.mp hj
      exact hshape.rows j₂ hj₂

/-- The chain rule may be applied from either end. -/
theorem observe_after_after {final middle : Evaluation Rat}
    (h : ∀ j₂ j₁, final.jacobian = some j₂ → middle.jacobian = some j₁ → j₂.cols = j₁.rows) :
    observe wanted (final.after (observe wanted (middle.after e))) =
      observe wanted ((final.after middle).after e) := by
  cases wanted with
  | false => rfl
  | true =>
      simp only [observe, Evaluation.after, if_true, Evaluation.mk.injEq, true_and]
      cases hj₂ : final.jacobian with
      | none => simp
      | some j₂ =>
          cases hj₁ : middle.jacobian with
          | none => simp
          | some j₁ =>
              cases e.jacobian with
              | none => simp
              | some j => simp [product_assoc (h j₂ j₁ hj₂ hj₁)]

/-- A chain advances an evaluation by one part after the other. -/
theorem advance_chain (hfit : a.targetDimensions = b.sourceDimensions) :
    advance wanted e (chain id a b) = (do
      let middle ← advance wanted e a
      advance wanted middle b) := by
  unfold advance
  rw [evaluate_chain_of_fit hfit]
  cases hmiddle : a.evaluate e.point wanted with
  | error error => rfl
  | ok middle =>
      simp only [ok_bind, map_ok]
      show _ = (fun result => observe wanted (result.after (observe wanted (middle.after e)))) <$>
        b.evaluate middle.point wanted
      cases hfinal : b.evaluate middle.point wanted with
      | error error => rfl
      | ok final =>
          refine congrArg Except.ok (observe_after_after fun j₂ j₁ hj₂ hj₁ => ?_).symm
          rw [(shaped_of_evaluate hfinal).cols j₂ hj₂, (shaped_of_evaluate hmiddle).rows j₁ hj₁,
            hfit]

/-- A coherent transform advances an evaluation as its steps do. -/
theorem advance_eq_foldlM (h : t.Coherent) (e : Evaluation Rat) :
    advance wanted e t = t.steps.foldlM (advance wanted) e := by
  induction t generalizing e with
  | chain id a b iha ihb =>
      obtain ⟨ha, hb, hfit⟩ := h
      rw [advance_chain hfit, Transform.steps, List.foldlM_append, iha ha]
      exact congrArg (_ >>= ·) (funext (ihb hb))
  | _ => exact (bind_pure _).symm

/-- A linear step never fails on what has been reached. -/
theorem advance_linear {matrix : DenseMatrix Rat} (h : Reached wanted (matrix.cols - 1) e) :
    advance wanted e (linear id matrix : Transform κ Rat) =
      .ok ⟨applyAffine matrix e.point, e.jacobian.map (product (coefficients matrix))⟩ := by
  unfold advance
  rw [evaluate_linear_eq_ok h.point, map_ok]
  cases wanted with
  | false => simp [observe, Evaluation.after, h.unwanted rfl]
  | true => simp [observe, Evaluation.after]

/-- Two linear steps advance an evaluation as their product does. -/
theorem advance_product {id₁ id₂ : NodeId} {m₁ m₂ : DenseMatrix Rat} (h₁ : m₁.isAffine = true)
    (hfit : m₂.cols = m₁.rows) (h : Reached wanted (m₁.cols - 1) e) :
    advance wanted e (linear id (product m₂ m₁) : Transform κ Rat) = (do
      let middle ← advance wanted e (linear id₁ m₁ : Transform κ Rat)
      advance wanted middle (linear id₂ m₂ : Transform κ Rat)) := by
  have hfirst : advance wanted e (linear id₁ m₁ : Transform κ Rat) = _ := advance_linear h
  have hboth : advance wanted e (linear id (product m₂ m₁) : Transform κ Rat) = _ :=
    advance_linear h
  have hmiddle := reached_of_advance hfirst
  rw [targetDimensions, ← hfit] at hmiddle
  have hcoefficients : (coefficients m₂).cols = (coefficients m₁).rows := congrArg (· - 1) hfit
  have hjacobian : product (coefficients (product m₂ m₁)) =
      product (coefficients m₂) ∘ product (coefficients m₁) := by
    rw [coefficients_product h₁ hfit]
    exact funext fun j => product_assoc hcoefficients
  rw [hfirst, ok_bind, advance_linear hmiddle, hboth, applyAffine_product h₁ hfit h.point,
    hjacobian, Option.map_map]

/-- An identity step changes nothing. -/
theorem advance_of_isIdentity (hs : s.isIdentity = true) (h : Reached wanted s.sourceDimensions e) :
    advance wanted e s = .ok e := by
  cases s with
  | linear id matrix =>
      have hid : matrix.isIdentity = true := hs
      have hpoint := eq_of_samePoint_rat (samePoint_of_isIdentity hid h.point)
      have hjacobian : e.jacobian.map (product (coefficients matrix)) = e.jacobian := by
        cases hj : e.jacobian with
        | none => rfl
        | some j =>
            exact congrArg some (identity_product_rat (isIdentity_coefficients hid)
              (h.rows j hj).symm)
      rw [advance_linear h, hpoint, hjacobian]
  | _ => cases hs

end Advancing

section Folding

variable {κ : Type} [Kernel κ Rat] {s t : Transform κ Rat} {wanted : Bool} {n m l : Nat}
  {e e' : Evaluation Rat} {steps folded stack : List (Transform κ Rat)}
  {options : AssemblyOptions}

theorem reached_of_foldlM (hsteps : Sequenced n steps m) (h : Reached wanted n e)
    (hrun : steps.foldlM (advance wanted) e = .ok e') : Reached wanted m e' := by
  induction steps generalizing n e with
  | nil =>
      obtain rfl : n = m := hsteps
      obtain rfl : e = e' := Except.ok.inj hrun
      exact h
  | cons s steps ih =>
      obtain ⟨-, -, hsteps⟩ := hsteps
      rw [List.foldlM_cons] at hrun
      obtain ⟨middle, hmiddle, hrun⟩ := bind_eq_ok_iff.mp hrun
      exact ih hsteps (reached_of_advance hmiddle) hrun

/-- One more step on the stack, merged or not, advances what the stack has reached. -/
theorem merge_advances (hstack : Sequenced n stack.reverse l) (hs : Spans l s m)
    (h : Reached wanted n e) :
    (merge options stack s).reverse.foldlM (advance wanted) e =
      (stack.reverse ++ [s]).foldlM (advance wanted) e := by
  rcases merge_cases options stack s with
    ⟨hmerge, -, -⟩ | ⟨hfold, id, previous, earlier, id', next, rfl, rfl⟩
  · rw [hmerge, List.reverse_cons]
  · obtain ⟨haffine, hfit⟩ := product_fits hstack hs
    rw [List.reverse_cons] at hstack
    obtain ⟨l', hearlier, -, rfl, -⟩ := sequenced_append.mp hstack
    rw [merge_linear hfold, List.reverse_cons, List.reverse_cons, List.append_assoc,
      List.foldlM_append, List.foldlM_append]
    -- both runs come to the two linear steps with the same evaluation
    cases hrun : earlier.reverse.foldlM (advance wanted) e with
    | error error => rfl
    | ok middle =>
        have hmiddle : Reached wanted (previous.cols - 1) middle :=
          reached_of_foldlM hearlier h hrun
        simp only [ok_bind, List.cons_append, List.nil_append, List.foldlM_cons,
          List.foldlM_nil, bind_pure]
        exact advance_product haffine hfit hmiddle

/-- Merged steps advance an evaluation as the steps do. -/
theorem merged_advances (hsteps : Sequenced n steps m) (h : Reached wanted n e) :
    (merged options steps).foldlM (advance wanted) e = steps.foldlM (advance wanted) e := by
  induction steps using List.reverseRecOn generalizing m with
  | nil => rfl
  | append_singleton steps s ih =>
      obtain ⟨l, hsteps, hs⟩ := sequenced_append.mp hsteps
      obtain ⟨-, hmerged⟩ := foldSteps_eq_ok options hsteps
      rw [← List.reverse_reverse (merged options steps)] at hmerged
      rw [merged_snoc, merge_advances hmerged (sequenced_singleton.mp hs) h, List.reverse_reverse,
        List.foldlM_append, List.foldlM_append, ih hsteps]

variable (options) in
/-- Folded steps advance an evaluation as the steps do. -/
theorem foldSteps_advances (hsteps : Sequenced n steps m) :
    ∃ folded, foldSteps options steps = .ok folded ∧ Sequenced n folded m ∧
      ∀ wanted e, Reached wanted n e →
        folded.foldlM (advance wanted) e = steps.foldlM (advance wanted) e := by
  obtain ⟨hfold, hmerged⟩ := foldSteps_eq_ok options hsteps
  exact ⟨merged options steps, hfold, hmerged, fun _ _ he => merged_advances hsteps he⟩

variable (options) in
/-- Steps advance an evaluation as they do without the identities. -/
theorem elideSteps_advances (hsteps : Sequenced n steps m) (h : Reached wanted n e) :
    (elideSteps options steps).foldlM (advance wanted) e = steps.foldlM (advance wanted) e := by
  unfold elideSteps
  split
  · induction steps generalizing n e with
    | nil => rfl
    | cons s steps ih =>
        obtain ⟨hs, rfl, hsteps⟩ := hsteps
        rw [List.filter_cons, List.foldlM_cons]
        split
        · rw [List.foldlM_cons]
          cases hmiddle : advance wanted e s with
          | error error => rfl
          | ok middle => exact ih hsteps (reached_of_advance hmiddle)
        · rename_i hid
          have hid : s.isIdentity = true := by simpa using hid
          have hkept := advance_of_isIdentity hid h
          rw [hkept, ok_bind]
          exact ih hsteps (reached_of_advance hkept)
  · rfl

/-- What is made of folded steps advances an evaluation as they do. -/
theorem advance_of_madeOf (ht : t.Coherent) (hsource : t.sourceDimensions = n)
    (hmade : MadeOf options n folded t) (hfolded : Sequenced n folded m)
    (h : Reached wanted n e) :
    advance wanted e t = folded.foldlM (advance wanted) e := by
  have helided := elideSteps_advances options hfolded h
  rcases hmade with hmade | ⟨hnone, rfl⟩
  · rw [advance_eq_foldlM ht, hmade, helided]
  · have hid : (linear none (DenseMatrix.identity (n + 1)) : Transform κ Rat).isIdentity = true :=
      isIdentity_identity (n + 1)
    rw [hnone] at helided
    rw [← helided]
    exact advance_of_isIdentity hid (hsource ▸ h)

end Folding

section Concatenating

variable {κ : Type} [Kernel κ Rat] {a b : Transform κ Rat} {wanted : Bool} {n : Nat}
  {p : List Rat}

/-- A point before the first step, with an identity as the derivative. -/
def start (wanted : Bool) (n : Nat) (p : List Rat) : Evaluation Rat :=
  observe wanted ⟨p, some (DenseMatrix.identity n)⟩

theorem reached_start (h : p.length = n) : Reached wanted n (start wanted n p) := by
  refine ⟨h, fun j hj => ?_, fun hwanted => by simp [start, observe, hwanted]⟩
  cases wanted with
  | false => cases hj
  | true =>
      cases hj
      rfl

/-- An evaluation is an advance from the start. -/
theorem advance_start (t : Transform κ Rat) (p : List Rat) :
    advance wanted (start wanted t.sourceDimensions p) t =
      observe wanted <$> t.evaluate p wanted := by
  unfold advance
  show (fun result => observe wanted (result.after (start wanted t.sourceDimensions p))) <$>
    t.evaluate p wanted = _
  cases hresult : t.evaluate p wanted with
  | error error => rfl
  | ok result =>
      refine congrArg Except.ok ?_
      cases wanted with
      | false => rfl
      | true =>
          simp only [observe, start, Evaluation.after, if_true, Evaluation.mk.injEq, true_and]
          cases hj : result.jacobian with
          | none => rfl
          | some j =>
              exact congrArg some (product_identity_rat (isIdentity_identity _)
                ((shaped_of_evaluate hresult).cols j hj))

theorem observe_true (x : Except TransformError (Evaluation Rat)) : observe true <$> x = x :=
  id_map x

theorem apply_eq_observe (t : Transform κ Rat) (p : List Rat) :
    t.apply p = Evaluation.point <$> (observe false <$> t.evaluate p false) := by
  rw [apply_eq_map]
  cases t.evaluate p false with
  | error error => rfl
  | ok result => rfl

/-- In exact arithmetic a concatenation, whatever it simplifies, gives the outcome of the second
part at what the first part gives, and its derivative is that of the chain rule. -/
theorem standard_concatenate_exact (options : AssemblyOptions) (ha : a.Coherent) (hb : b.Coherent)
    (hfit : a.targetDimensions = b.sourceDimensions) :
    ∃ t, (Assembler.standard options).concatenate a b = .ok t ∧ ∀ p,
      t.evaluate p true = (do
        let middle ← a.evaluate p true
        let final ← b.evaluate middle.point true
        return final.after middle) ∧
      t.apply p = a.apply p >>= b.apply := by
  have hchain : (chain none a b : Transform κ Rat).Coherent := ⟨ha, hb, hfit⟩
  obtain ⟨folded, hfold, hfolded, hadvance⟩ := foldSteps_advances options hchain.sequenced
  have hne := foldSteps_ne_nil (steps_ne_nil _) hfold
  obtain ⟨t, ht, hcoherent, hsource, hmade⟩ :=
    concatenateWith_coherent ha hb hfit hfold hfolded hne
  have hsame : ∀ wanted p, observe wanted <$> t.evaluate p wanted =
      observe wanted <$> (chain none a b).evaluate p wanted := by
    intro wanted p
    by_cases hlen : p.length = a.sourceDimensions
    · have hstart : Reached wanted a.sourceDimensions (start wanted a.sourceDimensions p) :=
        reached_start hlen
      calc observe wanted <$> t.evaluate p wanted
          = advance wanted (start wanted a.sourceDimensions p) t := by
            rw [← advance_start, hsource]
        _ = folded.foldlM (advance wanted) (start wanted a.sourceDimensions p) :=
            advance_of_madeOf hcoherent hsource hmade hfolded hstart
        _ = advance wanted (start wanted a.sourceDimensions p) (chain none a b) := by
            rw [advance_eq_foldlM hchain]
            exact hadvance wanted _ hstart
        _ = observe wanted <$> (chain none a b).evaluate p wanted := advance_start _ p
    · rw [evaluate_of_length_ne (hsource ▸ hlen),
        evaluate_of_length_ne (t := chain none a b) hlen, hsource]
      rfl
  refine ⟨t, ht, fun p => ⟨?_, ?_⟩⟩
  · calc t.evaluate p true = observe true <$> t.evaluate p true := (observe_true _).symm
      _ = (chain none a b).evaluate p true := by rw [hsame, observe_true]
      _ = _ := evaluate_chain_of_fit hfit
  · calc t.apply p = (chain none a b).apply p := by
          rw [apply_eq_observe, apply_eq_observe, hsame]
      _ = a.apply p >>= b.apply := apply_chain hfit

end Concatenating

section Example

/-- Kernels over exact scalars: the product of two coordinates. -/
inductive ExactKernel where
  | multiply

instance : Kernel ExactKernel Rat where
  name
    | .multiply => "multiply"
  sourceDimensions
    | .multiply => 2
  targetDimensions
    | .multiply => 1
  evaluate
    | .multiply, point, wanted =>
        let gradient := DenseMatrix.ofFn 1 2 fun _ c => point.getD (1 - c) 0
        .ok ⟨[point.getD 0 0 * point.getD 1 0], if wanted then some gradient else none⟩
  inverse?
    | .multiply => none

/-- Scales two coordinates and shifts the first one. -/
def scaledPair : Transform ExactKernel Rat :=
  linear none ⟨3, 3, #[2, 0, 1, 0, 1 / 2, 0, 0, 0, 1], by decide +kernel⟩

/-- Undoes the scaling and multiplies the two coordinates, with three times the product plus one as
the result. -/
def unscaledProduct : Transform ExactKernel Rat :=
  chain none (linear none ⟨3, 3, #[1 / 2, 0, -1 / 2, 0, 2, 0, 0, 0, 1], by decide +kernel⟩)
    (chain none (kernel none .multiply)
      (linear none ⟨2, 2, #[3, 1, 0, 1], by decide +kernel⟩))

/-- The first two steps are folded into an identity, which is left out. -/
theorem concatenate_unscaledProduct :
    ∃ t, (Assembler.standard ⟨true, true⟩).concatenate scaledPair unscaledProduct = .ok t ∧
      t.evaluate [3, 5] true = (do
        let middle ← scaledPair.evaluate [3, 5] true
        let final ← unscaledProduct.evaluate middle.point true
        return final.after middle) ∧
      t.apply [3, 5] = scaledPair.apply [3, 5] >>= unscaledProduct.apply := by
  obtain ⟨t, ht, hsame⟩ := standard_concatenate_exact ⟨true, true⟩ (a := scaledPair)
    (b := unscaledProduct) (by decide +kernel) (by decide +kernel) (by decide +kernel)
  exact ⟨t, ht, hsame [3, 5]⟩

end Example

end Transform
end SeparableTransforms
