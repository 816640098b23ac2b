import SeparableTransforms.Proofs.Outcome
import SeparableTransforms.Proofs.Transform.Affine

/-!
# Evaluating node by node

An evaluation that succeeds gives a point and a derivative of the right sizes, so
in a well-formed transform only a kernel can make an evaluation fail: a node maps
a point exactly if its parts do, and the chains of a transform run through its
steps.

A transform is *extensional* if it maps the same points to the same points.  It
is if its kernels are.  It is *stable* if it also fails alike at the same points.
-/

namespace SeparableTransforms
namespace Transform

open Outcome

section Admissible

variable {κ α : Type} [Kernel κ α] [Scalar α]

instance decidableWellFormed : (t : Transform κ α) → Decidable t.WellFormed
  | linear _ m => inferInstanceAs (Decidable (m.isAffine = true ∧ 2 ≤ m.cols))
  | chain _ a b =>
      have := decidableWellFormed a
      have := decidableWellFormed b
      inferInstanceAs (Decidable (_ ∧ _ ∧ _))
  | passThrough _ _ t _ => decidableWellFormed t
  | kernel _ k => inferInstanceAs (Decidable (0 < Kernel.sourceDimensions k))

/-- A well-formed transform all of whose kernels satisfy a predicate. -/
def Admissible (P : κ → Prop) : Transform κ α → Prop
  | linear _ m => m.isAffine = true ∧ 2 ≤ m.cols
  | chain _ a b => a.Admissible P ∧ b.Admissible P ∧ a.targetDimensions = b.sourceDimensions
  | passThrough _ _ t _ => t.Admissible P
  | kernel _ k => 0 < Kernel.sourceDimensions k ∧ P k

theorem admissible_iff {P : κ → Prop} {t : Transform κ α} :
    t.Admissible P ↔ t.WellFormed ∧ ∀ node ∈ t.kernels, P node.2 := by
  induction t with
  | linear id m => simp [Admissible, WellFormed, kernels]
  | chain id a b iha ihb =>
      simp only [Admissible, WellFormed, kernels, List.mem_append, iha, ihb, or_imp, forall_and]
      constructor
      · rintro ⟨⟨ha, hka⟩, ⟨hb, hkb⟩, hfit⟩
        exact ⟨⟨ha, hb, hfit⟩, hka, hkb⟩
      · rintro ⟨⟨ha, hb, hfit⟩, hka, hkb⟩
        exact ⟨⟨ha, hka⟩, ⟨hb, hkb⟩, hfit⟩
  | passThrough id k t n ih => simpa only [Admissible, WellFormed, kernels] using ih
  | kernel id k => simp [Admissible, WellFormed, kernels]

theorem Admissible.wellFormed {P : κ → Prop} {t : Transform κ α} (h : t.Admissible P) :
    t.WellFormed :=
  (admissible_iff.mp h).1

theorem WellFormed.admissible {t : Transform κ α} (h : t.WellFormed) :
    t.Admissible fun _ => True :=
  admissible_iff.mpr ⟨h, fun _ _ => trivial⟩

theorem WellFormed.sourceDimensions_pos {t : Transform κ α} (h : t.WellFormed) :
    0 < t.sourceDimensions := by
  induction t with
  | linear id m =>
      have := h.2
      simp only [sourceDimensions]
      omega
  | chain id a b iha ihb => exact iha h.1
  | passThrough id k t n ih =>
      have := ih h
      simp only [sourceDimensions]
      omega
  | kernel id k => exact h

end Admissible

section Shapes

variable {κ α : Type} [Kernel κ α]

theorem checkJacobian_eq_ok {k : κ} {j : DenseMatrix α} {u : Unit}
    (h : Kernel.checkJacobian k j = .ok u) :
    j.rows = Kernel.targetDimensions k ∧ j.cols = Kernel.sourceDimensions k := by
  unfold Kernel.checkJacobian at h
  split at h
  · cases h
  · rename_i hrows
    split at h
    · cases h
    · rename_i hcols
      exact ⟨not_not.mp hrows, not_not.mp hcols⟩

/-- An evaluation of the declared sizes. -/
structure Shaped (t : Transform κ α) (e : Evaluation α) : Prop where
  point : e.point.length = t.targetDimensions
  rows : ∀ j, e.jacobian = some j → j.rows = t.targetDimensions
  cols : ∀ j, e.jacobian = some j → j.cols = t.sourceDimensions

/-- A kernel whose result is accepted gives the declared sizes. -/
theorem shaped_kernel {id : NodeId} {k : κ} {p : List α} {derivative : Bool} {e : Evaluation α}
    (h : Kernel.evaluateChecked k p derivative = .ok e) :
    Shaped (kernel id k : Transform κ α) e := by
  unfold Kernel.evaluateChecked at h
  obtain ⟨result, hresult, h⟩ := bind_eq_ok_iff.mp h
  by_cases hpoint : result.point.length = Kernel.targetDimensions k
  · rw [if_neg (not_not.mpr hpoint)] at h
    cases hj : result.jacobian with
    | none =>
        simp only [hj, pure_eq_ok, Except.ok.injEq] at h
        subst h
        exact ⟨hpoint, by simp [hj], by simp [hj]⟩
    | some j =>
        simp only [hj, pure_eq_ok] at h
        obtain ⟨_, hcheck, h⟩ := bind_eq_ok_iff.mp h
        cases h
        have hshape := checkJacobian_eq_ok hcheck
        refine ⟨hpoint, ?_, ?_⟩ <;> intro j' hj' <;> rw [hj] at hj' <;> cases hj'
        · exact hshape.1
        · exact hshape.2
  · rw [if_pos hpoint] at h
    cases h

variable [Scalar α] {t : Transform κ α} {p v : List α}

/-- Every node checks how many coordinates it is given. -/
theorem length_of_evaluate {derivative : Bool} {e : Evaluation α}
    (h : t.evaluate p derivative = .ok e) : p.length = t.sourceDimensions := by
  unfold evaluate at h
  split at h
  · cases h
  · rename_i hlen
    simpa using hlen

/-- A point of another length is refused. -/
theorem evaluate_of_length_ne {derivative : Bool} (h : p.length ≠ t.sourceDimensions) :
    t.evaluate p derivative = .error (.dimensionMismatch .point t.sourceDimensions p.length) := by
  unfold evaluate
  rw [if_pos h]

section Nodes

variable {id : NodeId} {derivative : Bool}

/-- A linear node has the linear part of its matrix as derivative. -/
theorem evaluate_linear {m : DenseMatrix α} (hlen : p.length = m.cols - 1) :
    (linear id m : Transform κ α).evaluate p derivative = (do
      let jacobian ←
        if derivative then some <$> TransformError.ofMatrix (linearPart m) else pure none
      return ⟨applyAffine m p, jacobian⟩) :=
  if_neg (not_not.mpr hlen)

/-- A chain multiplies the derivatives of its parts if both have one. -/
theorem evaluate_chain {a b : Transform κ α} (hlen : p.length = a.sourceDimensions) :
    (chain id a b).evaluate p derivative = (do
      let middle ← a.evaluate p derivative
      let final ← b.evaluate middle.point derivative
      match final.jacobian, middle.jacobian with
      | some j₂, some j₁ =>
          let j ← TransformError.ofMatrix (j₂.multiply j₁)
          return ⟨final.point, some j⟩
      | _, _ => return ⟨final.point, none⟩) :=
  if_neg (not_not.mpr hlen)

theorem evaluate_passThrough {k n : Nat} {inner : Transform κ α}
    (hlen : p.length = k + inner.sourceDimensions + n) :
    (passThrough id k inner n).evaluate p derivative = (do
      let result ← inner.evaluate ((p.drop k).take inner.sourceDimensions) derivative
      return ⟨p.take k ++ result.point ++ p.drop (k + inner.sourceDimensions),
        result.jacobian.map fun j =>
          surround k j n inner.targetDimensions inner.sourceDimensions⟩) :=
  if_neg (not_not.mpr hlen)

theorem evaluate_kernel {k : κ} (hlen : p.length = Kernel.sourceDimensions k) :
    (kernel id k : Transform κ α).evaluate p derivative =
      Kernel.evaluateChecked k p derivative :=
  if_neg (not_not.mpr hlen)

end Nodes

theorem shape_of_submatrix {m j : DenseMatrix α} {rows cols : List Nat}
    (h : m.submatrix rows cols = .ok j) : j.rows = rows.length ∧ j.cols = cols.length := by
  unfold DenseMatrix.submatrix DenseMatrix.selectRows DenseMatrix.selectColumns at h
  split at h
  · rename_i selected hselected
    split at hselected
    · cases hselected
    · cases hselected
      split at h
      · cases h
      · cases h
        exact ⟨rfl, rfl⟩
  · cases h

theorem shape_of_multiply {a b j : DenseMatrix α} (h : a.multiply b = .ok j) :
    j.rows = a.rows ∧ j.cols = b.cols := by
  unfold DenseMatrix.multiply at h
  split at h
  · cases h
    exact ⟨rfl, rfl⟩
  · cases h

theorem eq_ok_of_ofMatrix {β : Type} {x : Except MatrixError β} {b : β}
    (h : TransformError.ofMatrix x = .ok b) : x = .ok b := by
  cases x with
  | error e => cases h
  | ok a =>
      cases h
      rfl

/-- A linear node gives the declared sizes. -/
theorem shaped_linear {id : NodeId} {m : DenseMatrix α} {derivative : Bool} {e : Evaluation α}
    (h : (linear id m : Transform κ α).evaluate p derivative = .ok e) :
    Shaped (linear id m : Transform κ α) e := by
  rw [evaluate_linear (length_of_evaluate h)] at h
  cases derivative with
  | false =>
      cases h
      exact ⟨length_applyAffine _ _, by simp, by simp⟩
  | true =>
      obtain ⟨jacobian, hjacobian, h⟩ := bind_eq_ok_iff.mp h
      obtain ⟨j, hj, rfl⟩ := map_eq_ok_iff.mp hjacobian
      cases h
      have hshape := shape_of_submatrix (eq_ok_of_ofMatrix hj)
      simp only [List.length_range] at hshape
      refine ⟨length_applyAffine _ _, ?_, ?_⟩ <;> intro j' hj' <;> cases hj'
      · exact hshape.1
      · exact hshape.2

/-- An evaluation gives the declared sizes. -/
theorem shaped_of_evaluate {derivative : Bool} {e : Evaluation α}
    (h : t.evaluate p derivative = .ok e) : Shaped t e := by
  have hlen := length_of_evaluate h
  induction t generalizing p e with
  | linear id m => exact shaped_linear h
  | chain id a b iha ihb =>
      have hlen : p.length = a.sourceDimensions := hlen
      rw [evaluate_chain hlen] at h
      obtain ⟨middle, hmiddle, h⟩ := bind_eq_ok_iff.mp h
      obtain ⟨final, hfinal, h⟩ := bind_eq_ok_iff.mp h
      have ha := iha hmiddle (length_of_evaluate hmiddle)
      have hb := ihb hfinal (length_of_evaluate hfinal)
      split at h
      · rename_i j₂ j₁ hj₂ hj₁
        obtain ⟨j, hj, h⟩ := bind_eq_ok_iff.mp h
        cases h
        have hshape := shape_of_multiply (eq_ok_of_ofMatrix hj)
        refine ⟨hb.point, ?_, ?_⟩ <;> intro j' hj' <;> cases hj'
        · exact hshape.1.trans (hb.rows j₂ hj₂)
        · exact hshape.2.trans (ha.cols j₁ hj₁)
      · cases h
        exact ⟨hb.point, by simp, by simp⟩
  | passThrough id k inner n ih =>
      rw [evaluate_passThrough hlen] at h
      obtain ⟨result, hresult, h⟩ := bind_eq_ok_iff.mp h
      have hinner := ih hresult (length_of_evaluate hresult)
      cases h
      simp only [sourceDimensions] at hlen
      refine ⟨?_, ?_, ?_⟩
      · have := hinner.point
        simp [targetDimensions]
        omega
      · intro j hj
        obtain ⟨j', _, rfl⟩ := Option.map_eq_some_iff.mp hj
        rfl
      · intro j hj
        obtain ⟨j', _, rfl⟩ := Option.map_eq_some_iff.mp hj
        rfl
  | kernel id k =>
      rw [evaluate_kernel hlen] at h
      exact shaped_kernel h

end Shapes

section Apply

variable {κ α : Type} [Kernel κ α] [Scalar α] {t : Transform κ α} {p v : List α}

theorem apply_eq_map (t : Transform κ α) (p : List α) :
    t.apply p = Evaluation.point <$> t.evaluate p false :=
  rfl

theorem apply_of_length_ne (h : p.length ≠ t.sourceDimensions) :
    t.apply p = .error (.dimensionMismatch .point t.sourceDimensions p.length) := by
  rw [apply_eq_map, evaluate_of_length_ne h]
  rfl

theorem apply_eq_ok_iff : t.apply p = .ok v ↔ ∃ e, t.evaluate p false = .ok e ∧ e.point = v := by
  unfold apply
  cases t.evaluate p false with
  | error e => simp [Except.map]
  | ok e => simp [Except.map]

theorem length_of_apply (h : t.apply p = .ok v) : p.length = t.sourceDimensions := by
  obtain ⟨e, he, rfl⟩ := apply_eq_ok_iff.mp h
  exact length_of_evaluate he

theorem length_apply (h : t.apply p = .ok v) : v.length = t.targetDimensions := by
  obtain ⟨e, he, rfl⟩ := apply_eq_ok_iff.mp h
  exact (shaped_of_evaluate he).point

theorem apply_linear_iff {id : NodeId} {m : DenseMatrix α} :
    (linear id m : Transform κ α).apply p = .ok v ↔
      p.length = m.cols - 1 ∧ v = applyAffine m p := by
  constructor
  · intro h
    have hlen := length_of_apply h
    obtain ⟨e, he, rfl⟩ := apply_eq_ok_iff.mp h
    rw [evaluate_linear hlen] at he
    cases he
    exact ⟨hlen, rfl⟩
  · rintro ⟨hlen, rfl⟩
    exact apply_eq_ok_iff.mpr ⟨⟨applyAffine m p, none⟩, evaluate_linear hlen, rfl⟩

/-- A chain maps a point through its two parts. -/
theorem apply_chain_iff {id : NodeId} {a b : Transform κ α} (ht : (chain id a b).WellFormed) :
    (chain id a b).apply p = .ok v ↔ ∃ w, a.apply p = .ok w ∧ b.apply w = .ok v := by
  constructor
  · intro h
    have hlen : p.length = (chain id a b).sourceDimensions := length_of_apply h
    obtain ⟨e, he, rfl⟩ := apply_eq_ok_iff.mp h
    change p.length = a.sourceDimensions at hlen
    rw [evaluate_chain hlen] at he
    obtain ⟨middle, hmiddle, he⟩ := bind_eq_ok_iff.mp he
    obtain ⟨final, hfinal, he⟩ := bind_eq_ok_iff.mp he
    refine ⟨middle.point, apply_eq_ok_iff.mpr ⟨middle, hmiddle, rfl⟩,
      apply_eq_ok_iff.mpr ⟨final, hfinal, ?_⟩⟩
    split at he
    · obtain ⟨j, _, he⟩ := bind_eq_ok_iff.mp he
      cases he
      rfl
    · cases he
      rfl
  · rintro ⟨w, ha, hb⟩
    have hlen := length_of_apply ha
    obtain ⟨middle, hmiddle, rfl⟩ := apply_eq_ok_iff.mp ha
    obtain ⟨final, hfinal, rfl⟩ := apply_eq_ok_iff.mp hb
    have hfirst := shaped_of_evaluate hmiddle
    have hsecond := shaped_of_evaluate hfinal
    rw [apply_eq_ok_iff, evaluate_chain hlen]
    simp only [hmiddle, hfinal, ok_bind, pure_eq_ok]
    split
    · rename_i j₂ j₁ hj₂ hj₁
      -- a derivative that nobody asked for is multiplied all the same
      have hfit : j₂.cols = j₁.rows := by
        rw [hsecond.cols j₂ hj₂, hfirst.rows j₁ hj₁, ht.2.2]
      rw [DenseMatrix.multiply_eq hfit]
      exact ⟨_, rfl, rfl⟩
    · exact ⟨_, rfl, rfl⟩

/-- A pass-through maps the coordinates in the middle. -/
theorem apply_passThrough_iff {id : NodeId} {k n : Nat} :
    (passThrough id k t n).apply p = .ok v ↔
      p.length = k + t.sourceDimensions + n ∧
        ∃ w, t.apply ((p.drop k).take t.sourceDimensions) = .ok w ∧
          v = p.take k ++ w ++ p.drop (k + t.sourceDimensions) := by
  constructor
  · intro h
    obtain ⟨e, he, rfl⟩ := apply_eq_ok_iff.mp h
    have hlen := length_of_evaluate he
    rw [evaluate_passThrough hlen] at he
    obtain ⟨result, hresult, he⟩ := bind_eq_ok_iff.mp he
    cases he
    exact ⟨hlen, result.point, apply_eq_ok_iff.mpr ⟨result, hresult, rfl⟩, rfl⟩
  · rintro ⟨hlen, w, hw, rfl⟩
    obtain ⟨result, hresult, rfl⟩ := apply_eq_ok_iff.mp hw
    rw [apply_eq_ok_iff, evaluate_passThrough hlen]
    simp only [hresult, ok_bind, pure_eq_ok]
    exact ⟨_, rfl, rfl⟩

omit [Scalar α] in
/-- A kernel without a derivative is checked for the number of coordinates only. -/
theorem evaluateChecked_eq {k : κ} {image : List α}
    (h : Kernel.evaluate k p false = .ok ⟨image, none⟩) :
    Kernel.evaluateChecked k p false =
      if image.length = Kernel.targetDimensions k then .ok ⟨image, none⟩
      else .error (.dimensionMismatch .kernelOutput (Kernel.targetDimensions k) image.length) := by
  unfold Kernel.evaluateChecked
  rw [h]
  by_cases hlen : image.length = Kernel.targetDimensions k
  · simp [hlen]
  · simp [hlen, throw_eq_error]

omit [Scalar α] in
/-- A kernel's result of the declared sizes is accepted. -/
theorem evaluateChecked_eq_ok {k : κ} {e : Evaluation α} {derivative : Bool}
    (h : Kernel.evaluate k p derivative = .ok e)
    (hpoint : e.point.length = Kernel.targetDimensions k)
    (hjacobian : ∀ j, e.jacobian = some j →
      j.rows = Kernel.targetDimensions k ∧ j.cols = Kernel.sourceDimensions k) :
    Kernel.evaluateChecked k p derivative = .ok e := by
  unfold Kernel.evaluateChecked
  rw [h, ok_bind, if_neg (not_not.mpr hpoint)]
  cases hj : e.jacobian with
  | none => rfl
  | some j =>
      obtain ⟨hrows, hcols⟩ := hjacobian j hj
      simp [Kernel.checkJacobian, hrows, hcols]

theorem applyWithDerivative_eq_ok_iff {j : DenseMatrix α} :
    t.applyWithDerivative p = .ok (v, j) ↔ t.evaluate p true = .ok ⟨v, some j⟩ := by
  unfold applyWithDerivative
  cases t.evaluate p true with
  | error e => simp
  | ok e =>
      obtain ⟨point, jacobian⟩ := e
      cases jacobian with
      | none => simp [throw_eq_error]
      | some j' => simp

theorem derivative_of_evaluate {j : DenseMatrix α} (h : t.evaluate p true = .ok ⟨v, some j⟩) :
    t.derivative p = .ok j := by
  unfold derivative applyWithDerivative
  rw [h]
  rfl

theorem derivative_of_length_ne (h : p.length ≠ t.sourceDimensions) :
    t.derivative p = .error (.dimensionMismatch .point t.sourceDimensions p.length) := by
  unfold derivative applyWithDerivative
  rw [evaluate_of_length_ne h]
  rfl

/-- The identity of a node does not matter for what it computes. -/
theorem apply_kernel_eq (id id' : NodeId) (k : κ) (p : List α) :
    (kernel id k : Transform κ α).apply p = (kernel id' k : Transform κ α).apply p :=
  rfl

end Apply

section Extensional

variable {κ α : Type} [Kernel κ α] [Scalar α]

/-- The same points are mapped to the same points. -/
def Extensional (t : Transform κ α) : Prop :=
  ∀ p q v, SamePoint p q → t.apply p = .ok v → ∃ w, t.apply q = .ok w ∧ SamePoint v w

variable [LawfulScalar α] {t : Transform κ α}

/-- A transform whose kernels are extensional is extensional. -/
theorem extensional_of_kernels (ht : t.WellFormed)
    (hk : ∀ node ∈ t.kernels, (kernel node.1 node.2 : Transform κ α).Extensional) :
    t.Extensional := by
  induction t with
  | linear id m =>
      intro p q v hpq hv
      obtain ⟨hlen, rfl⟩ := apply_linear_iff.mp hv
      exact ⟨applyAffine m q, apply_linear_iff.mpr ⟨hpq.length_eq ▸ hlen, rfl⟩,
        samePoint_applyAffine hpq hlen⟩
  | chain id a b iha ihb =>
      intro p q v hpq hv
      obtain ⟨w, hw, hv⟩ := (apply_chain_iff ht).mp hv
      have hka := fun node hnode => hk node (List.mem_append_left _ hnode)
      have hkb := fun node hnode => hk node (List.mem_append_right _ hnode)
      obtain ⟨w', hw', hsame⟩ := iha ht.1 hka p q w hpq hw
      obtain ⟨v', hv', hsame'⟩ := ihb ht.2.1 hkb w w' v hsame hv
      exact ⟨v', (apply_chain_iff ht).mpr ⟨w', hw', hv'⟩, hsame'⟩
  | passThrough id k inner n ih =>
      intro p q v hpq hv
      obtain ⟨hlen, w, hw, rfl⟩ := apply_passThrough_iff.mp hv
      obtain ⟨w', hw', hsame⟩ := ih ht hk _ _ w ((hpq.drop k).take inner.sourceDimensions) hw
      exact ⟨_, apply_passThrough_iff.mpr ⟨hpq.length_eq ▸ hlen, w', hw', rfl⟩,
        ((hpq.take k).append hsame).append (hpq.drop _)⟩
  | kernel id k => exact hk (id, k) List.mem_cons_self

end Extensional

section Stable

variable {α : Type} [Scalar α]

/-- Either the same error, or points with the same coordinates. -/
inductive SameImage : Except TransformError (List α) → Except TransformError (List α) → Prop
  | error (e : TransformError) : SameImage (.error e) (.error e)
  | ok {p q : List α} (h : SamePoint p q) : SameImage (.ok p) (.ok q)

variable {x y : Except TransformError (List α)}

theorem SameImage.exists_ok {p : List α} (h : SameImage (.ok p) y) :
    ∃ q, y = .ok q ∧ SamePoint p q := by
  cases h with
  | ok hpq => exact ⟨_, rfl, hpq⟩

theorem SameImage.bind {f g : List α → Except TransformError (List α)} (h : SameImage x y)
    (hfg : ∀ p q, y = .ok q → SamePoint p q → SameImage (f p) (g q)) :
    SameImage (x >>= f) (y >>= g) := by
  cases h with
  | error e => exact .error e
  | ok hpq => exact hfg _ _ rfl hpq

theorem SameImage.map {f g : List α → List α} (h : SameImage x y)
    (hfg : ∀ p q, SamePoint p q → SamePoint (f p) (g q)) : SameImage (f <$> x) (g <$> y) := by
  cases h with
  | error e => exact .error e
  | ok hpq => exact .ok (hfg _ _ hpq)

variable {κ : Type} [Kernel κ α] {t : Transform κ α}

/-- The same points give the same outcome, be it a point or an error. -/
def Stable (t : Transform κ α) : Prop :=
  ∀ p q, SamePoint p q → SameImage (t.apply p) (t.apply q)

/-- A stable transform maps the same points to the same points. -/
theorem Stable.extensional (h : t.Stable) : t.Extensional := by
  intro p q v hpq hv
  have himage := h p q hpq
  rw [hv] at himage
  exact himage.exists_ok

/-- Points of a wrong length are all refused alike. -/
theorem stable_of_length
    (h : ∀ p q, p.length = t.sourceDimensions → q.length = t.sourceDimensions → SamePoint p q →
      SameImage (t.apply p) (t.apply q)) : t.Stable := by
  intro p q hpq
  by_cases hlen : p.length = t.sourceDimensions
  · exact h p q hlen (hpq.length_eq ▸ hlen) hpq
  · rw [apply_of_length_ne hlen, apply_of_length_ne (hpq.length_eq ▸ hlen), hpq.length_eq]
    exact .error _

end Stable

section Runs

variable {κ α : Type} [Kernel κ α] [Scalar α] {steps rest : List (Transform κ α)} {p v : List α}

/-- The steps map a point, one after the other. -/
def Runs : List (Transform κ α) → List α → List α → Prop
  | [], p, v => v = p
  | s :: rest, p, v => ∃ w, s.apply p = .ok w ∧ Runs rest w v

theorem runs_append : Runs (steps ++ rest) p v ↔ ∃ w, Runs steps p w ∧ Runs rest w v := by
  induction steps generalizing p with
  | nil => simp [Runs]
  | cons s steps ih =>
      simp only [List.cons_append, Runs, ih]
      constructor
      · rintro ⟨u, hu, w, hw, hv⟩
        exact ⟨w, ⟨u, hu, hw⟩, hv⟩
      · rintro ⟨w, ⟨u, hu, hw⟩, hv⟩
        exact ⟨u, hu, w, hw, hv⟩

theorem runs_singleton {s : Transform κ α} : Runs [s] p v ↔ s.apply p = .ok v := by
  simp [Runs]

/-- A transform maps a point through its steps. -/
theorem apply_iff_runs {t : Transform κ α} (ht : t.WellFormed) :
    t.apply p = .ok v ↔ Runs t.steps p v := by
  induction t generalizing p v with
  | chain id a b iha ihb =>
      rw [apply_chain_iff ht, steps, runs_append]
      simp only [iha ht.1, ihb ht.2.1]
  | _ => exact runs_singleton.symm

end Runs

end Transform
end SeparableTransforms
