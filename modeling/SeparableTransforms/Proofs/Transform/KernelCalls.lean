import SeparableTransforms.Kernels.Ellipsoid
import SeparableTransforms.Proofs.Kernels.Synthetic
import SeparableTransforms.Proofs.Transform.Collapsing

/-!
# Evaluation with and without the derivative

The flag that asks for the derivative is handed down to the kernels, and each of them
may answer in another way if it is set: it may fail, return a derivative of a wrong
shape, or return none.  Nothing else depends on the flag.

* If the kernels compute the same point with and without the flag, so does the whole
  tree, but a kernel may return a derivative that it has not been asked for.  The
  shape of this one is checked too, and if it is wrong the point is not computed.
* The products of a chain always fit, because its parts have been evaluated one after
  the other.  So the tree has a derivative exactly if every kernel that is called on
  the way returns one, however deep it lies, and without one of them it is only said
  that there is no derivative.

The kernels that are called on the way of a point, and the points that they are given,
are listed by `Transform.calls`.
-/

namespace SeparableTransforms

open Outcome

namespace Kernel

section Flag

variable {κ α : Type} [Kernel κ α]

/-- A matrix has the shape that the kernel declares for its derivative. -/
def IsDeclared (k : κ) (j : DenseMatrix α) : Prop :=
  j.rows = targetDimensions k ∧ j.cols = sourceDimensions k

/-- The kernel computes the same point with and without the flag. -/
def KeepsPoint (k : κ) : Prop :=
  ∀ q e, q.length = sourceDimensions k → evaluate k q true = .ok e →
    ∃ e', evaluate k q false = .ok e' ∧ e'.point = e.point

/-- Without the flag the kernel returns a derivative nevertheless, and its shape is refused. -/
def RefusedUnasked (k : κ) (q : List α) (error : TransformError) : Prop :=
  ∃ e j, evaluate k q false = .ok e ∧ e.jacobian = some j ∧ checkJacobian k j = .error error

/-- The kernel returns no derivative that it has not been asked for. -/
def WaitsForFlag (k : κ) : Prop :=
  ∀ q e, evaluate k q false = .ok e → e.jacobian = none

theorem WaitsForFlag.not_refused {k : κ} (h : WaitsForFlag k) {q : List α}
    {error : TransformError} : ¬RefusedUnasked k q error := by
  rintro ⟨e, j, he, hj, _⟩
  rw [h q e he] at hj
  cases hj

/-- With the flag set the kernel succeeds, and a derivative that it returns has the declared
shape. -/
def AnswersAt (k : κ) (q : List α) : Prop :=
  ∃ e, evaluate k q true = .ok e ∧ ∀ j, e.jacobian = some j → IsDeclared k j

/-- With the flag set the kernel returns a derivative. -/
def DifferentiatesAt (k : κ) (q : List α) : Prop :=
  ∃ e, evaluate k q true = .ok e ∧ e.jacobian.isSome = true

theorem evaluateChecked_eq_ok_iff {k : κ} {q : List α} {derivative : Bool} {e : Evaluation α} :
    evaluateChecked k q derivative = .ok e ↔
      evaluate k q derivative = .ok e ∧ e.point.length = targetDimensions k ∧
        ∀ j, e.jacobian = some j → IsDeclared k j := by
  constructor
  · intro h
    have hshape : Transform.Shaped (.kernel none k) e := Transform.shaped_kernel h
    refine ⟨?_, hshape.point, fun j hj => ⟨hshape.rows j hj, hshape.cols j hj⟩⟩
    unfold evaluateChecked at h
    obtain ⟨e', he', h⟩ := bind_eq_ok_iff.mp h
    -- the checks return nothing, and so what is returned is what has been checked
    by_cases hpoint : e'.point.length = targetDimensions k
    · rw [if_neg (not_not.mpr hpoint)] at h
      cases hj : e'.jacobian with
      | none =>
          simp only [hj, pure_eq_ok, Except.ok.injEq] at h
          exact h ▸ he'
      | some j =>
          simp only [hj, pure_eq_ok] at h
          obtain ⟨_, -, h⟩ := bind_eq_ok_iff.mp h
          cases h
          exact he'
    · rw [if_pos hpoint] at h
      cases h
  · rintro ⟨he, hpoint, hjacobian⟩
    exact Transform.evaluateChecked_eq_ok he hpoint hjacobian

theorem RefusedUnasked.unique {k : κ} {q : List α} {error error' : TransformError}
    (h : RefusedUnasked k q error) (h' : RefusedUnasked k q error') : error' = error := by
  obtain ⟨e, j, he, hj, hcheck⟩ := h
  obtain ⟨e', j', he', hj', hcheck'⟩ := h'
  obtain rfl : e' = e := Except.ok.inj (he'.symm.trans he)
  obtain rfl : j' = j := Option.some.inj (hj'.symm.trans hj)
  exact Except.error.inj (hcheck'.symm.trans hcheck)

/-- A kernel that computes the same point with and without the flag passes the checks without it as
well, unless it returns a derivative of a wrong shape. -/
theorem KeepsPoint.evaluateChecked_cases {k : κ} (h : KeepsPoint k) {q : List α} {e : Evaluation α}
    (hlen : q.length = sourceDimensions k) (he : evaluateChecked k q true = .ok e) :
    (∃ e', evaluateChecked k q false = .ok e' ∧ e'.point = e.point ∧
        ∀ error, ¬RefusedUnasked k q error) ∨
      ∃ error, evaluateChecked k q false = .error error ∧ RefusedUnasked k q error := by
  obtain ⟨hanswer, hpoint, -⟩ := evaluateChecked_eq_ok_iff.mp he
  obtain ⟨e', he', hsame⟩ := h q e hlen hanswer
  have hpoint' : e'.point.length = targetDimensions k := hsame ▸ hpoint
  unfold evaluateChecked
  rw [he', ok_bind, if_neg (not_not.mpr hpoint')]
  cases hj : e'.jacobian with
  | none =>
      refine .inl ⟨e', rfl, hsame, ?_⟩
      rintro error ⟨e₁, j, he₁, hj₁, -⟩
      obtain rfl : e₁ = e' := Except.ok.inj (he₁.symm.trans he')
      rw [hj] at hj₁
      cases hj₁
  | some j =>
      cases hcheck : checkJacobian k j with
      | error error => exact .inr ⟨error, by simp [hcheck], e', j, he', hj, hcheck⟩
      | ok =>
          refine .inl ⟨e', by simp [hcheck], hsame, ?_⟩
          rintro error ⟨e₁, j₁, he₁, hj₁, hcheck₁⟩
          obtain rfl : e₁ = e' := Except.ok.inj (he₁.symm.trans he')
          obtain rfl : j₁ = j := Option.some.inj (hj₁.symm.trans hj)
          rw [hcheck] at hcheck₁
          cases hcheck₁

/-- A kernel that only leaves out the derivative when it is not asked for one keeps its point. -/
theorem keepsPoint_of_unasked {k : κ} (h : ∀ q e, evaluate k q true = .ok e →
    evaluate k q false = .ok ⟨e.point, none⟩) : KeepsPoint k :=
  fun q e _ he => ⟨_, h q e he, rfl⟩

end Flag

end Kernel

namespace Transform

section Nodes

variable {κ α : Type} [Kernel κ α] [Scalar α] {id : NodeId} {a b inner : Transform κ α}
  {p : List α} {derivative : Bool} {e middle final : Evaluation α} {k n : Nat}

/-- A chain is evaluated by evaluating its parts. -/
theorem exists_parts_of_evaluate_chain (h : (chain id a b).evaluate p derivative = .ok e) :
    ∃ middle final, a.evaluate p derivative = .ok middle ∧
      b.evaluate middle.point derivative = .ok final ∧ e.point = final.point := by
  have hlen : p.length = (chain id a b).sourceDimensions := length_of_evaluate h
  rw [evaluate_chain (a := a) hlen] at h
  obtain ⟨middle, hmiddle, h⟩ := bind_eq_ok_iff.mp h
  obtain ⟨final, hfinal, h⟩ := bind_eq_ok_iff.mp h
  refine ⟨middle, final, hmiddle, hfinal, ?_⟩
  split at h
  · obtain ⟨j, -, h⟩ := bind_eq_ok_iff.mp h
    cases h
    rfl
  · cases h
    rfl

/-- Parts that have been evaluated one after the other fit together. -/
theorem evaluate_chain_of_parts (id : NodeId) (ha : a.evaluate p derivative = .ok middle)
    (hb : b.evaluate middle.point derivative = .ok final) :
    ∃ e, (chain id a b).evaluate p derivative = .ok e ∧ e.point = final.point ∧
      (e.jacobian.isSome = true ↔
        middle.jacobian.isSome = true ∧ final.jacobian.isSome = true) := by
  have hmiddle := shaped_of_evaluate ha
  have hfinal := shaped_of_evaluate hb
  rw [evaluate_chain (length_of_evaluate ha), ha, ok_bind, hb, ok_bind]
  cases hj₂ : final.jacobian with
  | none => exact ⟨_, rfl, rfl, by simp⟩
  | some j₂ =>
      cases hj₁ : middle.jacobian with
      | none => exact ⟨_, rfl, rfl, by simp⟩
      | some j₁ =>
          have hfit : j₂.cols = j₁.rows := by
            rw [hfinal.cols j₂ hj₂, hmiddle.rows j₁ hj₁, ← length_of_evaluate hb, hmiddle.point]
          dsimp only
          rw [DenseMatrix.multiply_eq hfit]
          exact ⟨_, rfl, rfl, by simp⟩

theorem evaluate_passThrough_eq_ok_iff :
    (passThrough id k inner n).evaluate p derivative = .ok e ↔
      p.length = k + inner.sourceDimensions + n ∧
        ∃ result, inner.evaluate ((p.drop k).take inner.sourceDimensions) derivative = .ok result ∧
          e = ⟨p.take k ++ result.point ++ p.drop (k + inner.sourceDimensions),
            result.jacobian.map fun j =>
              surround k j n inner.targetDimensions inner.sourceDimensions⟩ := by
  constructor
  · intro h
    have hlen := length_of_evaluate h
    rw [evaluate_passThrough hlen] at h
    obtain ⟨result, hresult, h⟩ := bind_eq_ok_iff.mp h
    cases h
    exact ⟨hlen, result, hresult, rfl⟩
  · rintro ⟨hlen, result, hresult, rfl⟩
    rw [evaluate_passThrough hlen, hresult]
    rfl

end Nodes

section Flag

variable {κ α : Type} [Kernel κ α] [Scalar α] {t : Transform κ α} {p v : List α}
  {e plain : Evaluation α}

/-- The kernels that are called on the way of a point, each with the point that it is given. -/
def calls : Transform κ α → List α → List (κ × List α)
  | linear _ _, _ => []
  | chain _ a b, p =>
      a.calls p ++
        match a.apply p with
        | .ok w => b.calls w
        | .error _ => []
  | passThrough _ k inner _, p => inner.calls ((p.drop k).take inner.sourceDimensions)
  | kernel _ k, p => [(k, p)]

theorem calls_chain {id : NodeId} {a b : Transform κ α} {w : List α} (h : a.apply p = .ok w) :
    (chain id a b).calls p = a.calls p ++ b.calls w := by
  rw [calls, h]

/-- Behind a part that fails nothing is called. -/
theorem calls_chain_of_error {id : NodeId} {a b : Transform κ α} {error : TransformError}
    (h : a.evaluate p false = .error error) : (chain id a b).calls p = a.calls p := by
  have happly : a.apply p = .error error := by
    rw [apply, h]
    rfl
  rw [calls, happly, List.append_nil]

/-- Only kernels of the tree are called. -/
theorem mem_kernels_of_mem_calls {call : κ × List α} (h : call ∈ t.calls p) :
    ∃ node ∈ t.kernels, node.2 = call.1 := by
  induction t generalizing p with
  | linear id m => cases h
  | chain id a b iha ihb =>
      rw [calls, List.mem_append] at h
      rcases h with h | h
      · obtain ⟨node, hnode, heq⟩ := iha h
        exact ⟨node, List.mem_append_left _ hnode, heq⟩
      · split at h
        · obtain ⟨node, hnode, heq⟩ := ihb h
          exact ⟨node, List.mem_append_right _ hnode, heq⟩
        · cases h
  | passThrough id k inner n ih => exact ih h
  | kernel id k =>
      rw [List.mem_singleton.mp h]
      exact ⟨(id, k), List.mem_cons_self, rfl⟩

/-- None of the calls returns a derivative that is refused although nobody has asked for it. -/
def NoneRefused (calls : List (κ × List α)) : Prop :=
  ∀ call ∈ calls, ∀ error, ¬Kernel.RefusedUnasked call.1 call.2 error

/-- Some call returns a derivative that is refused although nobody has asked for it, and all that do
so are refused with the same error. -/
def RefusedWith (calls : List (κ × List α)) (error : TransformError) : Prop :=
  (∃ call ∈ calls, Kernel.RefusedUnasked call.1 call.2 error) ∧
    ∀ call ∈ calls, ∀ error', Kernel.RefusedUnasked call.1 call.2 error' → error' = error

omit [Scalar α] in
theorem RefusedWith.append {calls calls' : List (κ × List α)} {error : TransformError}
    (h : NoneRefused calls) (h' : RefusedWith calls' error) :
    RefusedWith (calls ++ calls') error := by
  obtain ⟨⟨call, hcall, hrefused⟩, hunique⟩ := h'
  refine ⟨⟨call, List.mem_append_right _ hcall, hrefused⟩, fun call hcall error' hrefused => ?_⟩
  rcases List.mem_append.mp hcall with hcall | hcall
  · exact absurd hrefused (h call hcall error')
  · exact hunique call hcall error' hrefused

/-- What a tree computes with the flag set it computes without, unless a kernel on the way returns a
derivative that is refused. -/
theorem evaluate_without_derivative (hk : ∀ node ∈ t.kernels, Kernel.KeepsPoint node.2)
    (h : t.evaluate p true = .ok e) :
    (∃ e', t.evaluate p false = .ok e' ∧ e'.point = e.point ∧ NoneRefused (t.calls p)) ∨
      ∃ error, t.evaluate p false = .error error ∧ RefusedWith (t.calls p) error := by
  induction t generalizing p e with
  | linear id m =>
      have hlen := length_of_evaluate h
      rw [evaluate_linear_eq_ok hlen] at h
      cases h
      exact .inl ⟨_, evaluate_linear_eq_ok hlen, rfl, nofun⟩
  | chain id a b iha ihb =>
      obtain ⟨middle, final, ha, hb, hpoint⟩ := exists_parts_of_evaluate_chain h
      have hlen := length_of_evaluate ha
      rcases iha (fun node hnode => hk node (List.mem_append_left _ hnode)) ha with
        ⟨middle', ha', hmiddle, hnone⟩ | ⟨error, herror, hrefused⟩
      · have happly : a.apply p = .ok middle.point := apply_eq_ok_iff.mpr ⟨middle', ha', hmiddle⟩
        rw [calls_chain happly]
        rcases ihb (fun node hnode => hk node (List.mem_append_right _ hnode)) hb with
          ⟨final', hb', hfinal, hnone'⟩ | ⟨error, herror, hrefused⟩
        · obtain ⟨e', he', hpoint', -⟩ := evaluate_chain_of_parts id ha' (hmiddle.symm ▸ hb')
          exact .inl ⟨e', he', by rw [hpoint', hfinal, hpoint],
            List.forall_mem_append.mpr ⟨hnone, hnone'⟩⟩
        · refine .inr ⟨error, ?_, hrefused.append hnone⟩
          rw [evaluate_chain hlen, ha', ok_bind, hmiddle, herror]
          rfl
      · rw [calls_chain_of_error herror]
        refine .inr ⟨error, ?_, hrefused⟩
        rw [evaluate_chain hlen, herror]
        rfl
  | passThrough id k inner n ih =>
      obtain ⟨hlen, result, hresult, rfl⟩ := evaluate_passThrough_eq_ok_iff.mp h
      rcases ih hk hresult with ⟨result', hresult', hpoint, hnone⟩ | ⟨error, herror, hrefused⟩
      · exact .inl ⟨_, evaluate_passThrough_eq_ok_iff.mpr ⟨hlen, result', hresult', rfl⟩,
          by rw [hpoint], hnone⟩
      · refine .inr ⟨error, ?_, hrefused⟩
        rw [evaluate_passThrough hlen, herror]
        rfl
  | kernel id k =>
      have hlen := length_of_evaluate h
      rw [evaluate_kernel hlen] at h ⊢
      have hkeeps : Kernel.KeepsPoint k := hk (id, k) List.mem_cons_self
      rcases hkeeps.evaluateChecked_cases hlen h with
        ⟨e', he', hpoint, hnone⟩ | ⟨error, herror, hrefused⟩
      · exact .inl ⟨e', he', hpoint, List.forall_mem_singleton.mpr hnone⟩
      · exact .inr ⟨error, herror, ⟨(k, p), List.mem_cons_self, hrefused⟩,
          List.forall_mem_singleton.mpr fun _ => hrefused.unique⟩

/-- If no kernel of a tree returns a derivative without being asked, what the tree computes with the
flag set it computes without. -/
theorem apply_of_applyWithDerivative {j : DenseMatrix α}
    (hk : ∀ node ∈ t.kernels, Kernel.KeepsPoint node.2)
    (hwait : ∀ node ∈ t.kernels, Kernel.WaitsForFlag node.2)
    (h : t.applyWithDerivative p = .ok (v, j)) : t.apply p = .ok v := by
  rcases evaluate_without_derivative hk (applyWithDerivative_eq_ok_iff.mp h) with
    ⟨e', he', hpoint, _⟩ | ⟨error, _, ⟨call, hcall, hrefused⟩, _⟩
  · exact apply_eq_ok_iff.mpr ⟨e', he', hpoint⟩
  · obtain ⟨node, hnode, heq⟩ := mem_kernels_of_mem_calls hcall
    exact absurd hrefused (heq ▸ hwait node hnode).not_refused

/-- If the kernels on the way answer with the flag set, the tree does, and it has a derivative if
they all have one. -/
theorem evaluate_with_derivative (hk : ∀ node ∈ t.kernels, Kernel.KeepsPoint node.2)
    (hplain : t.evaluate p false = .ok plain)
    (hcalls : ∀ call ∈ t.calls p, Kernel.AnswersAt call.1 call.2) :
    ∃ e, t.evaluate p true = .ok e ∧ e.point = plain.point ∧
      (e.jacobian.isSome = true ↔ ∀ call ∈ t.calls p, Kernel.DifferentiatesAt call.1 call.2) := by
  induction t generalizing p plain with
  | linear id m =>
      have hlen := length_of_evaluate hplain
      rw [evaluate_linear_eq_ok hlen] at hplain
      cases hplain
      exact ⟨_, evaluate_linear_eq_ok hlen, rfl, by simp [calls]⟩
  | chain id a b iha ihb =>
      obtain ⟨plain₁, plain₂, ha, hb, hpoint⟩ := exists_parts_of_evaluate_chain hplain
      have hw : a.apply p = .ok plain₁.point := apply_eq_ok_iff.mpr ⟨plain₁, ha, rfl⟩
      rw [calls_chain hw] at hcalls ⊢
      obtain ⟨middle, hmiddle, hsame, hsome⟩ :=
        iha (fun node hnode => hk node (List.mem_append_left _ hnode)) ha
          fun call hcall => hcalls call (List.mem_append_left _ hcall)
      obtain ⟨final, hfinal, hsame', hsome'⟩ :=
        ihb (fun node hnode => hk node (List.mem_append_right _ hnode)) hb
          fun call hcall => hcalls call (List.mem_append_right _ hcall)
      obtain ⟨e, he, hend, hjacobian⟩ :=
        evaluate_chain_of_parts id hmiddle (hsame ▸ hfinal)
      refine ⟨e, he, by rw [hend, hsame', hpoint], ?_⟩
      rw [hjacobian, hsome, hsome', List.forall_mem_append]
  | passThrough id k inner n ih =>
      obtain ⟨hlen, result, hresult, rfl⟩ := evaluate_passThrough_eq_ok_iff.mp hplain
      obtain ⟨result', hresult', hsame, hsome⟩ := ih hk hresult hcalls
      refine ⟨_, evaluate_passThrough_eq_ok_iff.mpr ⟨hlen, result', hresult', rfl⟩,
        by rw [hsame], ?_⟩
      rw [Option.isSome_map]
      exact hsome
  | kernel id k =>
      have hlen := length_of_evaluate hplain
      rw [evaluate_kernel hlen] at hplain ⊢
      obtain ⟨he, hpoint, -⟩ := Kernel.evaluateChecked_eq_ok_iff.mp hplain
      obtain ⟨e, hanswer, hdeclared⟩ := hcalls (k, p) List.mem_cons_self
      obtain ⟨e', he', hsame⟩ := hk (id, k) List.mem_cons_self p e hlen hanswer
      obtain rfl : e' = plain := Except.ok.inj (he'.symm.trans he)
      refine ⟨e, Kernel.evaluateChecked_eq_ok_iff.mpr ⟨hanswer, hsame ▸ hpoint, hdeclared⟩,
        hsame.symm, ?_⟩
      simp [calls, Kernel.DifferentiatesAt, hanswer]

/-- The two ways of evaluating a tree agree on the point, unless a kernel on the way returns without
being asked a derivative of a wrong shape, which is then the error.  The one with the derivative
ends as the kernels on the way have it. -/
theorem applyWithDerivative_of_calls (hk : ∀ node ∈ t.kernels, Kernel.KeepsPoint node.2)
    (p : List α) :
    (∀ v j, t.applyWithDerivative p = .ok (v, j) →
        ((∀ call ∈ t.calls p, ∀ error, ¬Kernel.RefusedUnasked call.1 call.2 error) →
          t.apply p = .ok v) ∧
        ∀ call ∈ t.calls p, ∀ error, Kernel.RefusedUnasked call.1 call.2 error →
          t.apply p = .error error) ∧
      ∀ v, t.apply p = .ok v → (∀ call ∈ t.calls p, Kernel.AnswersAt call.1 call.2) →
        ((∀ call ∈ t.calls p, Kernel.DifferentiatesAt call.1 call.2) →
          ∃ j, t.applyWithDerivative p = .ok (v, j)) ∧
        ((∃ call ∈ t.calls p, ¬Kernel.DifferentiatesAt call.1 call.2) →
          t.applyWithDerivative p = .error (.illegalState .noDerivative)) := by
  constructor
  · intro v j h
    rcases evaluate_without_derivative hk (applyWithDerivative_eq_ok_iff.mp h) with
      ⟨e', he', hpoint, hnone⟩ | ⟨error, herror, ⟨call, hcall, hrefused⟩, hunique⟩
    · exact ⟨fun _ => apply_eq_ok_iff.mpr ⟨e', he', hpoint⟩,
        fun call hcall error hrefused => absurd hrefused (hnone call hcall error)⟩
    · refine ⟨fun hnone => absurd hrefused (hnone call hcall error), ?_⟩
      intro call hcall error' hrefused
      rw [hunique call hcall error' hrefused, apply, herror]
      rfl
  · intro v hv hcalls
    obtain ⟨plain, hplain, rfl⟩ := apply_eq_ok_iff.mp hv
    obtain ⟨e, he, hsame, hsome⟩ := evaluate_with_derivative hk hplain hcalls
    unfold applyWithDerivative
    rw [he, ok_bind, ← hsome, ← hsame]
    constructor
    · intro hjacobian
      obtain ⟨j, hj⟩ := Option.isSome_iff_exists.mp hjacobian
      rw [hj]
      exact ⟨j, rfl⟩
    · rintro ⟨call, hcall, hnone⟩
      have hj : e.jacobian = none := by
        rw [← Option.not_isSome_iff_eq_none, hsome]
        exact fun hall => hnone (hall call hcall)
      rw [hj]
      rfl

end Flag

section Unasked

/-- A kernel that copies a coordinate, and returns an empty matrix unless it is asked for the
derivative. -/
inductive HastyKernel where
  | copy

instance : Kernel HastyKernel Float where
  name _ := "hasty"
  sourceDimensions _ := 1
  targetDimensions _ := 1
  evaluate _ point wanted :=
    .ok ⟨point, some (if wanted then DenseMatrix.identity 1 else ⟨0, 0, #[], rfl⟩)⟩
  inverse? _ := none

theorem keepsPoint_hasty (k : HastyKernel) : Kernel.KeepsPoint k := by
  intro q e _ he
  cases he
  exact ⟨_, rfl, rfl⟩

/-- The same point is computed with and without the flag, but without it the derivative is refused
that nobody has asked for. -/
theorem not_apply_of_applyWithDerivative :
    ¬∀ t : Transform HastyKernel Float, t.WellFormed →
      (∀ node ∈ t.kernels, Kernel.KeepsPoint node.2) →
        ∀ p v j, t.applyWithDerivative p = .ok (v, j) → t.apply p = .ok v := by
  intro hall
  have hasked : (kernel none HastyKernel.copy).applyWithDerivative [7] =
      .ok ([7], DenseMatrix.identity 1) := rfl
  have hunasked : (kernel none HastyKernel.copy).apply [7] =
      .error (.dimensionMismatch .jacobianRows 1 0) := rfl
  have happly := hall (kernel none .copy) (by decide) (fun node _ => keepsPoint_hasty node.2) _ _ _
    hasked
  rw [hunasked] at happly
  cases happly

end Unasked

section Ellipsoid

variable {e : Ellipsoid} {q : List Float} {result : Evaluation Float}

/-- The Cartesian coordinates do not depend on the flag. -/
theorem evaluateToCartesian_unasked
    (h : EllipsoidKernel.evaluateToCartesian e q true = .ok result) :
    EllipsoidKernel.evaluateToCartesian e q false = .ok ⟨result.point, none⟩ := by
  cases h
  rfl

/-- The geodetic coordinates do not depend on the flag, but with the flag set the derivative has to
be inverted as well. -/
theorem evaluateToGeodetic_unasked
    (h : EllipsoidKernel.evaluateToGeodetic e q true = .ok result) :
    EllipsoidKernel.evaluateToGeodetic e q false = .ok ⟨result.point, none⟩ := by
  unfold EllipsoidKernel.evaluateToGeodetic at h ⊢
  obtain ⟨⟨longitude, latitude, height⟩, hconverted, h⟩ := bind_eq_ok_iff.mp h
  rw [hconverted]
  obtain ⟨inverse, -, h⟩ := bind_eq_ok_iff.mp h
  obtain ⟨jacobian, -, h⟩ := bind_eq_ok_iff.mp h
  cases h
  rfl

/-- The conversions of an ellipsoid compute the same point with and without the flag. -/
theorem keepsPoint_ellipsoid (k : EllipsoidKernel) : Kernel.KeepsPoint k := by
  refine Kernel.keepsPoint_of_unasked fun q result h => ?_
  cases k with
  | toCartesian e => exact evaluateToCartesian_unasked h
  | toGeodetic e => exact evaluateToGeodetic_unasked h

theorem waitsForFlag_ellipsoid (k : EllipsoidKernel) : Kernel.WaitsForFlag k := by
  intro q result h
  cases k with
  | toCartesian e =>
      cases h
      rfl
  | toGeodetic e =>
      have h : EllipsoidKernel.evaluateToGeodetic e q false = .ok result := h
      unfold EllipsoidKernel.evaluateToGeodetic at h
      obtain ⟨geodetic, -, h⟩ := bind_eq_ok_iff.mp h
      cases h
      rfl

/-- A tree of conversions computes without the flag what it computes with it. -/
theorem apply_of_applyWithDerivative_ellipsoid {t : Transform EllipsoidKernel Float}
    {p v : List Float} {j : DenseMatrix Float} (h : t.applyWithDerivative p = .ok (v, j)) :
    t.apply p = .ok v :=
  apply_of_applyWithDerivative (fun node _ => keepsPoint_ellipsoid node.2)
    (fun node _ => waitsForFlag_ellipsoid node.2) h

end Ellipsoid

section Synthetic

variable {name : String} {sources targets outputs : Nat} {curvature : Float}
  {jacobian : SyntheticJacobian} {inverse : Option SyntheticKernel}

/-- A synthetic kernel only looks at the flag when it has computed its image. -/
theorem keepsPoint_synthetic (k : SyntheticKernel) : Kernel.KeepsPoint k := by
  obtain ⟨name, sources, targets, curvature, outputs, jacobian, failure, inverse⟩ := k
  refine Kernel.keepsPoint_of_unasked fun q result h => ?_
  cases failure with
  | some message => cases h
  | none =>
      cases h
      exact SyntheticKernel.evaluate_eq_ok q

theorem waitsForFlag_synthetic (k : SyntheticKernel) : Kernel.WaitsForFlag k := by
  obtain ⟨name, sources, targets, curvature, outputs, jacobian, failure, inverse⟩ := k
  intro q result h
  cases failure with
  | some message => cases h
  | none =>
      cases h
      rfl

theorem answersAt_missing (q : List Float) : Kernel.AnswersAt
    (SyntheticKernel.make name sources targets curvature outputs .missing none inverse) q :=
  ⟨_, rfl, nofun⟩

theorem not_differentiatesAt_missing (q : List Float) : ¬Kernel.DifferentiatesAt
    (SyntheticKernel.make name sources targets curvature outputs .missing none inverse) q := by
  rintro ⟨e, he, hj⟩
  cases he
  cases hj

theorem answersAt_declared (q : List Float) : Kernel.AnswersAt
    (SyntheticKernel.make name sources targets curvature outputs .declared none inverse) q := by
  refine ⟨_, rfl, fun j hj => ?_⟩
  cases hj
  exact ⟨rfl, rfl⟩

theorem differentiatesAt_declared (q : List Float) : Kernel.DifferentiatesAt
    (SyntheticKernel.make name sources targets curvature outputs .declared none inverse) q :=
  ⟨_, rfl, rfl⟩

/-- Two kernels in nested wrappers, the first of which may return a derivative or not. -/
def nestedPair (first : SyntheticJacobian) : Transform SyntheticKernel Float :=
  .passThrough none 1
    (.chain none
      (.passThrough none 0 (.kernel none (.make "first" 1 2 1 2 first none none)) 1)
      (.kernel none (.make "second" 3 1 2 1 .declared none none))) 0

/-- The derivative of the whole stands and falls with that of the first kernel. -/
theorem applyWithDerivative_nestedPair :
    (∃ v j, (nestedPair .declared).apply [7, 1, 2] = .ok v ∧
      (nestedPair .declared).applyWithDerivative [7, 1, 2] = .ok (v, j)) ∧
    ∃ v, (nestedPair .missing).apply [7, 1, 2] = .ok v ∧
      (nestedPair .missing).applyWithDerivative [7, 1, 2] =
        .error (.illegalState .noDerivative) := by
  have hpaths := fun first => applyWithDerivative_of_calls (t := nestedPair first)
    (fun node _ => keepsPoint_synthetic node.2) [7, 1, 2]
  constructor
  · obtain ⟨v, hv⟩ := exists_ok_of_isOk (x := (nestedPair .declared).apply [7, 1, 2])
      (by decide +kernel)
    have hcalls : ∀ call ∈ (nestedPair .declared).calls [7, 1, 2],
        Kernel.AnswersAt call.1 call.2 ∧ Kernel.DifferentiatesAt call.1 call.2 := by
      intro call hcall
      obtain ⟨node, hnode, heq⟩ := mem_kernels_of_mem_calls hcall
      rw [← heq]
      rcases List.mem_pair.mp hnode with rfl | rfl
      · exact ⟨answersAt_declared _, differentiatesAt_declared _⟩
      · exact ⟨answersAt_declared _, differentiatesAt_declared _⟩
    obtain ⟨j, hj⟩ := ((hpaths .declared).2 v hv fun call hcall => (hcalls call hcall).1).1
      fun call hcall => (hcalls call hcall).2
    refine ⟨v, j, ((hpaths .declared).1 v j hj).1 fun call _ error => ?_, hj⟩
    exact (waitsForFlag_synthetic call.1).not_refused
  · obtain ⟨v, hv⟩ := exists_ok_of_isOk (x := (nestedPair .missing).apply [7, 1, 2])
      (by decide +kernel)
    have hcalls : ∀ call ∈ (nestedPair .missing).calls [7, 1, 2],
        Kernel.AnswersAt call.1 call.2 := by
      intro call hcall
      obtain ⟨node, hnode, heq⟩ := mem_kernels_of_mem_calls hcall
      rw [← heq]
      rcases List.mem_pair.mp hnode with rfl | rfl
      · exact answersAt_missing _
      · exact answersAt_declared _
    exact ⟨v, hv, ((hpaths .missing).2 v hv hcalls).2
      ⟨_, List.mem_append_left _ List.mem_cons_self, not_differentiatesAt_missing _⟩⟩

end Synthetic

end Transform
end SeparableTransforms
