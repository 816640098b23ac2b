import SeparableTransforms.Kernels.Synthetic
import SeparableTransforms.Proofs.DenseMatrix.Elimination
import SeparableTransforms.Proofs.Transform.Sequencing
import SeparableTransforms.Transform.Inverse

/-!
# Inverse transforms

The inverse of a tree mirrors it: the steps are inverted one by one and come in the
opposite order, and a wrapper copies the same coordinates around the inverse of what
it wraps.  So whether a transform has an inverse is decided step by step.

Whether the inverse undoes the transform at a point depends on the nodes that are met
on the way.  If each linear node and each kernel is undone by its own inverse at the
value that it is given, then so is the whole transform.  For this the parts of the
inverse have to fit again, which they do if the inverse of every kernel has the
dimensions of the kernel turned round.
-/

namespace SeparableTransforms

section Turning

variable {κ α : Type} [Kernel κ α]

/-- The inverse of the kernel, if it has one, has its dimensions turned round. -/
def Kernel.Turns (k : κ) : Prop :=
  ∀ k' : κ, Kernel.inverse? k = some k' →
    Kernel.sourceDimensions k' = Kernel.targetDimensions k ∧
      Kernel.targetDimensions k' = Kernel.sourceDimensions k

end Turning

namespace Transform

open Outcome

section Matrices

variable {α : Type} [Scalar α] {m v : DenseMatrix α} {w : DenseMatrix (DoubleDouble α)}

theorem rows_affineInverse : (m.affineInverse w).rows = w.rows + 1 :=
  rfl

theorem cols_affineInverse : (m.affineInverse w).cols = w.rows + 1 :=
  rfl

theorem isAffine_affineInverse [LawfulScalar α] : (m.affineInverse w).isAffine = true := by
  refine DenseMatrix.isAffine_ofFn fun c hc => ?_
  rw [if_neg (Nat.lt_irrefl _)]
  by_cases hlast : c = w.rows
  · rw [if_neg (by omega), if_pos hlast]
  · rw [if_pos (by omega), if_neg hlast]

/-- Only a square matrix is inverted, by inverting its linear part. -/
theorem exists_affineInverse (hm : m.isAffine = true) (h : inverseMatrix m = .ok v) :
    m.rows = m.cols ∧ ∃ w : DenseMatrix (DoubleDouble α),
      w.rows = m.rows - 1 ∧ v = m.affineInverse w := by
  unfold inverseMatrix at h
  split at h
  · obtain ⟨hsquare, w, hw, rfl⟩ :=
      (DenseMatrix.inverseWithin_eq_ok_iff hm).mp (eq_ok_of_ofMatrix h)
    exact ⟨hsquare, w, DenseMatrix.rows_gaussJordan hw, rfl⟩
  · cases h

/-- The inverse of a matrix has its shape. -/
theorem shape_of_inverseMatrix (hm : m.isAffine = true) (hcols : 2 ≤ m.cols)
    (h : inverseMatrix m = .ok v) : m.rows = m.cols ∧ v.rows = m.rows ∧ v.cols = m.cols := by
  obtain ⟨hsquare, w, hw, rfl⟩ := exists_affineInverse hm h
  rw [rows_affineInverse, cols_affineInverse]
  omega

theorem isAffine_inverseMatrix [LawfulScalar α] (hm : m.isAffine = true)
    (h : inverseMatrix m = .ok v) : v.isAffine = true := by
  obtain ⟨-, w, -, rfl⟩ := exists_affineInverse hm h
  exact isAffine_affineInverse

end Matrices

section Nodes

variable {κ α : Type} [Kernel κ α] [Scalar α] {id : NodeId} {a b t u : Transform κ α}

theorem inverse_linear_iff {m : DenseMatrix α} :
    (linear id m : Transform κ α).inverse = .ok u ↔
      ∃ v, inverseMatrix m = .ok v ∧ u = linear none v := by
  rw [inverse, map_eq_ok_iff]
  simp only [eq_comm]

theorem inverse_chain_iff :
    (chain id a b).inverse = .ok u ↔ ∃ first second, b.inverse = .ok first ∧
      a.inverse = .ok second ∧ first.targetDimensions = second.sourceDimensions ∧
      u = chain none first second := by
  simp only [inverse, bind_eq_ok_iff]
  constructor
  · rintro ⟨first, hfirst, second, hsecond, hjoin⟩
    unfold join at hjoin
    split at hjoin
    · cases hjoin
    · rename_i hfit
      exact ⟨first, second, hfirst, hsecond, not_not.mp hfit, (Except.ok.inj hjoin).symm⟩
  · rintro ⟨first, second, hfirst, hsecond, hfit, rfl⟩
    exact ⟨first, hfirst, second, hsecond, join_eq_ok hfit⟩

theorem inverse_passThrough_iff {k n : Nat} :
    (passThrough id k t n).inverse = .ok u ↔
      ∃ inner, t.inverse = .ok inner ∧ u = passThrough none k inner n := by
  simp only [inverse, bind_eq_ok_iff, pure_eq_ok, Except.ok.injEq, eq_comm (a := u)]

theorem inverse_kernel_iff {k : κ} :
    (kernel id k : Transform κ α).inverse = .ok u ↔
      ∃ k', Kernel.inverse? k = some k' ∧ u = kernel none k' := by
  unfold inverse
  split
  · rename_i k' hk'
    simp [hk', eq_comm]
  · rename_i hnone
    simp [hnone]

end Nodes

section Shapes

variable {κ α : Type} [Kernel κ α] [Scalar α] {t u : Transform κ α}

/-- The inverse has the dimensions turned round. -/
theorem dimensions_of_inverse (ht : t.Coherent) (hk : ∀ node ∈ t.kernels, Kernel.Turns node.2)
    (h : t.inverse = .ok u) :
    u.sourceDimensions = t.targetDimensions ∧ u.targetDimensions = t.sourceDimensions := by
  induction t generalizing u with
  | linear id m =>
      obtain ⟨v, hv, rfl⟩ := inverse_linear_iff.mp h
      have hshape := shape_of_inverseMatrix ht.1 ht.2 hv
      simp only [sourceDimensions, targetDimensions]
      omega
  | chain id a b iha ihb =>
      obtain ⟨first, second, hfirst, hsecond, -, rfl⟩ := inverse_chain_iff.mp h
      obtain ⟨hka, hkb⟩ := List.forall_mem_append.mp hk
      exact ⟨(ihb ht.2.1 hkb hfirst).1, (iha ht.1 hka hsecond).2⟩
  | passThrough id k inner n ih =>
      obtain ⟨inner', hinner, rfl⟩ := inverse_passThrough_iff.mp h
      obtain ⟨hs, ht'⟩ := ih ht hk hinner
      simp only [sourceDimensions, targetDimensions, hs, ht', and_self]
  | kernel id k =>
      obtain ⟨k', hk', rfl⟩ := inverse_kernel_iff.mp h
      exact hk (id, k) List.mem_cons_self k' hk'

/-- The steps of the inverse are the inverses of the steps in the opposite order, and the first of
them that has no inverse decides the error. -/
theorem steps_inverse (ht : t.Coherent) (hk : ∀ node ∈ t.kernels, Kernel.Turns node.2) :
    steps <$> t.inverse = t.steps.reverse.mapM inverse := by
  have hsingle : ∀ s : Transform κ α, (∀ u, s.inverse = .ok u → u.steps = [u]) →
      steps <$> s.inverse = [s].reverse.mapM inverse := by
    intro s hs
    rw [List.reverse_singleton, List.mapM_cons, List.mapM_nil]
    cases hu : s.inverse with
    | error e => rfl
    | ok u => exact congrArg Except.ok (hs u hu)
  induction t with
  | linear id m =>
      refine hsingle _ fun u hu => ?_
      obtain ⟨v, -, rfl⟩ := inverse_linear_iff.mp hu
      rfl
  | chain id a b iha ihb =>
      obtain ⟨ha, hb, hfit⟩ := ht
      obtain ⟨hka, hkb⟩ := List.forall_mem_append.mp hk
      rw [steps, List.reverse_append, List.mapM_append, ← iha ha hka, ← ihb hb hkb, inverse]
      cases hfirst : b.inverse with
      | error e => rfl
      | ok first =>
          cases hsecond : a.inverse with
          | error e => rfl
          | ok second =>
              have hjoin : first.targetDimensions = second.sourceDimensions := by
                rw [(dimensions_of_inverse hb hkb hfirst).2,
                  (dimensions_of_inverse ha hka hsecond).1, hfit]
              simp only [ok_bind, map_ok, join_eq_ok hjoin, pure_eq_ok]
              rfl
  | passThrough id k inner n ih =>
      refine hsingle _ fun u hu => ?_
      obtain ⟨inner', -, rfl⟩ := inverse_passThrough_iff.mp hu
      rfl
  | kernel id k =>
      refine hsingle _ fun u hu => ?_
      obtain ⟨k', -, rfl⟩ := inverse_kernel_iff.mp hu
      rfl

/-- The kernels of the inverse are the inverses of the kernels in the opposite order. -/
theorem kernels_of_inverse (h : t.inverse = .ok u) :
    List.Forall₂ (fun node node' => Kernel.inverse? node.2 = some node'.2) t.kernels.reverse
      u.kernels := by
  induction t generalizing u with
  | linear id m =>
      obtain ⟨v, -, rfl⟩ := inverse_linear_iff.mp h
      exact .nil
  | chain id a b iha ihb =>
      obtain ⟨first, second, hfirst, hsecond, -, rfl⟩ := inverse_chain_iff.mp h
      rw [kernels, List.reverse_append]
      exact List.rel_append (ihb hfirst) (iha hsecond)
  | passThrough id k inner n ih =>
      obtain ⟨inner', hinner, rfl⟩ := inverse_passThrough_iff.mp h
      exact ih (u := inner') hinner
  | kernel id k =>
      obtain ⟨k', hk', rfl⟩ := inverse_kernel_iff.mp h
      exact .cons hk' .nil

theorem exists_kernel_of_inverse (h : t.inverse = .ok u) {node' : NodeId × κ}
    (hnode : node' ∈ u.kernels) :
    ∃ node ∈ t.kernels, Kernel.inverse? node.2 = some node'.2 := by
  obtain ⟨i, hi, rfl⟩ := List.getElem_of_mem hnode
  have hall := kernels_of_inverse h
  have hi' : i < t.kernels.reverse.length := hall.length_eq ▸ hi
  exact ⟨_, List.mem_reverse.mp (List.getElem_mem hi'), hall.get hi' hi⟩

variable [LawfulScalar α]

/-- The inverse of a coherent transform is coherent. -/
theorem Coherent.inverse (ht : t.Coherent) (h : t.inverse = .ok u) : u.Coherent := by
  induction t generalizing u with
  | linear id m =>
      obtain ⟨v, hv, rfl⟩ := inverse_linear_iff.mp h
      have hshape := shape_of_inverseMatrix ht.1 ht.2 hv
      exact ⟨isAffine_inverseMatrix ht.1 hv, hshape.2.2 ▸ ht.2⟩
  | chain id a b iha ihb =>
      obtain ⟨first, second, hfirst, hsecond, hfit, rfl⟩ := inverse_chain_iff.mp h
      exact ⟨ihb ht.2.1 hfirst, iha ht.1 hsecond, hfit⟩
  | passThrough id k inner n ih =>
      obtain ⟨inner', hinner, rfl⟩ := inverse_passThrough_iff.mp h
      exact ih (u := inner') ht hinner
  | kernel id k =>
      obtain ⟨k', -, rfl⟩ := inverse_kernel_iff.mp h
      trivial

/-- The inverse of an admissible transform is admissible if the inverses of its kernels are. -/
theorem Admissible.inverse {P : κ → Prop}
    (hP : ∀ k k' : κ, P k → Kernel.inverse? k = some k' → 0 < Kernel.sourceDimensions k' ∧ P k')
    (ht : t.Admissible P) (h : t.inverse = .ok u) : u.Admissible P := by
  obtain ⟨hwell, hk⟩ := admissible_iff.mp ht
  have hkernels : ∀ node' ∈ u.kernels, 0 < Kernel.sourceDimensions node'.2 ∧ P node'.2 := by
    intro node' hnode'
    obtain ⟨node, hnode, hinverse⟩ := exists_kernel_of_inverse h hnode'
    exact hP node.2 node'.2 (hk node hnode) hinverse
  exact admissible_iff.mpr
    ⟨wellFormed_iff_coherent.mpr ⟨hwell.coherent.inverse h, fun node hnode =>
      (hkernels node hnode).1⟩, fun node hnode => (hkernels node hnode).2⟩

end Shapes

section Undoing

variable {κ α : Type} [Kernel κ α] [Scalar α] {t u : Transform κ α} {p q : List α}

/-- While a transform is evaluated at a point, a linear node or a kernel is given a value. -/
inductive Meets : Transform κ α → List α → Transform κ α → List α → Prop
  | linear (id : NodeId) (m : DenseMatrix α) (p : List α) : Meets (linear id m) p (linear id m) p
  | kernel (id : NodeId) (k : κ) (p : List α) : Meets (kernel id k) p (kernel id k) p
  | first {id : NodeId} {a b s : Transform κ α} {p x : List α} (h : Meets a p s x) :
      Meets (chain id a b) p s x
  | second {id : NodeId} {a b s : Transform κ α} {p w x : List α} (hw : a.apply p = .ok w)
      (h : Meets b w s x) : Meets (chain id a b) p s x
  | inner {id : NodeId} {k n : Nat} {t s : Transform κ α} {p x : List α}
      (h : Meets t ((p.drop k).take t.sourceDimensions) s x) : Meets (passThrough id k t n) p s x

/-- The inverse of a transform gives back the value that the transform is applied to. -/
def UndoneAt (s : Transform κ α) (x : List α) : Prop :=
  ∃ i y, s.inverse = .ok i ∧ s.apply x = .ok y ∧ i.apply y = .ok x

theorem undoneAt_iff :
    UndoneAt t p ↔ (do
      let i ← t.inverse
      let y ← t.apply p
      i.apply y) = .ok p := by
  simp only [UndoneAt, bind_eq_ok_iff, exists_and_left]

instance [DecidableEq α] : Decidable (UndoneAt t p) :=
  decidable_of_iff _ undoneAt_iff.symm

/-- A node that is undone at a value is undone by any inverse it is found to have. -/
theorem UndoneAt.apply_inverse (h : UndoneAt t p) (hu : t.inverse = .ok u)
    (hq : t.apply p = .ok q) : u.apply q = .ok p := by
  obtain ⟨i, y, hi, hy, hx⟩ := h
  obtain rfl : i = u := Except.ok.inj (hi.symm.trans hu)
  obtain rfl : y = q := Except.ok.inj (hy.symm.trans hq)
  exact hx

/-- A transform is undone at a point if all nodes that are met there are. -/
theorem apply_inverse (ht : t.Coherent) (hk : ∀ node ∈ t.kernels, Kernel.Turns node.2)
    (hu : t.inverse = .ok u) (hq : t.apply p = .ok q)
    (hundone : ∀ s x, Meets t p s x → UndoneAt s x) : u.apply q = .ok p := by
  induction t generalizing u p q with
  | linear id m => exact (hundone _ _ (.linear id m p)).apply_inverse hu hq
  | chain id a b iha ihb =>
      obtain ⟨ha, hb, hfit⟩ := ht
      obtain ⟨hka, hkb⟩ := List.forall_mem_append.mp hk
      obtain ⟨first, second, hfirst, hsecond, hfit', rfl⟩ := inverse_chain_iff.mp hu
      rw [apply_chain hfit] at hq
      obtain ⟨w, hw, hq⟩ := bind_eq_ok_iff.mp hq
      -- the inverse comes to the second part first
      have hback : first.apply q = .ok w :=
        ihb hb hkb hfirst hq fun s x hs => hundone s x (.second hw hs)
      rw [apply_chain hfit', hback, ok_bind]
      exact iha ha hka hsecond hw fun s x hs => hundone s x (.first hs)
  | passThrough id k inner n ih =>
      obtain ⟨inner', hinner, rfl⟩ := inverse_passThrough_iff.mp hu
      obtain ⟨hlen, w, hw, rfl⟩ := apply_passThrough_iff.mp hq
      have hback : inner'.apply w = .ok ((p.drop k).take inner.sourceDimensions) :=
        ih ht hk hinner hw fun s x hs => hundone s x (.inner hs)
      have hsource : inner'.sourceDimensions = w.length :=
        (dimensions_of_inverse (t := inner) ht hk hinner).1.trans (length_apply hw).symm
      -- the inverse cuts the image where its parts have been put together
      have hlead : (p.take k).length = k := by
        rw [List.length_take]
        omega
      have hmiddle : ((p.take k ++ w ++ p.drop (k + inner.sourceDimensions)).drop k).take
          w.length = w := by
        rw [List.append_assoc, List.drop_left' hlead, List.take_left' rfl]
      have htrail : (p.take k ++ w ++ p.drop (k + inner.sourceDimensions)).drop (k + w.length) =
          p.drop (k + inner.sourceDimensions) :=
        List.drop_left' (by rw [List.length_append, hlead])
      refine apply_passThrough_iff.mpr
        ⟨?_, (p.drop k).take inner.sourceDimensions, ?_, ?_⟩
      · simp only [List.length_append, List.length_drop, hlead, hsource]
        omega
      · rw [hsource, hmiddle]
        exact hback
      · rw [hsource, htrail, List.append_assoc (p.take k), List.take_left' hlead,
          ← List.drop_drop, List.append_assoc, List.take_append_drop, List.take_append_drop]
  | kernel id k => exact (hundone _ _ (.kernel id k p)).apply_inverse hu hq

/-- A transform has an inverse exactly if all its steps have one.  The inverse has the dimensions
turned round and the inverses of the steps in the opposite order, and it undoes the transform
wherever the nodes that are met are undone by their own inverses. -/
theorem inverse_mirrored (ht : t.Coherent) (hk : ∀ node ∈ t.kernels, Kernel.Turns node.2) :
    ((∃ u, t.inverse = .ok u) ↔ ∀ s ∈ t.steps, ∃ i, s.inverse = .ok i) ∧
      ∀ u, t.inverse = .ok u →
        u.sourceDimensions = t.targetDimensions ∧ u.targetDimensions = t.sourceDimensions ∧
          List.Forall₂ (fun s i => s.inverse = .ok i) t.steps.reverse u.steps ∧
          ∀ p q, t.apply p = .ok q → (∀ s x, Meets t p s x → UndoneAt s x) → u.apply q = .ok p := by
  have hsteps := steps_inverse ht hk
  refine ⟨?_, fun u hu => ?_⟩
  · calc (∃ u, t.inverse = .ok u) ↔ ∃ is, t.steps.reverse.mapM inverse = .ok is := by
          rw [← hsteps]
          simp only [map_eq_ok_iff, exists_comm (α := List (Transform κ α)), exists_and_left,
            exists_eq', and_true]
      _ ↔ ∀ s ∈ t.steps, ∃ i, s.inverse = .ok i := by
          simp only [exists_mapM_eq_ok_iff, List.mem_reverse]
  · obtain ⟨hsource, htarget⟩ := dimensions_of_inverse ht hk hu
    refine ⟨hsource, htarget, mapM_eq_ok_iff.mp ?_, fun p q hq => apply_inverse ht hk hu hq⟩
    rw [← hsteps, hu]
    rfl

end Undoing

section Example

/-- Scales and shifts two coordinates. -/
def shiftedPair : Transform SyntheticKernel Float :=
  linear none ⟨3, 3, #[2, 0, 1, 0, 4, 2, 0, 0, 1], by decide +kernel⟩

/-- Scales and shifts two coordinates and makes two of the last one. -/
def splitPair : Transform SyntheticKernel Float :=
  chain none shiftedPair
    (passThrough none 1
      (kernel none (.make "split" 1 2 0 2 .declared none
        (some (.make "merge" 2 1 0 1 .declared none none)))) 0)

/-- The pair is merged and scaled back. -/
theorem inverse_splitPair :
    ∃ u, splitPair.inverse = .ok u ∧ u.sourceDimensions = 3 ∧ u.targetDimensions = 2 ∧
      u.apply [3, 10, 20] = .ok [1, 2] := by
  have hturns : ∀ node ∈ splitPair.kernels, Kernel.Turns node.2 := by
    intro node hnode k' hk'
    rw [List.mem_singleton.mp hnode] at hk' ⊢
    cases hk'
    exact ⟨rfl, rfl⟩
  obtain ⟨-, hmirrored⟩ := inverse_mirrored (t := splitPair) (by decide +kernel) hturns
  obtain ⟨u, hu⟩ := exists_ok_of_isOk (x := splitPair.inverse) (by decide +kernel)
  obtain ⟨hsource, htarget, -, hundo⟩ := hmirrored u hu
  refine ⟨u, hu, hsource, htarget, hundo [1, 2] [3, 10, 20] (by decide +kernel) ?_⟩
  have hshifted : shiftedPair.apply [1, 2] = .ok [3, 10] := by decide +kernel
  intro s x hmeets
  cases hmeets with
  | first hmeets =>
      cases hmeets with
      | linear => decide +kernel
  | second hw hmeets =>
      obtain rfl := Except.ok.inj (hw.symm.trans hshifted)
      cases hmeets with
      | inner hmeets =>
          cases hmeets with
          | kernel => decide +kernel

end Example

end Transform
end SeparableTransforms
