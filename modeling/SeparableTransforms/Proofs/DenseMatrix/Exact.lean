import Mathlib.Algebra.BigOperators.Ring.Finset
import Mathlib.Tactic.Ring
import SeparableTransforms.Proofs.DenseMatrix.Neutral
import SeparableTransforms.Proofs.DoubleDouble.Exact

/-!
# Products in exact arithmetic

Over the rationals every error term of a double-double operation is zero, so that a
double-double sum of products is the sum of the products.  It does not matter which
zero terms are left out.  An entry of a product is then a finite sum, products of
matrices are associative, and an identity is neutral on the nose.
-/

namespace SeparableTransforms

section Sums

/-- Terms that are added one after the other give their sum. -/
theorem foldl_range_add {M : Type} [AddCommMonoid M] (term : Nat → M) (n : Nat) (s : M) :
    (List.range n).foldl (fun s k => s + term k) s = s + ∑ k ∈ Finset.range n, term k := by
  induction n with
  | zero => simp
  | succ n ih =>
      rw [List.range_succ, List.foldl_append, ih, List.foldl_cons, List.foldl_nil,
        Finset.sum_range_succ, add_assoc]

/-- A fold that adds exact terms gives their sum. -/
theorem DoubleDouble.foldl_range_rat (f : DoubleDouble Rat → Nat → DoubleDouble Rat)
    (term : Nat → Rat) (h : ∀ s k, f (ofScalar s) k = ofScalar (s + term k)) (n : Nat) (s : Rat) :
    (List.range n).foldl f (ofScalar s) = ofScalar (s + ∑ k ∈ Finset.range n, term k) :=
  (foldl_exact h _ s).trans (congrArg ofScalar (foldl_range_add term n s))

end Sums

namespace DenseMatrix

open DoubleDouble

section Exact

variable {a b c i m : DenseMatrix Rat}

theorem accumulate_rat (s x y : Rat) : accumulate (ofScalar s) x y = ofScalar (s + x * y) := by
  unfold accumulate
  split
  · rename_i h
    have h : x = 0 ∨ y = 0 := by simpa using h
    rw [mul_eq_zero.mpr h, add_zero]
  · rw [product_exact, add_exact]

theorem dot_rat (a b : DenseMatrix Rat) (r c : Nat) :
    dot a b r c = ∑ k ∈ Finset.range a.cols, a.entry r k * b.entry k c := by
  have hsum := foldl_range_rat (fun sum k => accumulate sum (a.entry r k) (b.entry k c))
    (fun k => a.entry r k * b.entry k c) (fun s k => accumulate_rat s _ _) a.cols 0
  calc dot a b r c = (ofScalar (0 + ∑ k ∈ Finset.range a.cols, a.entry r k * b.entry k c)).value :=
        congrArg DoubleDouble.value hsum
    _ = ∑ k ∈ Finset.range a.cols, a.entry r k * b.entry k c := zero_add _

theorem product_assoc (h : a.cols = b.rows) :
    product (product a b) c = product a (product b c) := by
  refine ext_entry rfl rfl fun r s hr hs => ?_
  have hr : r < a.rows := hr
  have hs : s < c.cols := hs
  have hleft : ∀ k ∈ Finset.range b.cols, (product a b).entry r k * c.entry k s =
      ∑ j ∈ Finset.range a.cols, a.entry r j * b.entry j k * c.entry k s := by
    intro k hk
    rw [entry_product hr (Finset.mem_range.mp hk), dot_rat, Finset.sum_mul]
  have hright : ∀ j ∈ Finset.range a.cols, a.entry r j * (product b c).entry j s =
      ∑ k ∈ Finset.range b.cols, a.entry r j * b.entry j k * c.entry k s := by
    intro j hj
    rw [entry_product (h ▸ Finset.mem_range.mp hj) hs, dot_rat, Finset.mul_sum]
    exact Finset.sum_congr rfl fun k _ => (mul_assoc _ _ _).symm
  rw [entry_product (a := product a b) hr hs, entry_product (b := product b c) hr hs, dot_rat,
    dot_rat, cols_product, Finset.sum_congr rfl hleft, Finset.sum_congr rfl hright,
    Finset.sum_comm]

theorem eq_of_beq_rat (h : (a == b) = true) : a = b := by
  obtain ⟨hrows, hcols, hentries⟩ := beq_iff.mp h
  exact ext_entry hrows hcols fun r c hr hc => same_rat_iff.mp (hentries r c hr hc)

theorem identity_product_rat (h : i.isIdentity = true) (hfit : i.cols = m.rows) :
    product i m = m :=
  eq_of_beq_rat (product_of_isIdentity_left h hfit)

theorem product_identity_rat (h : i.isIdentity = true) (hfit : m.cols = i.rows) :
    product m i = m :=
  eq_of_beq_rat (product_of_isIdentity_right h hfit)

end Exact

end DenseMatrix
end SeparableTransforms
