import SeparableTransforms.DoubleDouble.Basic
import SeparableTransforms.Proofs.Scalar.Exact

/-!
# Double-double numbers in exact arithmetic

If no operation rounds, every error term is zero, and each operation on double-double
numbers is the ordinary one on their values.  So nothing is gained from the corrections,
and nothing is lost: the first digit of a long division leaves no remainder, and a fold
that accumulates terms gives their sum.
-/

namespace SeparableTransforms
namespace DoubleDouble

universe u

section Operations

variable {α : Type u} [Scalar α] [ExactScalar α]

theorem product_exact (a b : α) : product a b = ofScalar (a * b) := by
  unfold product
  rw [if_pos (ExactScalar.isFinite_eq _), ExactScalar.fma_eq, ExactScalar.add_neg,
    ExactScalar.sub_self]
  rfl

theorem sum_exact (a b : α) : sum a b = ofScalar (a + b) := by
  simp only [sum, ofScalar, ExactScalar.isFinite_eq, if_true, ExactScalar.add_sub_cancel_left,
    ExactScalar.add_sub_cancel_right, ExactScalar.sub_self, ExactScalar.add_zero]

theorem quickSum_exact (a b : α) : quickSum a b = ofScalar (a + b) := by
  unfold quickSum
  rw [if_pos (ExactScalar.isFinite_eq _), ExactScalar.add_sub_cancel_left, ExactScalar.sub_self]
  rfl

theorem add_exact (a b : α) : ofScalar a + ofScalar b = ofScalar (a + b) := by
  show add (ofScalar a) (ofScalar b) = _
  simp only [add, ofScalar, sum_exact, quickSum_exact, ExactScalar.isFinite_eq, if_true,
    ExactScalar.add_zero]

theorem neg_exact (a : α) : -ofScalar a = ofScalar (-a) :=
  congrArg (DoubleDouble.mk (-a)) ExactScalar.neg_zero

theorem sub_exact (a b : α) : ofScalar a - ofScalar b = ofScalar (a - b) := by
  show ofScalar a + -ofScalar b = _
  rw [neg_exact, add_exact, ExactScalar.add_neg]

theorem mul_exact (a b : α) : ofScalar a * ofScalar b = ofScalar (a * b) := by
  show mul (ofScalar a) (ofScalar b) = _
  simp only [mul, ofScalar, product_exact, quickSum_exact, ExactScalar.isFinite_eq, if_true,
    ExactScalar.fma_eq, ExactScalar.zero_mul, ExactScalar.mul_zero, ExactScalar.add_zero]

theorem scale_exact (a b : α) : (ofScalar a).scale b = ofScalar (a * b) := by
  simp only [scale, ofScalar, product_exact, quickSum_exact, ExactScalar.isFinite_eq, if_true,
    ExactScalar.zero_mul, ExactScalar.add_zero]

/-- The first digit of a long division leaves no remainder. -/
theorem div_exact (a b : α) : ofScalar a / ofScalar b = ofScalar (a / b) := by
  have hremainder : ofScalar a - (ofScalar b).scale (a / b) = ofScalar (a - b * (a / b)) := by
    rw [scale_exact, sub_exact]
  have hrest : ofScalar (a - b * (a / b)) - (ofScalar b).scale 0 = ofScalar (a - b * (a / b)) := by
    rw [scale_exact, ExactScalar.mul_zero, sub_exact, ExactScalar.sub_zero]
  show (if Scalar.isFinite (a / b) then
    let r₁ := ofScalar a - (ofScalar b).scale (a / b)
    let r₂ := r₁ - (ofScalar b).scale (r₁.value / b)
    quickSum (a / b) (r₁.value / b) + ofScalar (r₂.value / b)
    else ofScalar (a / b)) = _
  rw [if_pos (ExactScalar.isFinite_eq _), hremainder]
  show quickSum (a / b) ((a - b * (a / b)) / b) +
    ofScalar ((ofScalar (a - b * (a / b)) - (ofScalar b).scale ((a - b * (a / b)) / b)).value / b)
      = _
  rw [ExactScalar.div_remainder, hrest, quickSum_exact]
  show ofScalar (a / b + 0) + ofScalar ((a - b * (a / b)) / b) = _
  rw [ExactScalar.div_remainder, add_exact, ExactScalar.add_zero, ExactScalar.add_zero]

theorem isZero_exact {a : α} : (ofScalar a).isZero = true ↔ a = 0 := by
  show (a == 0 && (0 : α) == 0) = true ↔ _
  rw [Bool.and_eq_true, ExactScalar.beq_iff, ExactScalar.beq_iff, and_iff_left rfl]

/-- A term with a zero coefficient would add nothing. -/
theorem addTerm_exact (s a x : α) : addTerm (ofScalar s) a x = ofScalar (s + a * x) := by
  unfold addTerm
  split
  · rename_i h
    rw [ExactScalar.beq_iff.mp h, ExactScalar.zero_mul, ExactScalar.add_zero]
  · rw [product_exact, add_exact]

end Operations

/-- A fold that adds exact terms gives their sum. -/
theorem foldl_exact {α : Type u} {β : Type} [Scalar α] {f : DoubleDouble α → β → DoubleDouble α}
    {term : β → α} (h : ∀ s k, f (ofScalar s) k = ofScalar (s + term k)) (ks : List β) (s : α) :
    ks.foldl f (ofScalar s) = ofScalar (ks.foldl (fun s k => s + term k) s) := by
  induction ks generalizing s with
  | nil => rfl
  | cons k rest ih => rw [List.foldl_cons, h, ih, List.foldl_cons]

end DoubleDouble
end SeparableTransforms
