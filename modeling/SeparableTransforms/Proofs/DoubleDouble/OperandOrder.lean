import SeparableTransforms.Proofs.DoubleDouble.SpecialValues

/-!
# Sums in either order

The sum of two floats with its rounding error does not depend on the order of the operands:
both orders round the same number, and what the rounding left out is found without an error
of its own.  If the larger operand comes first, the quick sum finds the same.

There is one corner.  The sum takes its first operand away from the rounded sum, and that
may overflow if the second operand is one of the two largest floats.  It does overflow
exactly if the rounded sum has moved from the exact one by half of the largest unit, to the
side of the largest float: then the difference is the middle between the largest float and
the limit.  The error is `NaN` there, while the sum in the other order is as it should be.
-/

namespace SeparableTransforms
namespace DoubleDouble

open Binary64

section Recovering

variable {a b : Float} {p q : ℚ}

/-- The first operand is one of the two largest floats, and the rounded sum has moved from the exact
one by half of the largest unit, to the side of that operand. -/
def RoundsPastLargest (a b : Float) : Prop :=
  (number a = largestNumber ∧ number (a + b) = number a + number b + halfUnit) ∨
    (number a = -largestNumber ∧ number (a + b) = number a + number b - halfUnit)

/-- A number no larger than the largest one, moved by half of the largest unit at most. -/
theorem limit_le_abs_add_iff {d : ℚ} (hp : |p| ≤ largestNumber) (hd : |d| ≤ halfUnit) :
    overflowLimit - halfUnit ≤ |p + d| ↔
      (p = largestNumber ∧ d = halfUnit) ∨ (p = -largestNumber ∧ d = -halfUnit) := by
  have hlimit : overflowLimit - halfUnit = largestNumber + halfUnit := by
    unfold largestNumber
    ring
  obtain ⟨hp₁, hp₂⟩ := abs_le.mp hp
  obtain ⟨hd₁, hd₂⟩ := abs_le.mp hd
  rw [hlimit]
  constructor
  · intro h
    rcases le_abs.mp h with hpos | hneg
    · exact .inl ⟨by linarith, by linarith⟩
    · exact .inr ⟨by linarith, by linarith⟩
  · rintro (⟨rfl, rfl⟩ | ⟨rfl, rfl⟩)
    · exact le_abs_self _
    · rw [← neg_add, abs_neg]
      exact le_abs_self _

/-- What a sum holds of an operand overflows in one corner only. -/
theorem isFinite_sub_iff (ha : Stands a p) (hb : Stands b q)
    (h : Scalar.isFinite (a + b) = true) :
    Scalar.isFinite (a + b - a) = true ↔ ¬RoundsPastLargest b a := by
  have hsum := hb.add ha
  rw [add_comm_float a b] at h ⊢
  have hmoved := hsum.abs_sub_le h
  have hdifference := (hsum.stands h).sub ha
  unfold RoundsPastLargest
  rw [hsum.number_eq h] at hmoved ⊢
  rw [ha.number_eq, hb.number_eq, hdifference.isFinite_iff, abs_near_lt_iff, ← not_le,
    show near (q + p) - p = q + (near (q + p) - (q + p)) by ring,
    limit_le_abs_add_iff hb.abs_le hmoved, sub_eq_iff_eq_add', sub_eq_iff_eq_add',
    ← sub_eq_add_neg]

/-- The larger operand may come first. -/
theorem not_roundsPastLargest (ha : Stands a p) (hb : Stands b q) (hle : |q| ≤ |p|)
    (h : Scalar.isFinite (a + b) = true) : ¬RoundsPastLargest b a := by
  have hsum := ha.add hb
  have hrest := representable_near_add_sub ha.representable hb.representable hle
  have hbound := abs_rest_lt ha hb rfl (hsum.isFinite_iff.mp h)
  exact (isFinite_sub_iff ha hb h).mp (((hsum.stands h).sub ha).exact hrest hbound).isFinite

/-- Outside of the corner a sum is kept without any error. -/
theorem holds_sum_of_not_roundsPastLargest (ha : Stands a p) (hb : Stands b q)
    (h : Scalar.isFinite (a + b) = true) (hnot : ¬RoundsPastLargest b a) :
    Holds (sum a b) (near (p + q)) (p + q - near (p + q)) :=
  holds_sum ha hb (isSum_of_isFinite ha hb h ((isFinite_sub_iff ha hb h).mpr hnot))

end Recovering

section Orders

variable {a b : Float} {x y : DoubleDouble Float} {p e : ℚ}

/-- Double-double numbers that hold the same parts are equal. -/
theorem Holds.beq (hx : Holds x p e) (hy : Holds y p e) : (x == y) = true := by
  show (x.value == y.value && x.error == y.error) = true
  rw [Bool.and_eq_true, beq_iff_number hx.value.isFinite hy.value.isFinite,
    beq_iff_number hx.error.isFinite hy.error.isFinite, hx.value.number_eq, hy.value.number_eq,
    hx.error.number_eq, hy.error.number_eq]
  exact ⟨rfl, rfl⟩

/-- A sum that does not depend on the order of its operands, and that the quick sum finds as well
where it may be used. -/
structure OrderFree (a b : Float) : Prop where
  isFinite_error : Scalar.isFinite (sum a b).error = true
  swapped : (sum a b == sum b a) = true
  quick : b.abs ≤ a.abs → (sum a b == quickSum a b) = true ∧ (sum b a == quickSum a b) = true

/-- What is known of a sum in both orders.  The order matters for the error only, and only in one
corner, in which the largest float must come first. -/
structure SumOrders (a b : Float) : Prop where
  value : ((sum a b).value == (sum b a).value) = true
  exact : ¬RoundsPastLargest b a →
    number (sum a b).value + number (sum a b).error = number a + number b
  largerFirst : b.abs ≤ a.abs →
    Scalar.isFinite (sum a b).error = true ∧ (sum a b == quickSum a b) = true
  orderFree : ¬RoundsPastLargest a b → ¬RoundsPastLargest b a → OrderFree a b
  undetermined : RoundsPastLargest a b → Scalar.isNaN (sum b a).error = true

/-- A sum that does not overflow, and so one of finite floats, is the same in both orders, with the
same finite error, unless the corner is met; and there the error is `NaN` if the largest float comes
second. -/
theorem sumOrders_of_isFinite (h : Scalar.isFinite (a + b) = true) : SumOrders a b := by
  obtain ⟨hfinite, hfinite'⟩ := isFinite_of_add h
  have ha := stands_number hfinite
  have hb := stands_number hfinite'
  have h' : Scalar.isFinite (b + a) = true := add_comm_float a b ▸ h
  have habs := abs_le_abs_iff hfinite' hfinite
  have hquick : b.abs ≤ a.abs → Holds (quickSum a b) (near (number a + number b))
      (number a + number b - near (number a + number b)) := fun hle =>
    holds_quickSum ha hb (isQuickSum_of_abs_le ha.representable hb.representable (habs.mp hle)
      ((ha.add hb).isFinite_iff.mp h))
  refine ⟨?_, fun hnot => ?_, fun hle => ?_, fun hnot hnot' => ?_, fun hpast => ?_⟩
  · rw [value_sum, value_sum, add_comm_float b a]
    exact (beq_iff_number h h).mpr rfl
  · have hfirst := holds_sum_of_not_roundsPastLargest ha hb h hnot
    rw [hfirst.value.number_eq, hfirst.error.number_eq, add_sub_cancel]
  · have hfirst := holds_sum_of_not_roundsPastLargest ha hb h
      (not_roundsPastLargest ha hb (habs.mp hle) h)
    exact ⟨hfirst.error.isFinite, hfirst.beq (hquick hle)⟩
  · have hfirst := holds_sum_of_not_roundsPastLargest ha hb h hnot'
    have hsecond := holds_sum_of_not_roundsPastLargest hb ha h' hnot
    rw [add_comm (number b)] at hsecond
    exact ⟨hfirst.error.isFinite, hfirst.beq hsecond,
      fun hle => ⟨hfirst.beq (hquick hle), hsecond.beq (hquick hle)⟩⟩
  · have hoverflow := mt (isFinite_sub_iff hb ha h').mp (not_not.mpr hpast)
    exact isNaN_error_sum h' (Bool.not_eq_true _ ▸ hoverflow)

/-- Three halves of the largest unit, with the other sign than the largest float. -/
def threeHalves : Float :=
  Float.ofBits 0xfca8000000000000

/-- The sum of the largest float and a float of the other sign that meets the corner. -/
theorem sumOrders_largest :
    Scalar.isFinite (largest + threeHalves) = true ∧ SumOrders largest threeHalves ∧
      RoundsPastLargest largest threeHalves := by
  have hfinite : Scalar.isFinite (largest + threeHalves) = true := by decide +kernel
  have hoverflow : Scalar.isFinite (threeHalves + largest - threeHalves) = false := by
    decide +kernel
  have hfinite' : Scalar.isFinite (threeHalves + largest) = true :=
    add_comm_float largest threeHalves ▸ hfinite
  obtain ⟨hthree, hlargest⟩ := isFinite_of_add hfinite'
  refine ⟨hfinite, sumOrders_of_isFinite hfinite, ?_⟩
  by_contra hnot
  have hrest := isFinite_sub_iff (stands_number hthree) (stands_number hlargest) hfinite'
  exact Bool.false_ne_true (hoverflow.symm.trans (hrest.mpr hnot))

/-- Not every sum that does not overflow has a finite error in both orders. -/
theorem not_all_orderFree :
    ¬∀ a b : Float, Scalar.isFinite a = true → Scalar.isFinite b = true →
      Scalar.isFinite (a + b) = true → OrderFree a b := by
  intro h
  have hfree := h threeHalves largest (by decide +kernel) (by decide +kernel) (by decide +kernel)
  have herror : Scalar.isFinite (sum threeHalves largest).error = false := by decide +kernel
  exact Bool.false_ne_true (herror.symm.trans hfree.isFinite_error)

end Orders

end DoubleDouble
end SeparableTransforms
