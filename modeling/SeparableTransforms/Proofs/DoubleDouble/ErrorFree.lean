import SeparableTransforms.Proofs.Binary64.Numbers
import SeparableTransforms.Proofs.Binary64.RoundingErrors
import SeparableTransforms.Proofs.DoubleDouble.Finiteness

/-!
# Error-free sums and products

A sum of two floats that does not overflow is kept without any error: its value is the
rounded sum, and its error is the number that the rounding left out.  The operations on the
way are exact, because each of their results is representable, and none of them overflows
but the first, which takes an operand from the rounded sum.  That one does overflow in a
corner: the sum may be almost as large as the largest float with the other sign, and an
operand as large.

The quick sum does the same in fewer steps, if the sum holds of the second operand what is
representable, and so does the product, if its error is not below the least unit.

Double-double numbers are added by such steps, and so what comes out can be said in rational
numbers: `holds_add` lists the rounded results on the way.
-/

namespace SeparableTransforms
namespace DoubleDouble

open Binary64

section Numbers

variable {p q s : ℚ}

/-- A rounded sum.  Neither it overflows nor what it holds of the second operand. -/
structure IsSum (p q s : ℚ) : Prop where
  near_eq : near (p + q) = s
  abs_lt : |s| < overflowLimit
  abs_rest_lt : |near (s - p)| < overflowLimit

/-- A rounded sum that does not overflow and that holds of the second operand what is
representable. -/
structure IsQuickSum (p q s : ℚ) : Prop where
  near_eq : near (p + q) = s
  abs_lt : |s| < overflowLimit
  representable : Representable (s - p)

/-- A sum that is not rounded. -/
theorem isQuickSum_exact (h : p + q = s) (hs : Representable s) (hq : Representable q)
    (hbound : |s| < overflowLimit) : IsQuickSum p q s := by
  subst h
  exact ⟨near_of_representable hs, hbound, by rwa [add_sub_cancel_left]⟩

theorem isSum_exact (h : p + q = s) (hs : Representable s) (hq : Representable q)
    (hbound : |s| < overflowLimit) (hbound' : |q| < overflowLimit) : IsSum p q s := by
  subst h
  exact ⟨near_of_representable hs, hbound, by rwa [add_sub_cancel_left, near_of_representable hq]⟩

/-- A rounded number and what rounding has left out. -/
theorem isQuickSum_residual (hbound : |near q| < overflowLimit) :
    IsQuickSum (near q) (q - near q) (near q) := by
  refine ⟨by rw [add_sub_cancel], hbound, ?_⟩
  rw [sub_self]
  exact representable_zero

/-- The larger operand comes first in a quick sum. -/
theorem isQuickSum_of_abs_le (hp : Representable p) (hq : Representable q) (hle : |q| ≤ |p|)
    (hbound : |near (p + q)| < overflowLimit) : IsQuickSum p q (near (p + q)) :=
  ⟨rfl, hbound, representable_near_add_sub hp hq hle⟩

end Numbers

section Sums

variable {a b : Float} {p q s : ℚ}

/-- The numbers that the two parts of a double-double number stand for. -/
structure Holds (x : DoubleDouble Float) (p e : ℚ) : Prop where
  value : Stands x.value p
  error : Stands x.error e

@[simp] theorem value_sum (a b : Float) : (sum a b).value = a + b := by
  unfold sum
  dsimp only
  split <;> rfl

theorem isSum_of_isFinite (ha : Stands a p) (hb : Stands b q)
    (hs : Scalar.isFinite (a + b) = true) (hv : Scalar.isFinite (a + b - a) = true) :
    IsSum p q (near (p + q)) :=
  ⟨rfl, (ha.add hb).isFinite_iff.mp hs,
    (((ha.add hb).stands hs).sub ha).isFinite_iff.mp hv⟩

/-- What a rounded sum leaves out is at most half of the largest unit. -/
theorem abs_residual_le (ha : Stands a p) (hb : Stands b q) (hs : near (p + q) = s)
    (hbound : |s| < overflowLimit) : |p + q - s| ≤ halfUnit := by
  subst hs
  have hrounds := ha.add hb
  have hfinite := hrounds.isFinite_iff.mpr hbound
  rw [abs_sub_comm, ← hrounds.number_eq hfinite]
  exact hrounds.abs_sub_le hfinite

/-- What a rounded sum holds of its second operand is not too large before it is rounded. -/
theorem abs_rest_lt (ha : Stands a p) (hb : Stands b q) (hs : near (p + q) = s)
    (hbound : |s| < overflowLimit) : |s - p| < overflowLimit := by
  have herror := abs_residual_le ha hb hs hbound
  have hsecond := hb.abs_le
  have hpos := halfUnit_pos
  have hlargest : largestNumber = overflowLimit - 2 * halfUnit := rfl
  have hrest := abs_sub q (p + q - s)
  rw [show q - (p + q - s) = s - p by ring] at hrest
  linarith

/-- The error of a sum is the number that rounding has left out. -/
theorem holds_sum (ha : Stands a p) (hb : Stands b q) (h : IsSum p q s) :
    Holds (sum a b) s (p + q - s) := by
  have herror := abs_residual_le ha hb h.near_eq h.abs_lt
  obtain ⟨rfl, hs, hv⟩ := h
  have hfinite := (ha.add hb).isFinite_iff.mpr hs
  have hvalue : sum a b = ⟨a + b, (a - (a + b - (a + b - a))) + (b - (a + b - a))⟩ := by
    unfold sum
    rw [if_pos hfinite]
  have hsum := (ha.add hb).stands hfinite
  have hdifference := (hsum.sub ha).stands ((hsum.sub ha).isFinite_iff.mpr hv)
  have herrors := sumErrors_near ha.representable hb.representable
  generalize near (near (p + q) - p) = v at hdifference herrors
  have hpos := halfUnit_pos
  have hlimit := overflowLimit_eq
  have hlargest : largestNumber = overflowLimit - 2 * halfUnit := rfl
  have hfirst := (hsum.sub hdifference).exact herrors.first (by
    have := abs_sub_abs_le_abs_sub (near (p + q) - v) p
    have := herrors.abs_firstRest_le
    have := ha.abs_le
    rw [abs_sub_comm p] at *
    linarith)
  have hfirstRest := (ha.sub hfirst).exact herrors.firstRest (by
    have := herrors.abs_firstRest_le
    linarith)
  have hsecondRest := (hb.sub hdifference).exact herrors.secondRest (by
    have := herrors.abs_secondRest_le
    linarith)
  have hresidual := (hfirstRest.add hsecondRest)
  rw [herrors.rests] at hresidual
  rw [hvalue]
  exact ⟨hsum, hresidual.exact herrors.residual (by linarith)⟩

theorem holds_quickSum (ha : Stands a p) (hb : Stands b q) (h : IsQuickSum p q s) :
    Holds (quickSum a b) s (p + q - s) := by
  have herror := abs_residual_le ha hb h.near_eq h.abs_lt
  have hbound := abs_rest_lt ha hb h.near_eq h.abs_lt
  obtain ⟨rfl, hs, hrest⟩ := h
  have hfinite := (ha.add hb).isFinite_iff.mpr hs
  have hvalue : quickSum a b = ⟨a + b, b - (a + b - a)⟩ := by
    unfold quickSum
    rw [if_pos hfinite]
  have hsum := (ha.add hb).stands hfinite
  have hpos := halfUnit_pos
  have hlimit := overflowLimit_eq
  have hresidual := representable_residual ha.representable hb.representable
  have hflip : p + q - near (p + q) = q - (near (p + q) - p) := by ring
  have hdifference := (hsum.sub ha).exact hrest hbound
  rw [hvalue]
  refine ⟨hsum, ?_⟩
  rw [hflip] at hresidual herror ⊢
  exact (hb.sub hdifference).exact hresidual (by linarith)

end Sums

section Products

variable {a b : Float} {p q : ℚ}

/-- The error of a product is the number that rounding has left out, if it is representable. -/
theorem holds_product (ha : Stands a p) (hb : Stands b q) (hbound : |near (p * q)| < overflowLimit)
    (h : Representable (p * q - near (p * q))) :
    Holds (product a b) (near (p * q)) (p * q - near (p * q)) := by
  have hrounds := ha.mul hb
  have hfinite := hrounds.isFinite_iff.mpr hbound
  have hvalue := hrounds.stands hfinite
  have herror := hrounds.abs_sub_le hfinite
  rw [hvalue.number_eq, abs_sub_comm] at herror
  have hpos := halfUnit_pos
  have hlimit := overflowLimit_eq
  rw [product_eq hfinite]
  refine ⟨hvalue, ?_⟩
  have hresidual := ha.fma hb hvalue.neg
  rw [← sub_eq_add_neg] at hresidual
  exact hresidual.exact h (by linarith)

theorem scale_ofScalar (h : Scalar.isFinite (a * b) = true) :
    (ofScalar a).scale b = quickSum (a * b) ((product a b).error + 0 * b) := by
  unfold scale ofScalar
  simp only [value_product, h, if_true]

theorem scale_ofScalar_of_not_finite (h : Scalar.isFinite (a * b) = false) :
    (ofScalar a).scale b = ofScalar (a * b) := by
  unfold scale
  simp only [value_product, ofScalar, h, Bool.false_eq_true, if_false]
  unfold product
  simp only [h, Bool.false_eq_true, if_false, ofScalar]

end Products

section Addition

variable {x y : DoubleDouble Float} {p e q f s t w s₁ w₂ s₂ : ℚ}

/-- The sum of two values, corrected by what it leaves out and by the sum of the errors. -/
def corrected (s t : DoubleDouble Float) : DoubleDouble Float :=
  quickSum (quickSum s.value (s.error + t.value)).value
    ((quickSum s.value (s.error + t.value)).error + t.error)

theorem add_eq_corrected (h : Scalar.isFinite (x.value + y.value) = true) :
    x + y = corrected (sum x.value y.value) (sum x.error y.error) := by
  show add x y = _
  unfold add
  simp only [value_sum, h, if_true]
  simp only [corrected, value_sum]

theorem add_eq_sum (h : Scalar.isFinite (x.value + y.value) = false) :
    x + y = sum x.value y.value := by
  show add x y = _
  unfold add
  simp only [value_sum, h, Bool.false_eq_true, if_false]

theorem value_add_of_not_finite (h : Scalar.isFinite (x.value + y.value) = false) :
    (x + y).value = x.value + y.value := by
  rw [add_eq_sum h, value_sum]

/-- The sum of two double-double numbers, by the numbers that are rounded on the way. -/
theorem holds_add (hx : Holds x p e) (hy : Holds y q f) (hs : IsSum p q s) (ht : IsSum e f t)
    (hw : near (p + q - s + t) = w) (hbound : |w| < overflowLimit) (h₁ : IsQuickSum s w s₁)
    (hw₂ : near (s + w - s₁ + (e + f - t)) = w₂) (h₂ : IsQuickSum s₁ w₂ s₂) :
    Holds (x + y) s₂ (s₁ + w₂ - s₂) := by
  have hvalues := holds_sum hx.value hy.value hs
  have herrors := holds_sum hx.error hy.error ht
  have hfinite : Scalar.isFinite (x.value + y.value) = true := by
    have hvalue := hvalues.value.isFinite
    rwa [value_sum] at hvalue
  have hfirst := hvalues.error.add herrors.value
  have hfirst' := hfirst.stands (hfirst.isFinite_iff.mpr (hw ▸ hbound))
  rw [hw] at hfirst'
  have hquick := holds_quickSum hvalues.value hfirst' h₁
  have hsmall : |s + w - s₁ + (e + f - t)| ≤ largestNumber := by
    have := abs_residual_le hx.error hy.error ht.near_eq ht.abs_lt
    have := abs_residual_le hvalues.value hfirst' h₁.near_eq h₁.abs_lt
    have := abs_add_le (s + w - s₁) (e + f - t)
    have hpos := halfUnit_pos
    have hlimit := overflowLimit_eq
    unfold largestNumber
    linarith
  have hsecond := hquick.error.add herrors.error
  have hsecond' := hsecond.stands (hsecond.isFinite hsmall)
  rw [hw₂] at hsecond'
  rw [add_eq_corrected hfinite]
  exact holds_quickSum hquick.value hsecond' h₂

end Addition

end DoubleDouble
end SeparableTransforms
