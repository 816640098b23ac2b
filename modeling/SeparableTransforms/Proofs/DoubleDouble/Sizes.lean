import SeparableTransforms.Proofs.Binary64.Quotients
import SeparableTransforms.Proofs.DoubleDouble.ErrorFree

/-!
# Sizes

A rounded result is at most twice as large as the exact one.  So the size of whatever is
computed by a fixed number of additions is bounded by the size of the operands times a power
of two, and nothing overflows if that is not too large.  The powers of two are not sharp.
They are meant for results that are far from overflowing.
-/

namespace SeparableTransforms

namespace Binary64

section Sizes

variable {x y z : Float} {p q c d : ℚ}

/-- A finite float of no more than the given size. -/
def Within (x : Float) (c : ℚ) : Prop :=
  ∃ q, Stands x q ∧ |q| ≤ c

theorem Stands.within (h : Stands x q) (hq : |q| ≤ c) : Within x c :=
  ⟨q, h, hq⟩

namespace Within

theorem isFinite (h : Within x c) : Scalar.isFinite x = true := by
  obtain ⟨q, hq, -⟩ := h
  exact hq.isFinite

theorem nonneg (h : Within x c) : 0 ≤ c := by
  obtain ⟨q, -, hq⟩ := h
  exact (abs_nonneg q).trans hq

theorem mono (h : Within x c) (hcd : c ≤ d) : Within x d := by
  obtain ⟨q, hx, hq⟩ := h
  exact ⟨q, hx, hq.trans hcd⟩

end Within

theorem within_zero (hc : 0 ≤ c) : Within 0 c :=
  stands_zero.within (by rwa [abs_zero])

theorem RoundsTo.within (h : RoundsTo x q) (hq : |q| ≤ c) (hc : c ≤ largestNumber) :
    Within x (2 * c) := by
  refine (h.stands (h.isFinite (hq.trans hc))).within ?_
  have := abs_near_le_two_mul q
  linarith

namespace Within

theorem neg (h : Within x c) : Within (-x) c := by
  obtain ⟨q, hx, hq⟩ := h
  exact hx.neg.within (by rwa [abs_neg])

theorem add (hx : Within x c) (hy : Within y c) (hc : 2 ^ 2 * c ≤ largestNumber) :
    Within (x + y) (2 ^ 2 * c) := by
  have hnonneg := hx.nonneg
  obtain ⟨p, hx, hp⟩ := hx
  obtain ⟨q, hy, hq⟩ := hy
  have hsize : |p + q| ≤ 2 * c := by
    have := abs_add_le p q
    linarith
  exact ((hx.add hy).within hsize (by linarith)).mono (by linarith)

theorem sub (hx : Within x c) (hy : Within y c) (hc : 2 ^ 2 * c ≤ largestNumber) :
    Within (x - y) (2 ^ 2 * c) := by
  rw [sub_eq_add_neg_float]
  exact hx.add hy.neg hc

theorem mul (hx : Within x c) (hy : Within y d) (hcd : c * d ≤ largestNumber) :
    Within (x * y) (2 * (c * d)) := by
  have hnonneg := hx.nonneg
  obtain ⟨p, hx, hp⟩ := hx
  obtain ⟨q, hy, hq⟩ := hy
  refine (hx.mul hy).within ?_ hcd
  rw [abs_mul]
  exact mul_le_mul hp hq (abs_nonneg q) hnonneg

/-- A quotient by a number other than zero. -/
theorem div (hx : Within x (|q| * c)) (hy : Stands y q) (hq : q ≠ 0) (hc : c ≤ largestNumber) :
    Within (x / y) (2 * c) := by
  obtain ⟨p, hx, hp⟩ := hx
  refine (hx.div hy hq).within ?_ hc
  rw [abs_div]
  exact (div_le_iff₀' (abs_pos.mpr hq)).mpr hp

end Within

end Sizes

end Binary64

namespace DoubleDouble

open Binary64

section Sizes

variable {a b : Float} {x y s t : DoubleDouble Float} {c d : ℚ}

/-- Both parts are finite and of no more than the given size. -/
structure PartsWithin (x : DoubleDouble Float) (c : ℚ) : Prop where
  value : Within x.value c
  error : Within x.error c

theorem PartsWithin.mono (h : PartsWithin x c) (hcd : c ≤ d) : PartsWithin x d :=
  ⟨h.value.mono hcd, h.error.mono hcd⟩

theorem PartsWithin.neg (h : PartsWithin x c) : PartsWithin (-x) c :=
  ⟨h.value.neg, h.error.neg⟩

theorem Within.ofScalar (h : Within a c) : PartsWithin (ofScalar a) c :=
  ⟨h, within_zero h.nonneg⟩

theorem partsWithin_sum (ha : Within a c) (hb : Within b c) (hc : 2 ^ 10 * c ≤ largestNumber) :
    PartsWithin (sum a b) (2 ^ 10 * c) := by
  have hnonneg := ha.nonneg
  have hvalue := ha.add hb (by linarith)
  have hv := hvalue.sub (ha.mono (d := 2 ^ 2 * c) (by linarith)) (by linarith)
  have hfirst :=
    (hvalue.mono (d := 2 ^ 4 * c) (by linarith)).sub (hv.mono (by linarith)) (by linarith)
  have hfirstRest :=
    (ha.mono (d := 2 ^ 6 * c) (by linarith)).sub (hfirst.mono (by linarith)) (by linarith)
  have hsecondRest :=
    (hb.mono (d := 2 ^ 4 * c) (by linarith)).sub (hv.mono (by linarith)) (by linarith)
  have herror := (hfirstRest.mono (d := 2 ^ 8 * c) (by linarith)).add
    (hsecondRest.mono (by linarith)) (by linarith)
  unfold sum
  rw [if_pos hvalue.isFinite]
  exact ⟨hvalue.mono (by linarith), herror.mono (by linarith)⟩

theorem partsWithin_quickSum (ha : Within a c) (hb : Within b c)
    (hc : 2 ^ 6 * c ≤ largestNumber) : PartsWithin (quickSum a b) (2 ^ 6 * c) := by
  have hnonneg := ha.nonneg
  have hvalue := ha.add hb (by linarith)
  have hrest := hvalue.sub (ha.mono (d := 2 ^ 2 * c) (by linarith)) (by linarith)
  have herror :=
    (hb.mono (d := 2 ^ 4 * c) (by linarith)).sub (hrest.mono (by linarith)) (by linarith)
  unfold quickSum
  rw [if_pos hvalue.isFinite]
  exact ⟨hvalue.mono (by linarith), herror.mono (by linarith)⟩

theorem partsWithin_corrected (hs : PartsWithin s c) (ht : PartsWithin t c)
    (hc : 2 ^ 16 * c ≤ largestNumber) : PartsWithin (corrected s t) (2 ^ 16 * c) := by
  have hnonneg := hs.value.nonneg
  have hfirst := hs.error.add ht.value (by linarith)
  have hquick := partsWithin_quickSum (hs.value.mono (d := 2 ^ 2 * c) (by linarith))
    (hfirst.mono (by linarith)) (by linarith)
  have hsecond := (hquick.error.mono (d := 2 ^ 8 * c) (by linarith)).add
    (ht.error.mono (by linarith)) (by linarith)
  exact (partsWithin_quickSum (hquick.value.mono (d := 2 ^ 10 * c) (by linarith))
    (hsecond.mono (by linarith)) (by linarith)).mono (by linarith)

theorem partsWithin_add (hx : PartsWithin x c) (hy : PartsWithin y c)
    (hc : 2 ^ 26 * c ≤ largestNumber) : PartsWithin (x + y) (2 ^ 26 * c) := by
  have hnonneg := hx.value.nonneg
  rw [add_eq_corrected (hx.value.add hy.value (by linarith)).isFinite]
  exact (partsWithin_corrected (partsWithin_sum hx.value hy.value (by linarith))
    (partsWithin_sum hx.error hy.error (by linarith)) (by linarith)).mono (by linarith)

theorem partsWithin_sub (hx : PartsWithin x c) (hy : PartsWithin y c)
    (hc : 2 ^ 26 * c ≤ largestNumber) : PartsWithin (x - y) (2 ^ 26 * c) :=
  partsWithin_add hx hy.neg hc

theorem partsWithin_product (ha : Within a c) (hb : Within b d)
    (h : 2 ^ 3 * (c * d) ≤ largestNumber) : PartsWithin (product a b) (2 ^ 3 * (c * d)) := by
  have hnonneg := mul_nonneg ha.nonneg hb.nonneg
  have hvalue := ha.mul hb (by linarith)
  obtain ⟨p, hp, hpc⟩ := ha
  obtain ⟨q, hq, hqd⟩ := hb
  have hsize : |p * q| ≤ c * d := by
    rw [abs_mul]
    exact mul_le_mul hpc hqd (abs_nonneg q) ((abs_nonneg p).trans hpc)
  obtain ⟨r, hr, hrcd⟩ := hvalue
  have hresidual : |p * q + -r| ≤ 2 ^ 2 * (c * d) := by
    have := abs_add_le (p * q) (-r)
    rw [abs_neg] at this
    linarith
  rw [product_eq hr.isFinite]
  exact ⟨hr.within (by linarith),
    ((hp.fma hq hr.neg).within hresidual (by linarith)).mono (by linarith)⟩

theorem partsWithin_scale (ha : Within a c) (hb : Within b d)
    (h : 2 ^ 11 * (c * d) ≤ largestNumber) :
    PartsWithin ((ofScalar a).scale b) (2 ^ 11 * (c * d)) := by
  have hnonneg := mul_nonneg ha.nonneg hb.nonneg
  have hproduct := partsWithin_product ha hb (by linarith)
  have hcross : Within ((0 : Float) * b) (2 ^ 3 * (c * d)) := by
    refine ((within_zero le_rfl).mul hb (by rw [zero_mul]; linarith)).mono ?_
    rw [zero_mul, mul_zero]
    positivity
  have hvalue := hproduct.value
  rw [value_product] at hvalue
  rw [scale_ofScalar hvalue.isFinite]
  exact (partsWithin_quickSum (hvalue.mono (d := 2 ^ 5 * (c * d)) (by linarith))
    ((hproduct.error.add hcross (by linarith)).mono (by linarith)) (by linarith)).mono (by linarith)

end Sizes

end DoubleDouble
end SeparableTransforms
