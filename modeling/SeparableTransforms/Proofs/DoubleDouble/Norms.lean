import SeparableTransforms.Proofs.DoubleDouble.Roots

/-!
# Norms

A norm is the root of a sum of squares.  As long as the sum does not overflow it is a number
that is not negative, with an error that is much smaller, and it is zero only if all of the
squares are.  The root of such a number is a positive number, or zero.  If a square or the sum
overflows, the sum is infinite from there on and has no root.

So a norm is undetermined not only if a value is, but also if the values are so large that the
sum of their squares overflows, and it is zero not only if all values are, but also if they
are so small that their squares are zero.
-/

namespace SeparableTransforms
namespace DoubleDouble

open Binary64
open Float.Model
open Float.Model.UnpackedFloat

section Sums

variable {x y : DoubleDouble Float} {a b : Float} {p q e f s w : ℚ}

/-- A number that is not negative, with an error that is much smaller. -/
structure Tally (x : DoubleDouble Float) (p e : ℚ) : Prop extends Holds x p e where
  small : |e| ≤ p / 2 ^ 52

theorem Tally.nonneg (h : Tally x p e) : 0 ≤ p := by
  have := (abs_nonneg e).trans h.small
  linarith

/-- A number that is not negative and one that is much smaller are added to an infinity, or to a
tally of about the same size. -/
theorem tally_quickSum (ha : Stands a s) (hb : Stands b w) (hw : |w| ≤ s / 2 ^ 40) :
    (IsInfinity .positive (quickSum a b).value ∧ Stands (quickSum a b).error 0 ∧ 0 < s) ∨
      ∃ s' r, Tally (quickSum a b) s' r ∧ s / 2 ≤ s' ∧ s' ≤ 2 * s := by
  have hnonneg : 0 ≤ s := by
    have := (abs_nonneg w).trans hw
    linarith
  obtain ⟨hlower, hupper⟩ := abs_le.mp hw
  have hrounds := ha.add hb
  have hsum : 0 ≤ s + w := by linarith
  cases hfinite : Scalar.isFinite (a + b) with
  | false =>
      refine .inl ⟨?_, ?_, hnonneg.lt_of_ne fun hzero => ?_⟩
      · rw [value_quickSum]
        exact hrounds.isInfinity hsum hfinite
      · unfold quickSum
        simp only [hfinite, Bool.false_eq_true, if_false]
        exact stands_zero
      · have hexact : s + w = 0 := by linarith
        rw [hexact] at hrounds
        exact absurd (hfinite.symm.trans hrounds.stands_zero.isFinite) Bool.false_ne_true
  | true =>
      have hbound := hrounds.isFinite_iff.mp hfinite
      have hvalue := holds_quickSum ha hb (isQuickSum_of_abs_le ha.representable hb.representable
        (by rw [abs_of_nonneg hnonneg]; linarith) hbound)
      have hgrid := ha.representable.onGrid_least.add hb.representable.onGrid_least
      have herror := hgrid.abs_near_sub_le_div
      rw [abs_of_nonneg hsum] at herror
      obtain ⟨hbelow, habove⟩ := abs_le.mp herror
      refine .inr ⟨_, _, ⟨hvalue, ?_⟩, by linarith, by linarith⟩
      rw [abs_sub_comm]
      linarith

/-- The rounded sums of the values and of the errors of two tallies. -/
theorem Tally.isSum (hx : Tally x p e) (hy : Tally y q f) (hs : |near (p + q)| < overflowLimit) :
    IsSum p q (near (p + q)) ∧ IsSum e f (near (e + f)) := by
  have hp := hx.nonneg
  have hq := hy.nonneg
  have hle : p ≤ near (p + q) := le_near (by linarith) hx.value.representable
  have hle' : q ≤ near (p + q) := le_near (by linarith) hy.value.representable
  have he := hx.small
  have hf := hy.small
  have herrors := abs_near_le_two_mul (e + f)
  have hrest := abs_near_le_two_mul (near (e + f) - e)
  have hsum := abs_add_le e f
  have hdifference := abs_sub (near (e + f)) e
  rw [abs_of_nonneg (hp.trans hle)] at hs
  refine ⟨⟨rfl, by rwa [abs_of_nonneg (hp.trans hle)], ?_⟩, ⟨rfl, by linarith, by linarith⟩⟩
  refine (abs_near_le ?_ (representable_near (p + q))).trans_lt hs
  rw [abs_of_nonneg (sub_nonneg.mpr hle)]
  linarith

/-- A number that is not negative is corrected twice by what is much smaller. -/
theorem tally_corrected {g : ℚ} (hx : Holds x s e) (hy : Holds y f g) (he : |e| ≤ s / 2 ^ 48)
    (hf : |f| ≤ s / 2 ^ 48) (hg : |g| ≤ s / 2 ^ 48) :
    (IsInfinity .positive (corrected x y).value ∧ 0 < s) ∨
      ∃ s' r, Tally (corrected x y) s' r ∧ s / 4 ≤ s' ∧ s' ≤ 4 * s := by
  have hlimit := (le_abs_self s).trans hx.value.abs_le
  have hnonneg := (abs_nonneg e).trans he
  unfold corrected
  have hfirst := hx.error.add hy.value
  have hsize := abs_add_le e f
  have hnear := abs_near_le_two_mul (e + f)
  have hfirst' := hfirst.stands (hfirst.isFinite (by linarith))
  rcases tally_quickSum hx.value hfirst' (by linarith) with
    ⟨hinfinity, hzero, hpos⟩ | ⟨s₁, r₁, hquick, hlower, hupper⟩
  · refine .inl ⟨?_, hpos⟩
    have herror := hzero.add hy.error
    rw [zero_add] at herror
    rw [value_quickSum]
    exact hinfinity.add_finite (herror.exact hy.error.representable hy.error.abs_lt).isFinite
  have hsmall := hquick.small
  have hsize₂ := abs_add_le r₁ g
  have hnear₂ := abs_near_le_two_mul (r₁ + g)
  have hsecond := hquick.error.add hy.error
  have hsecond' := hsecond.stands (hsecond.isFinite (by linarith))
  rcases tally_quickSum hquick.value hsecond' (by linarith) with
    ⟨hinfinity, -, hpos⟩ | ⟨s₂, r₂, hresult, hlower₂, hupper₂⟩
  · exact .inl ⟨hinfinity, by linarith⟩
  · exact .inr ⟨s₂, r₂, hresult, by linarith, by linarith⟩

/-- The sum of two tallies is infinite, or a tally of about the same size as the exact sum. -/
theorem Tally.add (hx : Tally x p e) (hy : Tally y q f) :
    (IsInfinity .positive (x + y).value ∧ 0 < p + q) ∨
      ∃ s r, Tally (x + y) s r ∧ (p + q) / 8 ≤ s ∧ s ≤ 8 * (p + q) := by
  have hnonneg : 0 ≤ p + q := add_nonneg hx.nonneg hy.nonneg
  have hrounds := hx.value.add hy.value
  cases hfinite : Scalar.isFinite (x.value + y.value) with
  | false =>
      refine .inl ⟨?_, hnonneg.lt_of_ne fun hzero => ?_⟩
      · rw [value_add_of_not_finite hfinite]
        exact hrounds.isInfinity hnonneg hfinite
      · rw [← hzero] at hrounds
        exact absurd (hfinite.symm.trans hrounds.stands_zero.isFinite) Bool.false_ne_true
  | true =>
      obtain ⟨hs, ht⟩ := hx.isSum hy (hrounds.isFinite_iff.mp hfinite)
      have hvalues := holds_sum hx.value hy.value hs
      have herrors := holds_sum hx.error hy.error ht
      have hgrid := hx.value.representable.onGrid_least.add hy.value.representable.onGrid_least
      have hclose := hgrid.abs_near_sub_le_div
      rw [abs_of_nonneg hnonneg] at hclose
      obtain ⟨hbelow, habove⟩ := abs_le.mp hclose
      rw [abs_sub_comm] at hclose
      have he := hx.small
      have hf := hy.small
      have hboth := abs_add_le e f
      have htwice := abs_near_le_two_mul (e + f)
      have hrest := abs_sub (e + f) (near (e + f))
      rw [add_eq_corrected hfinite]
      rcases tally_corrected hvalues herrors (by linarith) (by linarith) (by linarith) with
        ⟨hinfinity, hpos⟩ | ⟨s, r, hresult, hlower, hupper⟩
      · exact .inl ⟨hinfinity, by linarith⟩
      · exact .inr ⟨s, r, hresult, by linarith, by linarith⟩

end Sums

section Tallies

variable {x y : DoubleDouble Float} {v : Float} {zero zero' : Prop} {values : List Float}

/-- A tally that is zero under the given condition, or an infinity. -/
inductive IsTally (zero : Prop) (x : DoubleDouble Float) : Prop
  | number {p e : ℚ} (h : Tally x p e) (hzero : p = 0 ↔ zero)
  | infinity (h : IsInfinity .positive x.value) (hnonzero : ¬zero)

theorem isTally_zero : IsTally True (0 : DoubleDouble Float) :=
  .number (p := 0) (e := 0) ⟨⟨stands_zero, stands_zero⟩, by simp⟩ (iff_of_true rfl trivial)

theorem IsTally.infinite_or_finite (h : IsTally zero x) :
    IsInfinity .positive x.value ∨ Scalar.isFinite x.value = true := by
  cases h with
  | number h hzero => exact .inr h.value.isFinite
  | infinity h hnonzero => exact .inl h

/-- An infinite tally stays infinite. -/
theorem IsTally.add (hx : IsTally zero x) (hy : IsTally zero' y) :
    IsTally (zero ∧ zero') (x + y) := by
  have hvalue : IsInfinity .positive (x.value + y.value) → IsInfinity .positive (x + y).value := by
    intro h
    rwa [value_add_of_not_finite h.isFinite]
  cases hx with
  | infinity hx hnonzero =>
      refine .infinity (hvalue ?_) fun h => hnonzero h.1
      rcases hy.infinite_or_finite with hy | hy
      · exact hx.add_same hy
      · exact hx.add_finite hy
  | number hx hzero =>
      cases hy with
      | infinity hy hnonzero =>
          exact .infinity (hvalue (hy.finite_add hx.value.isFinite)) fun h => hnonzero h.2
      | number hy hzero' =>
          have hboth := add_eq_zero_iff_of_nonneg hx.nonneg hy.nonneg
          rcases hx.add hy with ⟨hinfinity, hpos⟩ | ⟨s, r, hsum, hlower, hupper⟩
          · refine .infinity hinfinity fun h => hpos.ne' ?_
            rwa [hboth, hzero, hzero']
          · refine .number hsum ?_
            rw [← hzero, ← hzero', ← hboth]
            constructor <;> intro <;> linarith

/-- What rounding leaves out of a square is rounded to something much smaller than the square. -/
theorem abs_near_residual_le {p : ℚ} (hp : 0 ≤ p) : |near (p - near p)| ≤ near p / 2 ^ 52 := by
  have herror := abs_near_sub_le p
  rw [abs_of_nonneg hp, abs_sub_comm] at herror
  have hnonneg := near_nonneg hp
  rcases eq_or_ne (unitExponent p) (-1074) with hleast | hunit
  · rw [near_of_abs_le_half_least (by rwa [hleast] at herror), abs_zero]
    exact div_nonneg hnonneg (by norm_num)
  rcases hp.eq_or_lt with rfl | hpos
  · simp
  have hunits : 2 ^ (52 + unitExponent p) ≤ p := by
    have h := units_le_abs hpos.ne'
    rw [abs_of_nonneg hp] at h
    exact h hunit
  have hexponent := le_unitExponent p
  have hvalue := le_near hunits (representable_zpow (by omega))
  have hresidual := abs_near_le herror (representable_zpow (by omega))
  rw [two_zpow_units] at hvalue
  have hhalf := two_zpow_pos (unitExponent p - 1)
  generalize (2 : ℚ) ^ (unitExponent p - 1) = half at *
  linarith

/-- A square is a tally, or infinite. -/
theorem isTally_product (h : Scalar.isNaN v = false) :
    IsTally ((v * v == 0) = true) (product v v) := by
  rcases finite_or_infinity_or_nan v with hfinite | ⟨s, hinfinity⟩ | hnan
  · have hv := stands_number hfinite
    have hrounds := hv.mul hv
    have hnonneg := mul_self_nonneg (number v)
    cases hproduct : Scalar.isFinite (v * v) with
    | false =>
        have hinfinity := hrounds.isInfinity hnonneg hproduct
        exact .infinity (by rwa [value_product]) hinfinity.beq_zero
    | true =>
        have hvalue := hrounds.stands hproduct
        have hresidual := hv.fma hv hvalue.neg
        rw [← sub_eq_add_neg] at hresidual
        have herror := hresidual.stands (isFinite_residual hfinite hfinite hproduct)
        rw [product_eq hproduct]
        exact .number ⟨⟨hvalue, herror⟩, abs_near_residual_le hnonneg⟩ hvalue.beq_zero_iff.symm
  · have hsquare : IsInfinity .positive (v * v) := by
      refine isInfinity_pack ?_
      rw [hinfinity]
      cases s <;> rfl
    exact .infinity (by rwa [value_product]) hsquare.beq_zero
  · exact absurd (h.symm.trans hnan) Bool.false_ne_true

/-- The sum of the squares of the values, as it is added up for their norm. -/
def sumOfSquares (values : List Float) : DoubleDouble Float :=
  values.foldl (fun sum v => sum + product v v) 0

theorem isTally_foldl_squares (hx : IsTally zero x) (h : ∀ v ∈ values, Scalar.isNaN v = false) :
    IsTally (zero ∧ ∀ v ∈ values, (v * v == 0) = true)
      (values.foldl (fun sum v => sum + product v v) x) := by
  induction values generalizing x zero with
  | nil => simpa using hx
  | cons v rest ih =>
      rw [List.forall_mem_cons] at h
      rw [List.foldl_cons, List.forall_mem_cons, ← and_assoc]
      exact ih (hx.add (isTally_product h.1)) h.2

/-- The sum of squares is a tally, unless a value is not determined. -/
theorem isTally_sumOfSquares (h : ∀ v ∈ values, Scalar.isNaN v = false) :
    IsTally (∀ v ∈ values, (v * v == 0) = true) (sumOfSquares values) := by
  have hsum := isTally_foldl_squares isTally_zero h
  rwa [true_and] at hsum

end Tallies

section Roots

variable {x : DoubleDouble Float} {zero : Prop}

/-- The root of a tally is zero, positive or not determined, as the tally is zero, positive or
infinite. -/
theorem IsTally.sqrt (h : IsTally zero x) :
    (Scalar.isNaN x.sqrt.value = true ∧ IsInfinity .positive x.value ∧ ¬zero) ∨
      ∃ c, Stands x.sqrt.value c ∧ 0 ≤ c ∧ (c = 0 ↔ zero) := by
  cases h with
  | infinity h hnonzero => exact .inl ⟨isNaN_sqrt_of_isInfinity h, h, hnonzero⟩
  | @number p e h hzero =>
      refine .inr ?_
      rcases h.nonneg.eq_or_lt with hp | hp
      · have hvalue := h.value
        rw [← hp] at hvalue
        rw [sqrt_of_stands_zero hvalue]
        exact ⟨0, stands_zero, le_rfl, iff_of_true rfl (hzero.mp hp.symm)⟩
      · obtain ⟨c, hc, hpos⟩ := exists_stands_sqrt h.toHolds hp (by linarith [h.small])
        exact ⟨c, hc, hpos.le, iff_of_false hpos.ne' fun h => hp.ne' (hzero.mpr h)⟩

end Roots

section Norms

variable {values : List Float} {x : Float} {undetermined zero : Prop} {c : ℚ}

/-- A result that is `NaN` under one condition, zero under another one, and positive otherwise. -/
structure IsDefinite (undetermined zero : Prop) (x : Float) : Prop where
  isNaN_iff : Scalar.isNaN x = true ↔ undetermined
  beq_zero_iff : (x == 0) = true ↔ zero
  pos : Scalar.isNaN x = false → (x == 0) = false → 0 < x

theorem isDefinite_of_isNaN (h : Scalar.isNaN x = true) (hundetermined : undetermined)
    (hzero : ¬zero) : IsDefinite undetermined zero x := by
  refine ⟨iff_of_true h hundetermined, iff_of_false ?_ hzero, fun hnot => ?_⟩
  · rw [beq_eq_false_of_isNaN h]
    exact Bool.false_ne_true
  · exact absurd (hnot.symm.trans h) Bool.false_ne_true

theorem isDefinite_of_stands (h : Stands x c) (hundetermined : ¬undetermined) (hc : 0 ≤ c)
    (hzero : c = 0 ↔ zero) : IsDefinite undetermined zero x := by
  refine ⟨iff_of_false ?_ hundetermined, h.beq_zero_iff.trans hzero, fun _ hnonzero => ?_⟩
  · rw [isNaN_of_isFinite h.isFinite]
    exact Bool.false_ne_true
  · rw [stands_zero.lt_iff h]
    refine hc.lt_of_ne fun heq => ?_
    exact absurd (hnonzero.symm.trans (h.beq_zero_iff.mpr heq.symm)) Bool.false_ne_true

/-- A norm is not determined if a value is not or if the sum of the squares overflows, it is zero if
all squares are, and it is positive otherwise. -/
theorem isDefinite_norm (values : List Float) :
    IsDefinite
      ((∃ v ∈ values, Scalar.isNaN v = true) ∨ IsInfinity .positive (sumOfSquares values).value)
      (∀ v ∈ values, (v * v == 0) = true) (norm values) := by
  by_cases hnan : ∃ v ∈ values, Scalar.isNaN v = true
  · obtain ⟨v, hv, hvnan⟩ := hnan
    refine isDefinite_of_isNaN (isNaN_norm hv hvnan) (.inl ⟨v, hv, hvnan⟩) fun h => ?_
    have hsquare := beq_eq_false_of_isNaN (AbsorbingScalar.isNaN_mul_left v hvnan) 0
    exact absurd (hsquare.symm.trans (h v hv)) Bool.false_ne_true
  · have hdetermined : ∀ v ∈ values, Scalar.isNaN v = false := by simpa using hnan
    rcases (isTally_sumOfSquares hdetermined).sqrt with
      ⟨hroot, hinfinity, hnonzero⟩ | ⟨c, hroot, hnonneg, hzero⟩
    · exact isDefinite_of_isNaN hroot (.inr hinfinity) hnonzero
    · refine isDefinite_of_stands hroot (not_or.mpr ⟨hnan, fun hinfinity => ?_⟩) hnonneg hzero
      have hnot := isNaN_of_isFinite hroot.isFinite
      exact absurd (hnot.symm.trans (isNaN_sqrt_of_isInfinity hinfinity)) Bool.false_ne_true

/-- A square is zero if it is at most half of the least float. -/
theorem square_beq_zero_iff (hx : Stands x c) : (x * x == 0) = true ↔ c ^ 2 ≤ 2 ^ (-1075 : ℤ) := by
  have hrounds := hx.mul hx
  rw [← pow_two] at hrounds
  have hiff := near_eq_zero_iff (x := c ^ 2)
  rw [abs_of_nonneg (sq_nonneg c)] at hiff
  rw [← hiff]
  cases hfinite : Scalar.isFinite (x * x) with
  | true => exact (hrounds.stands hfinite).beq_zero_iff
  | false =>
      have hinfinity := hrounds.isInfinity (sq_nonneg c) hfinite
      refine iff_of_false hinfinity.beq_zero fun hzero => ?_
      rw [hrounds.isFinite_iff.mpr (by rw [hzero, abs_zero]; exact two_zpow_pos _)] at hfinite
      cases hfinite

/-- The norm of an infinity is not determined, although none of the values is. -/
theorem not_all_isDefinite :
    ¬∀ values : List Float, IsDefinite (∃ v ∈ values, Scalar.isNaN v = true)
      (∀ v ∈ values, (v == 0) = true) (norm values) := by
  intro h
  have hnorm : Scalar.isNaN (norm [(1 : Float) / 0]) = true := by
    decide +kernel
  have hinfinity : Scalar.isNaN ((1 : Float) / 0) = false := by
    decide +kernel
  obtain ⟨v, hv, hnan⟩ := (h [1 / 0]).isNaN_iff.mp hnorm
  rw [List.mem_singleton.mp hv, hinfinity] at hnan
  cases hnan

end Norms

end DoubleDouble
end SeparableTransforms
