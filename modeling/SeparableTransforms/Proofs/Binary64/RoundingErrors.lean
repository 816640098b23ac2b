import SeparableTransforms.Proofs.Binary64.Nearest

/-!
# Rounding errors of sums

The rounding error of a sum of representable numbers is representable: it is a whole number
of the smaller one of their units, and it is no larger than either of them, because rounding
to the sum is no worse than rounding to one of the operands.

So the error can be computed, by operations each of which is exact in turn.  If the first
operand is the larger one, three of them do (`representable_near_add_sub`).  In general the
operands are first recovered from the sum as far as it holds them: `SumErrors` lists what is
representable on the way, and `sumErrors_near` shows it, in the order in which `DoubleDouble.sum`
computes it.
-/

namespace SeparableTransforms
namespace Binary64

section Sums

variable {a b s v x : ℚ} {e : ℤ}

/-- A sum has at most the next larger unit. -/
theorem unitExponent_add_le (h : a + b ≠ 0) (hab : |b| ≤ |a|) :
    unitExponent |a + b| ≤ unitExponent |a| + 1 := by
  refine unitExponent_le h (by have := le_unitExponent |a|; omega) ?_
  calc |a + b| ≤ |a| + |b| := abs_add_le a b
    _ < 2 ^ (53 + unitExponent |a|) + 2 ^ (53 + unitExponent |a|) := by
        have := abs_lt_units a
        linarith
    _ = 2 ^ (53 + (unitExponent |a| + 1)) := by
        rw [← two_zpow_succ]
        congr 1
        omega

/-- A whole number of units that are large enough is not rounded. -/
theorem near_eq_of_onGrid (h : OnGrid e x) (he : unitExponent |x| ≤ e) : near x = x :=
  near_of_representable (h.mono he)

theorem Representable.onGrid_add (ha : Representable a) (hb : Representable b)
    (h : unitExponent |b| ≤ unitExponent |a|) : OnGrid (unitExponent |b|) (a + b) :=
  (OnGrid.mono ha h).add hb

/-- Rounding keeps a whole number of units. -/
theorem OnGrid.near (h : OnGrid e x) : OnGrid e (near x) := by
  rcases le_total (unitExponent |x|) e with hunit | hunit
  · rwa [near_eq_of_onGrid h hunit]
  · exact (onGrid_near x).mono hunit

theorem representable_residual_of_le (ha : Representable a) (hb : Representable b)
    (h : unitExponent |b| ≤ unitExponent |a|) : Representable (a + b - near (a + b)) := by
  have hgrid := ha.onGrid_add hb h
  refine (hgrid.sub hgrid.near).representable (le_unitExponent _) ?_
  calc |a + b - near (a + b)| = |near (a + b) - (a + b)| := abs_sub_comm _ _
    _ ≤ |a - (a + b)| := ha.abs_near_sub_le
    _ = |b| := by rw [sub_add_cancel_left, abs_neg]
    _ ≤ 2 ^ (53 + unitExponent |b|) := (abs_lt_units b).le

/-- The rounding error of a sum is representable. -/
theorem representable_residual (ha : Representable a) (hb : Representable b) :
    Representable (a + b - near (a + b)) := by
  rcases le_total (unitExponent |b|) (unitExponent |a|) with h | h
  · exact representable_residual_of_le ha hb h
  · rw [add_comm]
    exact representable_residual_of_le hb ha h

/-- The rounding error of a product is representable, if the product of the units of the factors is
not below the least unit. -/
theorem representable_residual_mul {t : ℤ} (ha : OnGrid e a) (hb : OnGrid t b)
    (hae : |a| < 2 ^ (53 + e)) (hbt : |b| ≤ 2 ^ (53 + t)) (h : -1074 ≤ e + t) :
    Representable (a * b - near (a * b)) := by
  rcases eq_or_ne (a * b) 0 with hzero | hne
  · rw [hzero, near_zero, sub_zero]
    exact representable_zero
  have hgrid := ha.mul hb
  have hunit : unitExponent |a * b| ≤ 53 + (e + t) := by
    refine unitExponent_le hne (by omega) ?_
    calc |a * b| = |a| * |b| := abs_mul a b
      _ < 2 ^ (53 + e) * 2 ^ (53 + t) :=
          mul_lt_mul_of_lt_of_le_of_nonneg_of_pos hae hbt (abs_nonneg a) (two_zpow_pos _)
      _ = 2 ^ (53 + (53 + (e + t))) := by
          rw [← zpow_add₀ two_ne_zero]
          congr 1
          omega
  refine (hgrid.sub hgrid.near).representable h ?_
  rw [abs_sub_comm]
  exact (abs_near_sub_le _).trans (zpow_le_zpow_right₀ one_le_two (by omega))

/-- The rounding error of a sum is no larger than an operand. -/
theorem Representable.abs_residual_le (ha : Representable a) : |a + b - near (a + b)| ≤ |b| := by
  rw [abs_sub_comm]
  exact ha.abs_near_sub_le.trans_eq (by rw [sub_add_cancel_left, abs_neg])

/-- All but the last unit: a representable number has room for one unit more. -/
theorem Representable.abs_add_unit_le (ha : Representable a) :
    |a| + 2 ^ unitExponent |a| ≤ 2 ^ (53 + unitExponent |a|) := by
  have hlt := abs_lt_units a
  have hgrid : OnGrid (unitExponent |a|) (2 ^ (53 + unitExponent |a|) - |a|) :=
    (OnGrid.zpow (by omega)).sub (OnGrid.abs ha)
  have hunit := hgrid.zpow_le_abs (sub_pos.mpr hlt).ne'
  rw [abs_of_pos (sub_pos.mpr hlt)] at hunit
  linarith

/-- What a sum adds to its larger operand is representable. -/
theorem representable_near_add_sub (ha : Representable a) (hb : Representable b)
    (hab : |b| ≤ |a|) : Representable (near (a + b) - a) := by
  rcases eq_or_ne b 0 with rfl | hne
  · rw [add_zero, near_of_representable ha, sub_self]
    exact representable_zero
  rcases eq_or_ne (a + b) 0 with hsum | hsum
  · rw [hsum, near_zero, zero_sub]
    exact ha.neg
  have hunits : unitExponent |b| ≤ unitExponent |a| := unitExponent_mono hne hab
  rcases le_or_gt (unitExponent |a + b|) (unitExponent |b|) with hfine | hcoarse
  · rw [near_eq_of_onGrid (ha.onGrid_add hb hunits) hfine, add_sub_cancel_left]
    exact hb
  have hgrid := onGrid_near (a + b)
  have hdistance : |near (a + b) - a| ≤ 2 ^ (unitExponent |a + b| - 1) + |b| :=
    calc |near (a + b) - a| ≤ |near (a + b) - (a + b)| + |a + b - a| := abs_sub_le _ _ _
      _ ≤ 2 ^ (unitExponent |a + b| - 1) + |b| := by
          rw [add_sub_cancel_left]
          exact add_le_add_left (abs_near_sub_le _) _
  have hupper := unitExponent_add_le hsum hab
  rcases hupper.lt_or_eq with hless | heq
  · -- the units of the sum are no larger than those of the first operand
    refine (hgrid.sub (OnGrid.mono ha (by omega))).representable (le_unitExponent _) ?_
    have hsecond : |b| ≤ 2 ^ (52 + unitExponent |a + b|) :=
      (abs_lt_units b).le.trans (zpow_le_zpow_right₀ one_le_two (by omega))
    have hhalf : (2 : ℚ) ^ (unitExponent |a + b| - 1) ≤ 2 ^ (52 + unitExponent |a + b|) :=
      zpow_le_zpow_right₀ one_le_two (by omega)
    have hdouble := two_zpow_succ (52 + unitExponent |a + b|)
    rw [show 52 + unitExponent |a + b| + 1 = 53 + unitExponent |a + b| by omega] at hdouble
    linarith
  · refine ((hgrid.mono (by omega)).sub ha).representable (le_unitExponent _) ?_
    have hroom := ha.abs_add_unit_le
    rw [heq, add_sub_cancel_right] at hdistance
    linarith

/-- What the sum holds of the second operand is rounded by no more than the sum was. -/
theorem Representable.abs_near_sub_sub_le (hb : Representable b) :
    |near (s - a) - (s - a)| ≤ |a + b - s| := by
  refine hb.abs_near_sub_le.trans_eq ?_
  rw [sub_sub_eq_add_sub, add_comm]

theorem Representable.abs_sub_near_sub_le (hb : Representable b) :
    |b - near (s - a)| ≤ 2 * |a + b - s| := by
  have hnear := hb.abs_near_sub_sub_le (a := a) (s := s)
  have hsecond : b - near (s - a) = (a + b - s) + (s - a - near (s - a)) := by ring
  rw [abs_sub_comm] at hnear
  rw [hsecond]
  linarith [abs_add_le (a + b - s) (s - a - near (s - a))]

/-- A number is rounded in units that are at most half as large as those of a number next to it. -/
theorem Representable.sub_near_of_close (hb : Representable b)
    (hlarge : 2 ^ (52 + unitExponent |b|) ≤ |b|) (hleast : -1074 < unitExponent |b|)
    (hx : |b - x| ≤ 2 ^ unitExponent |b|) : Representable (b - near x) := by
  have hhalf : (2 : ℚ) ^ unitExponent |b| ≤ 2 ^ (51 + unitExponent |b|) :=
    zpow_le_zpow_right₀ one_le_two (by omega)
  have hdouble := two_zpow_succ (51 + unitExponent |b|)
  rw [show 51 + unitExponent |b| + 1 = 52 + unitExponent |b| by omega] at hdouble
  have hsize : 2 ^ (52 + (unitExponent |b| - 1)) ≤ |x| := by
    have := abs_sub_abs_le_abs_sub b x
    rw [show 52 + (unitExponent |b| - 1) = 51 + unitExponent |b| by omega]
    linarith
  have hgrid : OnGrid (unitExponent |b| - 1) (near x) :=
    (onGrid_near _).mono (le_unitExponent_of_le hsize)
  refine ((OnGrid.mono hb (by omega)).sub hgrid).representable (by omega) ?_
  have hnear := hb.abs_near_sub_le (x := x)
  have hrest := abs_sub_le b x (near x)
  rw [abs_sub_comm x] at hrest
  have htwo := two_zpow_succ (unitExponent |b|)
  have hroom : (2 : ℚ) ^ (unitExponent |b| + 1) ≤ 2 ^ (53 + (unitExponent |b| - 1)) :=
    zpow_le_zpow_right₀ one_le_two (by omega)
  linarith

/-- What is left of the second operand when the first one has been taken from the rounded sum, and
that difference has been rounded in turn. -/
theorem representable_sub_near_sub (ha : Representable a) (hb : Representable b)
    (hab : |a| < |b|) : Representable (b - near (near (a + b) - a)) := by
  have hrest := hb.abs_sub_near_sub_le (a := a) (s := near (a + b))
  have herror := abs_near_sub_le (a + b)
  rw [abs_sub_comm] at herror
  rcases eq_or_ne (near (a + b)) (a + b) with hexact | hne
  · rw [hexact, add_sub_cancel_left, near_of_representable hb, sub_self]
    exact representable_zero
  have ha0 : a ≠ 0 := by
    rintro rfl
    exact hne (by rw [zero_add, near_of_representable hb])
  have hsum : a + b ≠ 0 := by
    intro hzero
    exact hne (by rw [hzero, near_zero])
  have hunits : unitExponent |a| ≤ unitExponent |b| := unitExponent_mono ha0 hab.le
  have hgrid : OnGrid (unitExponent |a|) (a + b) := add_comm b a ▸ hb.onGrid_add ha hunits
  have hupper : unitExponent |a + b| ≤ unitExponent |b| + 1 := by
    rw [add_comm] at hsum ⊢
    exact unitExponent_add_le hsum hab.le
  rcases le_or_gt |a + b - near (a + b)| (2 ^ (52 + unitExponent |a|)) with hsmall | hlarge
  · refine ((OnGrid.mono hb hunits).sub (hgrid.near.sub ha).near).representable
      (le_unitExponent _) ?_
    have hdouble := two_zpow_succ (52 + unitExponent |a|)
    rw [show 52 + unitExponent |a| + 1 = 53 + unitExponent |a| by omega] at hdouble
    linarith
  · -- the first operand is below the units of the second one
    have hexponents : 52 + unitExponent |a| < unitExponent |a + b| - 1 :=
      (zpow_lt_zpow_iff_right₀ one_lt_two).mp (hlarge.trans_le herror)
    have hleast := le_unitExponent |a|
    have hb0 : b ≠ 0 := abs_pos.mp ((abs_nonneg a).trans_lt hab)
    refine hb.sub_near_of_close (units_le_abs hb0 (by omega)) (by omega) ?_
    rw [show b - (near (a + b) - a) = a + b - near (a + b) by ring]
    exact herror.trans (zpow_le_zpow_right₀ one_le_two (by omega))

/-- What is computed on the way from a rounded sum `s` of two operands to its rounding error: `v`
is what the sum holds of the second operand, and each difference is representable. -/
structure SumErrors (a b s v : ℚ) : Prop where
  first : Representable (s - v)
  firstRest : Representable (a - (s - v))
  secondRest : Representable (b - v)
  residual : Representable (a + b - s)
  abs_firstRest_le : |a - (s - v)| ≤ |a + b - s|
  abs_secondRest_le : |b - v| ≤ 2 * |a + b - s|

theorem SumErrors.rests (_ : SumErrors a b s v) : a - (s - v) + (b - v) = a + b - s := by
  ring

theorem sumErrors_near (ha : Representable a) (hb : Representable b) :
    SumErrors a b (near (a + b)) (near (near (a + b) - a)) := by
  have hresidual := representable_residual ha hb
  generalize hs : near (a + b) = s at hresidual ⊢
  have hexact : Representable (s - a) → SumErrors a b s (near (s - a)) := by
    intro hv
    rw [near_of_representable hv]
    have hsecond : b - (s - a) = a + b - s := by ring
    refine ⟨?_, ?_, hsecond ▸ hresidual, hresidual, ?_, ?_⟩
    · rwa [sub_sub_cancel]
    · rw [sub_sub_cancel, sub_self]
      exact representable_zero
    · rw [sub_sub_cancel, sub_self, abs_zero]
      exact abs_nonneg _
    · rw [hsecond]
      linarith [abs_nonneg (a + b - s)]
  rcases le_or_gt |b| |a| with hab | hab
  · exact hexact (hs ▸ representable_near_add_sub ha hb hab)
  rcases le_or_gt |a| |s| with has | has
  · have hs' : Representable s := hs ▸ representable_near _
    have hfirst := representable_near_add_sub hs' ha.neg (by rwa [abs_neg])
    have hrest := representable_residual hs' ha.neg
    rw [← sub_eq_add_neg] at hfirst hrest
    have hflip : a - (s - near (s - a)) = near (s - a) - (s - a) := by ring
    refine ⟨?_, ?_, hs ▸ representable_sub_near_sub ha hb hab, hresidual, ?_,
      hb.abs_sub_near_sub_le⟩
    · rw [← neg_sub]
      exact hfirst.neg
    · rw [hflip, ← neg_sub]
      exact hrest.neg
    · rw [hflip]
      exact hb.abs_near_sub_sub_le
  · -- the sum is smaller than both operands, and so it is exact
    have ha0 : a ≠ 0 := by
      rintro rfl
      exact absurd has (not_lt.mpr (by simp))
    have hsmall : |a + b| ≤ |a| := by
      by_contra hlarge
      rw [not_le] at hlarge
      have := nearest_mono (abs_nonneg a) hlarge.le
      rw [← abs_near, ← abs_near, near_of_representable ha, hs] at this
      exact absurd has (not_lt.mpr this)
    have hgrid : OnGrid (unitExponent |a|) (a + b) :=
      add_comm b a ▸ hb.onGrid_add ha (unitExponent_mono ha0 hab.le)
    have hsum : Representable (a + b) :=
      hgrid.representable (le_unitExponent _) (hsmall.trans (abs_lt_units a).le)
    refine hexact ?_
    rw [← hs, near_of_representable hsum, add_sub_cancel_left]
    exact hb

end Sums

end Binary64
end SeparableTransforms
