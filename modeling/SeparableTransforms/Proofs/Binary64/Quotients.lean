import SeparableTransforms.Proofs.Binary64.Numbers

/-!
# Rounded quotients

A quotient is computed with as many binary digits as are needed, and what the division
leaves over tells where the exact quotient lies between two of the numbers that these digits
can make.  So it is rounded as if it were known exactly.
-/

namespace SeparableTransforms
namespace Binary64

open Float.Model
open Float.Model.UnpackedFloat

section Digits

variable {m n : Nat} {e e' : Int}

/-- The remainder of a division tells how the quotient is to be rounded. -/
theorem represents_fraction (m : Nat) (hn : 0 < n) :
    Represents (.ofMantissaAndAccuracy (m / n) (accuracyOfFraction (m % n) n)) (m / n : ℚ) := by
  have hn' : (0 : ℚ) < n := Nat.cast_pos.mpr hn
  have hless : ((m % n : Nat) : ℚ) < n := by exact_mod_cast Nat.mod_lt m hn
  have hfraction : (m : ℚ) / n - (m / n : Nat) = (m % n : Nat) / n := by
    rw [eq_div_iff hn'.ne', sub_mul, div_mul_cancel₀ _ hn'.ne', sub_eq_iff_eq_add]
    exact_mod_cast (Nat.mod_add_div' m n).symm
  have hnonneg : (0 : ℚ) ≤ (m % n : Nat) / n := div_nonneg (Nat.cast_nonneg _) hn'.le
  have hone : ((m % n : Nat) : ℚ) / n < 1 := (div_lt_one hn').mpr hless
  have hlower : ((m / n : Nat) : ℚ) ≤ m / n := by linarith
  have hupper : (m : ℚ) / n < (m / n : Nat) + 1 := by linarith
  unfold accuracyOfFraction
  split_ifs with hzero
  · rw [hzero, Nat.cast_zero, zero_div] at hfraction
    refine ⟨hlower, hupper, ?_, ?_⟩ <;> simp only [ExtendedMantissa.ofMantissaAndAccuracy] <;>
      rw [hfraction] <;> norm_num
  · have hpos : (0 : ℚ) < (m % n : Nat) / n :=
      div_pos (Nat.cast_pos.mpr (Nat.pos_of_ne_zero hzero)) hn'
    rcases Nat.lt_trichotomy (2 * (m % n)) n with hlt | heq | hgt
    · have hhalf : ((m % n : Nat) : ℚ) / n < 1 / 2 := by
        rw [div_lt_div_iff₀ hn' two_pos, mul_comm, one_mul]
        exact_mod_cast hlt
      rw [Nat.compare_eq_lt.mpr hlt]
      refine ⟨hlower, hupper, ?_, ?_⟩ <;> simp only [ExtendedMantissa.ofMantissaAndAccuracy] <;>
        rw [hfraction]
      · exact iff_of_false Bool.false_ne_true (not_le.mpr hhalf)
      · exact iff_of_true trivial ⟨hpos.ne', hhalf.ne⟩
    · have hhalf : ((m % n : Nat) : ℚ) / n = 1 / 2 := by
        rw [div_eq_div_iff hn'.ne' two_ne_zero, mul_comm, one_mul]
        exact_mod_cast heq
      rw [Nat.compare_eq_eq.mpr heq]
      refine ⟨hlower, hupper, ?_, ?_⟩ <;> simp only [ExtendedMantissa.ofMantissaAndAccuracy] <;>
        rw [hfraction, hhalf] <;> norm_num
    · have hhalf : 1 / 2 < ((m % n : Nat) : ℚ) / n := by
        rw [div_lt_div_iff₀ two_pos hn', mul_comm _ (2 : ℚ), one_mul]
        exact_mod_cast hgt
      rw [Nat.compare_eq_gt.mpr hgt]
      refine ⟨hlower, hupper, ?_, ?_⟩ <;> simp only [ExtendedMantissa.ofMantissaAndAccuracy] <;>
        rw [hfraction]
      · exact iff_of_true trivial hhalf.le
      · exact iff_of_true trivial ⟨hpos.ne', hhalf.ne'⟩

/-- A quotient has at most one binary digit less than the numbers of digits tell. -/
theorem sub_one_le_log_div (hm : 0 < m) (hn : 0 < n) (e e' : Int) :
    totalExponent m e - totalExponent n e' - 1 ≤ Int.log 2 ((m : ℚ) * 2 ^ e / (n * 2 ^ e')) := by
  have hm' : (0 : ℚ) < m * 2 ^ e := mul_pos (Nat.cast_pos.mpr hm) (two_zpow_pos e)
  have hn' : (0 : ℚ) < n * 2 ^ e' := mul_pos (Nat.cast_pos.mpr hn) (two_zpow_pos e')
  have hlow : (2 : ℚ) ^ (m.log2 : ℤ) ≤ m := by
    rw [zpow_natCast]
    exact_mod_cast Nat.log2_self_le hm.ne'
  have hhigh : (n : ℚ) ≤ 2 ^ (n.log2 + 1 : ℤ) := by
    rw [show (n.log2 + 1 : ℤ) = (n.log2 + 1 : Nat) by push_cast; rfl, zpow_natCast]
    exact_mod_cast Nat.lt_log2_self.le
  refine (Int.zpow_le_iff_le_log one_lt_two (div_pos hm' hn')).mp ?_
  rw [Nat.cast_ofNat, le_div_iff₀ hn']
  calc (2 : ℚ) ^ (totalExponent m e - totalExponent n e' - 1) * (n * 2 ^ e')
      ≤ 2 ^ (totalExponent m e - totalExponent n e' - 1) * (2 ^ (n.log2 + 1 : ℤ) * 2 ^ e') :=
        mul_le_mul_of_nonneg_left (mul_le_mul_of_nonneg_right hhigh (two_zpow_pos e').le)
          (two_zpow_pos _).le
    _ = 2 ^ (m.log2 : ℤ) * 2 ^ e := by
        rw [← zpow_add₀ two_ne_zero, ← zpow_add₀ two_ne_zero, ← zpow_add₀ two_ne_zero]
        congr 1
        unfold totalExponent
        omega
    _ ≤ m * 2 ^ e := mul_le_mul_of_nonneg_right hlow (two_zpow_pos e).le

/-- The quotient of two positive numbers that are given by digits is rounded once. -/
theorem rounded_divCore (s : Sign) (hm : 0 < m) (hn : 0 < n) (e e' : Int) :
    Rounded s
      (let (k, t, accuracy) := divCore .binary64 m e n e'
      roundWithAccuracy .binary64 s k t accuracy) (nearest (m * 2 ^ e / (n * 2 ^ e'))) := by
  have hn' : (0 : ℚ) < n := Nat.cast_pos.mpr hn
  have hlog := sub_one_le_log_div hm hn e e'
  unfold divCore
  dsimp only
  generalize ht : min (e - e')
    (Format.binary64.targetExponent (totalExponent m e - totalExponent n e')) = t
  generalize hk : (e - e' - t).toNat = k
  have hvalue : (m : ℚ) * 2 ^ e / (n * 2 ^ e') = ((m <<< k : Nat) : ℚ) / n * 2 ^ t := by
    have hshift : (2 : ℚ) ^ e = 2 ^ (k : ℤ) * 2 ^ t * 2 ^ e' := by
      rw [← zpow_add₀ two_ne_zero, ← zpow_add₀ two_ne_zero]
      congr 1
      omega
    rw [hshift, Nat.shiftLeft_eq, Nat.cast_mul, Nat.cast_pow, zpow_natCast]
    field_simp
    rfl
  have hquotient : (0 : ℚ) < ((m <<< k : Nat) : ℚ) / n := by
    refine div_pos (Nat.cast_pos.mpr ?_) hn'
    rw [Nat.shiftLeft_eq]
    exact Nat.mul_pos hm (Nat.two_pow_pos k)
  rw [hvalue] at hlog ⊢
  have hunit : t ≤ unitExponent (((m <<< k : Nat) : ℚ) / n * 2 ^ t) := by
    rw [targetExponent_eq] at ht
    unfold unitExponent
    omega
  refine rounded_roundWithAccuracy s hquotient (represents_fraction _ hn) ?_ hunit
  -- without digits the quotient would be below the unit that was aimed at
  refine or_iff_not_imp_left.mpr fun hzero => ?_
  have hless : ((m <<< k : Nat) : ℚ) / n < 1 := by
    rw [div_lt_one hn', Nat.cast_lt]
    exact (Nat.div_eq_zero_iff_lt hn).mp (Nat.eq_zero_of_not_pos hzero)
  have hbelow := (Int.lt_zpow_iff_log_lt one_lt_two (mul_pos hquotient (two_zpow_pos t))).mp
    (by exact_mod_cast mul_lt_of_lt_one_left (two_zpow_pos t) hless)
  rw [targetExponent_eq] at ht
  omega

end Digits

section Quotients

variable {u v : UnpackedFloat} {x y : Float} {p q : ℚ}

theorem signed_div_signed (s s' : Sign) (x y : ℚ) :
    signed (s / s') (x / y) = signed s x / signed s' y := by
  cases s with
  | positive =>
      cases s' with
      | positive => rfl
      | negative => exact (div_neg x).symm
  | negative =>
      cases s' with
      | positive => exact neg_div' y x
      | negative => exact (neg_div_neg_eq x y).symm

/-- A quotient of finite values is rounded once, if the divisor is not zero. -/
theorem rounds_div_parts (hu : u.isFinite = true) (hv : v.isFinite = true) (hne : value v ≠ 0) :
    Rounds (UnpackedFloat.div .binary64 u v) (value u / value v) := by
  cases v with
  | infinity s => cases hv
  | notANumber => cases hv
  | zero s => exact absurd rfl hne
  | finite s' n e' hn =>
      cases u with
      | infinity s => cases hu
      | notANumber => cases hu
      | zero s =>
          rw [show value (.zero s) = 0 from rfl, zero_div]
          exact rounds_zero _
      | finite s m e hm =>
          have h := (rounded_divCore (s / s') hm hn e e').rounds
            (div_nonneg (mul_nonneg (Nat.cast_nonneg m) (two_zpow_pos e).le)
              (mul_nonneg (Nat.cast_nonneg n) (two_zpow_pos e').le))
          rw [signed_div_signed] at h
          exact h

theorem Stands.div (hx : Stands x p) (hy : Stands y q) (hq : q ≠ 0) : RoundsTo (x / y) (p / q) := by
  have hne : value y.toModel.unpack ≠ 0 := fun h => hq (hy.number_eq.symm.trans h)
  have h := (rounds_div_parts hx.isFinite hy.isFinite hne).roundsTo
  rw [show value x.toModel.unpack = p from hx.number_eq,
    show value y.toModel.unpack = q from hy.number_eq] at h
  exact h

end Quotients

end Binary64
end SeparableTransforms
