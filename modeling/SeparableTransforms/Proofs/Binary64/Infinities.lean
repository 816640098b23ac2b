import SeparableTransforms.Proofs.Binary64.Quotients
import SeparableTransforms.Proofs.DenseMatrix.Undetermined

/-!
# Infinite operands

A sum, a product or a difference is not finite if an operand is not.  A quotient is finite for
an infinite divisor, where it is zero, and that is the only exception.

An infinity that meets a finite operand in a sum stays what it is, two infinities of the same
sign do so as well, and two of different signs give `NaN`.
-/

namespace SeparableTransforms
namespace Binary64

open Float.Model
open Float.Model.UnpackedFloat

section Parts

variable {u v : UnpackedFloat}

theorem isFinite_pack_eq_false (h : u.isFinite = false) :
    Scalar.isFinite (Float.ofModel (pack u)) = false := by
  show (pack u).unpack.isFinite = false
  cases u with
  | notANumber => rw [unpack_pack (u := .notANumber) trivial]; rfl
  | infinity s => rw [unpack_pack (u := .infinity s) trivial]; rfl
  | zero s => cases h
  | finite s m e hpos => cases h

theorem isFinite_add_parts (h : u.isFinite = false ∨ v.isFinite = false) :
    (UnpackedFloat.add .binary64 u v).isFinite = false := by
  cases u with
  | notANumber => rfl
  | infinity s =>
      cases v with
      | infinity s' =>
          unfold UnpackedFloat.add
          dsimp only
          split <;> rfl
      | _ => rfl
  | zero s => cases v <;> simp_all [UnpackedFloat.add, UnpackedFloat.isFinite]
  | finite s m e hpos => cases v <;> simp_all [UnpackedFloat.add, UnpackedFloat.isFinite]

theorem isFinite_mul_parts (h : u.isFinite = false ∨ v.isFinite = false) :
    (UnpackedFloat.mul .binary64 u v).isFinite = false := by
  cases u with
  | notANumber => rfl
  | infinity s => cases v <;> rfl
  | zero s => cases v <;> simp_all [UnpackedFloat.mul, UnpackedFloat.isFinite]
  | finite s m e hpos => cases v <;> simp_all [UnpackedFloat.mul, UnpackedFloat.isFinite]

end Parts

section Finite

variable {x y : Float}

theorem isFinite_of_add (h : Scalar.isFinite (x + y) = true) :
    Scalar.isFinite x = true ∧ Scalar.isFinite y = true := by
  by_contra hparts
  rw [not_and_or, Bool.not_eq_true, Bool.not_eq_true] at hparts
  have hnot := isFinite_pack_eq_false (isFinite_add_parts hparts)
  exact absurd (hnot.symm.trans h) Bool.false_ne_true

theorem isFinite_of_mul (h : Scalar.isFinite (x * y) = true) :
    Scalar.isFinite x = true ∧ Scalar.isFinite y = true := by
  by_contra hparts
  rw [not_and_or, Bool.not_eq_true, Bool.not_eq_true] at hparts
  have hnot := isFinite_pack_eq_false (isFinite_mul_parts hparts)
  exact absurd (hnot.symm.trans h) Bool.false_ne_true

end Finite

section Undetermined

variable {x : Float}

theorem isNaN_neg (h : Scalar.isNaN x = true) : Scalar.isNaN (-x) = true := by
  show (-x).toModel.unpack.isNaN = true
  rw [unpack_neg, eq_notANumber h]
  rfl

theorem isNaN_div_left (h : Scalar.isNaN x = true) (y : Float) : Scalar.isNaN (x / y) = true :=
  isNaN_pack (by rw [eq_notANumber h]; rfl)

end Undetermined

section Infinities

variable {x y : Float} {s : Sign}

/-- The infinity of the given sign. -/
def IsInfinity (s : Sign) (x : Float) : Prop :=
  x.toModel.unpack = .infinity s

theorem isInfinity_pack {u : UnpackedFloat} (h : u = .infinity s) :
    IsInfinity s (.ofModel (pack u)) := by
  subst h
  exact unpack_pack (u := .infinity s) trivial

/-- A float is finite, infinite or not determined. -/
theorem finite_or_infinity_or_nan (x : Float) :
    Scalar.isFinite x = true ∨ (∃ s, IsInfinity s x) ∨ Scalar.isNaN x = true := by
  show x.toModel.unpack.isFinite = true ∨ (∃ s, x.toModel.unpack = .infinity s) ∨
    x.toModel.unpack.isNaN = true
  cases x.toModel.unpack with
  | finite s m e hpos => exact .inl rfl
  | zero s => exact .inl rfl
  | infinity s => exact .inr (.inl ⟨s, rfl⟩)
  | notANumber => exact .inr (.inr rfl)

theorem IsInfinity.isFinite (h : IsInfinity s x) : Scalar.isFinite x = false := by
  show x.toModel.unpack.isFinite = false
  rw [h]
  rfl

/-- What is too large and positive is rounded to the positive infinity. -/
theorem RoundsTo.isInfinity {q : ℚ} (h : RoundsTo x q) (hq : 0 ≤ q)
    (hx : Scalar.isFinite x = false) : IsInfinity .positive x := by
  rcases finite_or_infinity_or_nan x with hfinite | ⟨s, hinfinity⟩ | hnan
  · exact absurd (hx.symm.trans hfinite) Bool.false_ne_true
  · cases s with
    | positive => exact hinfinity
    | negative =>
        have hneg : -|q| = q := h.signed_eq .negative hinfinity
        have hzero : q = 0 := by linarith [abs_nonneg q]
        have hfinite := h.isFinite_iff.mpr (by
          rw [hzero, near_zero, abs_zero]
          exact two_zpow_pos _)
        exact absurd (hx.symm.trans hfinite) Bool.false_ne_true
  · exact absurd (h.isNaN.symm.trans hnan) Bool.false_ne_true

theorem IsInfinity.beq_zero (h : IsInfinity s x) : ¬(x == 0) = true := by
  show ¬x.toModel.unpack.beq (0 : Float).toModel.unpack = true
  rw [h, unpack_zero]
  cases s <;> exact Bool.false_ne_true

theorem IsInfinity.neg (h : IsInfinity s x) : IsInfinity (-s) (-x) := by
  show (-x).toModel.unpack = .infinity (-s)
  rw [unpack_neg, h]
  rfl

theorem IsInfinity.add_finite (h : IsInfinity s x) (hy : Scalar.isFinite y = true) :
    IsInfinity s (x + y) := by
  refine isInfinity_pack ?_
  change y.toModel.unpack.isFinite = true at hy
  rw [h]
  cases hv : y.toModel.unpack <;> rw [hv] at hy <;> first | rfl | cases hy

theorem IsInfinity.finite_add (h : IsInfinity s x) (hy : Scalar.isFinite y = true) :
    IsInfinity s (y + x) := by
  refine isInfinity_pack ?_
  change y.toModel.unpack.isFinite = true at hy
  rw [h]
  cases hv : y.toModel.unpack <;> rw [hv] at hy <;> first | rfl | cases hy

theorem IsInfinity.add_same (h : IsInfinity s x) (hy : IsInfinity s y) : IsInfinity s (x + y) := by
  refine isInfinity_pack ?_
  rw [h, hy]
  cases s <;> rfl

/-- Infinities of different signs have no sum. -/
theorem IsInfinity.isNaN_add (h : IsInfinity s x) (hy : IsInfinity (-s) y) :
    Scalar.isNaN (x + y) = true := by
  refine isNaN_pack ?_
  rw [h, hy]
  cases s <;> rfl

/-- What an infinity is divided by and then multiplied with has no effect on it. -/
theorem IsInfinity.mul_div (h : IsInfinity s x) (hy : Scalar.isFinite y = true)
    (hne : number y ≠ 0) : IsInfinity s (y * (x / y)) := by
  change y.toModel.unpack.isFinite = true at hy
  unfold number at hne
  cases hv : y.toModel.unpack with
  | infinity s' => rw [hv] at hy; cases hy
  | notANumber => rw [hv] at hy; cases hy
  | zero s' => rw [hv] at hne; exact absurd rfl hne
  | finite s' m e hpos =>
      have hquotient : IsInfinity (s / s') (x / y) := isInfinity_pack (by rw [h, hv]; rfl)
      refine isInfinity_pack ?_
      rw [hv, hquotient]
      cases s <;> cases s' <;> rfl

/-- A quotient is finite only if the dividend is, and the divisor is infinite or a number other
than zero. -/
theorem isFinite_of_div (h : Scalar.isFinite (x / y) = true) :
    Scalar.isFinite x = true ∧
      ((Scalar.isFinite y = true ∧ number y ≠ 0) ∨ ∃ s, IsInfinity s y) := by
  have hparts :
      (UnpackedFloat.div .binary64 x.toModel.unpack y.toModel.unpack).isFinite = true := by
    by_contra hnot
    rw [Bool.not_eq_true] at hnot
    exact absurd h (by rw [Bool.not_eq_true]; exact isFinite_pack_eq_false hnot)
  show x.toModel.unpack.isFinite = true ∧
    ((y.toModel.unpack.isFinite = true ∧ value y.toModel.unpack ≠ 0) ∨
      ∃ s, y.toModel.unpack = .infinity s)
  generalize x.toModel.unpack = u at hparts
  generalize y.toModel.unpack = v at hparts
  cases v with
  | infinity s => cases u <;> simp_all [UnpackedFloat.div, UnpackedFloat.isFinite]
  | notANumber => cases u <;> cases hparts
  | zero s => cases u <;> cases hparts
  | finite s m e hpos =>
      have hne : value (.finite s m e hpos) ≠ 0 := by
        rw [← abs_pos, abs_value_finite]
        exact mul_pos (Nat.cast_pos.mpr hpos) (two_zpow_pos e)
      cases u with
      | infinity s' => cases hparts
      | notANumber => cases hparts
      | _ => exact ⟨rfl, .inl ⟨rfl, hne⟩⟩

/-- A quotient by an infinity is zero, and zero times an infinity is not determined. -/
theorem IsInfinity.isNaN_mul_div (h : IsInfinity s x) (y : Float) :
    Scalar.isNaN (x * (y / x)) = true := by
  refine isNaN_pack ?_
  have hquotient :
      (∃ t, (y / x).toModel.unpack = .zero t) ∨ (y / x).toModel.unpack = .notANumber := by
    show (∃ t, (pack (UnpackedFloat.div .binary64 _ x.toModel.unpack)).unpack = .zero t) ∨
      (pack (UnpackedFloat.div .binary64 _ x.toModel.unpack)).unpack = .notANumber
    rw [h]
    cases y.toModel.unpack with
    | notANumber => exact .inr (unpack_pack (u := .notANumber) trivial)
    | infinity s' => exact .inr (unpack_pack (u := .notANumber) trivial)
    | zero s' => exact .inl ⟨_, unpack_pack (u := .zero _) trivial⟩
    | finite s' m e hpos => exact .inl ⟨_, unpack_pack (u := .zero _) trivial⟩
  rw [h]
  rcases hquotient with ⟨t, hzero⟩ | hnan
  · rw [hzero]
    rfl
  · rw [hnan]
    rfl

end Infinities

end Binary64
end SeparableTransforms
