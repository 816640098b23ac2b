import SeparableTransforms.Proofs.Binary64.Packing
import SeparableTransforms.Proofs.Scalar.Lawful

/-!
# Floats are lawful

Floats that are stored as equal have the same parts, or both of them are zero.
The arithmetic of floats is defined on the parts, so every law of `LawfulScalar`
is shown there and carried over by packing.
-/

namespace SeparableTransforms
namespace Binary64

open Float.Model
open Float.Model.UnpackedFloat

/-- Parts of floats that are stored as equal: zeros may differ in sign. -/
inductive Similar : UnpackedFloat → UnpackedFloat → Prop
  | refl (u : UnpackedFloat) : Similar u u
  | zeros (s s' : Sign) : Similar (.zero s) (.zero s')

namespace Similar

variable {u u' v v' w w' : UnpackedFloat}

theorem symm (h : Similar u v) : Similar v u := by
  cases h with
  | refl => exact .refl u
  | zeros s s' => exact .zeros s' s

theorem trans (h : Similar u v) (h' : Similar v w) : Similar u w := by
  cases h with
  | refl => exact h'
  | zeros s s' =>
      cases h' with
      | refl => exact .zeros s s'
      | zeros _ s'' => exact .zeros s s''

theorem isFinite_eq (h : Similar u v) : u.isFinite = v.isFinite := by
  cases h <;> rfl

theorem isNaN_eq (h : Similar u v) : u.isNaN = v.isNaN := by
  cases h <;> rfl

theorem neg (h : Similar u v) : Similar u.neg v.neg := by
  cases h with
  | refl => exact .refl _
  | zeros s s' => exact .zeros _ _

/-- A sum of zeros is a zero. -/
theorem add_zeros (s₁ s₂ s₁' s₂' : Sign) :
    Similar (.add .binary64 (.zero s₁) (.zero s₂)) (.add .binary64 (.zero s₁') (.zero s₂')) := by
  cases s₁ <;> cases s₂ <;> cases s₁' <;> cases s₂' <;> constructor

theorem add (hu : Similar u u') (hv : Similar v v') :
    Similar (.add .binary64 u v) (.add .binary64 u' v') := by
  cases hu with
  | refl =>
      cases hv with
      | refl => exact .refl _
      | zeros s s' =>
          cases u with
          | zero t => exact add_zeros t s t s'
          | _ => exact .refl _
  | zeros s s' =>
      cases hv with
      | refl =>
          cases v with
          | zero t => exact add_zeros s t s' t
          | _ => exact .refl _
      | zeros t t' => exact add_zeros s t s' t'

/-- A difference of zeros is a zero. -/
theorem sub_zeros (s₁ s₂ s₁' s₂' : Sign) :
    Similar (.sub .binary64 (.zero s₁) (.zero s₂)) (.sub .binary64 (.zero s₁') (.zero s₂')) := by
  cases s₁ <;> cases s₂ <;> cases s₁' <;> cases s₂' <;> constructor

theorem sub (hu : Similar u u') (hv : Similar v v') :
    Similar (.sub .binary64 u v) (.sub .binary64 u' v') := by
  cases hu with
  | refl =>
      cases hv with
      | refl => exact .refl _
      | zeros s s' =>
          cases u with
          | zero t => exact sub_zeros t s t s'
          | _ => exact .refl _
  | zeros s s' =>
      cases hv with
      | refl =>
          cases v with
          | zero t => exact sub_zeros s t s' t
          | _ => exact .refl _
      | zeros t t' => exact sub_zeros s t s' t'

theorem mul (hu : Similar u u') (hv : Similar v v') :
    Similar (.mul .binary64 u v) (.mul .binary64 u' v') := by
  cases hu with
  | refl =>
      cases hv with
      | refl => exact .refl _
      | zeros s s' => cases u <;> constructor
  | zeros s s' =>
      cases hv with
      | refl => cases v <;> constructor
      | zeros t t' => exact .zeros _ _

theorem exactProduct (hu : Similar u u') (hv : Similar v v') :
    Similar (exactProduct u v) (Binary64.exactProduct u' v') := by
  cases hu with
  | refl =>
      cases hv with
      | refl => exact .refl _
      | zeros s s' => cases u <;> constructor
  | zeros s s' =>
      cases hv with
      | refl => cases v <;> constructor
      | zeros t t' => exact .zeros _ _

theorem addExact (hu : Similar u u') (hv : Similar v v') :
    Similar (addExact u v) (Binary64.addExact u' v') := by
  cases hv with
  | refl =>
      cases hu with
      | refl => exact .refl _
      | zeros s s' =>
          cases v with
          | zero t => exact add_zeros s t s' t
          | _ => exact .refl _
  | zeros t t' =>
      cases hu with
      | refl =>
          cases u with
          | zero s => exact add_zeros s t s t'
          | _ => exact .refl _
      | zeros s s' => exact add_zeros s t s' t'

/-- Similar parts are packed into floats with similar parts. -/
theorem unpack_pack (h : Similar u v) :
    Similar (Float.Model.pack u).unpack (Float.Model.pack v).unpack := by
  cases h with
  | refl => exact .refl _
  | zeros s s' =>
      rw [Binary64.unpack_pack (u := .zero s) trivial, Binary64.unpack_pack (u := .zero s') trivial]
      exact .zeros s s'

end Similar

section Comparison

theorem sign_compare_eq {s s' : Sign} : compare s s' = .eq ↔ s = s' := by
  cases s <;> cases s' <;> simp [compare]

theorem similar_of_compare {u v : UnpackedFloat} (h : UnpackedFloat.compare u v = some .eq) :
    Similar u v := by
  unfold UnpackedFloat.compare at h
  split at h
  all_goals first
    | exact .zeros _ _
    | simp only [Option.some.injEq, reduceCtorEq, sign_compare_eq, Ordering.swap_eq_eq,
        Ordering.then_eq_eq, Std.compare_eq_iff_eq] at h
  -- what is left are two infinities and two finite values of either sign
  · rw [h]
    exact .refl _
  · obtain ⟨rfl, rfl⟩ := h
    exact .refl _
  · obtain ⟨rfl, rfl⟩ := h
    exact .refl _

theorem compare_of_similar {u v : UnpackedFloat} (h : Similar u v) (hn : u.isNaN = false) :
    UnpackedFloat.compare u v = some .eq := by
  cases h with
  | zeros s s' => rfl
  | refl =>
      cases u with
      | notANumber => cases hn
      | zero s => rfl
      | infinity s => cases s <;> rfl
      | finite s m e hm => cases s <;> simp [UnpackedFloat.compare]

/-- Floats are stored as equal exactly if their parts are similar. -/
theorem same_iff {x y : Float} : Same x y ↔ Similar x.toModel.unpack y.toModel.unpack := by
  show (x.toModel.unpack.compare y.toModel.unpack == some .eq ||
    (x.toModel.unpack.isNaN && y.toModel.unpack.isNaN)) = true ↔ _
  generalize x.toModel.unpack = u
  generalize y.toModel.unpack = v
  constructor
  · intro h
    rcases Bool.or_eq_true_iff.mp h with h | h
    · exact similar_of_compare (eq_of_beq h)
    · cases u <;> cases v <;> first | exact .refl _ | simp [UnpackedFloat.isNaN] at h
  · intro h
    rcases hn : u.isNaN with _ | _
    · rw [compare_of_similar h hn]
      rfl
    · rw [← h.isNaN_eq, hn]
      exact Bool.or_true _

end Comparison

section Zero

theorem zero_add_parts (u : UnpackedFloat) : Similar (.add .binary64 (.zero .positive) u) u := by
  cases u with
  | zero s => cases s <;> constructor
  | _ => exact .refl _

theorem add_zero_parts (u : UnpackedFloat) : Similar (.add .binary64 u (.zero .positive)) u := by
  cases u with
  | zero s => cases s <;> constructor
  | _ => exact .refl _

theorem sub_zero_parts (u : UnpackedFloat) : Similar (.sub .binary64 u (.zero .positive)) u := by
  cases u with
  | zero s => cases s <;> constructor
  | _ => exact .refl _

theorem normalize_zero (e : Int) : normalize .binary64 0 e .positive = .zero .positive :=
  rfl

theorem sub_self_parts {u : UnpackedFloat} (h : u.isFinite = true) :
    Similar (.sub .binary64 u u) (.zero .positive) := by
  cases u with
  | infinity s => cases h
  | notANumber => cases h
  | zero s => cases s <;> constructor
  | finite s m e hm =>
      simp only [UnpackedFloat.sub, Int.sub_self, normalize_zero]
      exact .refl _

end Zero

section One

/-- The parts of the float one. -/
def onePart : UnpackedFloat :=
  .finite .positive (2 ^ 52) (-52) (by decide)

/-- Shifting out digits that are all zero is exact. -/
theorem repeat_shiftRightOne (n m : Nat) :
    n.repeat ExtendedMantissa.shiftRightOne ⟨2 ^ n * m, false, false⟩ = ⟨m, false, false⟩ := by
  induction n generalizing m with
  | zero => simp [Nat.repeat]
  | succ n ih =>
      have hsplit : 2 ^ (n + 1) * m = 2 ^ n * (2 * m) := by rw [Nat.pow_succ, Nat.mul_assoc]
      rw [hsplit, Nat.repeat, ih (2 * m)]
      simp [ExtendedMantissa.shiftRightOne]

theorem log2_two_pow_mul (n : Nat) {m : Nat} (hm : m ≠ 0) : (2 ^ n * m).log2 = n + m.log2 := by
  induction n with
  | zero => simp
  | succ n ih =>
      have hne : 2 ^ n * m ≠ 0 := Nat.mul_ne_zero (Nat.ne_of_gt (Nat.two_pow_pos n)) hm
      rw [Nat.pow_succ', Nat.mul_assoc, Nat.log2_two_mul hne, ih]
      omega

theorem targetExponent_eq (t : Int) : Format.binary64.targetExponent t = max (t - 53) (-1074) :=
  rfl

variable {s : Sign} {k m : Nat} {e : Int} {hpos : 0 < m}

/-- A value in canonical form has its exponent restored, whatever zeros follow its mantissa. -/
theorem targetExponent_shifted (h : Canonical (.finite s m e hpos)) (k : Nat) :
    Format.binary64.targetExponent (totalExponent (2 ^ k * m) (e - k)) = e := by
  obtain ⟨hm, hlow, hhigh, hform⟩ := h
  have hlog := log2_two_pow_mul k (Nat.ne_of_gt hpos)
  have hlt : m.log2 < 53 := (Nat.log2_lt (Nat.ne_of_gt hpos)).mpr hm
  have hnormal : m.log2 = 52 ∨ e = -1074 := hform.imp_left fun hge => log2_eq_of_normal hge hm
  simp only [targetExponent_eq, totalExponent, hlog]
  omega

theorem shiftToTargetExponent_exact
    (h : Format.binary64.targetExponent (totalExponent (2 ^ k * m) (e - k)) = e) :
    shiftToTargetExponent .binary64 (2 ^ k * m) (e - k) .exact = (⟨m, false, false⟩, e) := by
  have hshift : (e - (e - (k : Int))).toNat = k := by omega
  have hback : e - (k : Int) + (k : Int) = e := by omega
  simp only [shiftToTargetExponent, h, shiftToExponent, hshift, hback,
    ExtendedMantissa.ofMantissaAndAccuracy]
  exact congrArg (·, e) (repeat_shiftRightOne k m)

theorem round_shifted (h : Canonical (.finite s m e hpos)) :
    roundWithAccuracy .binary64 s (2 ^ 52 * m) (e - 52) .exact = .finite s m e hpos := by
  have hfirst : shiftToTargetExponent .binary64 (2 ^ 52 * m) (e - 52) .exact =
      (⟨m, false, false⟩, e) :=
    shiftToTargetExponent_exact (targetExponent_shifted h 52)
  have hsecond : shiftToTargetExponent .binary64 m e .exact = (⟨m, false, false⟩, e) := by
    have := shiftToTargetExponent_exact (targetExponent_shifted h 0)
    simpa using this
  have hrounded : ExtendedMantissa.roundedMantissa ⟨m, false, false⟩ = m := rfl
  simp only [roundWithAccuracy, hfirst, hrounded, hsecond, Nat.ne_of_gt hpos, dite_false]

theorem one_mul_parts {u : UnpackedFloat} (h : Canonical u) :
    UnpackedFloat.mul .binary64 onePart u = u := by
  cases u with
  | notANumber => rfl
  | infinity s => cases s <;> rfl
  | zero s => cases s <;> rfl
  | finite s m e hm =>
      have hs : Sign.positive * s = s := by cases s <;> rfl
      have he : -52 + e = e - 52 := by omega
      simp only [onePart, UnpackedFloat.mul, hs, he]
      exact round_shifted h

/-- The rounding error of a product with one is zero. -/
theorem addExact_one_parts {u : UnpackedFloat} (hf : u.isFinite = true) :
    Similar (addExact (exactProduct onePart u) u.neg) (.zero .positive) := by
  cases u with
  | infinity s => cases hf
  | notANumber => cases hf
  | zero s => cases s <;> constructor
  | finite s m e hm =>
      have hs : Sign.positive * s = s := by cases s <;> rfl
      have hmin : min (-52 + e) e = -52 + e := by omega
      have hfirst : (-52 + e - (-52 + e)).toNat = 0 := by omega
      have hsecond : (e - (-52 + e)).toNat = 52 := by omega
      -- both summands stand over the exponent `e - 52`, with the same digits
      have hsum : s.apply (2 ^ 52 * m * 2 ^ 0 : Nat) + (-s).apply (m * 2 ^ 52 : Nat) = 0 := by
        rw [Nat.pow_zero, Nat.mul_one, Nat.mul_comm]
        cases s
        · exact Int.add_left_neg _
        · exact Int.add_right_neg _
      simp only [onePart, exactProduct, addExact, UnpackedFloat.neg, UnpackedFloat.add, hs, hmin,
        decreaseExponent, hfirst, hsecond, Nat.shiftLeft_eq, hsum, normalize_zero]
      exact .refl _

end One

section Constants

theorem unpack_zero : (0 : Float).toModel.unpack = .zero .positive := by
  have h : (0 : Float) = .ofModel (.pack (.zero .positive)) := by decide +kernel
  rw [h]
  exact unpack_pack trivial

theorem unpack_one : (1 : Float).toModel.unpack = onePart := by
  have h : (1 : Float) = .ofModel (.pack onePart) := by decide +kernel
  rw [h]
  exact unpack_pack ⟨by decide, by decide, by decide, by decide⟩

theorem unpack_neg (x : Float) : (-x).toModel.unpack = x.toModel.unpack.neg :=
  unpack_pack (canonical_unpack x.toModel).neg

/-- A float packed from parts that are similar to those of `y`. -/
theorem same_of_parts {u : UnpackedFloat} {y : Float} (h : Similar u y.toModel.unpack) :
    Same (Float.ofModel (.pack u)) y := by
  refine same_iff.mpr ?_
  have hy : (Float.Model.pack y.toModel.unpack).unpack = y.toModel.unpack :=
    unpack_pack (canonical_unpack y.toModel)
  exact hy ▸ h.unpack_pack

end Constants

end Binary64

open Binary64

instance : LawfulScalar Float where
  refl _ := same_iff.mpr (.refl _)
  symm h := same_iff.mpr (same_iff.mp h).symm
  trans h h' := same_iff.mpr ((same_iff.mp h).trans (same_iff.mp h'))
  isFinite_congr h := (same_iff.mp h).isFinite_eq
  neg_congr h := same_iff.mpr (same_iff.mp h).neg.unpack_pack
  add_congr h h' := same_iff.mpr ((same_iff.mp h).add (same_iff.mp h')).unpack_pack
  sub_congr h h' := same_iff.mpr ((same_iff.mp h).sub (same_iff.mp h')).unpack_pack
  mul_congr h h' := same_iff.mpr ((same_iff.mp h).mul (same_iff.mp h')).unpack_pack
  fma_congr h h' h'' := same_iff.mpr
    (((same_iff.mp h).exactProduct (same_iff.mp h')).addExact (same_iff.mp h'')).unpack_pack
  isNaN_zero := by decide +kernel
  isNaN_one := by decide +kernel
  one_ne_zero := by decide +kernel
  isFinite_zero := by decide +kernel
  zero_add x := same_of_parts (unpack_zero ▸ zero_add_parts x.toModel.unpack)
  add_zero x := same_of_parts (unpack_zero ▸ add_zero_parts x.toModel.unpack)
  sub_zero x := same_of_parts (unpack_zero ▸ sub_zero_parts x.toModel.unpack)
  one_mul x := by
    refine same_of_parts ?_
    rw [unpack_one, one_mul_parts (canonical_unpack x.toModel)]
    exact .refl _
  sub_self h := same_of_parts (unpack_zero ▸ sub_self_parts h)
  fma_one h := by
    refine same_of_parts ?_
    rw [unpack_one, unpack_neg, unpack_zero]
    exact addExact_one_parts h

end SeparableTransforms
