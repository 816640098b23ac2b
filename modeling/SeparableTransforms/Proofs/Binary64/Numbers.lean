import SeparableTransforms.Proofs.Binary64.Finiteness
import SeparableTransforms.Proofs.Binary64.Nearest

/-!
# Floats as rational numbers

A finite float stands for a number, and an operation on finite floats rounds the number that
the exact operation gives.  So what a sequence of operations computes can be followed with
rational numbers, as long as every result is finite: `RoundsTo x q` says that the float `x`
is what the number `q` is rounded to, and that it is infinite if `q` is too large.

The largest float is the number `2 ^ 1024 - 2 ^ 971`.  Up to it every number is rounded to a
finite float, because rounding keeps the order.
-/

namespace SeparableTransforms
namespace Binary64

open Float.Model
open Float.Model.UnpackedFloat

section Values

variable {s : Sign} {u v : UnpackedFloat} {x q : ℚ}

/-- The number that a finite value stands for, and zero for the other values. -/
def value : UnpackedFloat → ℚ
  | .finite s m e _ => signed s (m * 2 ^ e)
  | _ => 0

theorem signed_zero (s : Sign) : signed s 0 = 0 := by
  cases s with
  | positive => rfl
  | negative => exact neg_zero

theorem Rounded.value_eq (h : Rounded s u x) : value u = signed s x := by
  cases h with
  | zero => exact (signed_zero s).symm
  | finite hpos hm he hform => rfl

theorem Rounded.isFinite (h : Rounded s u x) : u.isFinite = true := by
  cases h <;> rfl

theorem Rounds.value_eq (h : Rounds u q) : value u = near q := by
  obtain ⟨t, hrounded, hsign⟩ := h
  rw [hrounded.value_eq]
  cases t with
  | positive =>
      have hq : 0 ≤ q := hsign ▸ abs_nonneg q
      rw [near_of_nonneg hq]
      exact congrArg nearest (abs_of_nonneg hq)
  | negative =>
      have hneg : -|q| = q := hsign
      have hq : q ≤ 0 := hneg ▸ neg_nonpos.mpr (abs_nonneg q)
      rw [← neg_neg (near q), ← near_neg, near_of_nonneg (neg_nonneg.mpr hq), abs_of_nonpos hq]
      rfl

theorem value_neg (u : UnpackedFloat) : value u.neg = -value u := by
  cases u with
  | finite s m e hpos => exact signed_neg s _
  | _ => exact neg_zero.symm

theorem abs_value_finite {m : Nat} {e : Int} (hpos : 0 < m) :
    |value (.finite s m e hpos)| = m * 2 ^ e := by
  rw [value, abs_signed, abs_of_nonneg (mul_nonneg (Nat.cast_nonneg m) (two_zpow_pos e).le)]

/-- The least power of two that no float stands for. -/
def overflowLimit : ℚ :=
  2 ^ (1024 : ℤ)

/-- Half of the unit of the largest floats. -/
def halfUnit : ℚ :=
  2 ^ (970 : ℤ)

/-- The largest number that a float stands for. -/
def largestNumber : ℚ :=
  overflowLimit - 2 * halfUnit

theorem halfUnit_pos : 0 < halfUnit :=
  two_zpow_pos _

theorem overflowLimit_eq : overflowLimit = 2 ^ 54 * halfUnit := by
  rw [overflowLimit, halfUnit, ← zpow_natCast, ← zpow_add₀ two_ne_zero]
  rfl

theorem representable_overflowLimit : Representable overflowLimit :=
  representable_zpow (by norm_num)

theorem largestNumber_lt : largestNumber < overflowLimit := by
  have := halfUnit_pos
  unfold largestNumber
  linarith

theorem largestNumber_pos : 0 < largestNumber := by
  have := halfUnit_pos
  unfold largestNumber
  rw [overflowLimit_eq]
  linarith

theorem zpow_le_largestNumber {e : ℤ} (he : e ≤ 1023) : 2 ^ e ≤ largestNumber := by
  have hpos := halfUnit_pos
  have hlimit := overflowLimit_eq
  have hdouble : overflowLimit = 2 ^ (1023 : ℤ) + 2 ^ (1023 : ℤ) := two_zpow_succ 1023
  refine (zpow_le_zpow_right₀ one_le_two he).trans ?_
  unfold largestNumber
  generalize (2 : ℚ) ^ (1023 : ℤ) = half at *
  linarith

theorem one_le_largestNumber : 1 ≤ largestNumber :=
  zpow_le_largestNumber (e := 0) (by norm_num)

theorem largestNumber_eq : largestNumber = ((2 ^ 53 - 1 : ℤ) : ℚ) * 2 ^ (971 : ℤ) := by
  have hunit : (2 : ℚ) ^ (971 : ℤ) = 2 * halfUnit := by
    rw [show (971 : ℤ) = 970 + 1 by norm_num, zpow_add_one₀ two_ne_zero, mul_comm]
    rfl
  rw [largestNumber, overflowLimit_eq, hunit]
  push_cast
  ring

theorem representable_largestNumber : Representable largestNumber := by
  refine OnGrid.representable (e := 971) ⟨_, largestNumber_eq⟩ (by norm_num) ?_
  rw [abs_of_pos largestNumber_pos]
  exact largestNumber_lt.le

/-- A number overflows from the middle between the largest float and the limit on. -/
theorem abs_near_lt_iff : |near q| < overflowLimit ↔ |q| < overflowLimit - halfUnit := by
  have hpos := halfUnit_pos
  have hnear : |near q| = near |q| := by rw [abs_near, near_of_nonneg (abs_nonneg q)]
  rw [hnear]
  constructor
  · intro hless
    by_contra hlarge
    have hmono := near_mono (not_lt.mp hlarge)
    have hmiddle : near (overflowLimit - halfUnit) = overflowLimit := near_middle (by norm_num)
    rw [hmiddle] at hmono
    exact absurd hless (not_lt.mpr hmono)
  · intro hless
    rcases le_or_gt |q| largestNumber with hle | hgt
    · exact (near_le hle representable_largestNumber).trans_lt largestNumber_lt
    · have hclose := (abs_le.mp (representable_largestNumber.abs_near_sub_le (x := |q|))).2
      rw [abs_of_neg (sub_neg.mpr hgt)] at hclose
      unfold largestNumber at hclose
      linarith

theorem Canonical.abs_value_le (h : Canonical u) : |value u| ≤ largestNumber := by
  cases u with
  | finite s m e hpos =>
      obtain ⟨hm, -, he, -⟩ := h
      have hdigits : (m : ℚ) ≤ ((2 ^ 53 - 1 : ℤ) : ℚ) := by
        have : (m : ℤ) ≤ 2 ^ 53 - 1 := by omega
        exact_mod_cast this
      rw [abs_value_finite, largestNumber_eq]
      exact mul_le_mul hdigits (zpow_le_zpow_right₀ one_le_two he) (two_zpow_pos e).le
        (by norm_num)
  | _ => simpa [value] using largestNumber_pos.le

theorem Canonical.representable_value (h : Canonical u) : Representable (value u) := by
  cases u with
  | finite s m e hpos =>
      obtain ⟨hm, he, -, -⟩ := h
      have hgrid : OnGrid e (value (.finite s m e hpos)) := by
        refine ⟨s.apply m, ?_⟩
        rw [cast_apply, ← signed_mul]
        rfl
      refine hgrid.representable he ?_
      rw [abs_value_finite, zpow_add₀ two_ne_zero]
      exact mul_le_mul_of_nonneg_right (by exact_mod_cast hm.le) (two_zpow_pos e).le
  | _ => exact representable_zero

/-- What a float holds is not rounded. -/
theorem Canonical.rounds (h : Canonical u) (hu : u.isFinite = true) : Rounds u (value u) := by
  have hvalue := near_of_representable h.representable_value
  unfold Rounds
  rw [← abs_near, hvalue]
  cases u with
  | infinity s => cases hu
  | notANumber => cases hu
  | zero s =>
      refine ⟨s, ?_, ?_⟩
      · simpa [value] using Rounded.zero
      · simpa [value] using signed_zero s
  | finite s m e hpos =>
      obtain ⟨hm, he, -, hform⟩ := h
      rw [abs_value_finite]
      exact ⟨s, .finite hpos hm he hform, rfl⟩

end Values

section Comparison

variable {u v : UnpackedFloat}

theorem compare_magnitudes {m m' : Nat} {e e' : Int} {hpos : 0 < m} {hpos' : 0 < m'}
    (hc : Canonical (.finite .positive m e hpos))
    (hc' : Canonical (.finite .positive m' e' hpos')) :
    (compare e e').then (compare m m') = compare ((m : ℚ) * 2 ^ e) (m' * 2 ^ e') := by
  have hless := compare_digits hc hc'
  have hmore := compare_digits hc' hc
  rw [← Int.compare_swap, ← Nat.compare_swap, ← Ordering.swap_then] at hmore
  generalize (compare e e').then (compare m m') = o at hless hmore
  cases o with
  | lt => exact (compare_lt_iff_lt.mpr (hless.mp rfl)).symm
  | gt => exact (compare_gt_iff_gt.mpr (hmore.mp rfl)).symm
  | eq =>
      have hle : ¬(m : ℚ) * 2 ^ e < m' * 2 ^ e' := fun h => nomatch hless.mpr h
      have hge : ¬(m' : ℚ) * 2 ^ e' < m * 2 ^ e := fun h => nomatch hmore.mpr h
      exact (compare_eq_iff_eq.mpr (le_antisymm (not_lt.mp hge) (not_lt.mp hle))).symm

theorem compare_neg (x y : ℚ) : compare (-x) (-y) = compare y x := by
  rcases lt_trichotomy x y with h | rfl | h
  · rw [compare_gt_iff_gt.mpr h, compare_gt_iff_gt.mpr (neg_lt_neg h)]
  · rw [compare_eq_iff_eq.mpr rfl, compare_eq_iff_eq.mpr rfl]
  · rw [compare_lt_iff_lt.mpr h, compare_lt_iff_lt.mpr (neg_lt_neg h)]

/-- Finite values compare as the numbers that they stand for. -/
theorem compare_value (hcu : Canonical u) (hcv : Canonical v) (hu : u.isFinite = true)
    (hv : v.isFinite = true) : u.compare v = some (compare (value u) (value v)) := by
  have hpositive : ∀ {m : Nat} {e : Int}, 0 < m → (0 : ℚ) < m * 2 ^ e :=
    fun hm => mul_pos (Nat.cast_pos.mpr hm) (two_zpow_pos _)
  cases u with
  | infinity s => cases hu
  | notANumber => cases hu
  | zero s =>
      cases v with
      | infinity s => cases hv
      | notANumber => cases hv
      | zero s' => exact congrArg some (compare_eq_iff_eq.mpr rfl).symm
      | finite s' m' e' hpos' =>
          have h := hpositive (e := e') hpos'
          cases s' with
          | positive => exact congrArg some (compare_lt_iff_lt.mpr h).symm
          | negative => exact congrArg some (compare_gt_iff_gt.mpr (neg_neg_of_pos h)).symm
  | finite s m e hpos =>
      have h := hpositive (e := e) hpos
      cases v with
      | infinity s => cases hv
      | notANumber => cases hv
      | zero s' =>
          cases s with
          | positive => exact congrArg some (compare_gt_iff_gt.mpr h).symm
          | negative => exact congrArg some (compare_lt_iff_lt.mpr (neg_neg_of_pos h)).symm
      | finite s' m' e' hpos' =>
          have h' := hpositive (e := e') hpos'
          cases s with
          | positive =>
              cases s' with
              | positive => exact congrArg some (@compare_magnitudes _ _ _ _ hpos hpos' hcu hcv)
              | negative =>
                  exact congrArg some (compare_gt_iff_gt.mpr ((neg_neg_of_pos h').trans h)).symm
          | negative =>
              cases s' with
              | positive =>
                  exact congrArg some (compare_lt_iff_lt.mpr ((neg_neg_of_pos h).trans h')).symm
              | negative =>
                  refine congrArg some ?_
                  rw [Ordering.swap_then, Int.compare_swap, Nat.compare_swap,
                    @compare_magnitudes _ _ _ _ hpos' hpos hcv hcu]
                  exact (compare_neg _ _).symm

end Comparison

section Parts

variable {u v w : UnpackedFloat}

theorem signed_mul_signed (s s' : Sign) (x y : ℚ) :
    signed (s * s') (x * y) = signed s x * signed s' y := by
  cases s with
  | positive =>
      cases s' with
      | positive => rfl
      | negative => exact (mul_neg x y).symm
  | negative =>
      cases s' with
      | positive => exact (neg_mul x y).symm
      | negative => exact (neg_mul_neg x y).symm

theorem rounds_zero (s : Sign) : Rounds (.zero s) 0 :=
  Canonical.rounds (u := .zero s) trivial rfl

/-- A magnitude that is rounded with some sign. -/
theorem Rounded.rounds {s : Sign} {x : ℚ} (h : Rounded s u (nearest x)) (hx : 0 ≤ x) :
    Rounds u (signed s x) := by
  refine ⟨s, ?_, ?_⟩
  · rwa [abs_signed, abs_of_nonneg hx]
  · rw [abs_signed, abs_of_nonneg hx]

/-- A sum of finite values is rounded once. -/
theorem rounds_add_parts (hcu : Canonical u) (hcv : Canonical v) (hu : u.isFinite = true)
    (hv : v.isFinite = true) : Rounds (UnpackedFloat.add .binary64 u v) (value u + value v) := by
  cases u with
  | infinity s => cases hu
  | notANumber => cases hu
  | zero s =>
      cases v with
      | infinity s' => cases hv
      | notANumber => cases hv
      | zero s' =>
          rw [show value (.zero s) + value (.zero s') = 0 from add_zero 0]
          cases s <;> cases s' <;> exact rounds_zero _
      | finite s' m' e' hpos' =>
          rw [show value (.zero s) = 0 from rfl, zero_add]
          exact hcv.rounds rfl
  | finite s m e hpos =>
      cases v with
      | infinity s' => cases hv
      | notANumber => cases hv
      | zero s' =>
          rw [show value (.zero s') = 0 from rfl, add_zero]
          exact hcu.rounds rfl
      | finite s' m' e' hpos' => exact rounds_add s s' e e' hpos hpos'

/-- The exact product of finite values. -/
theorem value_exactProduct (hu : u.isFinite = true) (hv : v.isFinite = true) :
    value (exactProduct u v) = value u * value v := by
  cases u with
  | infinity s => cases hu
  | notANumber => cases hu
  | zero s =>
      cases v with
      | infinity s' => cases hv
      | notANumber => cases hv
      | zero s' => exact (zero_mul _).symm
      | finite s' m' e' hpos' => exact (zero_mul _).symm
  | finite s m e hpos =>
      cases v with
      | infinity s' => cases hv
      | notANumber => cases hv
      | zero s' => exact (mul_zero _).symm
      | finite s' m' e' hpos' =>
          show signed (s * s') ((m * m' : Nat) * 2 ^ (e + e')) = _
          rw [Nat.cast_mul, zpow_add₀ two_ne_zero, mul_mul_mul_comm, signed_mul_signed]
          rfl

/-- What the exact product stands for is rounded in the product. -/
theorem IsProduct.rounds (h : IsProduct u w) : Rounds w (value u) := by
  cases h with
  | zero s => exact rounds_zero s
  | finite h => exact h.rounds (mul_nonneg (Nat.cast_nonneg _) (two_zpow_pos _).le)

/-- An exact product and a finite value are added and rounded once. -/
theorem IsProduct.rounds_addExact {p : UnpackedFloat} (h : IsProduct u p) (hcw : Canonical w)
    (hw : w.isFinite = true) : Rounds (addExact u w) (value u + value w) := by
  cases w with
  | infinity s => cases hw
  | notANumber => cases hw
  | zero s =>
      rw [show value (.zero s) = 0 from rfl, add_zero]
      cases h with
      | zero s' =>
          show Rounds (UnpackedFloat.add .binary64 (.zero s') (.zero s)) 0
          cases s <;> cases s' <;> exact rounds_zero _
      | @finite s' m e hpos p h =>
          exact (rounded_round s' hpos e).rounds
            (mul_nonneg (Nat.cast_nonneg _) (two_zpow_pos _).le)
  | finite s m e hpos =>
      cases h with
      | zero s' =>
          rw [show value (.zero s') = 0 from rfl, zero_add]
          exact hcw.rounds rfl
      | @finite s' m' e' hpos' p h => exact rounds_add s' s e' e hpos' hpos

theorem sub_eq_add_neg_parts (u v : UnpackedFloat) :
    UnpackedFloat.sub .binary64 u v = UnpackedFloat.add .binary64 u v.neg := by
  cases u with
  | finite s m e hpos =>
      cases v with
      | finite s' m' e' hpos' =>
          have hsign : ∀ n : Nat, (-s').apply n = -s'.apply n := by
            cases s' <;> simp [Sign.apply]
          simp only [UnpackedFloat.sub, UnpackedFloat.add, UnpackedFloat.neg, hsign,
            Int.sub_eq_add_neg]
      | _ => rfl
  | _ => cases v <;> rfl

/-- The sum of the parts of two floats does not depend on the order of the two. -/
theorem add_comm_parts (u v : UnpackedFloat) :
    UnpackedFloat.add .binary64 u v = UnpackedFloat.add .binary64 v u := by
  cases u with
  | notANumber => cases v <;> rfl
  | infinity s =>
      cases v with
      | infinity s' => cases s <;> cases s' <;> rfl
      | _ => rfl
  | zero s =>
      cases v with
      | zero s' => cases s <;> cases s' <;> rfl
      | _ => rfl
  | finite s m e hpos =>
      cases v with
      | finite s' m' e' hpos' =>
          simp only [UnpackedFloat.add]
          rw [min_comm e' e, add_comm (s'.apply _)]
      | _ => rfl

end Parts

section Floats

variable {x y z : Float} {q r : ℚ}

/-- The number that a finite float stands for, and zero for the other floats. -/
def number (x : Float) : ℚ :=
  value x.toModel.unpack

/-- A float that holds what a number is rounded to, or an infinity with the sign of the number if
the number is too large. -/
structure RoundsTo (x : Float) (q : ℚ) : Prop where
  isNaN : Scalar.isNaN x = false
  isFinite_iff : Scalar.isFinite x = true ↔ |near q| < overflowLimit
  number_eq : Scalar.isFinite x = true → number x = near q
  signed_eq (s : Sign) : x.toModel.unpack = .infinity s → signed s |q| = q

theorem Rounds.roundsTo {u : UnpackedFloat} (h : Rounds u q) : RoundsTo (.ofModel (pack u)) q := by
  have hvalue := h.value_eq
  obtain ⟨t, hrounded, hsign⟩ := h
  have hunpack := hrounded.unpack_pack
  rw [← abs_near] at hunpack
  refine ⟨hrounded.isNaN_unpack_pack, ?_, fun hfinite => ?_, fun s hinfinity => ?_⟩
  · show (pack u).unpack.isFinite = true ↔ _
    rw [hunpack]
    split_ifs with hbound
    · exact iff_of_true hrounded.isFinite hbound
    · exact iff_of_false nofun hbound
  · change (pack u).unpack.isFinite = true at hfinite
    show value (pack u).unpack = near q
    rw [hunpack] at hfinite ⊢
    split_ifs at hfinite ⊢ with hbound
    · exact hvalue
    · cases hfinite
  · change (pack u).unpack = .infinity s at hinfinity
    rw [hunpack] at hinfinity
    split_ifs at hinfinity with hbound
    · have hfinite := hrounded.isFinite
      rw [hinfinity] at hfinite
      cases hfinite
    · cases hinfinity
      exact hsign

theorem representable_number (x : Float) : Representable (number x) :=
  (canonical_unpack _).representable_value

theorem abs_number_le (x : Float) : |number x| ≤ largestNumber :=
  (canonical_unpack _).abs_value_le

theorem roundsTo_add (hx : Scalar.isFinite x = true) (hy : Scalar.isFinite y = true) :
    RoundsTo (x + y) (number x + number y) :=
  (rounds_add_parts (canonical_unpack _) (canonical_unpack _) hx hy).roundsTo

theorem roundsTo_mul (hx : Scalar.isFinite x = true) (hy : Scalar.isFinite y = true) :
    RoundsTo (x * y) (number x * number y) := by
  have hproduct := (isProduct_unpack hx hy).rounds
  rw [value_exactProduct hx hy] at hproduct
  exact hproduct.roundsTo

theorem roundsTo_fma (hx : Scalar.isFinite x = true) (hy : Scalar.isFinite y = true)
    (hz : Scalar.isFinite z = true) :
    RoundsTo (Scalar.fma x y z) (number x * number y + number z) := by
  have hsum := (isProduct_unpack hx hy).rounds_addExact (canonical_unpack _) hz
  rw [value_exactProduct hx hy] at hsum
  exact hsum.roundsTo

theorem number_neg (x : Float) : number (-x) = -number x := by
  unfold number
  rw [unpack_neg, value_neg]

theorem isFinite_neg (x : Float) : Scalar.isFinite (-x) = Scalar.isFinite x := by
  show (-x).toModel.unpack.isFinite = x.toModel.unpack.isFinite
  rw [unpack_neg]
  cases x.toModel.unpack <;> rfl

theorem number_abs (x : Float) : number x.abs = |number x| := by
  unfold number
  rw [unpack_abs]
  cases x.toModel.unpack with
  | finite s m e hpos =>
      rw [abs_value_finite]
      rfl
  | _ => exact abs_zero.symm

theorem isFinite_abs (x : Float) : Scalar.isFinite x.abs = Scalar.isFinite x := by
  show x.abs.toModel.unpack.isFinite = x.toModel.unpack.isFinite
  rw [unpack_abs]
  cases x.toModel.unpack <;> rfl

theorem add_comm_float (x y : Float) : x + y = y + x :=
  congrArg (fun u => Float.ofModel (pack u)) (add_comm_parts _ _)

theorem sub_eq_add_neg_float (x y : Float) : x - y = x + -y := by
  show Float.ofModel (pack (UnpackedFloat.sub .binary64 x.toModel.unpack y.toModel.unpack)) =
    Float.ofModel (pack (UnpackedFloat.add .binary64 x.toModel.unpack (-y).toModel.unpack))
  rw [sub_eq_add_neg_parts, unpack_neg]

theorem roundsTo_sub (hx : Scalar.isFinite x = true) (hy : Scalar.isFinite y = true) :
    RoundsTo (x - y) (number x - number y) := by
  have hsum := roundsTo_add hx (y := -y) ((isFinite_neg y).trans hy)
  rwa [number_neg, ← sub_eq_add_neg, ← sub_eq_add_neg_float] at hsum

theorem compare_number (hx : Scalar.isFinite x = true) (hy : Scalar.isFinite y = true) :
    x.toModel.unpack.compare y.toModel.unpack = some (compare (number x) (number y)) :=
  compare_value (canonical_unpack _) (canonical_unpack _) hx hy

theorem lt_iff_number (hx : Scalar.isFinite x = true) (hy : Scalar.isFinite y = true) :
    x < y ↔ number x < number y := by
  rw [lt_iff_parts, UnpackedFloat.lt, compare_number hx hy, ← compare_lt_iff_lt]
  simp

theorem le_iff_number (hx : Scalar.isFinite x = true) (hy : Scalar.isFinite y = true) :
    x ≤ y ↔ number x ≤ number y := by
  have hparts : x ≤ y ↔ x.toModel.unpack.le y.toModel.unpack = true := decide_eq_true_iff
  rw [hparts, UnpackedFloat.le, compare_number hx hy, ← compare_le_iff_le, Option.any_some]
  cases compare (number x) (number y) <;> decide

theorem abs_le_abs_iff (hx : Scalar.isFinite x = true) (hy : Scalar.isFinite y = true) :
    x.abs ≤ y.abs ↔ |number x| ≤ |number y| := by
  rw [le_iff_number ((isFinite_abs x).trans hx) ((isFinite_abs y).trans hy), number_abs, number_abs]

theorem beq_iff_number (hx : Scalar.isFinite x = true) (hy : Scalar.isFinite y = true) :
    (x == y) = true ↔ number x = number y := by
  show x.toModel.unpack.beq y.toModel.unpack = true ↔ _
  rw [UnpackedFloat.beq, compare_number hx hy, ← compare_eq_iff_eq]
  simp

/-- Up to the largest float nothing overflows. -/
theorem RoundsTo.isFinite (h : RoundsTo x q) (hq : |q| ≤ largestNumber) :
    Scalar.isFinite x = true :=
  h.isFinite_iff.mpr ((abs_near_le hq representable_largestNumber).trans_lt largestNumber_lt)

/-- A finite float that stands for the given number. -/
structure Stands (x : Float) (q : ℚ) : Prop where
  isFinite : Scalar.isFinite x = true
  number_eq : number x = q

theorem stands_number (hx : Scalar.isFinite x = true) : Stands x (number x) :=
  ⟨hx, rfl⟩

theorem stands_zero : Stands 0 0 := by
  refine ⟨LawfulScalar.isFinite_zero, ?_⟩
  unfold number
  rw [unpack_zero]
  rfl

theorem stands_one : Stands 1 1 := by
  refine ⟨by decide +kernel, ?_⟩
  unfold number
  rw [unpack_one]
  norm_num [onePart, value, signed]

theorem Stands.representable (h : Stands x q) : Representable q :=
  h.number_eq ▸ representable_number x

theorem Stands.abs_le (h : Stands x q) : |q| ≤ largestNumber :=
  h.number_eq ▸ abs_number_le x

theorem Stands.abs_lt (h : Stands x q) : |q| < overflowLimit :=
  h.abs_le.trans_lt largestNumber_lt

theorem Stands.neg (h : Stands x q) : Stands (-x) (-q) :=
  ⟨(isFinite_neg x).trans h.isFinite, by rw [number_neg, h.number_eq]⟩

theorem Stands.add (hx : Stands x q) (hy : Stands y r) : RoundsTo (x + y) (q + r) := by
  have h := roundsTo_add hx.isFinite hy.isFinite
  rwa [hx.number_eq, hy.number_eq] at h

theorem Stands.sub (hx : Stands x q) (hy : Stands y r) : RoundsTo (x - y) (q - r) := by
  have h := roundsTo_sub hx.isFinite hy.isFinite
  rwa [hx.number_eq, hy.number_eq] at h

theorem Stands.mul (hx : Stands x q) (hy : Stands y r) : RoundsTo (x * y) (q * r) := by
  have h := roundsTo_mul hx.isFinite hy.isFinite
  rwa [hx.number_eq, hy.number_eq] at h

theorem Stands.fma {p : ℚ} (hx : Stands x q) (hy : Stands y r) (hz : Stands z p) :
    RoundsTo (Scalar.fma x y z) (q * r + p) := by
  have h := roundsTo_fma hx.isFinite hy.isFinite hz.isFinite
  rwa [hx.number_eq, hy.number_eq, hz.number_eq] at h

theorem Stands.lt_iff (hx : Stands x q) (hy : Stands y r) : x < y ↔ q < r := by
  rw [lt_iff_number hx.isFinite hy.isFinite, hx.number_eq, hy.number_eq]

theorem Stands.beq_zero_iff (h : Stands x q) : (x == 0) = true ↔ q = 0 := by
  rw [beq_iff_number h.isFinite stands_zero.isFinite, h.number_eq, stands_zero.number_eq]

/-- A rounded result that is finite. -/
theorem RoundsTo.stands (h : RoundsTo x q) (hx : Scalar.isFinite x = true) : Stands x (near q) :=
  ⟨hx, h.number_eq hx⟩

/-- A number that is representable and not too large is not rounded. -/
theorem RoundsTo.exact (h : RoundsTo x q) (hq : Representable q) (hbound : |q| < overflowLimit) :
    Stands x q := by
  have hnear := near_of_representable hq
  have hfinite := h.isFinite_iff.mpr (hnear.symm ▸ hbound)
  exact ⟨hfinite, (h.number_eq hfinite).trans hnear⟩

/-- What is rounded from zero is zero. -/
theorem RoundsTo.stands_zero (h : RoundsTo x 0) : Stands x 0 :=
  h.exact representable_zero (by rw [abs_zero]; exact two_zpow_pos _)

theorem Stands.zero_mul (hx : Stands x q) : Stands (0 * x) 0 := by
  have hrounds := Binary64.stands_zero.mul hx
  rw [MulZeroClass.zero_mul] at hrounds
  exact hrounds.stands_zero

/-- What is rounded to a finite float is moved by no more than half of the largest unit. -/
theorem RoundsTo.abs_sub_le (h : RoundsTo x q) (hx : Scalar.isFinite x = true) :
    |number x - q| ≤ halfUnit := by
  rw [h.number_eq hx]
  rcases eq_or_ne q 0 with rfl | hq
  · rw [near_zero, sub_self, abs_zero]
    exact (two_zpow_pos _).le
  have hbound : |q| < overflowLimit := by
    by_contra hlarge
    have hle := le_near (not_lt.mp hlarge) representable_overflowLimit
    rw [near_of_nonneg (abs_nonneg q), ← abs_near] at hle
    exact absurd (h.isFinite_iff.mp hx) (not_lt.mpr hle)
  have hunit : unitExponent |q| ≤ 971 := unitExponent_le hq (by norm_num) hbound
  exact (abs_near_sub_le q).trans (zpow_le_zpow_right₀ one_le_two (by omega))

end Floats

end Binary64
end SeparableTransforms
