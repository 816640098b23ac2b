import SeparableTransforms.Proofs.Binary64.Rounding
import SeparableTransforms.Proofs.DenseMatrix.Neutral
import SeparableTransforms.Proofs.DenseMatrix.Undetermined

/-!
# The order of floats

Non-negative finite floats are ordered as the numbers that they stand for.  One
float is `Dominated` by another if both are such floats, in this order, or if the
other one has left their range and is infinite or not a number at all.  Whatever
exceeds the other one exceeds the first, and products and conversions from natural
numbers, which round, keep the relation.
-/

namespace SeparableTransforms
namespace Binary64

open Float.Model
open Float.Model.UnpackedFloat

section Values

variable {u v w : UnpackedFloat} {p q : ℚ}

/-- The number that a non-negative finite value stands for. -/
inductive Measures : UnpackedFloat → ℚ → Prop
  | zero (s : Sign) : Measures (.zero s) 0
  | finite {m : Nat} {e : Int} (hpos : 0 < m) : Measures (.finite .positive m e hpos) (m * 2 ^ e)

theorem Measures.nonneg (h : Measures u p) : 0 ≤ p := by
  cases h with
  | zero s => exact le_rfl
  | finite hpos => exact mul_nonneg (Nat.cast_nonneg _) (two_zpow_pos _).le

theorem Canonical.abs (h : Canonical u) : Canonical u.abs := by
  cases u <;> exact h

/-- A smaller exponent makes a smaller number, because the larger exponent comes with all digits. -/
theorem digits_lt_digits {m m' : Nat} {e e' : Int} {hpos : 0 < m} {hpos' : 0 < m'}
    (hc : Canonical (.finite .positive m e hpos)) (hc' : Canonical (.finite .positive m' e' hpos'))
    (h : e < e') : (m : ℚ) * 2 ^ e < m' * 2 ^ e' := by
  obtain ⟨hm, he, -, -⟩ := hc
  obtain ⟨-, -, -, hform⟩ := hc'
  have hm' : 2 ^ 52 ≤ m' := hform.resolve_right (by omega)
  calc (m : ℚ) * 2 ^ e < 2 ^ (53 : ℤ) * 2 ^ e :=
        mul_lt_mul_of_pos_right (by exact_mod_cast hm) (two_zpow_pos e)
    _ = 2 ^ (53 + e) := (zpow_add₀ two_ne_zero _ _).symm
    _ ≤ 2 ^ (52 + e') := zpow_le_zpow_right₀ one_le_two (by omega)
    _ = 2 ^ (52 : ℤ) * 2 ^ e' := zpow_add₀ two_ne_zero _ _
    _ ≤ m' * 2 ^ e' :=
        mul_le_mul_of_nonneg_right (by exact_mod_cast hm') (two_zpow_pos e').le

theorem compare_digits {m m' : Nat} {e e' : Int} {hpos : 0 < m} {hpos' : 0 < m'}
    (hc : Canonical (.finite .positive m e hpos))
    (hc' : Canonical (.finite .positive m' e' hpos')) :
    (compare e e').then (compare m m') = .lt ↔ (m : ℚ) * 2 ^ e < m' * 2 ^ e' := by
  rcases lt_trichotomy e e' with hless | rfl | hmore
  · simp [Int.compare_eq_lt.mpr hless, digits_lt_digits hc hc' hless]
  · rw [mul_lt_mul_iff_of_pos_right (two_zpow_pos e), Nat.cast_lt]
    simp [compare_lt_iff_lt]
  · have hnot := (digits_lt_digits hc' hc hmore).not_gt
    simp [Int.compare_eq_gt.mpr hmore, hnot]

/-- Non-negative finite values compare as the numbers that they stand for. -/
theorem Measures.lt_iff (hu : Measures u p) (hv : Measures v q) (hcu : Canonical u)
    (hcv : Canonical v) : u.lt v = true ↔ p < q := by
  cases hu with
  | zero s =>
      cases hv with
      | zero s' => simp [UnpackedFloat.lt, UnpackedFloat.compare]
      | @finite m e hpos =>
          have hless : (0 : ℚ) < m * 2 ^ e := mul_pos (Nat.cast_pos.mpr hpos) (two_zpow_pos e)
          simp [UnpackedFloat.lt, UnpackedFloat.compare, hless]
  | @finite m e hpos =>
      cases hv with
      | zero s' =>
          have hnot : ¬(m : ℚ) * 2 ^ e < 0 := not_lt.mpr (Measures.finite hpos).nonneg
          simp [UnpackedFloat.lt, UnpackedFloat.compare, hnot]
      | finite hpos' =>
          rw [← compare_digits hcu hcv]
          simp [UnpackedFloat.lt, UnpackedFloat.compare]

/-- Whatever exceeds a non-negative finite value is such a value or infinite. -/
theorem Measures.of_lt (hu : Measures u p) (h : u.lt v = true) :
    v = .infinity .positive ∨ ∃ q, Measures v q := by
  cases v with
  | notANumber => cases hu <;> simp [UnpackedFloat.lt, UnpackedFloat.compare] at h
  | infinity s => cases s <;> cases hu <;> simp [UnpackedFloat.lt, UnpackedFloat.compare] at h ⊢
  | zero s => exact .inr ⟨_, .zero s⟩
  | finite s m e hpos =>
      cases s with
      | positive => exact .inr ⟨_, .finite hpos⟩
      | negative => cases hu <;> simp [UnpackedFloat.lt, UnpackedFloat.compare] at h

theorem Measures.lt_infinity (hu : Measures u p) : u.lt (.infinity .positive) = true := by
  cases hu <;> rfl

end Values

section Domination

variable {u u' v v' w : UnpackedFloat} {p q : ℚ}

/-- Values beyond every number: they exceed no other value and no bound holds for them. -/
inductive OutOfRange : UnpackedFloat → Prop
  | infinity : OutOfRange (.infinity .positive)
  | notANumber : OutOfRange .notANumber

theorem OutOfRange.not_lt (h : OutOfRange u) (w : UnpackedFloat) : ¬u.lt w = true := by
  cases h with
  | infinity =>
      cases w with
      | infinity s => cases s <;> nofun
      | _ => nofun
  | notANumber => nofun

theorem OutOfRange.unpack_pack (h : OutOfRange u) : OutOfRange (pack u).unpack := by
  cases h with
  | infinity => exact Binary64.unpack_pack (u := .infinity .positive) trivial ▸ .infinity
  | notANumber => exact Binary64.unpack_pack (u := .notANumber) trivial ▸ .notANumber

/-- A value is at most another one, or the other one is out of range. -/
inductive Dominated : UnpackedFloat → UnpackedFloat → Prop
  | outOfRange {u v : UnpackedFloat} (hv : OutOfRange v) : Dominated u v
  | measured {u v : UnpackedFloat} {p q : ℚ} (hu : Measures u p) (hv : Measures v q) (h : p ≤ q) :
      Dominated u v

/-- What exceeds the larger value exceeds the smaller one. -/
theorem Dominated.lt (h : Dominated u v) (hcu : Canonical u) (hcv : Canonical v)
    (hcw : Canonical w) (hw : v.lt w = true) : u.lt w = true := by
  cases h with
  | outOfRange hv => exact absurd hw (hv.not_lt w)
  | measured hu hv hle =>
      rcases hv.of_lt hw with rfl | ⟨r, hr⟩
      · exact hu.lt_infinity
      · exact (hu.lt_iff hr hcu hcw).mpr (hle.trans_lt ((hv.lt_iff hr hcv hcw).mp hw))

/-- What dominates is not negative. -/
theorem Dominated.not_lt_zero (h : Dominated u v) (s : Sign) : ¬v.lt (.zero s) = true := by
  cases h with
  | outOfRange hv => exact hv.not_lt _
  | measured hu hv hle => cases hv <;> nofun

/-- A rounded non-negative result, which may have become infinite. -/
inductive Settled : UnpackedFloat → ℚ → Prop
  | measured {u : UnpackedFloat} {x : ℚ} (h : Measures u x) (hx : x < 2 ^ (1024 : ℤ)) : Settled u x
  | infinity {x : ℚ} (hx : 2 ^ (1024 : ℤ) ≤ x) : Settled (.infinity .positive) x

theorem Settled.measures (h : Settled u p) (hp : p < 2 ^ (1024 : ℤ)) : Measures u p := by
  cases h with
  | measured h _ => exact h
  | infinity hlarge => exact absurd hp (not_lt.mpr hlarge)

theorem Settled.outOfRange (h : Settled u p) (hp : 2 ^ (1024 : ℤ) ≤ p) : OutOfRange u := by
  cases h with
  | measured _ hsmall => exact absurd hsmall (not_lt.mpr hp)
  | infinity _ => exact .infinity

/-- A rounded result is finite exactly if it has not become infinite. -/
theorem Settled.isFinite_iff (h : Settled u p) : u.isFinite = true ↔ p < 2 ^ (1024 : ℤ) := by
  cases h with
  | measured h hsmall => exact iff_of_true (by cases h <;> rfl) hsmall
  | infinity hlarge => exact iff_of_false nofun (not_lt.mpr hlarge)

theorem Rounded.measures (h : Rounded .positive u p) : Measures u p := by
  cases h with
  | zero => exact .zero _
  | finite hpos hm he hform => exact .finite hpos

theorem Rounded.settled (h : Rounded .positive u p) : Settled (pack u).unpack p := by
  rw [h.unpack_pack]
  split
  · exact .measured h.measures ‹_›
  · exact .infinity (not_lt.mp ‹_›)

theorem Settled.dominated (hu : Settled u p) (hv : Settled v q) (h : p ≤ q) : Dominated u v := by
  cases hv with
  | infinity hq => exact .outOfRange .infinity
  | measured hv hq =>
      cases hu with
      | infinity hp => exact absurd (h.trans_lt hq) (not_lt.mpr hp)
      | measured hu hp => exact .measured hu hv h

end Domination

section Products

variable {u u' v v' : UnpackedFloat} {p q : ℚ}

/-- The product of two floats has enough digits to be rounded. -/
theorem exponent_le_target {s s' : Sign} {m m' : Nat} {e e' : Int} {hpos : 0 < m} {hpos' : 0 < m'}
    (hc : Canonical (.finite s m e hpos)) (hc' : Canonical (.finite s' m' e' hpos')) :
    e + e' ≤ Format.binary64.targetExponent (totalExponent (m * m') (e + e')) := by
  obtain ⟨-, he, -, hform⟩ := hc
  obtain ⟨-, he', -, hform'⟩ := hc'
  have hdigits : 2 ^ 52 ≤ m * m' ∨ e + e' ≤ -1074 := by
    rcases hform with hm | hm
    · exact .inl (hm.trans (Nat.le_mul_of_pos_right m hpos'))
    · rcases hform' with hm' | hm'
      · exact .inl (hm'.trans (Nat.le_mul_of_pos_left m' hpos))
      · exact .inr (by omega)
  rw [targetExponent_eq, totalExponent]
  rcases hdigits with hdigits | hdigits
  · have hlog : 52 ≤ (m * m').log2 := (Nat.le_log2 (by positivity)).mpr hdigits
    omega
  · omega

/-- A product of non-negative finite values is rounded to the nearest one. -/
theorem Measures.mul (hu : Measures u p) (hv : Measures v q) (hcu : Canonical u)
    (hcv : Canonical v) :
    Settled (pack (UnpackedFloat.mul .binary64 u v)).unpack (nearest (p * q)) := by
  have hzero : ∀ s : Sign, Settled (pack (.zero s)).unpack (nearest 0) := by
    intro s
    rw [unpack_pack (u := .zero s) trivial, nearest_zero]
    exact .measured (.zero s) (two_zpow_pos _)
  cases hu with
  | zero s =>
      rw [zero_mul]
      cases hv <;> exact hzero _
  | @finite m e hpos =>
      cases hv with
      | zero s =>
          rw [mul_zero]
          exact hzero _
      | @finite m' e' hpos' =>
          have hvalue : (m : ℚ) * 2 ^ e * (m' * 2 ^ e') = ((m * m' : Nat) : ℚ) * 2 ^ (e + e') := by
            rw [zpow_add₀ two_ne_zero, Nat.cast_mul]
            ring
          rw [hvalue]
          exact (rounded_roundExactly .positive (Nat.mul_pos hpos hpos')
            (exponent_le_target hcu hcv)).settled

/-- A factor out of range leaves the product out of range. -/
theorem OutOfRange.mul (h : OutOfRange u) (h' : OutOfRange v ∨ ∃ q, Measures v q) :
    OutOfRange (UnpackedFloat.mul .binary64 u v) := by
  cases h with
  | notANumber => exact .notANumber
  | infinity =>
      rcases h' with h' | ⟨q, h'⟩
      · cases h' <;> constructor
      · cases h' <;> constructor

theorem Dominated.right (h : Dominated u v) : OutOfRange v ∨ ∃ q, Measures v q := by
  cases h with
  | outOfRange hv => exact .inl hv
  | measured _ hv _ => exact .inr ⟨_, hv⟩

/-- Products keep the order of the factors. -/
theorem Dominated.mul (h : Dominated u u') (h' : Dominated v v') (hcu : Canonical u)
    (hcu' : Canonical u') (hcv : Canonical v) (hcv' : Canonical v') :
    Dominated (pack (UnpackedFloat.mul .binary64 u v)).unpack
      (pack (UnpackedFloat.mul .binary64 u' v')).unpack := by
  cases h with
  | outOfRange hu' => exact .outOfRange (hu'.mul h'.right).unpack_pack
  | measured hu hu' hle =>
      cases h' with
      | outOfRange hv' =>
          rw [mul_comm_parts u']
          exact .outOfRange (hv'.mul (.inr ⟨_, hu'⟩)).unpack_pack
      | measured hv hv' hle' =>
          refine (hu.mul hv hcu hcv).dominated (hu'.mul hv' hcu' hcv') (nearest_mono ?_ ?_)
          · exact mul_nonneg hu.nonneg hv.nonneg
          · exact mul_le_mul hle hle' hv.nonneg hu'.nonneg

end Products

section Floats

variable {x y z x' y' : Float}

/-- A float is at most another one, or the other one is out of range. -/
def UpTo (x y : Float) : Prop :=
  Dominated x.toModel.unpack y.toModel.unpack

theorem lt_iff_parts : x < y ↔ x.toModel.unpack.lt y.toModel.unpack = true :=
  decide_eq_true_iff

theorem UpTo.lt (h : UpTo x y) (hz : y < z) : x < z :=
  lt_iff_parts.mpr (Dominated.lt h (canonical_unpack _) (canonical_unpack _) (canonical_unpack _)
    (lt_iff_parts.mp hz))

theorem UpTo.not_lt_zero (h : UpTo x y) : ¬y < 0 := by
  rw [lt_iff_parts, unpack_zero]
  exact Dominated.not_lt_zero h .positive

/-- A float that is not negative and in range is below whatever exceeds a float above it. -/
theorem UpTo.lt_trans (hx : UpTo x x) (hxy : x < y) (hyz : y < z) : x < z := by
  have hparts := lt_iff_parts.mp hxy
  rcases Dominated.right hx with hout | ⟨p, hp⟩
  · exact absurd hparts (hout.not_lt _)
  · rcases hp.of_lt hparts with hinfinite | ⟨q, hq⟩
    · rw [lt_iff_parts, hinfinite] at hyz
      exact absurd hyz (OutOfRange.infinity.not_lt _)
    · have hle : p < q := (hp.lt_iff hq (canonical_unpack _) (canonical_unpack _)).mp hparts
      exact UpTo.lt (.measured hp hq hle.le) hyz

theorem UpTo.lt_of_not_lt (hx : UpTo x x) (hxy : x < y) (hz : UpTo z z) (hnan : z.isNaN = false)
    (hzy : ¬z < y) : x < z := by
  have hparts := lt_iff_parts.mp hxy
  rw [lt_iff_parts] at hzy ⊢
  rcases Dominated.right hx with hout | ⟨p, hp⟩
  · exact absurd hparts (hout.not_lt _)
  rcases Dominated.right hz with hout | ⟨r, hr⟩
  · change z.toModel.unpack.isNaN = false at hnan
    generalize z.toModel.unpack = u at hout hnan
    cases hout with
    | infinity => exact hp.lt_infinity
    | notANumber => cases hnan
  · rcases hp.of_lt hparts with hinfinite | ⟨q, hq⟩
    · rw [hinfinite] at hzy
      exact absurd hr.lt_infinity hzy
    · rw [hp.lt_iff hq (canonical_unpack _) (canonical_unpack _)] at hparts
      rw [hr.lt_iff hq (canonical_unpack _) (canonical_unpack _), not_lt] at hzy
      exact (hp.lt_iff hr (canonical_unpack _) (canonical_unpack _)).mpr (hparts.trans_le hzy)

theorem isNaN_of_lt (h : x < y) : y.isNaN = false := by
  have hparts := lt_iff_parts.mp h
  show y.toModel.unpack.isNaN = false
  cases hy : y.toModel.unpack with
  | notANumber =>
      rw [hy] at hparts
      cases hx : x.toModel.unpack <;> rw [hx] at hparts <;> cases hparts
  | _ => rfl

theorem settled_mul {p q : ℚ} (hx : Measures x.toModel.unpack p)
    (hy : Measures y.toModel.unpack q) : Settled (x * y).toModel.unpack (nearest (p * q)) :=
  hx.mul hy (canonical_unpack _) (canonical_unpack _)

theorem UpTo.mul (h : UpTo x x') (h' : UpTo y y') : UpTo (x * y) (x' * y') :=
  Dominated.mul h h' (canonical_unpack _) (canonical_unpack _) (canonical_unpack _)
    (canonical_unpack _)

/-- A natural number is rounded to the nearest float. -/
theorem settled_normalize (n : Nat) :
    Settled (pack (UnpackedFloat.normalize .binary64 n 0 .positive)).unpack (nearest n) := by
  rcases Nat.eq_zero_or_pos n with rfl | hpos
  · rw [Nat.cast_zero, Nat.cast_zero, normalize_zero, nearest_zero,
      unpack_pack (u := .zero .positive) trivial]
    exact .measured (.zero _) (two_zpow_pos _)
  · have hcompare : compare (n : Int) 0 = .gt := Int.compare_eq_gt.mpr (by omega)
    have hvalue : (n : ℚ) = n * 2 ^ (0 : ℤ) := by rw [zpow_zero, mul_one]
    unfold UnpackedFloat.normalize
    rw [hcompare, hvalue]
    exact (rounded_round .positive hpos 0).settled

theorem unpack_mul_one (x : Float) : (x * 1).toModel.unpack = x.toModel.unpack := by
  have hx := canonical_unpack x.toModel
  show (pack (UnpackedFloat.mul .binary64 x.toModel.unpack (1 : Float).toModel.unpack)).unpack = _
  rw [unpack_one, mul_comm_parts, one_mul_parts hx, unpack_pack hx]

/-- A number is rounded as before if its digits are shifted first. -/
theorem settled_shifted {n b : Nat} (h : 0 < n) (hb : 53 ≤ b) :
    Settled (pack (roundWithAccuracy .binary64 .positive (n <<< b * 1) (-b + 0) .exact)).unpack
      (nearest n) := by
  have hshift : n <<< b * 1 = 2 ^ b * n := by rw [Nat.mul_one, Nat.shiftLeft_eq, Nat.mul_comm]
  have hvalue : (n : ℚ) = ((2 ^ b * n : Nat) : ℚ) * 2 ^ (-(b : ℤ) + 0) := by
    rw [add_zero, zpow_neg, zpow_natCast, Nat.cast_mul, Nat.cast_pow, Nat.cast_ofNat, mul_comm,
      inv_mul_cancel_left₀ (by positivity)]
  rw [hshift, hvalue]
  refine Rounded.settled (rounded_roundExactly .positive (by positivity) ?_)
  rw [targetExponent_eq, totalExponent, log2_two_pow_mul b h.ne']
  omega

/-- A natural number with more digits than a float holds is shifted before it is rounded. -/
theorem settled_ofScientific {n : Nat} (h : 0 < n) :
    Settled (pack (UnpackedFloat.ofScientific .binary64 n 0)).unpack (nearest n) := by
  have hlarge : ¬(0 : Int) > 2 ^ Format.exponentBits .binary64 := by decide
  have hsmall : ¬(0 : Int) < -((2 ^ Format.exponentBits .binary64 : Int) + n.log2) := by
    have : (2 : Int) ^ Format.exponentBits .binary64 = 2048 := by decide
    omega
  unfold UnpackedFloat.ofScientific
  rw [dif_neg h.ne', if_neg hlarge, if_neg hsmall, if_pos le_rfl]
  have hsign : Sign.positive * Sign.positive = .positive := rfl
  simp only [UnpackedFloat.mul, hsign, Int.toNat_zero, pow_zero]
  exact settled_shifted (b := Format.mantissaBits .binary64) h (by decide)

/-- The conversion of a natural number is rounded once, whichever way it is computed. -/
theorem settled_ofNat (n : Nat) : Settled (Float.ofNat n).toModel.unpack (nearest n) := by
  show Settled (Float.ofScientific n false 0).toModel.unpack (nearest n)
  unfold Float.ofScientific
  split
  · rename_i hsmall
    have hone : Float.ofBits 0x3FF0000000000000 = 1 := by decide +kernel
    have hcast : n.toUInt64.toNat = n := by
      rw [Nat.toUInt64_eq, UInt64.toNat_ofNat']
      omega
    show Settled (n.toUInt64.toFloat * Float.ofBits 0x3FF0000000000000).toModel.unpack (nearest n)
    rw [hone, unpack_mul_one]
    show Settled (pack (UnpackedFloat.normalize .binary64 n.toUInt64.toNat 0 .positive)).unpack _
    rw [hcast]
    exact settled_normalize n
  · rename_i hlarge
    exact settled_ofScientific (by omega)

theorem upTo_ofNat {m n : Nat} (h : m ≤ n) : UpTo (Float.ofNat m) (Float.ofNat n) :=
  (settled_ofNat m).dominated (settled_ofNat n)
    (nearest_mono (Nat.cast_nonneg m) (Nat.cast_le.mpr h))

/-- The distance from one to the next float is `2 ^ (-52)`. -/
theorem measures_epsilon : Measures epsilon.toModel.unpack (2 ^ (-52 : ℤ)) := by
  have h : epsilon = .ofModel (.pack (.finite .positive (2 ^ 52) (-104) (by decide))) := by
    decide +kernel
  have hunpack : epsilon.toModel.unpack = .finite .positive (2 ^ 52) (-104) (by decide) := by
    rw [h]
    exact unpack_pack ⟨by decide, by decide, by decide, by decide⟩
  have hvalue : (2 : ℚ) ^ (-52 : ℤ) = ((2 ^ 52 : Nat) : ℚ) * 2 ^ (-104 : ℤ) := by
    rw [Nat.cast_pow, Nat.cast_ofNat, ← zpow_natCast, ← zpow_add₀ two_ne_zero]
    norm_num
  rw [hunpack, hvalue]
  exact .finite _

theorem upTo_epsilon : UpTo epsilon epsilon :=
  .measured measures_epsilon measures_epsilon le_rfl

theorem unpack_abs (x : Float) : x.abs.toModel.unpack = x.toModel.unpack.abs :=
  unpack_pack (canonical_unpack x.toModel).abs

theorem isNaN_abs (x : Float) : x.abs.isNaN = x.isNaN := by
  show x.abs.toModel.unpack.isNaN = x.toModel.unpack.isNaN
  rw [unpack_abs]
  cases x.toModel.unpack <;> rfl

theorem upTo_abs (x : Float) : UpTo x.abs x.abs := by
  unfold UpTo
  rw [unpack_abs]
  cases x.toModel.unpack with
  | notANumber => exact .outOfRange .notANumber
  | infinity s => exact .outOfRange .infinity
  | zero s => exact .measured (.zero _) (.zero _) le_rfl
  | finite s m e hpos => exact .measured (.finite hpos) (.finite hpos) le_rfl

theorem measures_of_upTo (h : UpTo x x) (hx : x.isFinite = true) :
    ∃ p, Measures x.toModel.unpack p := by
  rcases Dominated.right h with hout | hmeasures
  · change x.toModel.unpack.isFinite = true at hx
    cases hu : x.toModel.unpack <;> rw [hu] at hout hx <;> cases hout <;> cases hx
  · exact hmeasures

end Floats

section Maxima

variable {x y : Float} {p q : ℚ} {l l' : List Float}

theorem lt_iff_of_measures (hx : Measures x.toModel.unpack p) (hy : Measures y.toModel.unpack q) :
    x < y ↔ p < q :=
  lt_iff_parts.trans (hx.lt_iff hy (canonical_unpack _) (canonical_unpack _))

theorem Measures.unique {u : UnpackedFloat} (h : Measures u p) (h' : Measures u q) : p = q := by
  cases h <;> cases h' <;> rfl

/-- The largest element of a list of non-negative floats, or the start value. -/
structure IsLargest (start : ℚ) (l : List Float) (q : ℚ) : Prop where
  start_le : start ≤ q
  le : ∀ x ∈ l, ∀ p, Measures x.toModel.unpack p → p ≤ q
  attained : q = start ∨ ∃ x ∈ l, Measures x.toModel.unpack q

theorem measures_larger (hx : Measures x.toModel.unpack p) (hy : Measures y.toModel.unpack q) :
    Measures (Scalar.larger x y).toModel.unpack (max p q) := by
  unfold Scalar.larger
  split
  · have hlt : p < q := (lt_iff_of_measures hx hy).mp ‹_›
    rwa [max_eq_right hlt.le]
  · have hle : q ≤ p := not_lt.mp fun hlt => ‹¬_› ((lt_iff_of_measures hx hy).mpr hlt)
    rwa [max_eq_left hle]

theorem measures_foldl_larger (hl : ∀ y ∈ l, ∃ p, Measures y.toModel.unpack p)
    (hx : Measures x.toModel.unpack p) :
    ∃ q, Measures (l.foldl Scalar.larger x).toModel.unpack q ∧ IsLargest p l q := by
  induction l generalizing x p with
  | nil => exact ⟨p, hx, le_rfl, by simp, .inl rfl⟩
  | cons y l ih =>
      obtain ⟨py, hy⟩ := hl y List.mem_cons_self
      obtain ⟨q, hq, hlargest⟩ :=
        ih (fun z hz => hl z (List.mem_cons_of_mem y hz)) (measures_larger hx hy)
      refine ⟨q, hq, (le_max_left p py).trans hlargest.start_le, ?_, ?_⟩
      · intro z hz r hr
        rcases List.mem_cons.mp hz with rfl | hz
        · exact hr.unique hy ▸ (le_max_right p py).trans hlargest.start_le
        · exact hlargest.le z hz r hr
      · rcases hlargest.attained with hstart | ⟨z, hz, hzq⟩
        · rcases max_choice p py with hmax | hmax
          · exact .inl (hstart.trans hmax)
          · exact .inr ⟨y, List.mem_cons_self, (hstart.trans hmax) ▸ hy⟩
        · exact .inr ⟨z, List.mem_cons_of_mem y hz, hzq⟩

/-- More floats have a larger maximum. -/
theorem upTo_foldl_larger (hl : ∀ y ∈ l, ∃ p, Measures y.toModel.unpack p)
    (hl' : ∀ y ∈ l', ∃ p, Measures y.toModel.unpack p) (h : ∀ y ∈ l, y ∈ l') :
    UpTo (l.foldl Scalar.larger 0) (l'.foldl Scalar.larger 0) := by
  have hzero : Measures (0 : Float).toModel.unpack 0 := unpack_zero ▸ .zero _
  obtain ⟨q, hq, hlargest⟩ := measures_foldl_larger hl hzero
  obtain ⟨q', hq', hlargest'⟩ := measures_foldl_larger hl' hzero
  refine .measured hq hq' ?_
  rcases hlargest.attained with rfl | ⟨y, hy, hyq⟩
  · exact hlargest'.start_le
  · exact hlargest'.le y (h y hy) q hyq

end Maxima

end Binary64
end SeparableTransforms
