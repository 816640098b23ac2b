import SeparableTransforms.Proofs.Binary64.Numbers

/-!
# Rounded square roots

The root of a float is seldom rational, but it is rounded as a rational number is.  The digits
of the root are computed as far as they are needed, and what is left over tells whether the
root lies below the middle between two numbers that these digits can make.  So there is a
rational number on the same side of all such middles, and this number is what is rounded.

The root of the largest float is less than `2 ^ 512` by half a unit and a bit.  So the square
of a rounded root never overflows.
-/

namespace SeparableTransforms
namespace Binary64

open Float.Model
open Float.Model.UnpackedFloat

section Digits

variable {m : Nat}

/-- How the integral root of a number is to be rounded. -/
def rootAccuracy (m : Nat) : Accuracy :=
  if m - m.sqrt * m.sqrt = 0 then .exact
  else .inexact (if m - m.sqrt * m.sqrt ≤ m.sqrt then .lt else .gt)

/-- An integral root bounds the same integers as every number between it and its successor. -/
theorem natCast_le_iff_of_root {n : ℕ} {x : ℚ} (hlower : n ≤ x) (hupper : x < n + 1)
    (hsquare : n * n ≤ m) (hnext : m < (n + 1) * (n + 1)) (k : ℕ) : (k : ℚ) ≤ x ↔ k * k ≤ m := by
  have hfloor : ⌊x⌋₊ = n := (Nat.floor_eq_iff (n.cast_nonneg.trans hlower)).mpr ⟨hlower, hupper⟩
  rw [← Nat.le_floor_iff (n.cast_nonneg.trans hlower), hfloor, Nat.eq_sqrt.mpr ⟨hsquare, hnext⟩]
  exact Nat.le_sqrt

/-- The remainder of a root tells on which side of the middle between two integers it lies. -/
theorem exists_represents_root (m : Nat) :
    ∃ x : ℚ, Represents (.ofMantissaAndAccuracy m.sqrt (rootAccuracy m)) x ∧
      ∀ k : ℕ, (k : ℚ) ≤ 2 * x ↔ k * k ≤ 4 * m := by
  obtain ⟨hlower, hupper⟩ := Nat.eq_sqrt.mp (rfl : m.sqrt = m.sqrt)
  unfold rootAccuracy
  generalize m.sqrt = s at *
  split_ifs with hexact hbelow
  · have hm : m = s * s := by omega
    exact ⟨s, represents_exact s, natCast_le_iff_of_root (n := 2 * s) (by push_cast; linarith)
      (by push_cast; linarith) (by nlinarith) (by nlinarith)⟩
  · have hm : m ≤ s * s + s := by omega
    refine ⟨s + 1 / 4, ?_, natCast_le_iff_of_root (n := 2 * s) (by push_cast; linarith)
      (by push_cast; linarith) (by nlinarith) (by nlinarith)⟩
    constructor <;> norm_num [ExtendedMantissa.ofMantissaAndAccuracy]
  · have hm : s * s + s < m := by omega
    refine ⟨s + 3 / 4, ?_, natCast_le_iff_of_root (n := 2 * s + 1) (by push_cast; linarith)
      (by push_cast; linarith) (by nlinarith) (by nlinarith)⟩
    constructor <;> norm_num [ExtendedMantissa.ofMantissaAndAccuracy]

/-- A number on the same side as the root of every middle between two floats. -/
structure IsRoot (r p : ℚ) : Prop where
  pos : 0 < r
  le_iff {y : ℚ} : 0 ≤ y → OnGrid (unitExponent r - 1) y → (y ≤ r ↔ y * y ≤ p)

/-- Digits tell of every whole number of half of their units whether it is less than the root. -/
theorem le_root_iff {x y : ℚ} {t : ℤ} (hroot : ∀ k : ℕ, (k : ℚ) ≤ 2 * x ↔ k * k ≤ 4 * m)
    (hy : 0 ≤ y) (hgrid : OnGrid (t - 1) y) : y ≤ x * 2 ^ t ↔ y * y ≤ m * 2 ^ (2 * t) := by
  obtain ⟨n, rfl⟩ := hgrid
  have hunit := two_zpow_pos (t - 1)
  obtain ⟨k, rfl⟩ := Int.eq_ofNat_of_zero_le
    (Int.cast_nonneg_iff.mp (nonneg_of_mul_nonneg_left hy hunit))
  have hdouble : (2 : ℚ) ^ t = 2 * 2 ^ (t - 1) := by
    rw [← zpow_one_add₀ two_ne_zero]
    congr 1
    omega
  have hsquare : (2 : ℚ) ^ (2 * t) = 4 * (2 ^ (t - 1) * 2 ^ (t - 1)) := by
    rw [two_mul, zpow_add₀ two_ne_zero, hdouble]
    ring
  rw [hdouble, hsquare]
  generalize (2 : ℚ) ^ (t - 1) = u at hunit
  have hleft : (k * u ≤ x * (2 * u)) ↔ (k : ℚ) ≤ 2 * x := by
    rw [← mul_assoc, mul_comm x, mul_le_mul_iff_left₀ hunit]
  have hright : (k * u * (k * u) ≤ m * (4 * (u * u))) ↔ (k * k : ℚ) ≤ 4 * m := by
    rw [mul_mul_mul_comm, show (m : ℚ) * (4 * (u * u)) = 4 * m * (u * u) by ring,
      mul_le_mul_iff_left₀ (mul_pos hunit hunit)]
  rw [Int.cast_natCast, hleft, hright, hroot k]
  exact_mod_cast Iff.rfl

/-- A root has half as many binary digits as the number. -/
theorem half_totalExponent_le_log {r : ℚ} (hr : 0 < r) (hm : 0 < m) {e t : Int} (ht : t ≤ e / 2)
    (hroot : ∀ y : ℚ, 0 ≤ y → OnGrid (t - 1) y → (y ≤ r ↔ y * y ≤ m * 2 ^ e)) :
    (totalExponent m e - 1) / 2 ≤ Int.log 2 r := by
  have htotal : e + 1 ≤ totalExponent m e := by
    unfold totalExponent
    omega
  have hsize : (2 : ℚ) ^ (m.log2 : ℤ) ≤ m := by
    rw [zpow_natCast]
    exact_mod_cast Nat.log2_self_le hm.ne'
  have hpower : (2 : ℚ) ^ ((totalExponent m e - 1) / 2) ≤ r := by
    refine (hroot _ (two_zpow_pos _).le (.zpow (by omega))).mpr ?_
    calc (2 : ℚ) ^ ((totalExponent m e - 1) / 2) * 2 ^ ((totalExponent m e - 1) / 2)
        ≤ 2 ^ (m.log2 : ℤ) * 2 ^ e := by
          rw [← zpow_add₀ two_ne_zero, ← zpow_add₀ two_ne_zero]
          refine zpow_le_zpow_right₀ one_le_two ?_
          unfold totalExponent
          omega
      _ ≤ m * 2 ^ e := mul_le_mul_of_nonneg_right hsize (two_zpow_pos e).le
  exact (Int.zpow_le_iff_le_log one_lt_two hr).mp (by exact_mod_cast hpower)

/-- The root of a positive number that is given by digits is rounded once. -/
theorem exists_rounded_root (hm : 0 < m) (e : Int) :
    ∃ r, IsRoot r (m * 2 ^ e) ∧ Rounded .positive
      (let (k, t, accuracy) := sqrtCore .binary64 m e
      roundWithAccuracy .binary64 .positive k t accuracy) (nearest r) := by
  unfold sqrtCore
  dsimp only
  generalize ht : min (e.ediv 2)
    (Format.binary64.targetExponent ((totalExponent m e + 1).ediv 2)) = t
  generalize hk : (e - 2 * t).toNat = k
  obtain ⟨x, hx, hroot⟩ := exists_represents_root (m <<< k)
  have hhalf : t ≤ e / 2 := ht ▸ min_le_left _ _
  have hvalue : (m : ℚ) * 2 ^ e = (m <<< k : Nat) * 2 ^ (2 * t) := by
    have hexponent : e = k + 2 * t := by omega
    rw [hexponent, zpow_add₀ two_ne_zero, Nat.shiftLeft_eq, Nat.cast_mul, Nat.cast_pow,
      zpow_natCast, mul_assoc]
    rfl
  have hdigits : 0 < (m <<< k).sqrt := by
    rw [Nat.sqrt_pos, Nat.shiftLeft_eq]
    exact Nat.mul_pos hm (Nat.two_pow_pos k)
  have hlower : ((m <<< k).sqrt : ℚ) ≤ x := hx.bounds.1
  have hpos : 0 < x := (Nat.cast_pos.mpr hdigits).trans_le hlower
  have hiff : ∀ y : ℚ, 0 ≤ y → OnGrid (t - 1) y → (y ≤ x * 2 ^ t ↔ y * y ≤ m * 2 ^ e) := by
    intro y hy hgrid
    rw [hvalue]
    exact le_root_iff hroot hy hgrid
  have hpos' := mul_pos hpos (two_zpow_pos t)
  have hunit : t ≤ unitExponent (x * 2 ^ t) := by
    have htarget : t ≤ max ((totalExponent m e + 1) / 2 - 53) (-1074) := ht ▸ min_le_right _ _
    have hlog := half_totalExponent_le_log hpos' hm hhalf hiff
    unfold unitExponent
    omega
  refine ⟨x * 2 ^ t, ⟨hpos', fun {y} hy hgrid => ?_⟩,
    rounded_roundWithAccuracy .positive hpos hx (.inl hdigits) hunit⟩
  exact hiff y hy (hgrid.mono (by omega))

end Digits

section Squares

variable {r p : ℚ}

/-- The largest whole number of half units that is not larger than the root. -/
theorem IsRoot.exists_floor (h : IsRoot r p) :
    ∃ y, OnGrid (unitExponent r - 1) y ∧ 0 ≤ y ∧ y ≤ r ∧ r < y + 2 ^ (unitExponent r - 1) ∧
      y * y ≤ p ∧ p < (y + 2 ^ (unitExponent r - 1)) * (y + 2 ^ (unitExponent r - 1)) := by
  have hunit := two_zpow_pos (unitExponent r - 1)
  have hgrid : OnGrid (unitExponent r - 1)
      (⌊r / 2 ^ (unitExponent r - 1)⌋ * 2 ^ (unitExponent r - 1)) := ⟨_, rfl⟩
  have hnonneg : (0 : ℚ) ≤ ⌊r / 2 ^ (unitExponent r - 1)⌋ * 2 ^ (unitExponent r - 1) :=
    mul_nonneg (Int.cast_nonneg (Int.floor_nonneg.mpr (div_pos h.pos hunit).le)) hunit.le
  have hlower := (le_div_iff₀ hunit).mp (Int.floor_le (r / 2 ^ (unitExponent r - 1)))
  have hupper := (div_lt_iff₀ hunit).mp (Int.lt_floor_add_one (r / 2 ^ (unitExponent r - 1)))
  rw [add_mul, one_mul] at hupper
  refine ⟨_, hgrid, hnonneg, hlower, hupper, (h.le_iff hnonneg hgrid).mp hlower, ?_⟩
  exact not_le.mp (mt (h.le_iff (add_nonneg hnonneg hunit.le) (hgrid.add (.zpow le_rfl))).mpr
    (not_le.mpr hupper))

/-- A root is not among the least floats. -/
theorem IsRoot.units_le (h : IsRoot r p) (hp : 2 ^ (-1074 : ℤ) ≤ p) :
    2 ^ (52 + unitExponent r) ≤ r := by
  have habs : |r| = r := abs_of_pos h.pos
  have hunit : unitExponent r ≠ -1074 := by
    intro hleast
    have hroot : 2 ^ (52 + -589 : ℤ) ≤ r := by
      refine (h.le_iff (two_zpow_pos _).le (.zpow (by omega))).mpr ?_
      rw [← zpow_add₀ two_ne_zero]
      exact hp
    have hlarge := le_unitExponent_of_le (hroot.trans_eq habs.symm)
    rw [habs] at hlarge
    omega
  have hunits := units_le_abs h.pos.ne' (habs.symm ▸ hunit)
  rwa [habs] at hunits

/-- A rounded root has its full number of digits. -/
theorem IsRoot.zpow_le_near (h : IsRoot r p) (hp : 2 ^ (-1074 : ℤ) ≤ p) :
    2 ^ (-1022 : ℤ) ≤ near r := by
  refine le_near ((zpow_le_zpow_right₀ one_le_two ?_).trans (h.units_le hp))
    (representable_zpow (by norm_num))
  have := le_unitExponent r
  omega

/-- The square of a rounded root is very close to the number. -/
theorem IsRoot.abs_square_sub_le (h : IsRoot r p) (hp : 2 ^ (-1074 : ℤ) ≤ p) :
    |near r * near r - p| ≤ p / 2 ^ 50 := by
  obtain ⟨y, hgrid, hy, hlower, hupper, hsquare, hnext⟩ := h.exists_floor
  have hunits := h.units_le hp
  have hnear := abs_near_sub_le r
  rw [abs_of_pos h.pos] at hnear
  have hd := two_zpow_pos (unitExponent r - 1)
  have hfloor : 2 ^ (52 + unitExponent r) ≤ y := by
    by_contra hless
    rw [not_le] at hless
    have hgap := ((OnGrid.zpow (show unitExponent r - 1 ≤ 52 + unitExponent r by omega)).sub
      hgrid).zpow_le_abs (sub_pos.mpr hless).ne'
    rw [abs_of_pos (sub_pos.mpr hless)] at hgap
    linarith
  rw [two_zpow_units] at hfloor
  generalize (2 : ℚ) ^ (unitExponent r - 1) = d at *
  obtain ⟨hbelow, habove⟩ := abs_le.mp hnear
  have hsmall : 0 ≤ y - d := by linarith
  have hproduct : 2 ^ 53 * d * y ≤ y * y := mul_le_mul_of_nonneg_right hfloor hy
  have hsquares : d * d ≤ d * y := mul_le_mul_of_nonneg_left (by linarith) hd.le
  have hless : near r * near r ≤ (y + 2 * d) * (y + 2 * d) :=
    mul_self_le_mul_self (by linarith) (by linarith)
  have hmore : (y - d) * (y - d) ≤ near r * near r :=
    mul_self_le_mul_self hsmall (by linarith)
  exact abs_le.mpr ⟨by nlinarith, by nlinarith⟩

/-- The root of the least power of two that no float stands for. -/
def rootLimit : ℚ :=
  2 ^ (512 : ℤ)

/-- The unit of the floats below that root. -/
def rootUnit : ℚ :=
  2 ^ (459 : ℤ)

theorem two_mul_rootLimit_le : 2 * rootLimit ≤ largestNumber := by
  rw [two_mul]
  exact (two_zpow_succ 512).symm.trans_le (zpow_le_largestNumber (by norm_num))

theorem rootUnit_pos : 0 < rootUnit :=
  two_zpow_pos _

theorem rootLimit_eq : rootLimit = 2 ^ 53 * rootUnit := by
  rw [rootLimit, rootUnit, ← zpow_natCast, ← zpow_add₀ two_ne_zero]
  rfl

theorem half_rootUnit : rootUnit / 2 = 2 ^ (458 : ℤ) := by
  rw [rootUnit, show (459 : ℤ) = 458 + 1 by norm_num, zpow_add_one₀ two_ne_zero,
    mul_div_cancel_right₀ _ two_ne_zero]

theorem largestNumber_eq_mul : largestNumber = (rootLimit - rootUnit) * rootLimit := by
  have hlimit : overflowLimit = rootLimit * rootLimit := by
    rw [rootLimit, ← zpow_add₀ two_ne_zero]
    rfl
  have hunit : 2 * halfUnit = rootUnit * rootLimit := by
    rw [rootUnit, rootLimit, ← zpow_add₀ two_ne_zero, two_mul]
    exact (two_zpow_succ 970).symm
  rw [largestNumber, hlimit, hunit, sub_mul]

theorem IsRoot.lt_rootLimit (h : IsRoot r p) (hp : p ≤ largestNumber) : r < rootLimit := by
  by_contra hlarge
  rw [not_lt] at hlarge
  have hz : (2 : ℚ) ^ max 512 (unitExponent r - 1) ≤ r := by
    rcases le_total (unitExponent r - 1) 512 with hunit | hunit
    · rwa [max_eq_left hunit]
    · have habs : |r| = r := abs_of_pos h.pos
      have hunits := units_le_abs h.pos.ne' (by rw [habs]; omega)
      rw [habs] at hunits
      rw [max_eq_right hunit]
      exact (zpow_le_zpow_right₀ one_le_two (by omega)).trans hunits
  have hsquare := (h.le_iff (two_zpow_pos _).le (.zpow (le_max_right _ _))).mp hz
  rw [← zpow_add₀ two_ne_zero] at hsquare
  have hlimit : overflowLimit ≤ 2 ^ (max 512 (unitExponent r - 1) + max 512 (unitExponent r - 1)) :=
    zpow_le_zpow_right₀ one_le_two (by omega)
  exact absurd (hlimit.trans (hsquare.trans hp)) (not_le.mpr largestNumber_lt)

/-- A rounded root is at most the largest float below the limit: the middle between the two is too
large for a root. -/
theorem IsRoot.near_le (h : IsRoot r p) (hp : p ≤ largestNumber) :
    near r ≤ rootLimit - rootUnit := by
  have hunit := rootUnit_pos
  have hlimit := rootLimit_eq
  have hlt := h.lt_rootLimit hp
  have hgridLimit : OnGrid 459 rootLimit := .zpow (by norm_num)
  have hgrid : OnGrid 459 (rootLimit - rootUnit) := hgridLimit.sub (.zpow le_rfl)
  have hrepresentable : Representable (rootLimit - rootUnit) := by
    refine hgrid.representable (by norm_num) ?_
    rw [abs_of_nonneg (by linarith)]
    exact sub_le_self _ hunit.le
  rcases le_or_gt r (rootLimit - rootUnit) with hle | hgt
  · exact Binary64.near_le hle hrepresentable
  have habs : |r| = r := abs_of_pos h.pos
  have hexponent : unitExponent r = 459 := by
    have hupper := unitExponent_le (e := 459) h.pos.ne' (by norm_num) (habs.trans_lt hlt)
    have hlower := le_unitExponent_of_le (x := r) (e := 459) (by
      have hhalf : rootLimit = 2 ^ (52 + 459 : ℤ) + 2 ^ (52 + 459 : ℤ) := two_zpow_succ 511
      rw [habs]
      linarith)
    rw [habs] at hupper hlower
    omega
  have hmiddle : r < rootLimit - rootUnit / 2 := by
    by_contra hge
    have hgridMiddle : OnGrid (unitExponent r - 1) (rootLimit - rootUnit / 2) := by
      rw [hexponent, half_rootUnit]
      exact (hgridLimit.mono (by norm_num)).sub (.zpow le_rfl)
    have hsquare := (h.le_iff (by linarith) hgridMiddle).mp (not_lt.mp hge)
    rw [largestNumber_eq_mul] at hp
    nlinarith [mul_pos hunit hunit]
  have hnear := (abs_le.mp (hrepresentable.abs_near_sub_le (x := r))).2
  rw [abs_of_neg (sub_neg.mpr hgt)] at hnear
  have hgridNear : OnGrid 459 (near r) := by
    have hgridRoot := onGrid_near r
    rwa [habs, hexponent] at hgridRoot
  by_contra hmore
  have hgap := (hgridLimit.sub hgridNear).zpow_le_abs (by linarith)
  rw [abs_of_pos (by linarith)] at hgap
  exact hmore (le_sub_comm.mp hgap)

/-- The square of a rounded root is no larger than the largest float. -/
theorem IsRoot.square_le (h : IsRoot r p) (hp : p ≤ largestNumber) :
    near r * near r ≤ largestNumber := by
  have hnear := h.near_le hp
  have hnonneg := near_nonneg h.pos.le
  rw [largestNumber_eq_mul]
  exact mul_le_mul hnear (hnear.trans (sub_le_self _ rootUnit_pos.le)) hnonneg
    (hnonneg.trans hnear)

end Squares

section Floats

variable {x : Float} {p : ℚ}

/-- The root of a positive float is rounded once. -/
theorem Stands.exists_root (hx : Stands x p) (hp : 0 < p) :
    ∃ r, IsRoot r p ∧ RoundsTo (Radical.sqrt x) r := by
  obtain ⟨hfinite, rfl⟩ := hx
  change x.toModel.unpack.isFinite = true at hfinite
  unfold number at hp ⊢
  show ∃ r, IsRoot r (value x.toModel.unpack) ∧
    RoundsTo (.ofModel (pack (UnpackedFloat.sqrt .binary64 x.toModel.unpack))) r
  generalize x.toModel.unpack = u at hfinite hp
  cases u with
  | infinity s => cases hfinite
  | notANumber => cases hfinite
  | zero s => exact absurd hp (lt_irrefl _)
  | finite s m e hm =>
      cases s with
      | negative =>
          have hneg : value (.finite .negative m e hm) = -(m * 2 ^ e) := rfl
          have := mul_pos (Nat.cast_pos.mpr hm : (0 : ℚ) < m) (two_zpow_pos e)
          linarith
      | positive =>
          obtain ⟨r, hroot, hrounded⟩ := exists_rounded_root hm e
          exact ⟨r, hroot, (hrounded.rounds hroot.pos.le).roundsTo⟩

/-- The rounded root of a positive float is finite. -/
theorem Stands.exists_near_root (hx : Stands x p) (hp : 0 < p) :
    ∃ r, IsRoot r p ∧ Stands (Radical.sqrt x) (near r) := by
  obtain ⟨r, hr, hrounds⟩ := hx.exists_root hp
  have hless := hr.lt_rootLimit ((le_abs_self p).trans hx.abs_le)
  have hlimit := two_mul_rootLimit_le
  refine ⟨r, hr, hrounds.stands (hrounds.isFinite ?_)⟩
  rw [abs_of_pos hr.pos]
  linarith [hr.pos]

/-- The root of zero is zero. -/
theorem Stands.sqrt_zero (hx : Stands x 0) : Stands (Radical.sqrt x) 0 := by
  obtain ⟨hfinite, hzero⟩ := hx
  change x.toModel.unpack.isFinite = true at hfinite
  have hsqrt : ∃ s, UnpackedFloat.sqrt .binary64 x.toModel.unpack = .zero s := by
    unfold number at hzero
    cases hu : x.toModel.unpack with
    | zero s => exact ⟨s, rfl⟩
    | infinity s => rw [hu] at hfinite; cases hfinite
    | notANumber => rw [hu] at hfinite; cases hfinite
    | finite s m e hm =>
        rw [hu, ← abs_eq_zero, abs_value_finite] at hzero
        exact absurd hzero (mul_pos (Nat.cast_pos.mpr hm) (two_zpow_pos e)).ne'
  obtain ⟨s, hs⟩ := hsqrt
  have hunpack : (Radical.sqrt x).toModel.unpack = .zero s := by
    show (pack (UnpackedFloat.sqrt .binary64 x.toModel.unpack)).unpack = .zero s
    rw [hs]
    exact unpack_pack (u := .zero s) trivial
  refine ⟨?_, ?_⟩
  · show (Radical.sqrt x).toModel.unpack.isFinite = true
    rw [hunpack]
    rfl
  · unfold number
    rw [hunpack]
    rfl

/-- What is less than zero has no root. -/
theorem isNaN_sqrt_of_lt (h : x < 0) : Scalar.isNaN (Radical.sqrt x) = true := by
  refine isNaN_pack ?_
  rw [lt_iff_parts, unpack_zero] at h
  cases hu : x.toModel.unpack with
  | notANumber => rfl
  | zero s => rw [hu] at h; cases s <;> cases h
  | infinity s =>
      cases s with
      | negative => rfl
      | positive => rw [hu] at h; cases h
  | finite s m e hm =>
      cases s with
      | negative => rfl
      | positive => rw [hu] at h; cases h

end Floats

end Binary64
end SeparableTransforms
