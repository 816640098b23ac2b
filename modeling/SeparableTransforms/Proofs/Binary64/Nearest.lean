import SeparableTransforms.Proofs.Binary64.Rounding

/-!
# Representable numbers

A number is representable if it has no more than 53 binary digits and none of them below
the least unit: it is a whole number of the units that it would be rounded to.  These are
the numbers that a float can hold, if there were no largest float.

Rounding gives a representable number, it leaves a representable number as it is, and no
representable number is nearer.  Everything that is shown about rounding errors comes from
this and from two bounds: a number is less than `2 ^ 53` of its units, and it is rounded by
no more than half of one.

A result is shown to be representable by finding a unit that it is a whole number of, and
that is not too small for its size.  Sums of whole numbers of units are whole numbers of
units, and so the unit comes from the operands.
-/

namespace SeparableTransforms
namespace Binary64

section Grids

variable {x y : ℚ} {e t : ℤ}

theorem two_zpow_succ (e : ℤ) : (2 : ℚ) ^ (e + 1) = 2 ^ e + 2 ^ e := by
  rw [zpow_add_one₀ two_ne_zero]
  ring

/-- `2 ^ 52` units are `2 ^ 53` half units. -/
theorem two_zpow_units (e : ℤ) : (2 : ℚ) ^ (52 + e) = 2 ^ 53 * 2 ^ (e - 1) := by
  rw [← zpow_natCast, ← zpow_add₀ two_ne_zero]
  congr 1
  push_cast
  ring

/-- A whole number of units of the size `2 ^ e`. -/
def OnGrid (e : ℤ) (x : ℚ) : Prop :=
  ∃ n : ℤ, x = n * 2 ^ e

namespace OnGrid

theorem zero (e : ℤ) : OnGrid e 0 :=
  ⟨0, by simp⟩

theorem neg (h : OnGrid e x) : OnGrid e (-x) := by
  obtain ⟨n, rfl⟩ := h
  exact ⟨-n, by push_cast; ring⟩

theorem add (hx : OnGrid e x) (hy : OnGrid e y) : OnGrid e (x + y) := by
  obtain ⟨n, rfl⟩ := hx
  obtain ⟨k, rfl⟩ := hy
  exact ⟨n + k, by push_cast; ring⟩

theorem sub (hx : OnGrid e x) (hy : OnGrid e y) : OnGrid e (x - y) :=
  sub_eq_add_neg x y ▸ hx.add hy.neg

theorem mul (hx : OnGrid e x) (hy : OnGrid t y) : OnGrid (e + t) (x * y) := by
  obtain ⟨n, rfl⟩ := hx
  obtain ⟨k, rfl⟩ := hy
  exact ⟨n * k, by rw [zpow_add₀ two_ne_zero]; push_cast; ring⟩

theorem zpow (h : e ≤ t) : OnGrid e (2 ^ t) := by
  obtain ⟨n, hn⟩ := exists_units h
  exact ⟨n, by rw [← hn, div_mul_cancel₀ _ (two_zpow_pos e).ne']⟩

/-- A whole number of units is a whole number of smaller units. -/
theorem mono (h : OnGrid t x) (he : e ≤ t) : OnGrid e x := by
  obtain ⟨n, rfl⟩ := h
  obtain ⟨k, hk⟩ := zpow he
  exact ⟨n * k, by rw [hk]; push_cast; ring⟩

theorem abs (h : OnGrid e x) : OnGrid e |x| := by
  rcases abs_choice x with habs | habs
  · rwa [habs]
  · rw [habs]
    exact h.neg

/-- What is not zero is at least one unit. -/
theorem zpow_le_abs (h : OnGrid e x) (hx : x ≠ 0) : 2 ^ e ≤ |x| := by
  obtain ⟨n, rfl⟩ := h
  have hn : n ≠ 0 := by
    rintro rfl
    simp at hx
  have hone : (1 : ℚ) ≤ |(n : ℚ)| := by exact_mod_cast Int.one_le_abs hn
  rw [abs_mul, abs_of_pos (two_zpow_pos e)]
  exact le_mul_of_one_le_left (two_zpow_pos e).le hone

end OnGrid

end Grids

section UnitBounds

variable {x y : ℚ} {e : ℤ}

theorem le_unitExponent (x : ℚ) : -1074 ≤ unitExponent x :=
  le_max_right _ _

/-- A number is less than `2 ^ 53` of its units. -/
theorem abs_lt_units (x : ℚ) : |x| < 2 ^ (53 + unitExponent |x|) := by
  have hlog := Int.lt_zpow_succ_log_self (R := ℚ) one_lt_two |x|
  calc |x| < 2 ^ (Int.log 2 |x| + 1) := by exact_mod_cast hlog
    _ ≤ 2 ^ (53 + unitExponent |x|) :=
        zpow_le_zpow_right₀ one_le_two (by unfold unitExponent; omega)

/-- A number is at least `2 ^ 52` of its units, if smaller ones would do. -/
theorem units_le_abs (hx : x ≠ 0) (h : unitExponent |x| ≠ -1074) :
    2 ^ (52 + unitExponent |x|) ≤ |x| := by
  have hlog := Int.zpow_log_le_self (R := ℚ) one_lt_two (abs_pos.mpr hx)
  have hexp : 52 + unitExponent |x| = Int.log 2 |x| := by unfold unitExponent at h ⊢; omega
  rw [hexp]
  exact_mod_cast hlog

theorem unitExponent_le (hx : x ≠ 0) (he : -1074 ≤ e) (h : |x| < 2 ^ (53 + e)) :
    unitExponent |x| ≤ e := by
  have hlog := (Int.lt_zpow_iff_log_lt one_lt_two (abs_pos.mpr hx)).mp (by exact_mod_cast h)
  unfold unitExponent
  omega

theorem le_unitExponent_of_le (h : 2 ^ (52 + e) ≤ |x|) : e ≤ unitExponent |x| := by
  have hx : 0 < |x| := (two_zpow_pos _).trans_le h
  have hlog := (Int.zpow_le_iff_le_log one_lt_two hx).mp (by exact_mod_cast h)
  unfold unitExponent
  omega

theorem unitExponent_mono (hx : x ≠ 0) (h : |x| ≤ |y|) : unitExponent |x| ≤ unitExponent |y| :=
  unitExponent_le hx (le_unitExponent _) (h.trans_lt (abs_lt_units y))

end UnitBounds

section Representable

variable {x y : ℚ} {e : ℤ}

/-- No more than 53 binary digits, and none of them below the least unit. -/
def Representable (x : ℚ) : Prop :=
  OnGrid (unitExponent |x|) x

/-- A whole number of units is representable if there are no more than `2 ^ 53` of them. -/
theorem OnGrid.representable (h : OnGrid e x) (he : -1074 ≤ e) (hx : |x| ≤ 2 ^ (53 + e)) :
    Representable x := by
  rcases eq_or_ne x 0 with rfl | hne
  · exact .zero _
  rcases hx.lt_or_eq with hlt | heq
  · exact h.mono (unitExponent_le hne he hlt)
  · -- the number is a power of two, and so a whole number of larger units
    have hunit : unitExponent |x| ≤ 53 + e := by
      refine unitExponent_le hne (by omega) ?_
      rw [heq]
      exact zpow_lt_zpow_right₀ one_lt_two (by omega)
    have habs : OnGrid (unitExponent |x|) |x| := by
      rw [heq] at hunit ⊢
      exact .zpow hunit
    unfold Representable
    rcases abs_choice x with h' | h'
    · rwa [h'] at habs ⊢
    · have hneg := habs.neg
      rw [h', neg_neg] at hneg
      rwa [h']

theorem representable_zero : Representable 0 :=
  .zero _

theorem Representable.neg (h : Representable x) : Representable (-x) := by
  unfold Representable
  rw [abs_neg]
  exact OnGrid.neg h

theorem representable_zpow (h : -1074 ≤ e) : Representable (2 ^ e) := by
  refine (OnGrid.zpow le_rfl).representable h ?_
  rw [abs_of_pos (two_zpow_pos e)]
  exact zpow_le_zpow_right₀ one_le_two (by omega)

theorem representable_one : Representable 1 := by
  simpa using representable_zpow (show (-1074 : ℤ) ≤ 0 by norm_num)

theorem Representable.onGrid_least (h : Representable x) : OnGrid (-1074) x :=
  OnGrid.mono h (le_unitExponent _)

/-- A representable number of some size is a whole number of the units of that size. -/
theorem Representable.onGrid (h : Representable x) (hx : 2 ^ (52 + e) ≤ |x|) : OnGrid e x :=
  OnGrid.mono h (le_unitExponent_of_le hx)

end Representable

section Near

variable {x y r : ℚ} {e : ℤ}

/-- The number that a number of either sign is rounded to. -/
def near (x : ℚ) : ℚ :=
  if x < 0 then -nearest (-x) else nearest x

theorem near_of_nonneg (h : 0 ≤ x) : near x = nearest x :=
  if_neg (not_lt.mpr h)

@[simp] theorem near_zero : near 0 = 0 := by
  rw [near_of_nonneg le_rfl, nearest_zero]

theorem near_neg (x : ℚ) : near (-x) = -near x := by
  rcases lt_trichotomy x 0 with h | rfl | h
  · rw [near_of_nonneg (neg_nonneg.mpr h.le), near, if_pos h, neg_neg]
  · simp
  · rw [near, if_pos (neg_lt_zero.mpr h), neg_neg, near_of_nonneg h.le]

theorem abs_near (x : ℚ) : |near x| = nearest |x| := by
  rcases le_total 0 x with h | h
  · rw [near_of_nonneg h, abs_of_nonneg (nearest_nonneg h), abs_of_nonneg h]
  · have hneg : 0 ≤ -x := neg_nonneg.mpr h
    rw [← abs_neg, ← near_neg, near_of_nonneg hneg, abs_of_nonneg (nearest_nonneg hneg),
      abs_of_nonpos h]

theorem near_nonneg (h : 0 ≤ x) : 0 ≤ near x :=
  (near_of_nonneg h).symm ▸ nearest_nonneg h

/-- Rounding keeps the order. -/
theorem near_mono (h : x ≤ y) : near x ≤ near y := by
  rcases le_total 0 x with hx | hx
  · rw [near_of_nonneg hx, near_of_nonneg (hx.trans h)]
    exact nearest_mono hx h
  · rcases le_total 0 y with hy | hy
    · have hneg : 0 ≤ near (-x) := near_nonneg (neg_nonneg.mpr hx)
      rw [near_neg] at hneg
      exact (neg_nonneg.mp hneg).trans (near_nonneg hy)
    · have hneg : nearest (-y) ≤ nearest (-x) := nearest_mono (neg_nonneg.mpr hy) (neg_le_neg h)
      rw [← near_of_nonneg (neg_nonneg.mpr hy), ← near_of_nonneg (neg_nonneg.mpr hx), near_neg,
        near_neg] at hneg
      exact neg_le_neg_iff.mp hneg

theorem abs_near_le_two_mul (x : ℚ) : |near x| ≤ 2 * |x| :=
  (abs_near x).trans_le (nearest_le_two_mul (abs_nonneg x))

/-- Rounding gives a whole number of the units of the number. -/
theorem onGrid_near (x : ℚ) : OnGrid (unitExponent |x|) (near x) := by
  have habs : OnGrid (unitExponent |x|) |near x| := by
    rw [abs_near]
    exact ⟨_, rfl⟩
  rcases abs_choice (near x) with h | h
  · rwa [h] at habs
  · have hneg := habs.neg
    rwa [h, neg_neg] at hneg

theorem abs_near_le_units (x : ℚ) : |near x| ≤ 2 ^ (53 + unitExponent |x|) := by
  rw [abs_near]
  exact nearest_le_zpow (abs_lt_units x).le (by have := le_unitExponent |x|; omega)

theorem representable_near (x : ℚ) : Representable (near x) :=
  (onGrid_near x).representable (le_unitExponent _) (abs_near_le_units x)

theorem near_of_representable (h : Representable x) : near x = x := by
  have habs : ∀ y : ℚ, 0 ≤ y → Representable y → near y = y := by
    intro y hy hrepresentable
    obtain ⟨n, hn⟩ : OnGrid (unitExponent y) y := by
      rw [Representable, abs_of_nonneg hy] at hrepresentable
      exact hrepresentable
    have hunits : y / 2 ^ unitExponent y = n :=
      (div_eq_iff (two_zpow_pos _).ne').mpr hn
    rw [near_of_nonneg hy, nearest, hunits, roundEven_intCast, ← hn]
  rcases le_total 0 x with hx | hx
  · exact habs x hx h
  · have hneg := habs (-x) (neg_nonneg.mpr hx) h.neg
    rwa [near_neg, neg_inj] at hneg

theorem near_le (h : x ≤ r) (hr : Representable r) : near x ≤ r :=
  (near_mono h).trans_eq (near_of_representable hr)

theorem le_near (h : r ≤ x) (hr : Representable r) : r ≤ near x :=
  (near_of_representable hr).symm.trans_le (near_mono h)

theorem abs_near_le (h : |x| ≤ r) (hr : Representable r) : |near x| ≤ r := by
  obtain ⟨hlow, hhigh⟩ := abs_le.mp h
  exact abs_le.mpr ⟨le_near hlow hr.neg, near_le hhigh hr⟩

end Near

section Middles

variable {k : ℤ}

/-- The middle between a power of two and the next smaller float is rounded to the power of two,
whose digits are even. -/
theorem near_middle (hk : -1021 ≤ k) : near (2 ^ k - 2 ^ (k - 54)) = 2 ^ k := by
  have hunit := two_zpow_pos (k - 53)
  have hpower : (2 : ℚ) ^ k = 2 ^ 53 * 2 ^ (k - 53) := by
    rw [← zpow_natCast, ← zpow_add₀ two_ne_zero]
    congr 1
    push_cast
    ring
  have hhalf : (2 : ℚ) ^ (k - 54) = 2 ^ (k - 53) / 2 := by
    rw [show k - 54 = k - 53 - 1 by ring, zpow_sub_one₀ two_ne_zero, div_eq_mul_inv]
  rw [hpower, hhalf]
  have hvalue : 2 ^ 53 * 2 ^ (k - 53) - 2 ^ (k - 53) / 2 =
      (2 ^ 53 - 1 / 2) * (2 : ℚ) ^ (k - 53) := by
    ring
  have hpos : (0 : ℚ) < (2 ^ 53 - 1 / 2) * 2 ^ (k - 53) := mul_pos (by norm_num) hunit
  have hexponent : unitExponent ((2 ^ 53 - 1 / 2) * 2 ^ (k - 53)) = k - 53 := by
    have habs := abs_of_pos hpos
    have hless := unitExponent_le (e := k - 53) hpos.ne' (by omega) (by
      rw [habs, zpow_add₀ two_ne_zero]
      exact mul_lt_mul_of_pos_right (by norm_num) hunit)
    have hmore := le_unitExponent_of_le (x := (2 ^ 53 - 1 / 2) * 2 ^ (k - 53)) (e := k - 53) (by
      rw [habs, zpow_add₀ two_ne_zero]
      exact mul_le_mul_of_nonneg_right (by norm_num) hunit.le)
    rw [habs] at hless hmore
    omega
  have hfloor : ⌊(2 ^ 53 - 1 / 2 : ℚ)⌋ = 2 ^ 53 - 1 := by
    rw [Int.floor_eq_iff]
    norm_num
  have hround : roundEven (2 ^ 53 - 1 / 2) = 2 ^ 53 := by
    unfold roundEven
    rw [hfloor]
    norm_num
  rw [hvalue, near_of_nonneg hpos.le, nearest, hexponent, mul_div_cancel_right₀ _ hunit.ne', hround]
  norm_num

/-- Half of the least unit is rounded to zero. -/
theorem near_half_least : near (2 ^ (-1075 : ℤ)) = 0 := by
  have hexponent : unitExponent (2 ^ (-1075 : ℤ)) = -1074 := by
    have hlog : Int.log 2 ((2 : ℚ) ^ (-1075 : ℤ)) = -1075 := by
      exact_mod_cast Int.log_zpow (R := ℚ) one_lt_two (-1075)
    unfold unitExponent
    omega
  have hdigit : (2 : ℚ) ^ (-1075 : ℤ) / 2 ^ (-1074 : ℤ) = 1 / 2 := by
    rw [← zpow_sub₀ two_ne_zero]
    norm_num
  have hround : roundEven (1 / 2) = 0 := by
    norm_num [roundEven]
  rw [near_of_nonneg (two_zpow_pos _).le, nearest, hexponent, hdigit, hround, Int.cast_zero,
    zero_mul]

/-- What is at most half of the least unit is rounded to zero. -/
theorem near_of_abs_le_half_least {x : ℚ} (h : |x| ≤ 2 ^ (-1075 : ℤ)) : near x = 0 := by
  obtain ⟨hlower, hupper⟩ := abs_le.mp h
  have hlow := near_mono hlower
  have hhigh := near_mono hupper
  rw [near_neg] at hlow
  rw [near_half_least] at hlow hhigh
  linarith

end Middles

section Errors

variable {x y r : ℚ} {e : ℤ}

theorem abs_roundEven_sub_le (y : ℚ) : |(roundEven y : ℚ) - y| ≤ 1 / 2 := by
  have hlow := Int.floor_le y
  have hhigh := Int.lt_floor_add_one y
  have hparity : ⌊y⌋ % 2 = 0 ∨ ⌊y⌋ % 2 = 1 := Int.emod_two_eq_zero_or_one _
  unfold roundEven
  split_ifs with hbelow habove
  · exact abs_le.mpr ⟨by linarith, by linarith⟩
  · push_cast
    exact abs_le.mpr ⟨by linarith, by linarith⟩
  · rcases hparity with h | h <;> rw [h] <;> push_cast <;>
      exact abs_le.mpr ⟨by linarith, by linarith⟩

/-- Rounding moves a number by no more than half a unit. -/
theorem abs_near_sub_le (x : ℚ) : |near x - x| ≤ 2 ^ (unitExponent |x| - 1) := by
  have hnonneg : ∀ y : ℚ, 0 ≤ y → |near y - y| ≤ 2 ^ (unitExponent y - 1) := by
    intro y hy
    have hunit := two_zpow_pos (unitExponent y)
    have hdifference : near y - y =
        (roundEven (y / 2 ^ unitExponent y) - y / 2 ^ unitExponent y) * 2 ^ unitExponent y := by
      rw [near_of_nonneg hy, nearest, sub_mul, div_mul_cancel₀ _ hunit.ne']
    rw [hdifference, abs_mul, abs_of_pos hunit, zpow_sub_one₀ two_ne_zero, mul_comm]
    have hhalf := abs_roundEven_sub_le (y / 2 ^ unitExponent y)
    rw [one_div] at hhalf
    exact mul_le_mul_of_nonneg_left hhalf hunit.le
  rcases le_total 0 x with hx | hx
  · simpa [abs_of_nonneg hx] using hnonneg x hx
  · have hneg := hnonneg (-x) (neg_nonneg.mpr hx)
    rwa [near_neg, neg_sub_neg, abs_sub_comm, ← abs_of_nonpos hx] at hneg

/-- Rounding moves a number by little in comparison to its size. -/
theorem abs_near_sub_le_of_le (he : -1021 ≤ e) (h : |x| ≤ 2 ^ e) : |near x - x| ≤ 2 ^ (e - 54) := by
  rcases eq_or_ne x 0 with rfl | hne
  · rw [near_zero, sub_self, abs_zero]
    exact (two_zpow_pos _).le
  rcases h.lt_or_eq with hlt | heq
  · have hunit : unitExponent |x| ≤ e - 53 :=
      unitExponent_le hne (by omega) (by rwa [add_sub_cancel])
    exact (abs_near_sub_le x).trans (zpow_le_zpow_right₀ one_le_two (by omega))
  · have hpower : near |x| = |x| := near_of_representable (heq ▸ representable_zpow (by omega))
    have hexact : near x = x := by
      rcases abs_choice x with habs | habs
      · rwa [habs] at hpower
      · rwa [habs, near_neg, neg_inj] at hpower
    rw [hexact, sub_self, abs_zero]
    exact (two_zpow_pos _).le

/-- A whole number of least units is moved by little in comparison to itself. -/
theorem OnGrid.abs_near_sub_le_div (h : OnGrid (-1074) x) : |near x - x| ≤ |x| / 2 ^ 53 := by
  have hnonneg : 0 ≤ |x| / 2 ^ 53 := div_nonneg (abs_nonneg x) (by norm_num)
  rcases eq_or_ne (unitExponent |x|) (-1074) with hleast | hunit
  · have hexact : Representable x := by
      unfold Representable
      rwa [hleast]
    rwa [near_of_representable hexact, sub_self, abs_zero]
  rcases eq_or_ne x 0 with rfl | hne
  · rwa [near_zero, sub_self, abs_zero]
  have hunits := units_le_abs hne hunit
  rw [two_zpow_units] at hunits
  rw [le_div_iff₀ (by norm_num), mul_comm]
  exact (mul_le_mul_of_nonneg_left (abs_near_sub_le x) (by norm_num)).trans hunits

/-- No whole number of units is nearer than the one that is rounded to. -/
theorem OnGrid.abs_near_sub_le (h : OnGrid (unitExponent |x|) r) : |near x - x| ≤ |r - x| := by
  by_contra hless
  rw [not_le] at hless
  have hhalf := Binary64.abs_near_sub_le x
  have hunit : (2 : ℚ) ^ unitExponent |x| =
      2 ^ (unitExponent |x| - 1) + 2 ^ (unitExponent |x| - 1) := by
    rw [zpow_sub_one₀ two_ne_zero]
    ring
  have hdistinct : near x - r ≠ 0 := by
    intro hzero
    rw [sub_eq_zero.mp hzero] at hless
    exact lt_irrefl _ hless
  have hunits := ((onGrid_near x).sub h).zpow_le_abs hdistinct
  have htriangle : |near x - r| ≤ |near x - x| + |r - x| := by
    rw [abs_sub_comm r x]
    exact abs_sub_le _ _ _
  linarith

/-- No representable number is nearer than the one that is rounded to. -/
theorem Representable.abs_near_sub_le (h : Representable r) : |near x - x| ≤ |r - x| := by
  rcases eq_or_ne x 0 with rfl | hx
  · rw [near_zero, sub_self, abs_zero]
    exact abs_nonneg _
  rcases le_or_gt (unitExponent |x|) (unitExponent |r|) with hunit | hunit
  · exact OnGrid.abs_near_sub_le (OnGrid.mono h hunit)
  · -- the other number is smaller, and a power of two lies between
    have hpower : (2 : ℚ) ^ (52 + unitExponent |x|) ≤ |x| :=
      units_le_abs hx ((le_unitExponent |r|).trans_lt hunit).ne'
    have hr : |r| ≤ 2 ^ (52 + unitExponent |x|) :=
      (abs_lt_units r).le.trans (zpow_le_zpow_right₀ one_le_two (by omega))
    have hgrid : OnGrid (unitExponent |x|) (2 ^ (52 + unitExponent |x|)) := .zpow (by omega)
    have hdistance : |x| - 2 ^ (52 + unitExponent |x|) ≤ |r - x| := by
      have := abs_sub_abs_le_abs_sub x r
      rw [abs_sub_comm r x]
      linarith
    rcases le_total 0 x with hnonneg | hneg
    · refine (OnGrid.abs_near_sub_le hgrid).trans (le_trans (le_of_eq ?_) hdistance)
      rw [abs_of_nonneg hnonneg] at hpower ⊢
      rw [abs_of_nonpos (sub_nonpos.mpr hpower), neg_sub]
    · refine (OnGrid.abs_near_sub_le hgrid.neg).trans (le_trans (le_of_eq ?_) hdistance)
      rw [abs_of_nonpos hneg] at hpower ⊢
      rw [abs_of_nonneg (by linarith)]
      ring

/-- A number is rounded to zero if it is at most half of the least unit. -/
theorem near_eq_zero_iff : near x = 0 ↔ |x| ≤ 2 ^ (-1075 : ℤ) := by
  refine ⟨fun h => ?_, near_of_abs_le_half_least⟩
  have hleast : Representable (2 ^ (-1074 : ℤ)) := representable_zpow le_rfl
  have hpos : (0 : ℚ) < 2 ^ (-1075 : ℤ) := two_zpow_pos _
  have hdouble : (2 : ℚ) ^ (-1074 : ℤ) = 2 ^ (-1075 : ℤ) + 2 ^ (-1075 : ℤ) := by
    rw [← two_zpow_succ, show (-1075 + 1 : ℤ) = -1074 by norm_num]
  have hclose := hleast.abs_near_sub_le (x := |x|)
  rw [near_of_nonneg (abs_nonneg x), ← abs_near, h, abs_zero, zero_sub, abs_neg, abs_abs,
    hdouble] at hclose
  generalize (2 : ℚ) ^ (-1075 : ℤ) = half at *
  rcases le_total |x| (half + half) with hle | hle
  · rw [abs_of_nonneg (sub_nonneg.mpr hle)] at hclose
    linarith
  · rw [abs_of_nonpos (sub_nonpos.mpr hle)] at hclose
    linarith

end Errors

end Binary64
end SeparableTransforms
