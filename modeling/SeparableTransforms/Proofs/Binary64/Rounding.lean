import SeparableTransforms.Proofs.Binary64.Agreement

/-!
# Rounding

The arithmetic of floats computes exactly, drops binary digits until 53 are left and
looks at two bits about the digits that were dropped.  This module says what comes
out as a function on rational numbers: `nearest x` is the multiple of a unit that is
nearest to `x`, and the unit is a power of two that depends on the size of `x` alone.

* `rounded_roundWithAccuracy`, `rounded_roundExactly`, `rounded_round`: the rounded parts hold
  `nearest x`.
* `nearest_mono`: rounding keeps the order of numbers.
* `Rounded.unpack_pack`: packing keeps the rounded parts, unless they are too large
  for a float and become infinite.
-/

namespace SeparableTransforms
namespace Binary64

open Float.Model
open Float.Model.UnpackedFloat

section Integers

variable {x y : ℚ}

/-- The nearest integer; a tie goes to the even one. -/
def roundEven (x : ℚ) : ℤ :=
  if x - ⌊x⌋ < 1 / 2 then ⌊x⌋
  else if 1 / 2 < x - ⌊x⌋ then ⌊x⌋ + 1
  else ⌊x⌋ + ⌊x⌋ % 2

theorem floor_le_roundEven (x : ℚ) : ⌊x⌋ ≤ roundEven x := by
  unfold roundEven
  split_ifs <;> omega

theorem roundEven_le_floor_add_one (x : ℚ) : roundEven x ≤ ⌊x⌋ + 1 := by
  unfold roundEven
  split_ifs <;> omega

theorem roundEven_mono (h : x ≤ y) : roundEven x ≤ roundEven y := by
  rcases (Int.floor_mono h).eq_or_lt with hsame | hless
  · unfold roundEven
    rw [← hsame]
    split_ifs <;> first | omega | linarith
  · calc roundEven x ≤ ⌊x⌋ + 1 := roundEven_le_floor_add_one x
      _ ≤ ⌊y⌋ := hless
      _ ≤ roundEven y := floor_le_roundEven y

@[simp] theorem roundEven_intCast (n : ℤ) : roundEven n = n := by
  simp [roundEven]

/-- Rounding up to the next integer at most doubles a number. -/
theorem roundEven_le_two_mul (h : 0 ≤ x) : (roundEven x : ℚ) ≤ 2 * x := by
  have hfloor : (0 : ℚ) ≤ ⌊x⌋ := Int.cast_nonneg (Int.floor_nonneg.mpr h)
  have hle := Int.floor_le x
  have hparity : ((⌊x⌋ % 2 : ℤ) : ℚ) ≤ 1 := by exact_mod_cast (by omega : ⌊x⌋ % 2 ≤ 1)
  unfold roundEven
  split_ifs with hlow hhigh
  · linarith
  · push_cast
    linarith
  · push_cast
    linarith

end Integers

section Units

variable {x y : ℚ} {s : ℤ}

/-- The exponent of the unit that a number is rounded to. -/
def unitExponent (x : ℚ) : ℤ :=
  max (Int.log 2 x - 52) (-1074)

/-- The float nearest to a number, as a number, if there were no largest float. -/
def nearest (x : ℚ) : ℚ :=
  roundEven (x / 2 ^ unitExponent x) * 2 ^ unitExponent x

theorem two_zpow_pos (s : ℤ) : (0 : ℚ) < 2 ^ s :=
  zpow_pos two_pos s

/-- A power of two that is no smaller than the unit is a whole number of units. -/
theorem exists_units {t s : ℤ} (h : t ≤ s) : ∃ n : ℤ, (2 : ℚ) ^ s / 2 ^ t = n := by
  obtain ⟨k, rfl⟩ := Int.le.dest h
  refine ⟨2 ^ k, ?_⟩
  rw [zpow_add₀ two_ne_zero, mul_div_cancel_left₀ _ (two_zpow_pos t).ne']
  push_cast
  exact zpow_natCast 2 k

theorem nearest_le_zpow (h : x ≤ 2 ^ s) (hs : unitExponent x ≤ s) : nearest x ≤ 2 ^ s := by
  obtain ⟨n, hn⟩ := exists_units hs
  have hunit := two_zpow_pos (unitExponent x)
  have hround : roundEven (x / 2 ^ unitExponent x) ≤ n := by
    rw [← roundEven_intCast n, ← hn]
    exact roundEven_mono ((div_le_div_iff_of_pos_right hunit).mpr h)
  calc nearest x ≤ n * 2 ^ unitExponent x :=
        mul_le_mul_of_nonneg_right (Int.cast_le.mpr hround) hunit.le
    _ = 2 ^ s := by rw [← hn, div_mul_cancel₀ _ hunit.ne']

theorem zpow_le_nearest (h : 2 ^ s ≤ x) (hs : unitExponent x ≤ s) : 2 ^ s ≤ nearest x := by
  obtain ⟨n, hn⟩ := exists_units hs
  have hunit := two_zpow_pos (unitExponent x)
  have hround : n ≤ roundEven (x / 2 ^ unitExponent x) := by
    rw [← roundEven_intCast n, ← hn]
    exact roundEven_mono ((div_le_div_iff_of_pos_right hunit).mpr h)
  calc (2 : ℚ) ^ s = n * 2 ^ unitExponent x := by rw [← hn, div_mul_cancel₀ _ hunit.ne']
    _ ≤ nearest x := mul_le_mul_of_nonneg_right (Int.cast_le.mpr hround) hunit.le

theorem nearest_nonneg (h : 0 ≤ x) : 0 ≤ nearest x := by
  have hunit := two_zpow_pos (unitExponent x)
  have hround : 0 ≤ roundEven (x / 2 ^ unitExponent x) :=
    (Int.floor_nonneg.mpr (div_nonneg h hunit.le)).trans (floor_le_roundEven _)
  exact mul_nonneg (Int.cast_nonneg hround) hunit.le

@[simp] theorem nearest_zero : nearest 0 = 0 := by
  have hround : roundEven 0 = 0 := by simpa using roundEven_intCast 0
  rw [nearest, zero_div, hround, Int.cast_zero, zero_mul]

theorem nearest_le_two_mul (h : 0 ≤ x) : nearest x ≤ 2 * x := by
  have hunit := two_zpow_pos (unitExponent x)
  calc nearest x ≤ 2 * (x / 2 ^ unitExponent x) * 2 ^ unitExponent x :=
        mul_le_mul_of_nonneg_right (roundEven_le_two_mul (div_nonneg h hunit.le)) hunit.le
    _ = 2 * x := by rw [mul_assoc, div_mul_cancel₀ _ hunit.ne']

/-- A number with 53 binary digits, none of them below the least unit, is not rounded. -/
theorem nearest_digits {m : Nat} {e : ℤ} (hm : m < 2 ^ 53) (he : -1074 ≤ e) :
    nearest (m * 2 ^ e) = m * 2 ^ e := by
  rcases Nat.eq_zero_or_pos m with rfl | hpos
  · rw [Nat.cast_zero, zero_mul, nearest_zero]
  have hx : (0 : ℚ) < m * 2 ^ e := mul_pos (Nat.cast_pos.mpr hpos) (two_zpow_pos e)
  have hbound : (m : ℚ) * 2 ^ e < 2 ^ (53 + e) := by
    rw [zpow_add₀ two_ne_zero]
    exact mul_lt_mul_of_pos_right (by exact_mod_cast hm) (two_zpow_pos e)
  have hlog : Int.log 2 ((m : ℚ) * 2 ^ e) < 53 + e :=
    (Int.lt_zpow_iff_log_lt one_lt_two hx).mp (by exact_mod_cast hbound)
  obtain ⟨n, hn⟩ := exists_units (t := unitExponent (m * 2 ^ e)) (s := e)
    (by unfold unitExponent; omega)
  have hunits : (m : ℚ) * 2 ^ e / 2 ^ unitExponent (m * 2 ^ e) = ((m * n : ℤ) : ℚ) := by
    rw [mul_div_assoc, hn]
    push_cast
    rfl
  rw [nearest, hunits, roundEven_intCast, ← hunits, div_mul_cancel₀ _ (two_zpow_pos _).ne']

/-- Rounding keeps the order. -/
theorem nearest_mono (hx : 0 ≤ x) (h : x ≤ y) : nearest x ≤ nearest y := by
  rcases hx.eq_or_lt with rfl | hx
  · rw [nearest_zero]
    exact nearest_nonneg h
  have hlog : Int.log 2 x ≤ Int.log 2 y := Int.log_mono_right hx h
  rcases eq_or_ne (unitExponent x) (unitExponent y) with hunit | hunit
  · have hpos := two_zpow_pos (unitExponent y)
    have hdiv : x / 2 ^ unitExponent y ≤ y / 2 ^ unitExponent y :=
      (div_le_div_iff_of_pos_right hpos).mpr h
    unfold nearest
    rw [hunit]
    exact mul_le_mul_of_nonneg_right (Int.cast_le.mpr (roundEven_mono hdiv)) hpos.le
  · -- a power of two lies between the numbers, and both units divide it
    have hless : Int.log 2 x < Int.log 2 y :=
      hlog.lt_of_ne fun heq => hunit (by simp [unitExponent, heq])
    have hux : unitExponent x ≤ Int.log 2 y := by unfold unitExponent at hunit ⊢; omega
    have huy : unitExponent y ≤ Int.log 2 y := by unfold unitExponent at hunit ⊢; omega
    have hbelow : x ≤ 2 ^ Int.log 2 y :=
      ((Int.lt_zpow_iff_log_lt one_lt_two hx).mpr hless).le
    have habove : 2 ^ Int.log 2 y ≤ y := Int.zpow_log_le_self one_lt_two (hx.trans_le h)
    exact (nearest_le_zpow hbelow hux).trans (zpow_le_nearest habove huy)

end Units

section Shifting

variable {em : ExtendedMantissa} {x : ℚ} {m : Nat} {e t : Int}

/-- What a mantissa and its two extra bits tell about a number. -/
structure Represents (em : ExtendedMantissa) (x : ℚ) : Prop where
  lower : (em.mantissa : ℚ) ≤ x
  upper : x < em.mantissa + 1
  roundBit : em.roundBit = true ↔ 1 / 2 ≤ x - em.mantissa
  stickyBit : em.stickyBit = true ↔ x - em.mantissa ≠ 0 ∧ x - em.mantissa ≠ 1 / 2

theorem represents_exact (m : Nat) :
    Represents (ExtendedMantissa.ofMantissaAndAccuracy m .exact) m := by
  constructor <;> norm_num [ExtendedMantissa.ofMantissaAndAccuracy]

theorem Represents.floor (h : Represents em x) : ⌊x⌋ = em.mantissa :=
  Int.floor_eq_iff.mpr ⟨by exact_mod_cast h.lower, by exact_mod_cast h.upper⟩

/-- The mantissa is rounded as the number is. -/
theorem Represents.roundedMantissa (h : Represents em x) :
    (em.roundedMantissa : ℤ) = roundEven x := by
  have hfloor := h.floor
  obtain ⟨m, r, s⟩ := em
  obtain ⟨lower, upper, roundBit, stickyBit⟩ := h
  unfold roundEven
  simp only [hfloor, Int.cast_natCast]
  cases r <;> cases s <;>
    simp only [Bool.false_eq_true, false_iff, true_iff, not_le, not_and, not_not, ne_eq]
      at roundBit stickyBit
  · show (m : ℤ) = _
    rw [if_pos roundBit]
  · show (m : ℤ) = _
    rw [if_pos roundBit]
  · -- the bits are those of a tie
    have htie : x - m = 1 / 2 := stickyBit (by linarith)
    show ((m + m % 2 : Nat) : ℤ) = _
    rw [htie, if_neg (lt_irrefl _), if_neg (lt_irrefl _)]
    push_cast
    rfl
  · have habove : 1 / 2 < x - m := roundBit.lt_of_ne (Ne.symm stickyBit.2)
    show ((m + 1 : Nat) : ℤ) = _
    rw [if_neg (not_lt.mpr roundBit), if_pos habove]
    push_cast
    rfl

theorem Represents.shiftRightOne (h : Represents em x) :
    Represents em.shiftRightOne (x / 2) := by
  obtain ⟨m, r, s⟩ := em
  obtain ⟨lower, upper, roundBit, stickyBit⟩ := h
  have hdigits : (m : ℚ) = 2 * (m / 2 : Nat) + (m % 2 : Nat) := by
    exact_mod_cast (Nat.div_add_mod m 2).symm
  have hsticky : (r || s) = true ↔ x - m ≠ 0 := by
    rw [Bool.or_eq_true, roundBit, stickyBit]
    constructor
    · rintro (hhalf | ⟨hne, -⟩)
      · linarith
      · exact hne
    · intro hne
      rcases eq_or_ne (x - m) (1 / 2) with heq | hneq
      · exact .inl heq.ge
      · exact .inr ⟨hne, hneq⟩
  simp only [ExtendedMantissa.shiftRightOne]
  dsimp only at lower upper
  rcases Nat.mod_two_eq_zero_or_one m with hbit | hbit
  · rw [hbit, Nat.cast_zero, add_zero] at hdigits
    refine ⟨?_, ?_, ?_, ?_⟩ <;> dsimp only
    · linarith
    · linarith
    · simp only [hbit, bne_self_eq_false, Bool.false_eq_true, false_iff, not_le]
      linarith
    · rw [hsticky]
      constructor
      · intro hne
        exact ⟨fun hz => hne (by linarith), fun hz => by linarith⟩
      · rintro ⟨hne, -⟩ hz
        exact hne (by linarith)
  · rw [hbit, Nat.cast_one] at hdigits
    refine ⟨?_, ?_, ?_, ?_⟩ <;> dsimp only
    · linarith
    · linarith
    · simp only [hbit, one_ne_zero, bne_iff_ne, ne_eq, not_false_eq_true, true_iff]
      linarith
    · rw [hsticky]
      constructor
      · intro hne
        exact ⟨fun hz => by linarith, fun hz => hne (by linarith)⟩
      · rintro ⟨-, hne⟩ hz
        exact hne (by linarith)

theorem Represents.shiftRight (h : Represents em x) (n : Nat) :
    Represents (em >>> n) (x / 2 ^ n) := by
  show Represents (n.repeat ExtendedMantissa.shiftRightOne em) _
  induction n with
  | zero => simpa [Nat.repeat] using h
  | succ n ih =>
      rw [Nat.repeat, pow_succ, ← div_div]
      exact ih.shiftRightOne

/-- Digits are shifted out until the exponent is the one that is aimed at. -/
theorem exists_represents_shiftToExponent {accuracy : Accuracy}
    (hx : Represents (.ofMantissaAndAccuracy m accuracy) x) (h : e ≤ t) :
    ∃ em, shiftToExponent m e accuracy t = (em, t) ∧ Represents em (x * 2 ^ e / 2 ^ t) := by
  obtain ⟨k, rfl⟩ := Int.le.dest h
  have hcount : (e + k - e).toNat = k := by omega
  have hvalue : x * 2 ^ e / 2 ^ (e + (k : ℤ)) = x / 2 ^ k := by
    rw [zpow_add₀ two_ne_zero, zpow_natCast, mul_comm, mul_div_mul_left _ _ (two_zpow_pos e).ne']
  refine ⟨ExtendedMantissa.ofMantissaAndAccuracy m accuracy >>> k, ?_, ?_⟩
  · simp only [shiftToExponent, hcount]
  · rw [hvalue]
    exact hx.shiftRight k

theorem Represents.bounds {accuracy : Accuracy}
    (hx : Represents (.ofMantissaAndAccuracy m accuracy) x) : (m : ℚ) ≤ x ∧ x < m + 1 := by
  have hmantissa : (ExtendedMantissa.ofMantissaAndAccuracy m accuracy).mantissa = m := by
    unfold ExtendedMantissa.ofMantissaAndAccuracy
    split <;> rfl
  have hlower := hx.lower
  have hupper := hx.upper
  rw [hmantissa] at hlower hupper
  exact ⟨hlower, hupper⟩

end Shifting

section Results

variable {s : Sign} {m : Nat} {e : Int} {u : UnpackedFloat} {x : ℚ}

/-- The exponent that a rounded result is aimed at depends on the number alone, and not on how its
digits are given.  A number without digits has to be below the least unit. -/
theorem unitExponent_eq (hx : 0 < x) (hlower : m ≤ x) (hupper : x < m + 1)
    (hm : 0 < m ∨ e ≤ -1074) :
    unitExponent (x * 2 ^ e) = Format.binary64.targetExponent (totalExponent m e) := by
  have hpos : 0 < x * 2 ^ e := mul_pos hx (two_zpow_pos e)
  rw [targetExponent_eq, totalExponent, unitExponent]
  rcases Nat.eq_zero_or_pos m with rfl | hmpos
  · have hbelow : x * 2 ^ e < 2 ^ e := by
      rw [Nat.cast_zero, zero_add] at hupper
      exact mul_lt_of_lt_one_left (two_zpow_pos e) hupper
    have hlog := (Int.lt_zpow_iff_log_lt one_lt_two hpos).mp (by exact_mod_cast hbelow)
    have hzero : (0 : Nat).log2 = 0 := rfl
    rw [hzero]
    omega
  · have hlow : (2 : ℚ) ^ ((m.log2 : ℤ) + e) ≤ x * 2 ^ e := by
      rw [zpow_add₀ two_ne_zero, zpow_natCast]
      refine mul_le_mul_of_nonneg_right (le_trans ?_ hlower) (two_zpow_pos e).le
      exact_mod_cast Nat.log2_self_le hmpos.ne'
    have hhigh : x * 2 ^ e < 2 ^ ((m.log2 : ℤ) + e + 1) := by
      rw [show (m.log2 : ℤ) + e + 1 = (m.log2 + 1 : Nat) + e by push_cast; omega,
        zpow_add₀ two_ne_zero, zpow_natCast]
      refine mul_lt_mul_of_pos_right (hupper.trans_le ?_) (two_zpow_pos e)
      exact_mod_cast Nat.lt_log2_self
    have hge := (Int.zpow_le_iff_le_log one_lt_two hpos).mp (by exact_mod_cast hlow)
    have hlt := (Int.lt_zpow_iff_log_lt one_lt_two hpos).mp (by exact_mod_cast hhigh)
    omega

/-- Parts with a sign and a magnitude, in canonical form but with no bound on the exponent. -/
inductive Rounded (s : Sign) : UnpackedFloat → ℚ → Prop
  | zero : Rounded s (.zero s) 0
  | finite {m : Nat} {e : Int} (hpos : 0 < m) (hm : m < 2 ^ 53) (he : -1074 ≤ e)
      (hform : 2 ^ 52 ≤ m ∨ e = -1074) : Rounded s (.finite s m e hpos) (m * 2 ^ e)

theorem log2_lt_of_lt (hm : m < 2 ^ 53) : m.log2 < 53 := by
  rcases Nat.eq_zero_or_pos m with rfl | hpos
  · decide
  · exact (Nat.log2_lt hpos.ne').mpr hm

theorem targetExponent_digits (hm : m < 2 ^ 53) (he : -1074 ≤ e)
    (hform : 2 ^ 52 ≤ m ∨ e = -1074) :
    Format.binary64.targetExponent (totalExponent m e) = e := by
  have hlog := log2_lt_of_lt hm
  have hnormal : m.log2 = 52 ∨ e = -1074 := hform.imp_left fun hge => log2_eq_of_normal hge hm
  simp only [targetExponent_eq, totalExponent]
  omega

/-- Rounded digits in canonical form stay as they are. -/
theorem shiftToTargetExponent_digits (hm : m < 2 ^ 53) (he : -1074 ≤ e)
    (hform : 2 ^ 52 ≤ m ∨ e = -1074) :
    shiftToTargetExponent .binary64 m e .exact = (⟨m, false, false⟩, e) := by
  have h := shiftToTargetExponent_exact (k := 0) (m := m) (e := e)
    (by simpa using targetExponent_digits hm he hform)
  simpa using h

/-- A carry into a new digit is shifted out again. -/
theorem shiftToTargetExponent_carry (he : -1074 ≤ e) :
    shiftToTargetExponent .binary64 (2 ^ 53) e .exact = (⟨2 ^ 52, false, false⟩, e + 1) := by
  have h := shiftToTargetExponent_exact (k := 1) (m := 2 ^ 52) (e := e + 1) (by
    simp only [targetExponent_eq, totalExponent, log2_two_pow_mul 1 (by decide : 2 ^ 52 ≠ 0),
      Nat.log2_two_pow]
    omega)
  simpa using h

/-- The units that a number is rounded to are no more than 53 binary digits can count, and no
fewer than 52 can if the unit is not the least one. -/
theorem roundEven_units (hx : 0 < x) :
    roundEven (x / 2 ^ unitExponent x) ≤ 2 ^ 53 ∧
      (2 ^ 52 ≤ roundEven (x / 2 ^ unitExponent x) ∨ unitExponent x = -1074) := by
  have hunit := two_zpow_pos (unitExponent x)
  have hlow := Int.zpow_log_le_self (R := ℚ) one_lt_two hx
  have hhigh := Int.lt_zpow_succ_log_self (R := ℚ) one_lt_two x
  constructor
  · have hbound : x / 2 ^ unitExponent x ≤ ((2 ^ 53 : ℤ) : ℚ) := by
      rw [div_le_iff₀ hunit]
      calc x ≤ 2 ^ (Int.log 2 x + 1) := by exact_mod_cast hhigh.le
        _ ≤ 2 ^ (53 + unitExponent x) :=
            zpow_le_zpow_right₀ one_le_two (by unfold unitExponent; omega)
        _ = ((2 ^ 53 : ℤ) : ℚ) * 2 ^ unitExponent x := by
            rw [zpow_add₀ two_ne_zero]
            norm_num
    simpa using (roundEven_mono hbound).trans_eq (roundEven_intCast _)
  · refine or_iff_not_imp_right.mpr fun hleast => ?_
    have hexp : Int.log 2 x = 52 + unitExponent x := by unfold unitExponent at hleast ⊢; omega
    have hbound : ((2 ^ 52 : ℤ) : ℚ) ≤ x / 2 ^ unitExponent x := by
      rw [le_div_iff₀ hunit]
      calc ((2 ^ 52 : ℤ) : ℚ) * 2 ^ unitExponent x = 2 ^ Int.log 2 x := by
            rw [hexp, zpow_add₀ two_ne_zero]
            norm_num
        _ ≤ x := by exact_mod_cast hlow
    simpa using (roundEven_intCast _).symm.trans_le (roundEven_mono hbound)

/-- Rounding may carry into a new digit, which does not change the number any more. -/
theorem rounded_carry (s : Sign) (hm : m ≤ 2 ^ 53) (he : -1074 ≤ e)
    (hform : 2 ^ 52 ≤ m ∨ e = -1074) :
    Rounded s
      (let second := shiftToTargetExponent .binary64 m e .exact
      if h : second.1.mantissa = 0 then .zero s
      else .finite s second.1.mantissa second.2 (Nat.pos_of_ne_zero h)) (m * 2 ^ e) := by
  rcases hm.eq_or_lt with rfl | hlt
  · have hvalue : ((2 ^ 53 : Nat) : ℚ) * 2 ^ e = ((2 ^ 52 : Nat) : ℚ) * 2 ^ (e + 1) := by
      rw [zpow_add₀ two_ne_zero]
      push_cast
      ring
    have hdigits : (2 ^ 52 : Nat) ≠ 0 := by decide
    rw [shiftToTargetExponent_carry he, hvalue]
    dsimp only
    rw [dif_neg hdigits]
    exact .finite _ (by decide) (by omega) (.inl le_rfl)
  · rw [shiftToTargetExponent_digits hlt he hform]
    dsimp only
    by_cases hzero : m = 0
    · subst hzero
      simpa using Rounded.zero
    · rw [dif_neg hzero]
      exact .finite (Nat.pos_of_ne_zero hzero) hlt he hform

/-- A result is rounded to the nearest float, if its digits and their accuracy are known down to
the unit that it is rounded to. -/
theorem rounded_roundWithAccuracy (s : Sign) {accuracy : Accuracy} (hx : 0 < x)
    (hdigits : Represents (.ofMantissaAndAccuracy m accuracy) x) (hm : 0 < m ∨ e ≤ -1074)
    (he : e ≤ unitExponent (x * 2 ^ e)) :
    Rounded s (roundWithAccuracy .binary64 s m e accuracy) (nearest (x * 2 ^ e)) := by
  obtain ⟨hlower, hupper⟩ := hdigits.bounds
  have hpos : 0 < x * 2 ^ e := mul_pos hx (two_zpow_pos e)
  have hleast : -1074 ≤ unitExponent (x * 2 ^ e) := le_max_right _ _
  obtain ⟨hle, hform⟩ := roundEven_units hpos
  obtain ⟨em, hfirst, hdigits⟩ := exists_represents_shiftToExponent hdigits he
  rw [← hdigits.roundedMantissa] at hle hform
  have htarget : shiftToTargetExponent .binary64 m e accuracy =
      (em, unitExponent (x * 2 ^ e)) := by
    rw [← hfirst, unitExponent_eq hx hlower hupper hm]
    rfl
  unfold roundWithAccuracy nearest
  rw [htarget, ← hdigits.roundedMantissa, Int.cast_natCast]
  exact rounded_carry s (by exact_mod_cast hle) hleast (by exact_mod_cast hform)

/-- A product, or any other exact result, is rounded to the nearest float. -/
theorem rounded_roundExactly (s : Sign) (hm : 0 < m)
    (he : e ≤ Format.binary64.targetExponent (totalExponent m e)) :
    Rounded s (roundWithAccuracy .binary64 s m e .exact) (nearest (m * 2 ^ e)) := by
  have hx : (0 : ℚ) < m := Nat.cast_pos.mpr hm
  refine rounded_roundWithAccuracy s hx (represents_exact m) (.inl hm) ?_
  rwa [unitExponent_eq hx le_rfl (lt_add_one _) (.inl hm)]

theorem rounded_round (s : Sign) (hm : 0 < m) (e : Int) :
    Rounded s (UnpackedFloat.round .binary64 s m e) (nearest (m * 2 ^ e)) := by
  unfold UnpackedFloat.round decreaseExponent
  dsimp only
  generalize hk : (e - Format.binary64.targetExponent (totalExponent m e)).toNat = k
  have hvalue : ((m <<< k : Nat) : ℚ) * 2 ^ (e - k) = m * 2 ^ e := by
    rw [Nat.shiftLeft_eq, Nat.cast_mul, Nat.cast_pow, mul_assoc, ← zpow_natCast,
      Nat.cast_ofNat, ← zpow_add₀ two_ne_zero]
    congr 2
    omega
  have hlog : (m <<< k).log2 = k + m.log2 := by
    rw [Nat.shiftLeft_eq, Nat.mul_comm]
    exact log2_two_pow_mul k hm.ne'
  have hpos : 0 < m <<< k := by
    rw [Nat.shiftLeft_eq]
    exact Nat.mul_pos hm (Nat.two_pow_pos k)
  rw [← hvalue]
  refine rounded_roundExactly s hpos ?_
  simp only [targetExponent_eq, totalExponent, hlog] at hk ⊢
  omega

end Results

section Packing

variable {s : Sign} {u : UnpackedFloat} {x : ℚ}

theorem pack_infinite {m : Nat} {e : Int} (hpos : 0 < m) (he : 971 < e) :
    UnpackedFloat.pack .binary64 (.finite s m e hpos) =
      UnpackedFloat.pack .binary64 (.infinity s) := by
  have hbias : (e + (Format.exponentBias .binary64 : Nat) +
      (Format.mantissaBitsWithoutImplicit .binary64 : Nat)).toNat = (e + 1075).toNat := by
    have h₁ : Format.exponentBias .binary64 = 1023 := by decide
    have h₂ : Format.mantissaBitsWithoutImplicit .binary64 = 52 := by decide
    rw [h₁, h₂]
    omega
  have hlarge : 2 ^ 11 ≤ (e + 1075).toNat + 1 := by omega
  simp only [UnpackedFloat.pack]
  rw [hbias, if_pos hlarge]

/-- Rounded parts are found again in the packed float, unless no float is large enough. -/
theorem Rounded.unpack_pack (h : Rounded s u x) :
    (Float.Model.pack u).unpack = if x < 2 ^ (1024 : ℤ) then u else .infinity s := by
  cases h with
  | zero =>
      rw [if_pos (two_zpow_pos _)]
      exact Binary64.unpack_pack trivial
  | @finite m e hpos hm he hform =>
      have hunit := two_zpow_pos e
      rcases le_or_gt e 971 with hsmall | hlarge
      · have hbound : (m : ℚ) * 2 ^ e < 2 ^ (1024 : ℤ) :=
          calc (m : ℚ) * 2 ^ e < 2 ^ (53 : ℤ) * 2 ^ e :=
                mul_lt_mul_of_pos_right (by exact_mod_cast hm) hunit
            _ = 2 ^ (53 + e) := (zpow_add₀ two_ne_zero _ _).symm
            _ ≤ 2 ^ (1024 : ℤ) := zpow_le_zpow_right₀ one_le_two (by omega)
        rw [if_pos hbound]
        exact Binary64.unpack_pack ⟨hm, he, hsmall, hform⟩
      · have hm' : 2 ^ 52 ≤ m := hform.resolve_right (by omega)
        have hbound : (2 : ℚ) ^ (1024 : ℤ) ≤ m * 2 ^ e :=
          calc (2 : ℚ) ^ (1024 : ℤ) ≤ 2 ^ (52 + e) := zpow_le_zpow_right₀ one_le_two (by omega)
            _ = 2 ^ (52 : ℤ) * 2 ^ e := zpow_add₀ two_ne_zero _ _
            _ ≤ m * 2 ^ e := mul_le_mul_of_nonneg_right (by exact_mod_cast hm') hunit.le
        have hpack : Float.Model.pack (.finite s m e hpos) = Float.Model.pack (.infinity s) := by
          simp only [Float.Model.pack, pack_infinite hpos hlarge]
        rw [if_neg hbound.not_gt, hpack]
        exact Binary64.unpack_pack trivial

end Packing

end Binary64
end SeparableTransforms
