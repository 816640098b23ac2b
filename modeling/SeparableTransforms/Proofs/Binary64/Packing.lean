import Mathlib
import SeparableTransforms.Binary64.Exact

/-!
# Packing of floats

A float is a word of 64 bits.  Its arithmetic takes the word apart into a sign, a
mantissa and an exponent, computes there and packs the result into a word again.

This module shows that packing loses nothing, so that a result that is packed
and taken apart once more can be reasoned about as it was.

* `canonical_unpack`: the parts of a float are in canonical form.
* `unpack_pack`: parts in canonical form are found again in the packed float.
-/

namespace SeparableTransforms
namespace Binary64

open Float.Model
open Float.Model.UnpackedFloat

section Canonical

/-- The form in which a finite value stands after unpacking: the mantissa has its leading bit set,
or the exponent is the smallest one. -/
def Canonical : UnpackedFloat → Prop
  | .finite _ m e _ => m < 2 ^ 53 ∧ -1074 ≤ e ∧ e ≤ 971 ∧ (2 ^ 52 ≤ m ∨ e = -1074)
  | _ => True

/-- Negation changes only the sign. -/
theorem Canonical.neg {u : UnpackedFloat} (h : Canonical u) : Canonical u.neg := by
  cases u with
  | finite s m e hm => exact h
  | infinity s => trivial
  | zero s => trivial
  | notANumber => trivial

/-- A mantissa with its leading bit set has 53 digits. -/
theorem log2_eq_of_normal {m : Nat} (hlow : 2 ^ 52 ≤ m) (hhigh : m < 2 ^ 53) : m.log2 = 52 := by
  have hm : m ≠ 0 := by omega
  have h₁ : 52 ≤ m.log2 := (Nat.le_log2 hm).mpr hlow
  have h₂ : m.log2 < 53 := (Nat.log2_lt hm).mpr hhigh
  omega

/-- A mantissa without its leading bit has fewer digits. -/
theorem log2_lt_of_subnormal {m : Nat} (hpos : 0 < m) (hlow : m < 2 ^ 52) : m.log2 < 52 :=
  (Nat.log2_lt (Nat.ne_of_gt hpos)).mpr hlow

end Canonical

section Fields

/-- The sign bit of a word. -/
def signField (b : BitVec 64) : BitVec 1 :=
  @unpackSign .binary64 b

/-- The stored exponent of a word. -/
def exponentField (b : BitVec 64) : BitVec 11 :=
  @unpackExponent .binary64 b

/-- The stored mantissa of a word. -/
def mantissaField (b : BitVec 64) : BitVec 52 :=
  @unpackMantissa .binary64 b

/-- The word with the given fields. -/
def word (s : Sign) (e : BitVec 11) (m : BitVec 52) : BitVec 64 :=
  packComponents .binary64 s e m

@[simp] theorem signField_word (s : Sign) (e : BitVec 11) (m : BitVec 52) :
    signField (word s e m) = s.toBitVec :=
  @unpackSign_packComponents .binary64 s e m

@[simp] theorem exponentField_word (s : Sign) (e : BitVec 11) (m : BitVec 52) :
    exponentField (word s e m) = e :=
  unpackExponent_packComponents

@[simp] theorem mantissaField_word (s : Sign) (e : BitVec 11) (m : BitVec 52) :
    mantissaField (word s e m) = m :=
  unpackMantissa_packComponents

/-- The leading bit of a normal mantissa, which a word does not store. -/
theorem toNat_one_append (v : BitVec 52) : (1#1 ++ v).toNat = 2 ^ 52 + v.toNat := by
  rw [BitVec.toNat_append, ← Nat.shiftLeft_add_eq_or_of_lt v.isLt]
  simp [Nat.shiftLeft_eq]

end Fields

section Words

/-- What a word holds, by its exponent and its mantissa. -/
inductive Holds (b : BitVec 64) : UnpackedFloat → Prop
  | infinity (he : exponentField b = -1#11) (hm : mantissaField b = 0#52) :
      Holds b (.infinity (Sign.ofBitVec (signField b)))
  | notANumber (he : exponentField b = -1#11) (hm : mantissaField b ≠ 0#52) :
      Holds b .notANumber
  | zero (he : exponentField b = 0#11) (hm : mantissaField b = 0#52) :
      Holds b (.zero (Sign.ofBitVec (signField b)))
  | subnormal {m : Nat} (hpos : 0 < m) (he : exponentField b = 0#11)
      (hm : (mantissaField b).toNat = m) :
      Holds b (.finite (Sign.ofBitVec (signField b)) m (-1074) hpos)
  | normal {m : Nat} {e : Int} (hpos : 0 < m) (hlow : 1 ≤ (exponentField b).toNat)
      (hhigh : (exponentField b).toNat < 2047) (he : ((exponentField b).toNat : Int) - 1075 = e)
      (hm : 2 ^ 52 + (mantissaField b).toNat = m) :
      Holds b (.finite (Sign.ofBitVec (signField b)) m e hpos)

theorem holds_unpack (b : BitVec 64) : Holds b (UnpackedFloat.unpack .binary64 b) := by
  have hlt : (exponentField b).toNat < 2 ^ 11 := (exponentField b).isLt
  unfold UnpackedFloat.unpack
  dsimp only
  split
  · rename_i he
    split
    · rename_i hm
      exact .infinity he hm
    · rename_i hm
      exact .notANumber he hm
  · rename_i hinf
    have hinf : (exponentField b).toNat ≠ 2047 := fun h => hinf (BitVec.toNat_inj.mp h)
    split
    · rename_i he
      split
      · rename_i hm
        exact .zero he hm
      · have hzero : (@unpackExponent .binary64 b).toNat = 0 := by rw [he]; rfl
        simp only [hzero]
        exact .subnormal _ he rfl
    · rename_i hzero
      have hzero : (exponentField b).toNat ≠ 0 := fun h => hzero (BitVec.toNat_inj.mp h)
      exact .normal _ (by omega) (by omega) rfl (toNat_one_append _).symm

/-- The parts of a word are in canonical form. -/
theorem Holds.canonical {b : BitVec 64} {u : UnpackedFloat} (h : Holds b u) : Canonical u := by
  have hlt : (mantissaField b).toNat < 2 ^ 52 := (mantissaField b).isLt
  cases h with
  | infinity he hm => trivial
  | notANumber he hm => trivial
  | zero he hm => trivial
  | subnormal hpos he hm =>
      rw [hm] at hlt
      exact ⟨by omega, by omega, by omega, .inr rfl⟩
  | normal hpos hlow hhigh he hm =>
      exact ⟨by omega, by omega, by omega, .inl (by omega)⟩

theorem canonical_unpack (x : Float.Model) : Canonical x.unpack :=
  (holds_unpack x.toBits.toBitVec).canonical

end Words

section Packing

theorem pack_subnormal {s : Sign} {m : Nat} (hpos : 0 < m) (hm : m < 2 ^ 52) :
    UnpackedFloat.pack .binary64 (.finite s m (-1074) hpos) = word s 0#11 (BitVec.ofNat 52 m) := by
  have hlog : m.log2 < 52 := log2_lt_of_subnormal hpos hm
  have hdigits : ¬m.log2 + 1 = Format.mantissaBits .binary64 := fun h => by
    have : Format.mantissaBits .binary64 = 53 := by decide
    omega
  simp only [UnpackedFloat.pack]
  rw [if_neg (by decide), if_neg hdigits]
  rfl

theorem pack_normal {s : Sign} {m : Nat} {e : Int} (hpos : 0 < m) (hlow : 2 ^ 52 ≤ m)
    (hhigh : m < 2 ^ 53) (he : -1074 ≤ e) (he' : e ≤ 971) :
    UnpackedFloat.pack .binary64 (.finite s m e hpos) =
      word s (BitVec.ofNat 11 (e + 1075).toNat) (BitVec.ofNat 52 m) := by
  have hlog : m.log2 = 52 := log2_eq_of_normal hlow hhigh
  have hbias : (e + (Format.exponentBias .binary64 : Nat) +
      (Format.mantissaBitsWithoutImplicit .binary64 : Nat)).toNat = (e + 1075).toNat := by
    have h₁ : Format.exponentBias .binary64 = 1023 := by decide
    have h₂ : Format.mantissaBitsWithoutImplicit .binary64 = 52 := by decide
    rw [h₁, h₂]
    omega
  have hfits : ¬2 ^ 11 ≤ (e + 1075).toNat + 1 := by omega
  simp only [UnpackedFloat.pack]
  rw [hbias, if_neg hfits, if_pos (by rw [hlog]; decide)]
  rfl

theorem Holds.eq {b : BitVec 64} {u v : UnpackedFloat} (hu : Holds b u) (hv : Holds b v) :
    u = v := by
  have hne : ¬(0#11 = -1#11) := by decide
  cases hu <;> cases hv <;> grind

theorem sign_of_word (s : Sign) (e : BitVec 11) (m : BitVec 52) :
    Sign.ofBitVec (signField (word s e m)) = s := by
  rw [signField_word, Sign.ofBitVec_toBitVec]

/-- A word that is packed from parts in canonical form holds these parts. -/
theorem holds_pack {u : UnpackedFloat} (h : Canonical u) :
    Holds (UnpackedFloat.pack .binary64 u) u := by
  cases u with
  | infinity s =>
      have hheld := Holds.infinity (b := word s (-1#11) 0#52) (exponentField_word s _ _)
        (mantissaField_word s _ _)
      rwa [sign_of_word] at hheld
  | notANumber =>
      exact Holds.notANumber (b := word .positive (-1#11) (1#52 <<< 51))
        (exponentField_word .positive _ _) (by rw [mantissaField_word]; decide)
  | zero s =>
      have hheld := Holds.zero (b := word s 0#11 0#52) (exponentField_word s _ _)
        (mantissaField_word s _ _)
      rwa [sign_of_word] at hheld
  | finite s m e hpos =>
      obtain ⟨hm, hlow, hhigh, hform⟩ := h
      rcases Nat.lt_or_ge m (2 ^ 52) with hlt | hge
      · obtain rfl : e = -1074 := by omega
        rw [pack_subnormal hpos hlt]
        have hheld := Holds.subnormal (b := word s 0#11 (BitVec.ofNat 52 m)) hpos
          (exponentField_word s _ _) (by rw [mantissaField_word, BitVec.toNat_ofNat]; omega)
        rwa [sign_of_word] at hheld
      · rw [pack_normal hpos hge hm hlow hhigh]
        have hexp : (BitVec.ofNat 11 (e + 1075).toNat).toNat = (e + 1075).toNat := by
          rw [BitVec.toNat_ofNat]
          omega
        have hheld := Holds.normal
          (b := word s (BitVec.ofNat 11 (e + 1075).toNat) (BitVec.ofNat 52 m)) (m := m) (e := e)
          hpos (by rw [exponentField_word]; omega) (by rw [exponentField_word]; omega)
          (by rw [exponentField_word]; omega)
          (by rw [mantissaField_word, BitVec.toNat_ofNat]; omega)
        rwa [sign_of_word] at hheld

/-- Parts in canonical form are found again in the packed float. -/
theorem unpack_pack {u : UnpackedFloat} (h : Canonical u) : (Float.Model.pack u).unpack = u :=
  (holds_unpack _).eq (holds_pack h)

end Packing

end Binary64
end SeparableTransforms
