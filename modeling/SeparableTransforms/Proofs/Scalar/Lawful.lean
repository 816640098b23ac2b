import SeparableTransforms.Scalar

/-!
# Laws of scalars

Scalars are compared as matrices compare their entries: zeros of either sign are
the same, and `NaN` is the same as itself.  Few laws of arithmetic hold up to
this relation when every operation rounds.  Those that do are collected in the
class `LawfulScalar`:

* the operations respect the relation;
* adding or subtracting zero and multiplying by one change nothing;
* the rounding errors of these operations are zero on finite scalars.

The laws are enough to show that copying a coordinate through an affine matrix
gives the coordinate back, and that the order in which unused coordinates are
dropped does not matter.
-/

namespace SeparableTransforms

universe u

/-- Two scalars are stored as equal. -/
def Same {α : Type u} [Scalar α] (a b : α) : Prop :=
  Scalar.agree a b = true

/-- Scalars whose operations respect `Same`, with the laws of zero and one that survive rounding. -/
class LawfulScalar (α : Type u) [Scalar α] : Prop where
  refl (a : α) : Same a a
  symm {a b : α} : Same a b → Same b a
  trans {a b c : α} : Same a b → Same b c → Same a c
  isFinite_congr {a b : α} : Same a b → Scalar.isFinite a = Scalar.isFinite b
  neg_congr {a b : α} : Same a b → Same (-a) (-b)
  add_congr {a b c d : α} : Same a b → Same c d → Same (a + c) (b + d)
  sub_congr {a b c d : α} : Same a b → Same c d → Same (a - c) (b - d)
  mul_congr {a b c d : α} : Same a b → Same c d → Same (a * c) (b * d)
  fma_congr {a b c d e f : α} :
    Same a b → Same c d → Same e f → Same (Scalar.fma a c e) (Scalar.fma b d f)
  isNaN_zero : Scalar.isNaN (0 : α) = false
  isNaN_one : Scalar.isNaN (1 : α) = false
  one_ne_zero : ((1 : α) == 0) = false
  isFinite_zero : Scalar.isFinite (0 : α) = true
  zero_add (a : α) : Same (0 + a) a
  add_zero (a : α) : Same (a + 0) a
  sub_zero (a : α) : Same (a - 0) a
  one_mul (a : α) : Same (1 * a) a
  sub_self {a : α} : Scalar.isFinite a = true → Same (a - a) 0
  fma_one {a : α} : Scalar.isFinite a = true → Same (Scalar.fma 1 a (-a)) 0

namespace Same

section Laws

variable {α : Type u} [Scalar α]

theorem of_beq {a b : α} (h : (a == b) = true) : Same a b := by
  simp [Same, Scalar.agree, h]

/-- Away from `NaN` the relation is numeric equality. -/
theorem beq {a b : α} (h : Same a b) (hb : Scalar.isNaN b = false) : (a == b) = true := by
  simpa [Same, Scalar.agree, hb] using h

variable [LawfulScalar α]

@[refl, simp] theorem refl (a : α) : Same a a :=
  LawfulScalar.refl a

@[symm] theorem symm {a b : α} (h : Same a b) : Same b a :=
  LawfulScalar.symm h

theorem trans {a b c : α} (h : Same a b) (h' : Same b c) : Same a c :=
  LawfulScalar.trans h h'

instance : Trans (Same (α := α)) (Same (α := α)) (Same (α := α)) :=
  ⟨trans⟩

end Laws

end Same

section Constants

variable {α : Type u} [Scalar α] [LawfulScalar α]

@[simp] theorem zero_beq_zero : ((0 : α) == 0) = true :=
  (Same.refl 0).beq LawfulScalar.isNaN_zero

@[simp] theorem one_beq_one : ((1 : α) == 1) = true :=
  (Same.refl 1).beq LawfulScalar.isNaN_one

@[simp] theorem one_beq_zero : ((1 : α) == 0) = false :=
  LawfulScalar.one_ne_zero

theorem Same.beq_zero {a : α} (h : Same a 0) : (a == 0) = true :=
  h.beq LawfulScalar.isNaN_zero

/-- The same scalars are skipped as zero. -/
theorem Same.isZero_eq {a b : α} (h : Same a b) : (a == 0) = (b == 0) := by
  apply Bool.eq_iff_iff.mpr
  constructor
  · intro ha
    exact (h.symm.trans (.of_beq ha)).beq_zero
  · intro hb
    exact (h.trans (.of_beq hb)).beq_zero

theorem Same.beq_one {a : α} (h : Same a 1) : (a == 1) = true :=
  h.beq LawfulScalar.isNaN_one

end Constants

theorem same_rat_iff {a b : Rat} : Same a b ↔ a = b := by
  simp [Same, Scalar.agree, Scalar.isNaN]

/-- Exact arithmetic keeps every law. -/
instance : LawfulScalar Rat where
  refl a := same_rat_iff.mpr rfl
  symm h := same_rat_iff.mpr (same_rat_iff.mp h).symm
  trans h h' := same_rat_iff.mpr ((same_rat_iff.mp h).trans (same_rat_iff.mp h'))
  isFinite_congr _ := rfl
  neg_congr h := by rw [same_rat_iff.mp h, same_rat_iff]
  add_congr h h' := by rw [same_rat_iff.mp h, same_rat_iff.mp h', same_rat_iff]
  sub_congr h h' := by rw [same_rat_iff.mp h, same_rat_iff.mp h', same_rat_iff]
  mul_congr h h' := by rw [same_rat_iff.mp h, same_rat_iff.mp h', same_rat_iff]
  fma_congr h h' h'' := by
    rw [same_rat_iff.mp h, same_rat_iff.mp h', same_rat_iff.mp h'', same_rat_iff]
  isNaN_zero := rfl
  isNaN_one := rfl
  one_ne_zero := rfl
  isFinite_zero := rfl
  zero_add a := same_rat_iff.mpr (Rat.zero_add a)
  add_zero a := same_rat_iff.mpr (Rat.add_zero a)
  sub_zero a := same_rat_iff.mpr (by show a - (0 : Rat) = a; grind)
  one_mul a := same_rat_iff.mpr (Rat.one_mul a)
  sub_self _ := same_rat_iff.mpr Rat.sub_self
  fma_one _ := same_rat_iff.mpr (by show (1 : Rat) * _ + -_ = 0; grind)

end SeparableTransforms
