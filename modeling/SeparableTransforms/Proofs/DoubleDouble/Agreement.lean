import SeparableTransforms.DenseMatrix.Product
import SeparableTransforms.Proofs.Scalar.Lawful

/-!
# Double-double numbers up to the sign of zero

The operations on double-double numbers respect `Same` in both parts.  Adding
the product of one and a scalar to zero gives the scalar, with a zero error, so
that an accumulation which meets a single coefficient of one copies the
coordinate.
-/

namespace SeparableTransforms

universe u

namespace DoubleDouble

section Agreement

variable {α : Type u} [Scalar α]

/-- Both parts are stored as equal. -/
structure Alike (x y : DoubleDouble α) : Prop where
  value : Same x.value y.value
  error : Same x.error y.error

variable [LawfulScalar α] {x y z x' y' : DoubleDouble α} {a b c d : α}

@[refl] theorem Alike.refl (x : DoubleDouble α) : Alike x x :=
  ⟨Same.refl _, Same.refl _⟩

theorem Alike.trans (h : Alike x y) (h' : Alike y z) : Alike x z :=
  ⟨h.value.trans h'.value, h.error.trans h'.error⟩

instance : Trans (Alike (α := α)) (Alike (α := α)) (Alike (α := α)) :=
  ⟨Alike.trans⟩

theorem alike_ofScalar (h : Same a b) : Alike (ofScalar a) (ofScalar b) :=
  ⟨h, Same.refl _⟩

theorem alike_sum (h : Same a b) (h' : Same c d) : Alike (sum a c) (sum b d) := by
  have hvalue := LawfulScalar.add_congr h h'
  have hdiff := LawfulScalar.sub_congr hvalue h
  unfold sum
  dsimp only
  rw [LawfulScalar.isFinite_congr hvalue]
  split
  · refine ⟨hvalue, LawfulScalar.add_congr ?_ ?_⟩
    · exact LawfulScalar.sub_congr h (LawfulScalar.sub_congr hvalue hdiff)
    · exact LawfulScalar.sub_congr h' hdiff
  · exact alike_ofScalar hvalue

theorem alike_quickSum (h : Same a b) (h' : Same c d) : Alike (quickSum a c) (quickSum b d) := by
  have hvalue := LawfulScalar.add_congr h h'
  unfold quickSum
  dsimp only
  rw [LawfulScalar.isFinite_congr hvalue]
  split
  · exact ⟨hvalue, LawfulScalar.sub_congr h' (LawfulScalar.sub_congr hvalue h)⟩
  · exact alike_ofScalar hvalue

theorem alike_product (h : Same a b) (h' : Same c d) : Alike (product a c) (product b d) := by
  have hvalue := LawfulScalar.mul_congr h h'
  unfold product
  dsimp only
  rw [LawfulScalar.isFinite_congr hvalue]
  split
  · exact ⟨hvalue, LawfulScalar.fma_congr h h' (LawfulScalar.neg_congr hvalue)⟩
  · exact alike_ofScalar hvalue

theorem alike_add (h : Alike x y) (h' : Alike x' y') : Alike (x + x') (y + y') := by
  have hs := alike_sum h.value h'.value
  have ht := alike_sum h.error h'.error
  have hs' := alike_quickSum hs.value (LawfulScalar.add_congr hs.error ht.value)
  show Alike (add x x') (add y y')
  unfold add
  dsimp only
  rw [LawfulScalar.isFinite_congr hs.value]
  split
  · exact alike_quickSum hs'.value (LawfulScalar.add_congr hs'.error ht.error)
  · exact hs

theorem alike_mul (h : Alike x y) (h' : Alike x' y') : Alike (x * x') (y * y') := by
  have hp := alike_product h.value h'.value
  have hcross := LawfulScalar.fma_congr h.value h'.error (LawfulScalar.mul_congr h.error h'.value)
  show Alike (mul x x') (mul y y')
  unfold mul
  dsimp only
  rw [LawfulScalar.isFinite_congr hp.value]
  split
  · exact alike_quickSum hp.value (LawfulScalar.add_congr hp.error hcross)
  · exact hp

theorem alike_addTerm (h : Alike x y) (ha : Same a b) (hc : Same c d) :
    Alike (x.addTerm a c) (y.addTerm b d) := by
  unfold addTerm
  rw [ha.isZero_eq]
  split
  · exact h
  · exact alike_add h (alike_product ha hc)

theorem alike_accumulate (h : Alike x y) (ha : Same a b) (hc : Same c d) :
    Alike (DenseMatrix.accumulate x a c) (DenseMatrix.accumulate y b d) := by
  unfold DenseMatrix.accumulate
  rw [ha.isZero_eq, hc.isZero_eq]
  split
  · exact h
  · exact alike_add h (alike_product ha hc)

end Agreement

section Copying

variable {α : Type u} [Scalar α] [LawfulScalar α] {a b c d : α}

/-- Multiplying by one is exact. -/
theorem alike_product_one (a : α) : Alike (product 1 a) (ofScalar a) := by
  have hvalue := LawfulScalar.one_mul a
  unfold product
  dsimp only
  split
  · rename_i hfinite
    rw [LawfulScalar.isFinite_congr hvalue] at hfinite
    refine ⟨hvalue, ?_⟩
    calc Same (Scalar.fma 1 a (-(1 * a))) (Scalar.fma 1 a (-a)) :=
          LawfulScalar.fma_congr (Same.refl _) (Same.refl _) (LawfulScalar.neg_congr hvalue)
      Same _ 0 := LawfulScalar.fma_one hfinite
  · exact alike_ofScalar hvalue

/-- The difference of a finite scalar from one that is stored as equal. -/
theorem same_sub_zero (h : Same a c) (h' : Same b c) (hc : Scalar.isFinite c = true) :
    Same (a - b) 0 :=
  (LawfulScalar.sub_congr h h').trans (LawfulScalar.sub_self hc)

theorem same_add_zeros (h : Same a 0) (h' : Same b 0) : Same (a + b) 0 :=
  (LawfulScalar.add_congr h h').trans (LawfulScalar.zero_add 0)

theorem alike_sum_zero (a : α) : Alike (sum 0 a) (ofScalar a) := by
  have hvalue := LawfulScalar.zero_add a
  have hdiff : Same (0 + a - 0) a := (LawfulScalar.sub_zero _).trans hvalue
  unfold sum
  dsimp only
  split
  · rename_i hfinite
    rw [LawfulScalar.isFinite_congr hvalue] at hfinite
    refine ⟨hvalue, same_add_zeros ?_ ?_⟩
    · exact same_sub_zero (Same.refl _) (same_sub_zero hvalue hdiff hfinite)
        LawfulScalar.isFinite_zero
    · exact same_sub_zero (Same.refl _) hdiff hfinite
  · exact alike_ofScalar hvalue

theorem alike_quickSum_zero (a : α) : Alike (quickSum a 0) (ofScalar a) := by
  have hvalue := LawfulScalar.add_zero a
  unfold quickSum
  dsimp only
  split
  · rename_i hfinite
    rw [LawfulScalar.isFinite_congr hvalue] at hfinite
    refine ⟨hvalue, ?_⟩
    exact same_sub_zero (Same.refl _) (same_sub_zero hvalue (Same.refl _) hfinite)
      LawfulScalar.isFinite_zero
  · exact alike_ofScalar hvalue

theorem alike_zero_add (a : α) : Alike (0 + ofScalar a) (ofScalar a) := by
  have hs := alike_sum_zero a
  have ht := alike_sum_zero (0 : α)
  have hs' := (alike_quickSum hs.value (same_add_zeros hs.error ht.value)).trans
    (alike_quickSum_zero a)
  show Alike (add (ofScalar 0) (ofScalar a)) (ofScalar a)
  unfold add
  dsimp only [ofScalar]
  split
  · exact (alike_quickSum hs'.value (same_add_zeros hs'.error ht.error)).trans
      (alike_quickSum_zero a)
  · exact hs

/-- Adding one times a scalar to zero gives the scalar. -/
theorem alike_copy {z : DoubleDouble α} (hz : Alike z 0) (hb : Same b 1) :
    Alike (z + product b a) (ofScalar a) :=
  calc Alike (z + product b a) (0 + ofScalar a) :=
        alike_add hz ((alike_product hb (Same.refl a)).trans (alike_product_one a))
    Alike _ (ofScalar a) := alike_zero_add a

end Copying

end DoubleDouble
end SeparableTransforms
