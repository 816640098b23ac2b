import SeparableTransforms.Proofs.Binary64.Agreement
import SeparableTransforms.Proofs.DenseMatrix.Agreement

/-!
# Identities in products

Multiplying by an identity copies every coefficient: all terms but one are left out,
and the remaining one is the coefficient times one.  From the left this is one times
the coefficient.  From the right the factors are exchanged, which changes nothing
because the product of scalars commutes.
-/

namespace SeparableTransforms

universe u

/-- Scalars whose products do not depend on the order of the factors. -/
class CommutativeScalar (α : Type u) [Scalar α] : Prop where
  mul_comm (a b : α) : a * b = b * a
  fma_comm (a b c : α) : Scalar.fma a b c = Scalar.fma b a c

instance : CommutativeScalar Rat where
  mul_comm := Rat.mul_comm
  fma_comm a b c := congrArg (· + c) (Rat.mul_comm a b)

namespace Binary64

section Commuting

open Float.Model

theorem sign_mul_comm (s s' : UnpackedFloat.Sign) : s * s' = s' * s := by
  cases s <;> cases s' <;> rfl

theorem mul_comm_parts (u v : UnpackedFloat) :
    UnpackedFloat.mul .binary64 u v = UnpackedFloat.mul .binary64 v u := by
  cases u <;> cases v <;>
    simp only [UnpackedFloat.mul, sign_mul_comm, Nat.mul_comm, Int.add_comm]

theorem exactProduct_comm (u v : UnpackedFloat) : exactProduct u v = exactProduct v u := by
  cases u <;> cases v <;>
    simp only [exactProduct, mul_comm_parts, sign_mul_comm, Nat.mul_comm, Int.add_comm]

end Commuting

end Binary64

open Binary64 in
instance : CommutativeScalar Float where
  mul_comm _ _ := congrArg (fun u => Float.ofModel (.pack u)) (mul_comm_parts _ _)
  fma_comm _ _ c := congrArg (fun u => Float.ofModel (.pack (addExact u c.toModel.unpack)))
    (exactProduct_comm _ _)

namespace DenseMatrix

section Neutral

variable {α : Type u} [Scalar α] [LawfulScalar α] {a b i m : DenseMatrix α}

omit [LawfulScalar α] in
/-- An entry of a product with a single term that is not left out. -/
theorem dot_eq_single {r c k : Nat} (hk : k < a.cols)
    (h : ∀ j, j < a.cols → j ≠ k → (a.entry r j == 0) = true ∨ (b.entry j c == 0) = true) :
    dot a b r c = (accumulate 0 (a.entry r k) (b.entry k c)).value := by
  have hskip : ∀ j, j < a.cols → j ≠ k → ∀ sum : DoubleDouble α,
      accumulate sum (a.entry r j) (b.entry j c) = sum := by
    intro j hj hne sum
    unfold accumulate
    rw [if_pos]
    exact Bool.or_eq_true_iff.mpr (h j hj hne)
  unfold dot
  rw [foldl_range_eq_single hk hskip]

/-- One times a scalar is the scalar. -/
theorem same_accumulate_one {x y : α} (hx : Same x 1) : Same (accumulate 0 x y).value y := by
  unfold accumulate
  rw [hx.isZero_eq, one_beq_zero, Bool.false_or]
  split
  · rename_i hzero
    exact (Same.of_beq hzero).symm
  · exact (DoubleDouble.alike_copy (.refl 0) hx).value

omit [LawfulScalar α] in
theorem accumulate_comm [CommutativeScalar α] (sum : DoubleDouble α) (x y : α) :
    accumulate sum x y = accumulate sum y x := by
  have hproduct : DoubleDouble.product x y = DoubleDouble.product y x := by
    unfold DoubleDouble.product
    dsimp only
    rw [CommutativeScalar.mul_comm x y, CommutativeScalar.fma_comm x y]
  unfold accumulate
  rw [hproduct, Bool.or_comm]

/-- An identity to the left changes nothing. -/
theorem product_of_isIdentity_left (h : i.isIdentity = true) (hfit : i.cols = m.rows) :
    (product i m == m) = true := by
  have hsquare := rows_of_isIdentity h
  refine beq_iff.mpr ⟨by rw [rows_product, hsquare, hfit], rfl, fun r c hr hc => ?_⟩
  rw [rows_product] at hr
  rw [cols_product] at hc
  have hdiagonal := same_of_isIdentity h hr (hsquare ▸ hr)
  rw [if_pos rfl] at hdiagonal
  rw [entry_product hr hc, dot_eq_single (hsquare ▸ hr) fun j hj hne => .inl ?_]
  · exact same_accumulate_one hdiagonal
  · have hzero := same_of_isIdentity h hr hj
    rw [if_neg (Ne.symm hne)] at hzero
    exact hzero.beq_zero

/-- An identity to the right changes nothing. -/
theorem product_of_isIdentity_right [CommutativeScalar α] (h : i.isIdentity = true)
    (hfit : m.cols = i.rows) : (product m i == m) = true := by
  have hsquare := rows_of_isIdentity h
  refine beq_iff.mpr ⟨rfl, by rw [cols_product, ← hsquare, hfit], fun r c hr hc => ?_⟩
  rw [rows_product] at hr
  rw [cols_product] at hc
  have hdiagonal := same_of_isIdentity h (hsquare ▸ hc) hc
  rw [if_pos rfl] at hdiagonal
  rw [entry_product hr hc, dot_eq_single (k := c) (by omega) fun j hj hne => .inr ?_]
  · rw [accumulate_comm]
    exact same_accumulate_one hdiagonal
  · have hzero := same_of_isIdentity h (hfit ▸ hj) hc
    rw [if_neg hne] at hzero
    exact hzero.beq_zero

/-- The identity of the right size is neutral on either side, whatever the coefficients are: zeros
of either sign, infinities, the least and the largest floats, or not determined at all. -/
theorem multiply_identity (m : DenseMatrix Float) :
    (∃ p, (identity m.rows).multiply m = .ok p ∧ (p == m) = true) ∧
      ∃ p, m.multiply (identity m.cols) = .ok p ∧ (p == m) = true := by
  have hidentity : ∀ n, (identity n : DenseMatrix Float).isIdentity = true := fun n =>
    isIdentity_iff_beq.mpr (beq_refl (identity n))
  refine ⟨⟨product (identity m.rows) m, multiply_eq_product rfl, ?_⟩,
    ⟨product m (identity m.cols), multiply_eq_product rfl, ?_⟩⟩
  · exact product_of_isIdentity_left (hidentity m.rows) rfl
  · exact product_of_isIdentity_right (hidentity m.cols) rfl

end Neutral

end DenseMatrix
end SeparableTransforms
