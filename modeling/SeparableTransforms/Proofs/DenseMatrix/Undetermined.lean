import SeparableTransforms.DenseMatrix.Coefficient
import SeparableTransforms.Proofs.Binary64.Agreement
import SeparableTransforms.Proofs.DenseMatrix.Affine

/-!
# Undetermined coefficients in products

`NaN` absorbs whatever it is added to or multiplied with, and so a sum that has met
one undetermined term stays undetermined.

A term of a product with a zero factor is left out.  If every term has a factor that
is zero or not determined, nothing known is ever added: the entry is zero, or it is
not determined either.

So two things are known about an undetermined coefficient in a product.  It shows in
an entry if it meets a coefficient that is not zero, whatever the other terms are.
Where it meets a zero, the entry is the same as with any other coefficient in its
place.
-/

namespace SeparableTransforms

universe u

/-- Scalars whose sums and products are `NaN` as soon as one operand is. -/
class AbsorbingScalar (α : Type u) [Scalar α] : Prop where
  isNaN_congr {a b : α} : Same a b → Scalar.isNaN a = Scalar.isNaN b
  isFinite_of_isNaN {a : α} : Scalar.isNaN a = true → Scalar.isFinite a = false
  isNaN_add_left {a : α} (b : α) : Scalar.isNaN a = true → Scalar.isNaN (a + b) = true
  isNaN_add_right {b : α} (a : α) : Scalar.isNaN b = true → Scalar.isNaN (a + b) = true
  isNaN_mul_left {a : α} (b : α) : Scalar.isNaN a = true → Scalar.isNaN (a * b) = true
  isNaN_mul_right {b : α} (a : α) : Scalar.isNaN b = true → Scalar.isNaN (a * b) = true

/-- In exact arithmetic every scalar is known. -/
instance : AbsorbingScalar Rat where
  isNaN_congr _ := rfl
  isFinite_of_isNaN := nofun
  isNaN_add_left _ := nofun
  isNaN_add_right _ := nofun
  isNaN_mul_left _ := nofun
  isNaN_mul_right _ := nofun

namespace Binary64

section Absorbing

open Float.Model

variable {u v : UnpackedFloat}

theorem eq_notANumber (h : u.isNaN = true) : u = .notANumber := by
  cases u with
  | notANumber => rfl
  | _ => cases h

theorem add_notANumber (u : UnpackedFloat) :
    UnpackedFloat.add .binary64 u .notANumber = .notANumber := by
  cases u <;> rfl

theorem mul_notANumber (u : UnpackedFloat) :
    UnpackedFloat.mul .binary64 u .notANumber = .notANumber := by
  cases u <;> rfl

theorem isNaN_pack (h : u = .notANumber) : Scalar.isNaN (Float.ofModel (pack u)) = true := by
  show (pack u).unpack.isNaN = true
  rw [h, unpack_pack (u := .notANumber) trivial]
  rfl

end Absorbing

end Binary64

open Binary64 in
instance : AbsorbingScalar Float where
  isNaN_congr h := (same_iff.mp h).isNaN_eq
  isFinite_of_isNaN {a} h := by
    show a.toModel.unpack.isFinite = false
    rw [eq_notANumber h]
    rfl
  isNaN_add_left b h := isNaN_pack (by rw [eq_notANumber h]; rfl)
  isNaN_add_right a h := isNaN_pack (by rw [eq_notANumber h, add_notANumber])
  isNaN_mul_left b h := isNaN_pack (by rw [eq_notANumber h]; rfl)
  isNaN_mul_right a h := isNaN_pack (by rw [eq_notANumber h, mul_notANumber])

namespace DoubleDouble

section Absorbing

variable {α : Type u} [Scalar α] [AbsorbingScalar α] {x y : DoubleDouble α} {a b : α}

/-- A product is not determined if a factor is not. -/
theorem isNaN_product (h : Scalar.isNaN a = true ∨ Scalar.isNaN b = true) :
    Scalar.isNaN (product a b).value = true := by
  have hvalue : Scalar.isNaN (a * b) = true :=
    h.elim (AbsorbingScalar.isNaN_mul_left b) (AbsorbingScalar.isNaN_mul_right a)
  unfold product
  simp only [AbsorbingScalar.isFinite_of_isNaN hvalue, Bool.false_eq_true, if_false]
  exact hvalue

/-- A sum is not determined if a summand is not. -/
theorem isNaN_add (h : Scalar.isNaN x.value = true ∨ Scalar.isNaN y.value = true) :
    Scalar.isNaN (x + y).value = true := by
  have hvalue : Scalar.isNaN (x.value + y.value) = true :=
    h.elim (AbsorbingScalar.isNaN_add_left _) (AbsorbingScalar.isNaN_add_right _)
  have hinfinite := AbsorbingScalar.isFinite_of_isNaN hvalue
  have hsum : sum x.value y.value = ofScalar (x.value + y.value) := by
    unfold sum
    simp only [hinfinite, Bool.false_eq_true, if_false]
  show Scalar.isNaN (add x y).value = true
  unfold add
  simp only [hsum, ofScalar, hinfinite, Bool.false_eq_true, if_false]
  exact hvalue

end Absorbing

end DoubleDouble

namespace DenseMatrix

section Absorbing

variable {α : Type u} [Scalar α] {x y : α} {sum : DoubleDouble α}

/-- A scalar that lets an output do without an input: zero or not determined. -/
theorem isIgnorable_ofScalar_iff {a : α} :
    (Coefficient.ofScalar a).isIgnorable = true ↔ Scalar.isNaN a = true ∨ (a == 0) = true := by
  unfold Coefficient.ofScalar
  cases h : Scalar.isNaN a with
  | true => simp [Coefficient.isIgnorable]
  | false => simp [Coefficient.isIgnorable]

variable [AbsorbingScalar α]

theorem isNaN_accumulate (h : Scalar.isNaN sum.value = true) (x y : α) :
    Scalar.isNaN (accumulate sum x y).value = true := by
  unfold accumulate
  split
  · exact h
  · exact DoubleDouble.isNaN_add (.inl h)

/-- A term with an ignorable factor is left out or leaves the sum undetermined. -/
theorem accumulate_of_isIgnorable
    (h : (Coefficient.ofScalar x).isIgnorable = true ∨ (Coefficient.ofScalar y).isIgnorable = true)
    (sum : DoubleDouble α) :
    accumulate sum x y = sum ∨ Scalar.isNaN (accumulate sum x y).value = true := by
  unfold accumulate
  split
  · exact .inl rfl
  · rename_i hfactors
    simp only [Bool.or_eq_true, not_or] at hfactors
    refine .inr (DoubleDouble.isNaN_add (.inr (DoubleDouble.isNaN_product ?_)))
    exact h.imp (fun hx => (isIgnorable_ofScalar_iff.mp hx).resolve_right hfactors.1)
      fun hy => (isIgnorable_ofScalar_iff.mp hy).resolve_right hfactors.2

variable [LawfulScalar α]

/-- An entry of a product is ignorable if every term has an ignorable factor. -/
theorem isIgnorable_dot {a b : DenseMatrix α} {r c : Nat}
    (h : ∀ k, k < a.cols → (a.coefficient r k).isIgnorable = true ∨
      (b.coefficient k c).isIgnorable = true) :
    (Coefficient.ofScalar (dot a b r c)).isIgnorable = true := by
  -- the sum so far is still zero, or it is not determined and stays so
  have hsum : ∀ l : List Nat, (∀ k ∈ l, k < a.cols) → ∀ sum : DoubleDouble α,
      sum = 0 ∨ Scalar.isNaN sum.value = true →
      l.foldl (fun sum k => accumulate sum (a.entry r k) (b.entry k c)) sum = 0 ∨
        Scalar.isNaN (l.foldl (fun sum k => accumulate sum (a.entry r k) (b.entry k c))
          sum).value = true := by
    intro l
    induction l with
    | nil => exact fun _ _ hstart => hstart
    | cons k l ih =>
        intro hl sum hstart
        refine ih (fun k' hk' => hl k' (List.mem_cons_of_mem k hk')) _ ?_
        rcases hstart with rfl | hnan
        · exact accumulate_of_isIgnorable (h k (hl k List.mem_cons_self)) 0
        · exact .inr (isNaN_accumulate hnan _ _)
  rcases hsum _ (fun k => List.mem_range.mp) 0 (.inl rfl) with hzero | hnan
  · refine isIgnorable_ofScalar_iff.mpr (.inr ?_)
    unfold dot
    rw [hzero]
    exact zero_beq_zero
  · exact isIgnorable_ofScalar_iff.mpr (.inl hnan)

omit [LawfulScalar α] in
/-- A sum that is not determined stays so, whatever terms follow. -/
theorem isNaN_foldl_accumulate (h : Scalar.isNaN sum.value = true) (a b : DenseMatrix α) (r c : Nat)
    (l : List Nat) :
    Scalar.isNaN (l.foldl (fun sum k => accumulate sum (a.entry r k) (b.entry k c))
      sum).value = true := by
  induction l generalizing sum with
  | nil => exact h
  | cons k l ih => exact ih (isNaN_accumulate h _ _)

omit [LawfulScalar α] in
/-- An entry of a product is not determined if one of its terms is not. -/
theorem isNaN_dot {a b : DenseMatrix α} {r c k : Nat} (hk : k < a.cols)
    (ha : (a.entry r k == 0) = false) (hb : (b.entry k c == 0) = false)
    (h : Scalar.isNaN (a.entry r k) = true ∨ Scalar.isNaN (b.entry k c) = true) :
    Scalar.isNaN (dot a b r c) = true := by
  obtain ⟨before, after, hrange⟩ := List.append_of_mem (List.mem_range.mpr hk)
  -- whatever has been added before, the sum is not determined from this term on
  have henter : ∀ sum : DoubleDouble α,
      Scalar.isNaN (accumulate sum (a.entry r k) (b.entry k c)).value = true := by
    intro sum
    unfold accumulate
    rw [ha, hb, Bool.or_false, if_neg Bool.false_ne_true]
    exact DoubleDouble.isNaN_add (.inr (DoubleDouble.isNaN_product h))
  unfold dot
  rw [hrange, List.foldl_append, List.foldl_cons]
  exact isNaN_foldl_accumulate (henter _) a b r c after

end Absorbing

section Replacing

variable {α : Type u} [Scalar α] {a a' b b' : DenseMatrix α} {r c k : Nat}

/-- A term of an entry of a product is left out, because one of its factors is zero. -/
def LeftOut (a b : DenseMatrix α) (r c k : Nat) : Prop :=
  (a.entry r k == 0) = true ∨ (b.entry k c == 0) = true

theorem LeftOut.accumulate_eq (h : LeftOut a b r c k) (sum : DoubleDouble α) :
    accumulate sum (a.entry r k) (b.entry k c) = sum :=
  h.elim (fun ha => accumulate_of_isZero ha sum) fun hb => accumulate_of_isZero_right hb sum

/-- An entry of a product depends on no term that is left out. -/
theorem dot_eq_of_leftOut (hcols : a.cols = a'.cols)
    (h : ∀ k, k < a.cols → (a.entry r k = a'.entry r k ∧ b.entry k c = b'.entry k c) ∨
      (LeftOut a b r c k ∧ LeftOut a' b' r c k)) : dot a b r c = dot a' b' r c := by
  refine dot_eq_of_terms hcols.symm fun k hk sum => ?_
  rcases h k hk with ⟨ha, hb⟩ | ⟨hout, hout'⟩
  · rw [ha, hb]
  · rw [hout.accumulate_eq, hout'.accumulate_eq]

/-- Inside of a matrix an entry can be replaced, and all others stay as they are. -/
theorem exists_set {m : DenseMatrix α} (hr : r < m.rows) (hc : c < m.cols) (x : α) :
    ∃ m', m.set r c x = .ok m' ∧ m'.rows = m.rows ∧ m'.cols = m.cols ∧
      ∀ i j, m'.entry i j = if i = r ∧ j = c then x else m.entry i j := by
  refine ⟨_, if_pos ⟨hr, hc⟩, rfl, rfl, fun i j => ?_⟩
  by_cases hplace : i < m.rows ∧ j < m.cols
  · exact entry_ofFn _ hplace.1 hplace.2
  · have hne : ¬(i = r ∧ j = c) := fun h => hplace ⟨h.1 ▸ hr, h.2 ▸ hc⟩
    rw [if_neg hne, entry_eq_zero (m := m) hplace]
    exact entry_eq_zero hplace

/-- A factor that meets a zero can be replaced by any other. -/
theorem exists_multiply_set_left {p : DenseMatrix α} (hp : a.multiply b = .ok p)
    (hfit : a.cols = b.rows) (hr : r < a.rows) (hc : c < b.cols) (hk : k < a.cols)
    (hzero : (b.entry k c == 0) = true) (x : α) :
    ∃ a' p', a.set r k x = .ok a' ∧ a'.multiply b = .ok p' ∧ p'.entry r c = p.entry r c := by
  obtain ⟨a', hset, hrows, hcols, hentry⟩ := exists_set hr hk x
  have hp' := multiply_eq (hcols.trans hfit)
  refine ⟨a', _, hset, hp', ?_⟩
  rw [entry_multiply hp' (hrows ▸ hr) hc, entry_multiply hp hr hc]
  refine dot_eq_of_leftOut hcols fun j _ => ?_
  by_cases hj : j = k
  · exact .inr ⟨.inr (hj ▸ hzero), .inr (hj ▸ hzero)⟩
  · exact .inl ⟨by rw [hentry, if_neg fun h => hj h.2], rfl⟩

theorem exists_multiply_set_right {p : DenseMatrix α} (hp : a.multiply b = .ok p)
    (hfit : a.cols = b.rows) (hr : r < a.rows) (hc : c < b.cols) (hk : k < a.cols)
    (hzero : (a.entry r k == 0) = true) (x : α) :
    ∃ b' p', b.set k c x = .ok b' ∧ a.multiply b' = .ok p' ∧ p'.entry r c = p.entry r c := by
  obtain ⟨b', hset, hrows, hcols, hentry⟩ := exists_set (hfit ▸ hk) hc x
  have hp' := multiply_eq (hfit.trans hrows.symm)
  refine ⟨b', _, hset, hp', ?_⟩
  rw [entry_multiply hp' hr (hcols ▸ hc), entry_multiply hp hr hc]
  refine dot_eq_of_leftOut rfl fun j _ => ?_
  by_cases hj : j = k
  · exact .inr ⟨.inl (hj ▸ hzero), .inl (hj ▸ hzero)⟩
  · exact .inl ⟨rfl, by rw [hentry, if_neg fun h => hj h.1]⟩

end Replacing

section Binary64

/-- An undetermined coefficient shows in every entry of a product in which it meets a coefficient
that is not zero.  A coefficient that meets a zero has no effect on the entry, so that any other,
determined or not, may stand in its place. -/
theorem multiply_undetermined {a b : DenseMatrix Float} (hfit : a.cols = b.rows) :
    ∃ p, a.multiply b = .ok p ∧
      ∀ r c k, r < a.rows → c < b.cols → k < a.cols →
        ((a.entry r k == 0) = false → (b.entry k c == 0) = false →
          (Scalar.isNaN (a.entry r k) = true ∨ Scalar.isNaN (b.entry k c) = true) →
          Scalar.isNaN (p.entry r c) = true) ∧
        ((b.entry k c == 0) = true → ∀ x, ∃ a' p',
          a.set r k x = .ok a' ∧ a'.multiply b = .ok p' ∧ p'.entry r c = p.entry r c) ∧
        ((a.entry r k == 0) = true → ∀ x, ∃ b' p',
          b.set k c x = .ok b' ∧ a.multiply b' = .ok p' ∧ p'.entry r c = p.entry r c) := by
  have hp := multiply_eq hfit
  refine ⟨_, hp, fun r c k hr hc hk => ⟨fun ha hb hnan => ?_, fun hzero => ?_, fun hzero => ?_⟩⟩
  · rw [entry_multiply hp hr hc]
    exact isNaN_dot hk ha hb hnan
  · exact exists_multiply_set_left hp hfit hr hc hk hzero
  · exact exists_multiply_set_right hp hfit hr hc hk hzero

/-- A row with a coefficient that is not determined before one that is. -/
def undeterminedRow : DenseMatrix Float :=
  ofFn 1 2 fun _ c => if c = 0 then Binary64.nan else 3

/-- A matrix that takes the first input into the first output only. -/
def twoColumns : DenseMatrix Float :=
  ofFn 2 2 fun r c => ([[-1, -0], [Binary64.infinity, 2]].getD r []).getD c 0

/-- The undetermined coefficient shows in the first entry, next to an infinite term.  In the second
one, where it meets a negative zero, it may as well be infinite. -/
theorem multiply_undeterminedRow :
    undeterminedRow.cols = twoColumns.rows ∧
      ∃ p, undeterminedRow.multiply twoColumns = .ok p ∧
        Scalar.isNaN (p.entry 0 0) = true ∧
        ∃ a' p', undeterminedRow.set 0 0 Binary64.infinity = .ok a' ∧
          a'.multiply twoColumns = .ok p' ∧ p'.entry 0 1 = p.entry 0 1 := by
  obtain ⟨p, hp, hentries⟩ := multiply_undetermined (a := undeterminedRow) (b := twoColumns) rfl
  refine ⟨rfl, p, hp, ?_, ?_⟩
  · exact (hentries 0 0 0 (by decide) (by decide) (by decide)).1 (by decide +kernel)
      (by decide +kernel) (.inl (by decide +kernel))
  · exact (hentries 0 1 0 (by decide) (by decide) (by decide)).2.1 (by decide +kernel) _

end Binary64

end DenseMatrix
end SeparableTransforms
