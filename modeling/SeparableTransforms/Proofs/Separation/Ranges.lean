import SeparableTransforms.Proofs.Separation.Conversations

/-!
# Ranges of dimensions

A range of dimensions can be added to a list at once or dimension by dimension.  The
first way looks at the bounds of the range only: the upper one must not exceed the limit
and the lower one must exceed the last dimension of the list.  The second way looks at
every dimension.  For a range that is not empty both ways come to the same, since a
range is increasing and lies between its bounds.

An empty range has bounds but no dimensions.  Dimension by dimension it is always
accepted; as a range it is refused if it does not start above the last dimension of the
list.  This is the only difference, and it is one of the answer alone: the list that is
left is the same in every case.
-/

namespace SeparableTransforms
namespace Session

section Lists

variable {present : Option (List Nat)} {added : List Nat} {limit lower upper : Nat}

/-- The list that an addition leaves: the new one, or after an error the one of before. -/
def listAfter (present : Option (List Nat)) :
    Except TransformError (Option (List Nat)) → Option (List Nat)
  | .ok next => next
  | .error _ => present

theorem isOk_addDimensions_iff :
    (addDimensions present added limit).isOk = true ↔
      Increasing added limit ∧ ∀ p ∈ lastOf present, ∀ d ∈ added, p < d := by
  rw [← checkAddition_eq_ok_iff (i := 0), addDimensions]
  cases checkAddition limit 0 (lastOf present) added with
  | error e =>
      refine iff_of_false Bool.false_ne_true fun h => ?_
      cases h
  | ok u => exact iff_of_true rfl rfl

theorem isOk_addDimensionRange_iff :
    (addDimensionRange present lower upper limit).isOk = true ↔
      upper ≤ limit ∧ lower ≤ upper ∧ ∀ p ∈ lastOf present, p < lower := by
  unfold addDimensionRange
  by_cases hlimit : limit < upper
  · rw [if_pos hlimit]
    exact iff_of_false Bool.false_ne_true fun h => absurd h.1 (not_le.mpr hlimit)
  by_cases hreversed : upper < lower
  · rw [if_neg hlimit, if_pos hreversed]
    exact iff_of_false Bool.false_ne_true fun h => absurd h.2.1 (not_le.mpr hreversed)
  rw [if_neg hlimit, if_neg hreversed]
  cases hlast : (lastOf present).filter fun p => lower ≤ p with
  | some p =>
      obtain ⟨hp, hle⟩ := Option.filter_eq_some_iff.mp hlast
      exact iff_of_false Bool.false_ne_true fun h =>
        absurd (h.2.2 p hp) (not_lt.mpr (of_decide_eq_true hle))
  | none =>
      refine iff_of_true rfl ⟨not_lt.mp hlimit, not_lt.mp hreversed, fun p hp => ?_⟩
      simpa using Option.filter_eq_none_iff.mp hlast p hp

/-- Whether a range can be added tells whether its dimensions can, unless the range is empty. -/
theorem isOk_addDimensions_range_iff (hlower : lower ≤ upper) (hupper : upper ≤ limit) :
    (addDimensions present (List.range' lower (upper - lower)) limit).isOk = true ↔
      (lower < upper → ∀ p ∈ lastOf present, p < lower) := by
  rw [isOk_addDimensions_iff]
  constructor
  · intro h hless p hp
    exact h.2 p hp lower (List.mem_range'_1.mpr (by omega))
  · refine fun h => ⟨increasing_range' hupper, fun p hp d hd => ?_⟩
    have hbounds := List.mem_range'_1.mp hd
    have := h (by omega) p hp
    omega

theorem listAfter_of_extends {x : Except TransformError (Option (List Nat))}
    (h : Outcome.Yields (Extends limit present added) x) :
    listAfter present x = if x.isOk then extend present added else present := by
  cases x with
  | error e => rfl
  | ok next => exact Extends.result h

end Lists

section Sessions

variable {κ α : Type} [Kernel κ α] [Scalar α] {assembler : Assembler κ α} {s : Session κ α}

/-- An addition that is written dimension by dimension leaves the list that it leaves at once. -/
theorem run_write_of_attempt {side : Side} {operation : Operation}
    {x : Except TransformError (Option (List Nat))}
    (h : s.attempt assembler operation =
      (fun next => (next, none)) <$> (s.withDimensions side <$> x)) :
    (write assembler operation).run.run s =
      ((fun _ => none) <$> x, s.withDimensions side (listAfter (s.dimensions side) x)) := by
  rw [run_write, perform, h]
  cases x with
  | error e =>
      show (Except.error e, s) = (Except.error e, s.withDimensions side (s.dimensions side))
      rw [withDimensions_dimensions]
  | ok next => rfl

/-- Adding a range is adding its dimensions one by one, apart from an empty range: that one is
refused if it does not start above the last dimension of the list.  The same list is left in every
case, and after an error it is the list of before, also when the writes are followed one by one. -/
theorem addDimensionRange_agrees (present : Option (List Nat)) {limit lower upper : Nat}
    (hlower : lower ≤ upper) (hupper : upper ≤ limit) :
    let ranged := addDimensionRange present lower upper limit
    let each := addDimensions present (List.range' lower (upper - lower)) limit
    (ranged.isOk = true ↔
        each.isOk = true ∧ (lower = upper → ∀ p ∈ lastOf present, p < lower)) ∧
      listAfter present ranged = listAfter present each ∧
      ∀ (assembler : Assembler κ α) (s : Session κ α) (side : Side),
        s.dimensions side = present → s.limit side = limit →
        (write assembler (.addRange side lower upper)).run.run s =
            ((fun _ => none) <$> ranged, s.withDimensions side (listAfter present each)) ∧
          (write assembler (.add side (List.range' lower (upper - lower)))).run.run s =
            ((fun _ => none) <$> each, s.withDimensions side (listAfter present each)) := by
  intro ranged each
  have hok : ranged.isOk = true ↔
      each.isOk = true ∧ (lower = upper → ∀ p ∈ lastOf present, p < lower) := by
    rw [isOk_addDimensionRange_iff, isOk_addDimensions_range_iff hlower hupper]
    constructor
    · exact fun h => ⟨fun _ => h.2.2, fun _ => h.2.2⟩
    · exact fun h => ⟨hupper, hlower, hlower.lt_or_eq.elim h.1 h.2⟩
  have hlist : listAfter present ranged = listAfter present each := by
    rw [listAfter_of_extends (extends_addDimensionRange lower upper),
      listAfter_of_extends (extends_addDimensions _)]
    by_cases hsame : ranged.isOk = each.isOk
    · rw [hsame]
    · -- only an empty range is refused by one way and accepted by the other
      have hempty : lower = upper := by
        by_contra hne
        exact hsame (Bool.eq_iff_iff.mpr (hok.trans (and_iff_left fun h => absurd h hne)))
      subst hempty
      simp [extend]
  refine ⟨hok, hlist, fun assembler s side hs hlimit => ⟨?_, ?_⟩⟩
  · rw [← hlist, ← hs]
    subst hs hlimit
    exact run_write_of_attempt rfl
  · subst hs hlimit
    exact run_write_of_attempt rfl

/-- Two dimensions that follow the one in a list. -/
theorem addDimensionRange_agrees_following :
    1 ≤ 3 ∧ 3 ≤ 4 ∧ (addDimensionRange (some [0]) 1 3 4).isOk = true ∧
      listAfter (some [0]) (addDimensionRange (some [0]) 1 3 4) = some [0, 1, 2] := by
  obtain ⟨hok, hlist, -⟩ := addDimensionRange_agrees (κ := SyntheticKernel) (α := Float)
    (some [0]) (show 1 ≤ 3 by decide) (show 3 ≤ 4 by decide)
  exact ⟨by decide, by decide, hok.mpr ⟨by decide, nofun⟩, hlist.trans (by decide)⟩

/-- An empty range that starts at the last dimension of the list is refused, although none of its
dimensions would be. -/
theorem not_isOk_addDimensionRange_of_addDimensions :
    ¬∀ (present : Option (List Nat)) (limit lower upper : Nat),
      (∀ dims ∈ present, Increasing dims limit) → lower ≤ upper → upper ≤ limit →
        ((addDimensionRange present lower upper limit).isOk = true ↔
          (addDimensions present (List.range' lower (upper - lower)) limit).isOk = true) := by
  intro hall
  have hincreasing : ∀ dims ∈ some [1], Increasing dims 3 := by
    rintro dims ⟨⟩
    exact ⟨by decide, by decide⟩
  have hsame := hall (some [1]) 3 1 1 hincreasing (by decide) (by decide)
  exact absurd (hsame.mpr (by decide)) (by decide)

end Sessions

end Session
end SeparableTransforms
