import SeparableTransforms.Proofs.Separation.Columns
import SeparableTransforms.Proofs.Separation.Results

/-!
# Forward dependencies

`Leads` follows the outputs that are determined through a list of steps.  It puts
`determined`, which follows the tree, into the form of a walk, so that what is known
of single steps can be put together.

All inputs of a transform determine all of its outputs, and so do those that its
first step uses.
-/

namespace SeparableTransforms
namespace Transform

open Outcome

section Leads

variable {κ α : Type} [Kernel κ α] [Scalar α]

/-- The inputs `S` of the first step determine the outputs `D` of the last one, and every step
leaves some outputs. -/
def Leads : List (Transform κ α) → List Nat → List Nat → Prop
  | [], S, D => D = S
  | s :: rest, S, D => ∃ T, s.determined S = some T ∧ T ≠ [] ∧ Leads rest T D

variable {S T D : List Nat} {s t last : Transform κ α} {steps earlier rest : List (Transform κ α)}

theorem leads_append :
    Leads (steps ++ rest) S D ↔ ∃ T, Leads steps S T ∧ Leads rest T D := by
  induction steps generalizing S with
  | nil => simp [Leads]
  | cons s steps ih =>
      simp only [List.cons_append, Leads, ih]
      constructor
      · rintro ⟨U, hU, hne, T, hT, hD⟩
        exact ⟨T, ⟨U, hU, hne, hT⟩, hD⟩
      · rintro ⟨T, ⟨U, hU, hne, hT⟩, hD⟩
        exact ⟨U, hU, hne, T, hT, hD⟩

theorem leads_singleton : Leads [s] S D ↔ s.determined S = some D ∧ D ≠ [] := by
  constructor
  · rintro ⟨T, hT, hne, rfl⟩
    exact ⟨hT, hne⟩
  · rintro ⟨hD, hne⟩
    exact ⟨D, hD, hne, rfl⟩

/-- A transform determines outputs through its steps. -/
theorem leads_steps_iff : Leads t.steps S D ↔ t.determined S = some D ∧ D ≠ [] := by
  induction t generalizing S D with
  | chain id a b iha ihb =>
      rw [steps, leads_append]
      simp only [iha, ihb, determined, Option.bind_eq_some_iff]
      constructor
      · rintro ⟨T, ⟨hT, hne⟩, hD, hne'⟩
        exact ⟨⟨T, hT, by simpa [hne] using hD⟩, hne'⟩
      · rintro ⟨⟨T, hT, hD⟩, hne'⟩
        by_cases hne : T = []
        · simp [hne] at hD
        · exact ⟨T, ⟨hT, hne⟩, by simpa [hne] using hD, hne'⟩
  | _ => exact leads_singleton

/-- What a transform is left to end in depends on its last step. -/
theorem endsAfter_of_leads (hsteps : t.steps = earlier ++ [last]) (h : Leads earlier S T) :
    t.endsAfter S = last.endsAfter T := by
  induction t generalizing S earlier with
  | chain id a b iha ihb =>
      have hsplit := List.dropLast_append_getLast b.steps_ne_nil
      rw [steps, ← hsplit, ← List.append_assoc] at hsteps
      obtain ⟨rfl, hlast⟩ := List.append_inj' hsteps rfl
      rw [List.singleton_inj] at hlast
      obtain ⟨U, hU, hT⟩ := leads_append.mp h
      simp only [endsAfter, (leads_steps_iff.mp hU).1]
      exact ihb (hlast ▸ hsplit.symm) hT
  | _ =>
      have hsteps : [] ++ [_] = earlier ++ [last] := hsteps
      obtain ⟨rfl, hlast⟩ := List.append_inj' hsteps rfl
      rw [List.singleton_inj] at hlast
      obtain rfl : T = S := h
      rw [← hlast]

variable {P : κ → Prop} {n m : Nat}

theorem range_ne_nil {n : Nat} (h : 0 < n) : List.range n ≠ [] := by
  rw [Ne, List.range_eq_nil]
  omega

/-- What comes after a step has at least one input. -/
theorem Linked.middle_pos {l : Nat} (h : Linked P l rest m) (hm : 0 < m) : 0 < l := by
  cases rest with
  | nil =>
      obtain rfl : l = m := h
      exact hm
  | cons next rest =>
      obtain ⟨l', hnext, _⟩ := h
      exact hnext.source_pos

/-- All inputs lead to all outputs. -/
theorem leads_range (h : Linked P n steps m) (hm : 0 < m) :
    Leads steps (List.range n) (List.range m) := by
  induction steps generalizing n with
  | nil =>
      obtain rfl : n = m := h
      rfl
  | cons s rest ih =>
      obtain ⟨l, hs, hrest⟩ := h
      have hall := determined_range hs.admissible.wellFormed
      rw [hs.source, hs.target] at hall
      exact ⟨List.range l, hall, range_ne_nil (hrest.middle_pos hm), ih hrest⟩

/-- The inputs that a transform uses determine all of its outputs. -/
theorem determined_usedSources (h : Fits P n t m) (hm : 0 < m) [LawfulScalar α] :
    t.determined t.usedSources = some (List.range m) := by
  have hlinked := h.linked_steps
  have hall := determined_range h.admissible.wellFormed
  rw [h.target] at hall
  unfold usedSources
  split
  · rename_i id matrix rest hsteps
    split
    · exact hall
    · rw [hsteps] at hlinked
      obtain ⟨l, hfirst, hrest⟩ := hlinked
      obtain ⟨_, hrows, _⟩ := hfirst.linear
      have hused : (linear id matrix : Transform κ α).determined (usedColumns matrix) =
          some (List.range l) := by
        show some (determinedRows matrix (usedColumns matrix)) = _
        rw [determinedRows_usedColumns, hrows, Nat.add_sub_cancel]
      refine (leads_steps_iff.mp ?_).1
      rw [hsteps]
      exact ⟨List.range l, hused, range_ne_nil (hrest.middle_pos hm), leads_range hrest hm⟩
  · exact hall

/-- So do the inputs that the first of several steps uses. -/
theorem leads_usedSources (h : Linked P n (s :: rest) m) (hm : 0 < m) [LawfulScalar α] :
    Leads (s :: rest) s.usedSources (List.range m) := by
  obtain ⟨l, hs, hrest⟩ := h
  have hl := hrest.middle_pos hm
  exact ⟨List.range l, determined_usedSources hs hl, range_ne_nil hl, leads_range hrest hm⟩

end Leads

end Transform
end SeparableTransforms
