import SeparableTransforms.Proofs.Transform.Assembly
import Mathlib.Data.List.Chain

/-!
# The normal form of chains

Folding and leaving out identities change linear steps only, and all other steps of a
chain stay what they are.  With folding no two consecutive steps of a chain are
linear: a step is folded into the one before it, and an identity that is left out
stands between two steps that are not linear.
-/

namespace SeparableTransforms
namespace Transform

open Outcome

section Pairs

variable {κ α : Type} {s : Transform κ α} {steps : List (Transform κ α)}

/-- Whether the transform is given by a matrix. -/
def isLinear : Transform κ α → Bool
  | linear _ _ => true
  | _ => false

theorem isLinear_iff : s.isLinear = true ↔ ∃ id matrix, s = linear id matrix := by
  cases s <;> simp [isLinear]

/-- No two consecutive steps are linear. -/
def Unpaired (steps : List (Transform κ α)) : Prop :=
  steps.IsChain fun a b => a.isLinear = true → b.isLinear = false

theorem unpaired_cons :
    Unpaired (s :: steps) ↔
      (∀ next ∈ steps.head?, s.isLinear = true → next.isLinear = false) ∧ Unpaired steps :=
  List.isChain_cons

theorem unpaired_singleton (s : Transform κ α) : Unpaired [s] :=
  List.isChain_singleton s

theorem unpaired_reverse (h : Unpaired steps) : Unpaired steps.reverse := by
  refine List.isChain_reverse.mpr (h.imp fun {a b} hab hb => ?_)
  cases ha : a.isLinear with
  | true => exact absurd (hb.symm.trans (hab ha)) (by simp)
  | false => rfl

/-- Linear steps none of which is next to another are a single step. -/
theorem Unpaired.length_le (h : Unpaired steps) (hlinear : ∀ s ∈ steps, s.isLinear = true) :
    steps.length ≤ 1 := by
  match steps with
  | [] => exact Nat.zero_le 1
  | [_] => exact Nat.le_refl 1
  | first :: second :: rest =>
      have hpair := (unpaired_cons.mp h).1 second rfl (hlinear first List.mem_cons_self)
      rw [hlinear second (by simp)] at hpair
      cases hpair

end Pairs

section Folding

variable {κ α : Type} [Scalar α] {s t : Transform κ α} {options : AssemblyOptions}
  {steps folded stack stack' : List (Transform κ α)}

/-- A step is put on the stack, or it is linear and folded into the linear step on top. -/
theorem pushStep_cases (h : pushStep options stack s = .ok stack') :
    (stack' = s :: stack ∧ (options.foldLinear = true →
        ∀ top ∈ stack.head?, top.isLinear = true → s.isLinear = false)) ∨
      options.foldLinear = true ∧ s.isLinear = true ∧ ∃ top earlier product,
        top.isLinear = true ∧ stack = top :: earlier ∧ stack' = linear none product :: earlier := by
  unfold pushStep at h
  split at h
  · rename_i id previous earlier id' next hfold
    obtain ⟨product, _, h⟩ := bind_eq_ok_iff.mp h
    obtain ⟨made, hmade, h⟩ := bind_eq_ok_iff.mp h
    obtain rfl := eq_of_ofMatrix hmade
    exact .inr ⟨hfold, rfl, _, earlier, product, rfl, rfl, (Except.ok.inj h).symm⟩
  · rename_i hother
    refine .inl ⟨(Except.ok.inj h).symm, fun hfold top htop hlinear => ?_⟩
    obtain ⟨id, previous, rfl⟩ := isLinear_iff.mp hlinear
    obtain ⟨earlier, rfl⟩ := List.head?_eq_some_iff.mp htop
    by_contra hs
    obtain ⟨id', next, hnext⟩ := isLinear_iff.mp (Bool.eq_true_of_not_eq_false hs)
    exact hother id previous earlier id' next hfold rfl hnext

/-- What holds of the empty stack and stays true step by step holds of the folded steps. -/
theorem foldSteps_invariant {I : List (Transform κ α) → Prop} (hnil : I [])
    (hpush : ∀ stack s stack', s ∈ steps → I stack → pushStep options stack s = .ok stack' →
      I stack') (h : foldSteps options steps = .ok folded) : I folded.reverse := by
  have hstacks : ∀ rest : List (Transform κ α), (∀ s ∈ rest, s ∈ steps) → ∀ stack stack', I stack →
      rest.foldlM (pushStep options) stack = .ok stack' → I stack' := by
    intro rest
    induction rest with
    | nil =>
        intro _ stack stack' hstack hfold
        obtain rfl : stack = stack' := Except.ok.inj hfold
        exact hstack
    | cons s rest ih =>
        intro hrest stack stack' hstack hfold
        rw [List.foldlM_cons] at hfold
        obtain ⟨next, hnext, hfold⟩ := bind_eq_ok_iff.mp hfold
        exact ih (fun s' hs' => hrest s' (List.mem_cons_of_mem s hs')) next stack'
          (hpush stack s next (hrest s List.mem_cons_self) hstack hnext) hfold
  obtain ⟨stack, hstack, rfl⟩ := map_eq_ok_iff.mp h
  rw [List.reverse_reverse]
  exact hstacks steps (fun _ hs => hs) [] stack hnil hstack

/-- Folded steps are unpaired. -/
theorem unpaired_foldSteps (hfold : options.foldLinear = true)
    (h : foldSteps options steps = .ok folded) : Unpaired folded := by
  rw [← List.reverse_reverse folded]
  refine unpaired_reverse (foldSteps_invariant List.isChain_nil ?_ h)
  intro stack s stack' _ hstack hpush
  rcases pushStep_cases hpush with ⟨rfl, hopen⟩ | ⟨_, _, top, earlier, product, htop, rfl, rfl⟩
  · refine unpaired_cons.mpr ⟨fun top htop hs => ?_, hstack⟩
    have hnot := hopen hfold top htop
    cases hlinear : top.isLinear with
    | true => exact absurd (hs.symm.trans (hnot hlinear)) (by simp)
    | false => rfl
  · obtain ⟨hnext, hearlier⟩ := unpaired_cons.mp hstack
    exact unpaired_cons.mpr ⟨fun next hhead _ => hnext next hhead htop, hearlier⟩

/-- Folded steps are no chains if the steps are none. -/
theorem single_foldSteps (hsteps : ∀ s ∈ steps, s.steps = [s])
    (h : foldSteps options steps = .ok folded) : ∀ s ∈ folded, s.steps = [s] := by
  suffices hall : ∀ s ∈ folded.reverse, s.steps = [s] from
    fun s hs => hall s (List.mem_reverse.mpr hs)
  refine foldSteps_invariant (I := fun stack => ∀ s ∈ stack, s.steps = [s])
    (fun _ hs => absurd hs List.not_mem_nil) ?_ h
  intro stack s stack' hs hstack hpush s' hs'
  rcases pushStep_cases hpush with ⟨rfl, _⟩ | ⟨_, _, top, earlier, product, _, rfl, rfl⟩
  · rcases List.mem_cons.mp hs' with rfl | hs'
    · exact hsteps s' hs
    · exact hstack s' hs'
  · rcases List.mem_cons.mp hs' with rfl | hs'
    · rfl
    · exact hstack s' (List.mem_cons_of_mem top hs')

end Folding

section Eliding

variable {κ α : Type} [Scalar α] {s t : Transform κ α} {options : AssemblyOptions}
  {steps folded : List (Transform κ α)}

theorem isLinear_of_isIdentity (h : s.isIdentity = true) : s.isLinear = true := by
  cases s with
  | linear id matrix => rfl
  | _ => cases h

/-- Unpaired steps stay unpaired without the identities: the steps next to an identity are not
linear. -/
theorem unpaired_elideSteps (h : Unpaired steps) : Unpaired (elideSteps options steps) := by
  unfold elideSteps
  split
  · induction steps with
    | nil => exact h
    | cons s steps ih =>
        obtain ⟨hnext, hsteps⟩ := unpaired_cons.mp h
        rw [List.filter_cons]
        split
        · refine unpaired_cons.mpr ⟨fun next hhead hs => ?_, ih hsteps⟩
          cases steps with
          | nil => cases hhead
          | cons second rest =>
              have hsecond := hnext second rfl hs
              have hkept : (!second.isIdentity) = true := by
                cases hid : second.isIdentity with
                | true =>
                    rw [isLinear_of_isIdentity hid] at hsecond
                    cases hsecond
                | false => rfl
              rw [List.filter_cons_of_pos (p := fun s : Transform κ α => !s.isIdentity) hkept] at hhead
              obtain rfl : second = next := Option.some.inj hhead
              exact hsecond
        · exact ih hsteps
  · exact h

/-- Steps that no simplification changes: those that are not linear, and without folding all but
the identities that are left out. -/
def Lasts (options : AssemblyOptions) (s : Transform κ α) : Prop :=
  s.isLinear = false ∨
    options.foldLinear = false ∧ (options.elideIdentity = true → s.isIdentity = false)

theorem mem_foldSteps (hs : Lasts options s) (hmem : s ∈ steps)
    (h : foldSteps options steps = .ok folded) : s ∈ folded := by
  have hstacks : ∀ rest stack stack' : List (Transform κ α), s ∈ stack ∨ s ∈ rest →
      rest.foldlM (pushStep options) stack = .ok stack' → s ∈ stack' := by
    intro rest
    induction rest with
    | nil =>
        intro stack stack' hin hfold
        obtain rfl : stack = stack' := Except.ok.inj hfold
        exact hin.resolve_right List.not_mem_nil
    | cons next rest ih =>
        intro stack stack' hin hfold
        rw [List.foldlM_cons] at hfold
        obtain ⟨pushed, hpush, hfold⟩ := bind_eq_ok_iff.mp hfold
        refine ih pushed stack' ?_ hfold
        rw [List.mem_cons, ← or_assoc] at hin
        refine hin.imp_left fun hin => ?_
        rcases pushStep_cases hpush with
          ⟨rfl, _⟩ | ⟨hfolds, hnext, top, earlier, product, htop, rfl, rfl⟩
        · exact List.mem_cons.mpr hin.symm
        · -- only linear steps disappear when one is folded into the other
          have hnonlinear : s.isLinear = false := by
            refine hs.resolve_right fun hunfolded => ?_
            rw [hfolds] at hunfolded
            cases hunfolded.1
          have hne : ∀ x : Transform κ α, x.isLinear = true → s ≠ x := by
            rintro x hx rfl
            rw [hnonlinear] at hx
            cases hx
          rcases hin with hin | rfl
          · exact List.mem_cons_of_mem _ ((List.mem_cons.mp hin).resolve_left (hne top htop))
          · exact absurd rfl (hne s hnext)
  obtain ⟨stack, hstack, rfl⟩ := map_eq_ok_iff.mp h
  exact List.mem_reverse.mpr (hstacks steps [] stack (.inr hmem) hstack)

theorem mem_elideSteps (hs : Lasts options s) (hmem : s ∈ steps) :
    s ∈ elideSteps options steps := by
  unfold elideSteps
  split
  · rename_i helide
    refine List.mem_filter.mpr ⟨hmem, ?_⟩
    rcases hs with hnonlinear | ⟨_, hkept⟩
    · cases hid : s.isIdentity with
      | true =>
          rw [isLinear_of_isIdentity hid] at hnonlinear
          cases hnonlinear
      | false => rfl
    · rw [hkept helide]
      rfl
  · exact hmem

end Eliding

section Composing

variable {κ α : Type} [Kernel κ α] [Scalar α] {a b s t : Transform κ α} {options : AssemblyOptions}
  {steps folded init parts : List (Transform κ α)} {last : Transform κ α}

omit [Scalar α] in
theorem steps_of_joinAll {joined : Option (Transform κ α)} (h : joinAll steps = .ok joined)
    (hsteps : ∀ s ∈ steps, s.steps = [s]) :
    joined = none ∧ steps = [] ∨ ∃ t, joined = some t ∧ t.steps = steps := by
  cases steps with
  | nil => exact .inl ⟨(Except.ok.inj h).symm, rfl⟩
  | cons first rest =>
      refine .inr ?_
      change (rest.foldlM join first).map some = .ok joined at h
      cases hjoin : rest.foldlM join first with
      | error e =>
          rw [hjoin] at h
          cases h
      | ok t =>
          rw [hjoin] at h
          obtain rfl : some t = joined := Except.ok.inj h
          refine ⟨t, rfl, ?_⟩
          have hflat := List.flatMap_congr hsteps
          rw [steps_of_foldlM_join hjoin, ← List.flatMap_cons]
          simpa using hflat

/-- A concatenation is made of the folded steps of both transforms. -/
theorem madeOf_of_concatenateWith (h : concatenateWith options a b = .ok t) :
    ∃ folded, foldSteps options (a.steps ++ b.steps) = .ok folded ∧
      MadeOf options a.sourceDimensions folded t := by
  have hsingle : ∀ s ∈ a.steps ++ b.steps, s.steps = [s] := fun s hs =>
    (List.mem_append.mp hs).elim steps_of_mem_steps steps_of_mem_steps
  unfold concatenateWith at h
  split at h
  · cases h
  · rename_i hfit
    split at h
    · rename_i hverbatim
      simp only [Bool.and_eq_true, Bool.not_eq_true'] at hverbatim
      rw [join, if_neg hfit] at h
      cases h
      refine ⟨_, foldSteps_unfolded hverbatim.1, .inl ?_⟩
      rw [elideSteps, hverbatim.2, if_neg Bool.false_ne_true]
      rfl
    · obtain ⟨folded, hfold, h⟩ := bind_eq_ok_iff.mp h
      obtain ⟨joined, hjoin, h⟩ := bind_eq_ok_iff.mp h
      have hfolded := single_foldSteps hsingle hfold
      have helided : ∀ s ∈ elideSteps options folded, s.steps = [s] := by
        intro s hs
        unfold elideSteps at hs
        split at hs
        · exact hfolded s (List.mem_filter.mp hs).1
        · exact hfolded s hs
      refine ⟨folded, hfold, ?_⟩
      rcases steps_of_joinAll hjoin helided with ⟨rfl, hnil⟩ | ⟨t', rfl, hsteps⟩
      · exact .inr ⟨hnil, eq_of_ofMatrix h⟩
      · obtain rfl : t' = t := Except.ok.inj h
        exact .inl hsteps

/-- With folding no two consecutive steps of a concatenation are linear. -/
theorem unpaired_concatenateWith (hfold : options.foldLinear = true)
    (h : concatenateWith options a b = .ok t) : Unpaired t.steps := by
  obtain ⟨folded, hfolded, hsteps | ⟨_, rfl⟩⟩ := madeOf_of_concatenateWith h
  · rw [hsteps]
    exact unpaired_elideSteps (unpaired_foldSteps hfold hfolded)
  · exact unpaired_singleton _

/-- Steps that nothing changes are steps of a concatenation. -/
theorem mem_steps_concatenateWith (hs : Lasts options s) (hmem : s ∈ a.steps ∨ s ∈ b.steps)
    (h : concatenateWith options a b = .ok t) : s ∈ t.steps := by
  obtain ⟨folded, hfolded, hmade⟩ := madeOf_of_concatenateWith h
  have hkept := mem_elideSteps hs (mem_foldSteps hs (List.mem_append.mpr hmem) hfolded)
  rcases hmade with hsteps | ⟨hnil, _⟩
  · rwa [hsteps]
  · rw [hnil] at hkept
    cases hkept

/-- Steps that nothing changes are steps of what is composed. -/
theorem mem_steps_compose (hs : Lasts options s) (hmem : ∃ part ∈ parts, s ∈ part.steps)
    (h : (Assembler.standard options).compose parts = .ok t) : s ∈ t.steps := by
  cases parts with
  | nil => cases h
  | cons first rest =>
      change rest.foldlM (concatenateWith options) first = .ok t at h
      induction rest generalizing first with
      | nil =>
          obtain rfl : first = t := Except.ok.inj h
          simpa using hmem
      | cons next rest ih =>
          rw [List.foldlM_cons] at h
          obtain ⟨both, hboth, h⟩ := bind_eq_ok_iff.mp h
          refine ih both ?_ h
          obtain ⟨part, hpart, hs'⟩ := hmem
          rcases List.mem_cons.mp hpart with rfl | hpart
          · exact ⟨both, List.mem_cons_self, mem_steps_concatenateWith hs (.inl hs') hboth⟩
          · rcases List.mem_cons.mp hpart with rfl | hpart
            · exact ⟨both, List.mem_cons_self, mem_steps_concatenateWith hs (.inr hs') hboth⟩
            · exact ⟨part, List.mem_cons_of_mem both hpart, hs'⟩

/-- With folding no two consecutive steps of what is composed of several parts are linear. -/
theorem unpaired_compose (hfold : options.foldLinear = true) (hne : init ≠ [])
    (h : (Assembler.standard options).compose (init ++ [last]) = .ok t) : Unpaired t.steps := by
  cases init with
  | nil => exact absurd rfl hne
  | cons first rest =>
      change (rest ++ [last]).foldlM (concatenateWith options) first = .ok t at h
      rw [List.foldlM_append] at h
      obtain ⟨earlier, _, h⟩ := bind_eq_ok_iff.mp h
      rw [List.foldlM_cons] at h
      obtain ⟨joined, hjoined, h⟩ := bind_eq_ok_iff.mp h
      obtain rfl : joined = t := Except.ok.inj h
      exact unpaired_concatenateWith hfold hjoined

end Composing

end Transform
end SeparableTransforms
