import Mathlib.Data.List.DropRight
import SeparableTransforms.Kernels.Synthetic
import SeparableTransforms.Proofs.Binary64.Agreement
import SeparableTransforms.Proofs.Separation.Coherence
import SeparableTransforms.Proofs.Separation.Writing

/-!
# Conversations with a session

In the course of a conversation the lists of a session grow by additions, are forgotten
by clearing and replaced by separations.  Whatever is asked for, the lists stay
increasing and within the dimensions of the transform, since additions are checked
against the last dimension before them and separations report increasing lists.  So a
separation never finds anything wrong with the request of its session.

Whether a list is present can be told from the transcript alone: since the session has
last been cleared, something must have been added on that side, or the transform must
have been separated.
-/

namespace SeparableTransforms

section Appending

variable {dims dims' : List Nat} {limit : Nat}

/-- An increasing list goes on above its last element. -/
theorem Increasing.append (h : Increasing dims limit) (h' : Increasing dims' limit)
    (hlast : ∀ p ∈ dims.getLast?, ∀ d ∈ dims', p < d) : Increasing (dims ++ dims') limit := by
  refine ⟨List.pairwise_append.mpr ⟨h.sorted, h'.sorted, ?_⟩, fun d hd =>
    (List.mem_append.mp hd).elim (h.bounded d) (h'.bounded d)⟩
  rcases List.eq_nil_or_concat' dims with rfl | ⟨before, p, rfl⟩
  · exact nofun
  · intro d hd e he
    have hp := hlast p List.getLast?_concat e he
    rcases List.mem_append.mp hd with hbefore | hd
    · exact ((List.pairwise_append.mp h.sorted).2.2 d hbefore p List.mem_cons_self).trans hp
    · obtain rfl := List.mem_singleton.mp hd
      exact hp

theorem increasing_range' {lower upper : Nat} (h : upper ≤ limit) :
    Increasing (List.range' lower (upper - lower)) limit := by
  refine ⟨List.pairwise_lt_range', fun d hd => ?_⟩
  obtain ⟨hlower, hupper⟩ := List.mem_range'_1.mp hd
  omega

end Appending

namespace Session

open Outcome Transform

section Additions

variable {limit i : Nat} {added : List Nat} {previous : Option Nat}
  {present next : Option (List Nat)}

/-- Additions are checked like requests, and differ from them in what they complain about. -/
theorem checkAddition_eq_ok_iff :
    checkAddition limit i previous added = .ok () ↔
      Increasing added limit ∧ ∀ p ∈ previous, ∀ d ∈ added, p < d := by
  suffices hsame : checkAddition limit i previous added = .ok () ↔
      Separation.checkFrom .source limit i previous added = .ok () from
    hsame.trans Separation.checkFrom_eq_ok_iff
  induction added generalizing i previous with
  | nil => rfl
  | cons d rest ih =>
      unfold checkAddition Separation.checkFrom
      split
      · simp only [reduceCtorEq]
      · cases previous with
        | none => exact ih
        | some p =>
            rw [Option.filter_some, Option.any_some]
            by_cases hle : d ≤ p
            · rw [if_pos (decide_eq_true hle), if_pos (decide_eq_true hle)]
              simp only [reduceCtorEq]
            · rw [if_neg (by simpa using hle), if_neg (by simpa using hle)]
              exact ih

/-- What an accepted addition makes of a list: it goes on above the last dimension in it. -/
structure Extends (limit : Nat) (present : Option (List Nat)) (added : List Nat)
    (next : Option (List Nat)) : Prop where
  increasing : Increasing added limit
  above : ∀ p ∈ lastOf present, ∀ d ∈ added, p < d
  result : next = extend present added

theorem extends_addDimensions (added : List Nat) :
    Yields (Extends limit present added) (addDimensions present added limit) := by
  unfold addDimensions
  cases hcheck : checkAddition limit 0 (lastOf present) added with
  | error e => trivial
  | ok u =>
      obtain ⟨hincreasing, habove⟩ := checkAddition_eq_ok_iff.mp hcheck
      exact ⟨hincreasing, habove, rfl⟩

theorem extends_addDimensionRange (lower upper : Nat) :
    Yields (Extends limit present (List.range' lower (upper - lower)))
      (addDimensionRange present lower upper limit) := by
  unfold addDimensionRange
  split
  · trivial
  · rename_i hlimit
    split
    · trivial
    · split
      · trivial
      · rename_i hnone
        refine ⟨increasing_range' (Nat.le_of_not_lt hlimit), fun p hp d hd => ?_, rfl⟩
        obtain ⟨hlower, -⟩ := List.mem_range'_1.mp hd
        have habove : ¬lower ≤ p := by
          simpa using Option.filter_eq_none_iff.mp hnone p hp
        omega

/-- A present list is increasing. -/
def Sorted (limit : Nat) (present : Option (List Nat)) : Prop :=
  ∀ dims ∈ present, Increasing dims limit

theorem Extends.sorted (h : Extends limit present added next) (hpresent : Sorted limit present) :
    Sorted limit next := by
  obtain ⟨hincreasing, habove, rfl⟩ := h
  unfold extend
  split
  · exact hpresent
  · intro dims hdims
    obtain rfl := Option.some.inj hdims
    cases present with
    | none => exact hincreasing
    | some before => exact (hpresent before rfl).append hincreasing habove

/-- A list is missing after an addition if it was missing and nothing has been added. -/
theorem Extends.eq_none_iff (h : Extends limit present added next) :
    next = none ↔ present = none ∧ added = [] := by
  obtain ⟨-, -, rfl⟩ := h
  cases added with
  | nil => simp [extend]
  | cons d rest => simp [extend]

end Additions

section Steps

variable {κ α : Type} [Kernel κ α] [Scalar α] {assembler : Assembler κ α} {t : Transform κ α}
  {s next : Session κ α} {operation : Operation} {e : TransformError}

/-- What an operation that succeeds makes of a session. -/
inductive Advances (assembler : Assembler κ α) (s : Session κ α) : Operation → Session κ α → Prop
  | add {side : Side} {added : List Nat} {next : Option (List Nat)}
      (h : Extends (s.limit side) (s.dimensions side) added next) :
      Advances assembler s (.add side added) (s.withDimensions side next)
  | addRange {side : Side} {lower upper : Nat} {next : Option (List Nat)}
      (h : Extends (s.limit side) (s.dimensions side) (List.range' lower (upper - lower)) next) :
      Advances assembler s (.addRange side lower upper) (s.withDimensions side next)
  | clear : Advances assembler s .clear s.clear
  | setTrim (trim : Bool) : Advances assembler s (.setTrim trim) (s.setTrim trim)
  | separate {result : Separation κ α}
      (h : Separation.separate assembler s.transform s.sources s.targets s.options = .ok result) :
      Advances assembler s .separate { s with
        sources := some result.sourceDimensions
        targets := some result.targetDimensions }

theorem advances_attempt (assembler : Assembler κ α) (s : Session κ α) (operation : Operation) :
    Yields (fun result => Advances assembler s operation result.1)
      (s.attempt assembler operation) := by
  cases operation with
  | add side added =>
      have hadd : Yields (Advances assembler s (.add side added)) (s.add side added) :=
        (extends_addDimensions added).map fun _ => .add
      exact hadd.map fun _ => id
  | addRange side lower upper =>
      have hadd : Yields (Advances assembler s (.addRange side lower upper))
          (s.addRange side lower upper) := (extends_addDimensionRange lower upper).map fun _ =>
        .addRange
      exact hadd.map fun _ => id
  | clear => exact .clear
  | setTrim trim => exact .setTrim trim
  | separate =>
      unfold attempt Session.separate
      cases hresult : Separation.separate assembler s.transform s.sources s.targets s.options with
      | error e => trivial
      | ok result => exact .separate hresult

/-- An operation either succeeds and advances the session, or fails and leaves it as it was. -/
theorem perform_cases (assembler : Assembler κ α) (s : Session κ α) (operation : Operation) :
    (Advances assembler s operation (s.perform assembler operation).1 ∧
        ∃ answer, (s.perform assembler operation).2 = .ok answer) ∨
      ∃ e, s.attempt assembler operation = .error e ∧
        s.perform assembler operation = (s, .error e) := by
  have hadvances := advances_attempt assembler s operation
  unfold perform
  cases hattempt : s.attempt assembler operation with
  | ok result =>
      rw [hattempt] at hadvances
      exact .inl ⟨hadvances, result.2, rfl⟩
  | error e => exact .inr ⟨e, rfl, rfl⟩

/-- An operation that fails leaves the session as it was, also write by write. -/
theorem unchanged_of_error (h : (s.perform assembler operation).2 = .error e) :
    (s.perform assembler operation).1 = s ∧
      (write assembler operation).run.run s = (.error e, s) := by
  rw [run_write, h]
  rcases perform_cases assembler s operation with ⟨-, answer, hok⟩ | ⟨_, -, herror⟩
  · rw [hok] at h
    cases h
  · rw [herror]
    exact ⟨rfl, rfl⟩

/-- A session for a transform whose lists are increasing. -/
structure Orderly (t : Transform κ α) (s : Session κ α) : Prop where
  transform : s.transform = t
  sorted : ∀ side, Sorted (s.limit side) (s.dimensions side)

omit [Scalar α] in
theorem orderly_start (t : Transform κ α) (extra : SeparationOptions) :
    Orderly t (start t extra) := by
  refine ⟨rfl, fun side => ?_⟩
  cases side with
  | _ => exact nofun

omit [Scalar α] in
/-- The list of one side may be replaced by another increasing one. -/
theorem Orderly.withDimensions (h : Orderly t s) {side : Side} {present : Option (List Nat)}
    (hpresent : Sorted (s.limit side) present) : Orderly t (s.withDimensions side present) := by
  obtain ⟨rfl, hsorted⟩ := h
  refine ⟨by cases side with | _ => rfl, fun side' => ?_⟩
  cases side with
  | source =>
      cases side' with
      | source => exact hpresent
      | target => exact hsorted .target
  | target =>
      cases side' with
      | source => exact hsorted .source
      | target => exact hpresent

/-- A separation of an orderly session is consistent, or fails for another reason than an
argument. -/
theorem Orderly.accepts (h : Orderly t s) (hassembler : assembler.KeepsSpans) [LawfulScalar α]
    (ht : t.Coherent) :
    Accepts (Separation.Consistent t)
      (Separation.separate assembler s.transform s.sources s.targets s.options) := by
  obtain ⟨rfl, hsorted⟩ := h
  have hrequest (side : Side) : Increasing ((s.dimensions side).getD []) (s.limit side) := by
    cases hside : s.dimensions side with
    | none => exact increasing_nil _
    | some dims => exact hsorted side dims hside
  exact Separation.accepts_separate hassembler ht (hrequest .source) (hrequest .target) s.options

/-- An operation that succeeds keeps a session orderly. -/
theorem Orderly.advances (h : Orderly t s) (hassembler : assembler.KeepsSpans) [LawfulScalar α]
    (ht : t.Coherent) (hadvances : Advances assembler s operation next) : Orderly t next := by
  cases hadvances with
  | @add side added next hextends =>
      exact h.withDimensions (hextends.sorted (h.sorted side))
  | @addRange side lower upper next hextends =>
      exact h.withDimensions (hextends.sorted (h.sorted side))
  | clear =>
      refine ⟨h.transform, fun side => ?_⟩
      cases side with
      | _ => exact nofun
  | setTrim trim => exact ⟨h.transform, h.sorted⟩
  | @separate result hresult =>
      have hconsistent := h.accepts hassembler ht
      rw [hresult] at hconsistent
      obtain ⟨rfl, -⟩ := h
      refine ⟨rfl, fun side => ?_⟩
      cases side with
      | source => exact fun dims hdims => Option.some.inj hdims ▸ hconsistent.sources
      | target => exact fun dims hdims => Option.some.inj hdims ▸ hconsistent.targets

/-- An orderly session never asks for a separation with a wrong argument. -/
theorem Orderly.separate_ne_illegalArgument (h : Orderly t s)
    (hassembler : assembler.KeepsSpans) [LawfulScalar α] (ht : t.Coherent)
    (argument : TransformError.Argument) :
    (s.perform assembler .separate).2 ≠ .error (.illegalArgument argument) := by
  have haccepts := h.accepts hassembler ht
  unfold Session.perform Session.attempt Session.separate
  cases hresult : Separation.separate assembler s.transform s.sources s.targets s.options with
  | ok result => exact nofun
  | error e =>
      rw [hresult] at haccepts
      intro herror
      obtain rfl : e = .illegalArgument argument := Except.error.inj herror
      exact haccepts

/-- Whatever is asked of an orderly session, it stays orderly. -/
theorem Orderly.perform (h : Orderly t s) (hassembler : assembler.KeepsSpans) [LawfulScalar α]
    (ht : t.Coherent) (operation : Operation) :
    Orderly t (s.perform assembler operation).1 := by
  rcases perform_cases assembler s operation with ⟨hadvances, -⟩ | ⟨e, -, herror⟩
  · exact h.advances hassembler ht hadvances
  · rw [herror]
    exact h

/-- A session is orderly all through a conversation. -/
theorem Orderly.performAll (h : Orderly t s) (hassembler : assembler.KeepsSpans) [LawfulScalar α]
    (ht : t.Coherent) (operations : List Operation) :
    Orderly t (s.performAll assembler operations) := by
  induction operations generalizing s with
  | nil => exact h
  | cons operation rest ih => exact ih (h.perform hassembler ht operation)

end Steps

section Getters

variable {κ α : Type} {s : Session κ α} {side : Side}

theorem specified_eq_error_iff :
    (∃ e, s.specified side = .error e) ↔ s.dimensions side = none := by
  unfold specified
  cases s.dimensions side with
  | none => exact iff_of_true ⟨_, rfl⟩ rfl
  | some dims => exact iff_of_false nofun nofun

end Getters

section Transcripts

variable {κ α : Type}

/-- An operation together with what it has answered. -/
abbrev Event (κ α : Type) := Operation × Except TransformError (Option (Transform κ α))

/-- The event has specified dimensions of a side: some have been added there, or a separation has
reported those that it uses. -/
def Specifies (side : Side) : Event κ α → Prop
  | (.add side' added, .ok _) => side' = side ∧ added ≠ []
  | (.addRange side' lower upper, .ok _) => side' = side ∧ lower < upper
  | (.separate, .ok _) => True
  | _ => False

instance (side : Side) : (event : Event κ α) → Decidable (Specifies side event)
  | (.add side' added, .ok _) => inferInstanceAs (Decidable (side' = side ∧ added ≠ []))
  | (.addRange side' lower upper, .ok _) =>
      inferInstanceAs (Decidable (side' = side ∧ lower < upper))
  | (.separate, .ok _) => .isTrue trivial
  | (.clear, .ok _) | (.setTrim _, .ok _) => .isFalse id
  | (.add _ _, .error _) | (.addRange _ _ _, .error _) | (.clear, .error _)
  | (.setTrim _, .error _) | (.separate, .error _) => .isFalse id

/-- The events after the last clearing. -/
def sinceClear (events : List (Event κ α)) : List (Event κ α) :=
  events.rtakeWhile fun event => event.1 ≠ .clear

variable [Kernel κ α] [Scalar α] {assembler : Assembler κ α} {s : Session κ α} {side : Side}

/-- The events of a conversation. -/
def transcript (assembler : Assembler κ α) : Session κ α → List Operation → List (Event κ α)
  | _, [] => []
  | s, operation :: rest =>
      let step := s.perform assembler operation
      (operation, step.2) :: transcript assembler step.1 rest

theorem performAll_concat (operations : List Operation) (operation : Operation) :
    s.performAll assembler (operations ++ [operation]) =
      ((s.performAll assembler operations).perform assembler operation).1 := by
  rw [performAll, List.foldl_append]
  rfl

theorem transcript_concat (operations : List Operation) (operation : Operation) :
    s.transcript assembler (operations ++ [operation]) = s.transcript assembler operations ++
      [(operation, ((s.performAll assembler operations).perform assembler operation).2)] := by
  induction operations generalizing s with
  | nil => rfl
  | cons first rest ih => exact congrArg _ ih

omit [Kernel κ α] [Scalar α] in
theorem dimensions_withDimensions_of_ne {side' : Side} {present : Option (List Nat)}
    (h : side' ≠ side) : (s.withDimensions side' present).dimensions side = s.dimensions side := by
  cases side with
  | source => cases side' with
    | source => exact absurd rfl h
    | target => rfl
  | target => cases side' with
    | source => rfl
    | target => exact absurd rfl h

omit [Kernel κ α] [Scalar α] in
/-- An addition leaves a list missing if it was missing and nothing has been added on its side. -/
theorem dimensions_extended_eq_none_iff {side' : Side} {added : List Nat}
    {next : Option (List Nat)} {limit : Nat}
    (h : Extends limit (s.dimensions side') added next) :
    (s.withDimensions side' next).dimensions side = none ↔
      s.dimensions side = none ∧ ¬(side' = side ∧ added ≠ []) := by
  by_cases hside : side' = side
  · subst hside
    rw [dimensions_withDimensions, h.eq_none_iff]
    simp
  · rw [dimensions_withDimensions_of_ne hside]
    simp [hside]

/-- After an operation a list is missing exactly if the session has just been cleared, or if it was
missing before and the operation has not specified it. -/
theorem dimensions_perform_eq_none_iff (operation : Operation) :
    (s.perform assembler operation).1.dimensions side = none ↔
      operation = .clear ∨ s.dimensions side = none ∧
        ¬Specifies side (operation, (s.perform assembler operation).2) := by
  rcases perform_cases assembler s operation with ⟨hadvances, answer, hok⟩ | ⟨e, he, herror⟩
  · rw [hok]
    generalize (s.perform assembler operation).1 = next at hadvances
    cases hadvances with
    | add hextends =>
        rw [dimensions_extended_eq_none_iff hextends]
        simp [Specifies]
    | addRange hextends =>
        rw [dimensions_extended_eq_none_iff hextends]
        simp [Specifies, Nat.sub_eq_zero_iff_le]
    | clear =>
        cases side with
        | _ => exact iff_of_true rfl (.inl rfl)
    | setTrim trim =>
        show s.dimensions side = none ↔ _
        simp [Specifies]
    | separate hresult =>
        cases side with
        | _ => simp [dimensions, Specifies]
  · rw [herror]
    cases operation with
    | clear => cases he
    | _ => simp [Specifies]

/-- A list is missing exactly if nothing has specified it since the session has been cleared. -/
theorem dimensions_performAll_eq_none_iff (hs : s.dimensions side = none)
    (operations : List Operation) :
    (s.performAll assembler operations).dimensions side = none ↔
      ∀ event ∈ sinceClear (s.transcript assembler operations), ¬Specifies side event := by
  -- on the last operation: it either clears, and no event counts any more, or is one event more
  induction operations using List.reverseRecOn with
  | nil => exact iff_of_true hs nofun
  | append_singleton operations operation ih =>
      rw [performAll_concat, transcript_concat, dimensions_perform_eq_none_iff, ih]
      unfold sinceClear
      rw [List.rtakeWhile_concat]
      by_cases hclear : operation = .clear
      · simp [hclear]
      · simp [hclear, forall_and, or_imp, and_comm]

end Transcripts

section Binary64

variable {κ : Type} [Kernel κ Float] {t : Transform κ Float} {s : Session κ Float}

/-- At every moment of a conversation the lists that are present are increasing and within the
dimensions of the transform, which stays the same.  An operation that fails changes nothing, and has
not even written anything.  A list is missing exactly if nothing has specified it since the session
has been cleared, and a separation never complains about an argument. -/
theorem performAll_invariants (ht : t.Coherent) {options : AssemblyOptions}
    {extra : SeparationOptions} {operations : List Operation}
    (hs : (start t extra).performAll (.standard options) operations = s) :
    s.transform = t ∧
      (∀ side, ∀ dims ∈ s.dimensions side, Increasing dims (s.limit side)) ∧
      (∀ operation e, (s.perform (.standard options) operation).2 = .error e →
        (s.perform (.standard options) operation).1 = s ∧
          (write (.standard options) operation).run.run s = (.error e, s)) ∧
      (∀ side, (∃ e, s.specified side = .error e) ↔
        ∀ event ∈ sinceClear ((start t extra).transcript (.standard options) operations),
          ¬Specifies side event) ∧
      ∀ argument, (s.perform (.standard options) .separate).2 ≠
        .error (.illegalArgument argument) := by
  have horderly := (orderly_start t extra).performAll (Assembler.standard_keepsSpans options) ht
    operations
  rw [hs] at horderly
  refine ⟨horderly.transform, horderly.sorted, fun _ _ => unchanged_of_error, fun side => ?_, ?_⟩
  · have hmissing : (start t extra).dimensions side = none := by
      cases side with
      | _ => rfl
    rw [specified_eq_error_iff, ← hs, dimensions_performAll_eq_none_iff hmissing]
  · exact horderly.separate_ne_illegalArgument (Assembler.standard_keepsSpans options) ht

/-- A coordinate copied before a kernel that takes none. -/
def tapped : Transform SyntheticKernel Float :=
  passThrough none 1 (kernel none (.make "tap" 0 1 0 1 .missing none none)) 0

/-- A separation by the second target, a refused addition below it, clearing, and all sources. -/
def refusedOnce : List Operation :=
  [.add .target [1], .separate, .add .target [0], .clear, .addRange .source 0 1]

/-- In the end there are sources, which cannot be added again, and no targets. -/
theorem performAll_invariants_tapped :
    ∃ s : Session SyntheticKernel Float,
      (start tapped ⟨false⟩).performAll (.standard {}) refusedOnce = s ∧
        s.sources = some [0] ∧ Increasing [0] (s.limit .source) ∧
        (write (.standard {}) (.add .source [0])).run.run s =
          (.error (.illegalArgument (.additionNotGreater 0 0 0)), s) ∧
        (∃ e, s.specified .target = .error e) ∧ (¬∃ e, s.specified .source = .error e) ∧
        ∀ argument, (s.perform (.standard {}) .separate).2 ≠ .error (.illegalArgument argument) := by
  have hcoherent : tapped.Coherent := by decide
  obtain ⟨s, hs⟩ : ∃ s, (start tapped ⟨false⟩).performAll (.standard {}) refusedOnce = s :=
    ⟨_, rfl⟩
  obtain ⟨htransform, hsorted, hunchanged, hgetters, haccepted⟩ := performAll_invariants hcoherent hs
  have hsources : s.dimensions .source = some [0] := hs ▸ by decide +kernel
  have hrefused : (s.perform (.standard {}) (.add .source [0])).2 =
      .error (.illegalArgument (.additionNotGreater 0 0 0)) := by
    rw [Session.perform, Session.attempt, add, addDimensions, hsources, limit, htransform]
    rfl
  exact ⟨s, hs, hsources, hsorted .source [0] hsources, (hunchanged _ _ hrefused).2,
    (hgetters .target).mpr (by decide +kernel), mt (hgetters .source).mp (by decide +kernel),
    haccepted⟩

end Binary64

end Session
end SeparableTransforms
