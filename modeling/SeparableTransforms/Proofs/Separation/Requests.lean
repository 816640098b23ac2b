import SeparableTransforms.Proofs.Dimensions
import SeparableTransforms.Proofs.Outcome
import SeparableTransforms.Separation.Basic

/-!
# Requests

A request is accepted exactly if it is an increasing list of dimensions.  Among
accepted requests those for sources matter only if they are proper: an empty list
and a list of all sources ask for nothing.
-/

namespace SeparableTransforms
namespace Separation

open Outcome

section Checking

variable {side : Side} {limit : Nat} {dims : List Nat} {request : Option (List Nat)}

theorem checkFrom_eq_ok_iff {i : Nat} {previous : Option Nat} :
    checkFrom side limit i previous dims = .ok () ↔
      Increasing dims limit ∧ ∀ p ∈ previous, ∀ d ∈ dims, p < d := by
  induction dims generalizing i previous with
  | nil => simp [checkFrom, increasing_nil]
  | cons d rest ih =>
      rw [checkFrom, increasing_cons_iff]
      split
      · rename_i hlimit
        simp only [reduceCtorEq, false_iff]
        rintro ⟨⟨hd, _⟩, _⟩
        omega
      · rename_i hlimit
        split
        · rename_i hnot
          obtain ⟨p, hp, hle⟩ := (Option.any_eq_true _ _).mp hnot
          have hle := of_decide_eq_true hle
          simp only [reduceCtorEq, false_iff]
          rintro ⟨_, hbelow⟩
          exact absurd (hbelow p hp d List.mem_cons_self) (by omega)
        · rename_i hbelow
          have hbelow : ∀ p ∈ previous, p < d := by
            intro p hp
            obtain rfl : previous = some p := hp
            simpa using hbelow
          rw [ih]
          constructor
          · rintro ⟨hrest, habove⟩
            have habove := habove d rfl
            refine ⟨⟨by omega, habove, hrest⟩, fun p hp e he => ?_⟩
            have hpd := hbelow p hp
            rcases List.mem_cons.mp he with rfl | he
            · exact hpd
            · exact hpd.trans (habove e he)
          · rintro ⟨⟨_, habove, hrest⟩, _⟩
            refine ⟨hrest, fun p hp => ?_⟩
            obtain rfl : d = p := Option.some.inj hp
            exact habove

/-- A request is accepted if it is increasing. -/
theorem checkRequest_eq_ok_iff :
    checkRequest side limit request = .ok () ↔ Increasing (request.getD []) limit := by
  rw [checkRequest, checkFrom_eq_ok_iff]
  simp

theorem getD_nonempty : (nonempty request).getD [] = request.getD [] := by
  cases request with
  | none => rfl
  | some dims =>
      cases dims with
      | nil => rfl
      | cons d rest => rfl

theorem nonempty_eq_some_iff : nonempty request = some dims ↔ request = some dims ∧ dims ≠ [] := by
  rw [nonempty, Option.filter_eq_some_iff]
  simp

theorem increasing_of_mem_nonempty (h : Increasing (request.getD []) limit) :
    ∀ dims ∈ nonempty request, Increasing dims limit := by
  intro dims hdims
  rwa [(nonempty_eq_some_iff.mp hdims).1] at h

end Checking

section Positions

variable {derived requested : List Nat} {limit d : Nat}

theorem positionsAmong_eq_ok (h : ∀ d ∈ requested, d ∈ derived) :
    positionsAmong derived requested = .ok (requested.map derived.idxOf) := by
  unfold positionsAmong
  induction requested with
  | nil => rfl
  | cons d rest ih =>
      have hd := h d List.mem_cons_self
      have hrest := ih fun e he => h e (List.mem_cons_of_mem d he)
      rw [List.mapM_cons, hrest, if_pos (List.contains_iff_mem.mpr hd)]
      rfl

/-- The first dimension that cannot be computed is named. -/
theorem positionsAmong_eq_error (h : d ∈ requested) (hd : d ∉ derived) :
    ∃ e ∈ requested, positionsAmong derived requested =
      .error (.cannotSeparate (.undeterminedTarget e)) := by
  unfold positionsAmong
  induction requested with
  | nil => cases h
  | cons e rest ih =>
      by_cases he : e ∈ derived
      · have hrest : d ∈ rest := by
          rcases List.mem_cons.mp h with rfl | hrest
          · exact absurd he hd
          · exact hrest
        obtain ⟨f, hf, herror⟩ := ih hrest
        refine ⟨f, List.mem_cons_of_mem e hf, ?_⟩
        rw [List.mapM_cons, herror, if_pos (List.contains_iff_mem.mpr he)]
        rfl
      · refine ⟨e, List.mem_cons_self, ?_⟩
        rw [List.mapM_cons, if_neg fun hc => he (List.contains_iff_mem.mp hc)]
        rfl

/-- Positions among increasing dimensions are increasing. -/
theorem increasing_positions (hderived : Increasing derived limit)
    (hrequested : Increasing requested limit) (h : ∀ d ∈ requested, d ∈ derived) :
    Increasing (requested.map derived.idxOf) derived.length := by
  constructor
  · refine List.pairwise_map.mpr (hrequested.sorted.imp_of_mem fun {d e} hd he hlt => ?_)
    have hd' := List.idxOf_lt_length_of_mem (h d hd)
    have he' := List.idxOf_lt_length_of_mem (h e he)
    by_contra hle
    rcases Nat.lt_or_eq_of_le (Nat.le_of_not_lt hle) with hlt' | heq
    · have := List.pairwise_iff_getElem.mp hderived.sorted _ _ he' hd' hlt'
      rw [List.getElem_idxOf, List.getElem_idxOf] at this
      omega
    · have : derived[derived.idxOf d] = derived[derived.idxOf e] := by simp [heq]
      rw [List.getElem_idxOf, List.getElem_idxOf] at this
      omega
  · intro i hi
    obtain ⟨d, hd, rfl⟩ := List.mem_map.mp hi
    exact List.idxOf_lt_length_of_mem (h d hd)

/-- All positions are asked for only if everything that can be computed is. -/
theorem isFull_positions_iff (hderived : Increasing derived limit)
    (hrequested : Increasing requested limit) (h : ∀ d ∈ requested, d ∈ derived) :
    isFull (requested.map derived.idxOf) derived.length = true ↔ requested = derived := by
  rw [(increasing_positions hderived hrequested h).isFull_iff_length, List.length_map]
  constructor
  · intro hlen
    have hsub : List.Sublist requested derived :=
      List.sublist_of_subperm_of_pairwise (r := (· < ·))
        (List.subperm_of_subset (hrequested.sorted.imp Nat.ne_of_lt) h) hrequested.sorted
        hderived.sorted
    exact hsub.eq_of_length_le hlen
  · rintro rfl
    exact Nat.le_refl _

end Positions

section Separate

variable {κ α : Type} [Kernel κ α] [Scalar α] {t : Transform κ α} {assembler : Assembler κ α}
  {sources targets : Option (List Nat)} {options : SeparationOptions} {limit : Nat}
  {S : List Nat}

/-- The sources that a request asks for, if they are not all of them. -/
def properSources (limit : Nat) (sources : Option (List Nat)) : Option (List Nat) :=
  (nonempty sources).filter fun S => S.length < limit

/-- The targets that a request asks for. -/
def requestedTargets (limit : Nat) (targets : Option (List Nat)) : List Nat :=
  (nonempty targets).getD (List.range limit)

theorem properSources_eq_some_iff :
    properSources limit sources = some S ↔ sources = some S ∧ S ≠ [] ∧ S.length < limit := by
  rw [properSources, Option.filter_eq_some_iff, nonempty_eq_some_iff]
  simp [and_assoc]

theorem ne_range_of_properSources (h : properSources limit sources = some S) :
    S ≠ List.range limit := by
  rintro rfl
  obtain ⟨_, _, hlt⟩ := properSources_eq_some_iff.mp h
  rw [List.length_range] at hlt
  exact Nat.lt_irrefl _ hlt

theorem increasing_requestedTargets (h : Increasing (targets.getD []) limit) :
    Increasing (requestedTargets limit targets) limit := by
  rw [requestedTargets]
  cases htargets : nonempty targets with
  | none => exact increasing_range limit
  | some R => exact increasing_of_mem_nonempty h R htargets

/-- An accepted request is separated by its proper sources, or else by its targets. -/
theorem separate_eq (hsources : Increasing (sources.getD []) t.sourceDimensions)
    (htargets : Increasing (targets.getD []) t.targetDimensions) :
    separate assembler t sources targets options =
      match properSources t.sourceDimensions sources with
      | some S => bySources assembler t S (nonempty targets)
      | none =>
          byTargets assembler t (requestedTargets t.targetDimensions targets) options := by
  have hsource : checkRequest .source t.sourceDimensions (nonempty sources) = .ok () := by
    rwa [checkRequest_eq_ok_iff, getD_nonempty]
  have htarget : checkRequest .target t.targetDimensions (nonempty targets) = .ok () := by
    rwa [checkRequest_eq_ok_iff, getD_nonempty]
  unfold separate properSources requestedTargets
  simp only [hsource, htarget, ok_bind]
  cases nonempty sources with
  | none => rfl
  | some S =>
      by_cases hlt : S.length < t.sourceDimensions
      · simp [hlt, Option.filter_some]
      · simp [hlt, Option.filter_some]

/-- Targets that are requested on their own, with trimming off. -/
theorem separate_targets {R : List Nat} (hne : R ≠ []) (hR : Increasing R t.targetDimensions) :
    separate assembler t none (some R) ⟨false⟩ =
      (fun reduced => ⟨reduced, List.range t.sourceDimensions, R⟩) <$>
        t.keepTargets assembler R := by
  have hrequest : requestedTargets t.targetDimensions (some R) = R := by
    rw [requestedTargets, nonempty_eq_some_iff.mpr ⟨rfl, hne⟩, Option.getD_some]
  have hnone : Increasing (Option.getD none []) t.sourceDimensions := increasing_nil _
  have hsome : Increasing (Option.getD (some R) []) t.targetDimensions := hR
  rw [separate_eq hnone hsome, hrequest]
  show byTargets assembler t R ⟨false⟩ = _
  unfold byTargets
  cases t.keepTargets assembler R with
  | error e => rfl
  | ok reduced => rfl

/-- Proper sources that are requested on their own. -/
theorem separate_sources_iff {S : List Nat} (hne : S ≠ []) (hS : Increasing S t.sourceDimensions)
    (hproper : S.length < t.sourceDimensions) {s : Separation κ α} :
    separate assembler t (some S) none options = .ok s ↔
      ∃ t' D, t.keepSources assembler S = .ok (t', D) ∧ D ≠ [] ∧ s = ⟨t', S, D⟩ := by
  have hsome : Increasing (Option.getD (some S) []) t.sourceDimensions := hS
  have hnone : Increasing (Option.getD none []) t.targetDimensions := increasing_nil _
  rw [separate_eq hsome hnone, properSources_eq_some_iff.mpr ⟨rfl, hne, hproper⟩]
  show bySources assembler t S none = .ok s ↔ _
  unfold bySources
  cases t.keepSources assembler S with
  | error e => simp
  | ok reduced =>
      obtain ⟨t', D⟩ := reduced
      cases D with
      | nil => simp [throw_eq_error]
      | cons d rest =>
          simp only [ok_bind, List.isEmpty_cons, Bool.false_eq_true, if_false, pure_eq_ok,
            Except.ok.injEq]
          constructor
          · rintro rfl
            exact ⟨t', d :: rest, rfl, List.cons_ne_nil d rest, rfl⟩
          · rintro ⟨_, _, hsame, _, rfl⟩
            cases hsame
            rfl

theorem checkFrom_cases (side : Side) (limit i : Nat) (previous : Option Nat) (dims : List Nat) :
    checkFrom side limit i previous dims = .ok () ∨
      ∃ argument, checkFrom side limit i previous dims = .error (.illegalArgument argument) := by
  induction dims generalizing i previous with
  | nil => exact .inl rfl
  | cons d rest ih =>
      rw [checkFrom]
      split
      · exact .inr ⟨_, rfl⟩
      · split
        · exact .inr ⟨_, rfl⟩
        · exact ih _ _

/-- A request that is not accepted is refused in the same way by all assemblers. -/
theorem separate_refused (h : ¬(Increasing (sources.getD []) t.sourceDimensions ∧
      Increasing (targets.getD []) t.targetDimensions)) :
    ∃ argument, ∀ (assembler : Assembler κ α) (options : SeparationOptions),
      separate assembler t sources targets options = .error (.illegalArgument argument) := by
  rcases checkFrom_cases .source t.sourceDimensions 0 none ((nonempty sources).getD []) with
    hsource | ⟨argument, hsource⟩
  · rcases checkFrom_cases .target t.targetDimensions 0 none ((nonempty targets).getD []) with
      htarget | ⟨argument, htarget⟩
    · refine absurd ⟨?_, ?_⟩ h
      · rw [← getD_nonempty]
        exact (checkFrom_eq_ok_iff.mp hsource).1
      · rw [← getD_nonempty]
        exact (checkFrom_eq_ok_iff.mp htarget).1
    · refine ⟨argument, fun assembler options => ?_⟩
      unfold separate checkRequest
      simp only [hsource, htarget, ok_bind, error_bind]
  · refine ⟨argument, fun assembler options => ?_⟩
    unfold separate checkRequest
    simp only [hsource, error_bind]

/-- Only accepted requests are separated. -/
theorem increasing_of_separate {s : Separation κ α}
    (h : separate assembler t sources targets options = .ok s) :
    Increasing (sources.getD []) t.sourceDimensions ∧
      Increasing (targets.getD []) t.targetDimensions := by
  by_contra hnot
  obtain ⟨argument, hrefused⟩ := separate_refused hnot
  rw [hrefused] at h
  cases h

end Separate

end Separation
end SeparableTransforms
