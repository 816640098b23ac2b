import Mathlib.Data.List.Forall2
import SeparableTransforms.Transform.Error

/-!
# Outcomes

Operations that may fail are sequenced in `Except`.  A sequence succeeds if all of
its parts do, and these lemmas take it apart.

Two outcomes *match* if both are the same error or both are results that stand in a
given relation, and an outcome *ensures* a predicate of errors and one of results if it
satisfies the one that concerns it.  Sequences of operations match, and ensure what is
asked of them, if their parts do.
-/

namespace SeparableTransforms
namespace Outcome

section Outcome

variable {ε β γ : Type}

@[simp] theorem ok_bind (a : β) (f : β → Except ε γ) : (Except.ok a >>= f) = f a :=
  rfl

@[simp] theorem error_bind (e : ε) (f : β → Except ε γ) : (Except.error e >>= f) = .error e :=
  rfl

@[simp] theorem pure_eq_ok (a : β) : (pure a : Except ε β) = .ok a :=
  rfl

theorem throw_eq_error (e : ε) : (throw e : Except ε β) = .error e :=
  rfl

@[simp] theorem map_ok (f : β → γ) (a : β) : f <$> (Except.ok a : Except ε β) = .ok (f a) :=
  rfl

@[simp] theorem ofMatrix_ok (a : β) : TransformError.ofMatrix (.ok a) = .ok a :=
  rfl

theorem bind_eq_ok_iff {x : Except ε β} {f : β → Except ε γ} {c : γ} :
    (x >>= f) = .ok c ↔ ∃ a, x = .ok a ∧ f a = .ok c := by
  cases x with
  | error e => simp
  | ok a => simp

theorem map_eq_ok_iff {x : Except ε β} {f : β → γ} {c : γ} :
    f <$> x = .ok c ↔ ∃ a, x = .ok a ∧ f a = c := by
  cases x with
  | error e => simp
  | ok a => simp

theorem exists_ok_of_isOk {x : Except ε β} (h : x.isOk = true) : ∃ a, x = .ok a := by
  cases x with
  | error e => cases h
  | ok a => exact ⟨a, rfl⟩

end Outcome

section Lists

variable {ε β γ : Type} {f : β → Except ε γ} {xs : List β} {ys : List γ}

theorem mapM_eq_ok_iff :
    xs.mapM f = .ok ys ↔ List.Forall₂ (fun x y => f x = .ok y) xs ys := by
  induction xs generalizing ys with
  | nil => simp [List.forall₂_nil_left_iff, eq_comm]
  | cons x xs ih =>
      rw [List.mapM_cons, List.forall₂_cons_left_iff, bind_eq_ok_iff]
      simp only [bind_eq_ok_iff, pure_eq_ok, Except.ok.injEq, ih]
      constructor
      · rintro ⟨y, hy, rest, hrest, rfl⟩
        exact ⟨y, rest, hy, hrest, rfl⟩
      · rintro ⟨y, rest, hy, hrest, rfl⟩
        exact ⟨y, hy, rest, hrest, rfl⟩

/-- Either all elements have a result, or the first one without decides the error. -/
theorem mapM_cases (f : β → Except ε γ) (xs : List β) :
    (∃ ys, List.Forall₂ (fun x y => f x = .ok y) xs ys ∧ xs.mapM f = .ok ys) ∨
      ∃ before x after e, xs = before ++ x :: after ∧ (∀ b ∈ before, ∃ y, f b = .ok y) ∧
        f x = .error e ∧ xs.mapM f = .error e := by
  induction xs with
  | nil => exact .inl ⟨[], .nil, rfl⟩
  | cons x xs ih =>
      rw [List.mapM_cons]
      cases hx : f x with
      | error e => exact .inr ⟨[], x, xs, e, rfl, by simp, hx, rfl⟩
      | ok y =>
          rcases ih with ⟨ys, hall, hys⟩ | ⟨before, x', after, e, rfl, hbefore, hx', he⟩
          · exact .inl ⟨y :: ys, .cons hx hall, by rw [ok_bind, hys]; rfl⟩
          · refine .inr ⟨x :: before, x', after, e, rfl, ?_, hx', by rw [ok_bind, he]; rfl⟩
            intro b hb
            rcases List.mem_cons.mp hb with rfl | hb
            · exact ⟨y, hx⟩
            · exact hbefore b hb

theorem exists_mapM_eq_ok_iff : (∃ ys, xs.mapM f = .ok ys) ↔ ∀ x ∈ xs, ∃ y, f x = .ok y := by
  rcases mapM_cases f xs with ⟨ys, hall, hys⟩ | ⟨before, x, after, e, rfl, -, hx, he⟩
  · refine iff_of_true ⟨ys, hys⟩ fun x hx => ?_
    obtain ⟨i, hi, rfl⟩ := List.getElem_of_mem hx
    exact ⟨_, hall.get hi (hall.length_eq ▸ hi)⟩
  · refine iff_of_false (fun ⟨ys, hys⟩ => ?_) fun h => ?_
    · rw [he] at hys
      cases hys
    · obtain ⟨y, hy⟩ := h x (by simp)
      rw [hx] at hy
      cases hy

end Lists

section Matching

variable {ε β β' γ γ' : Type} {R : β → β' → Prop} {S : γ → γ' → Prop} {x : Except ε β}
  {y : Except ε β'}

/-- Both outcomes are the same error, or both are results that are related. -/
inductive Matches (R : β → β' → Prop) : Except ε β → Except ε β' → Prop
  | error (e : ε) : Matches R (.error e) (.error e)
  | ok {b : β} {b' : β'} (h : R b b') : Matches R (.ok b) (.ok b')

theorem Matches.refl {R : β → β → Prop} (hR : ∀ b, R b b) (x : Except ε β) : Matches R x x := by
  cases x with
  | error e => exact .error e
  | ok b => exact .ok (hR b)

theorem Matches.mono {R' : β → β' → Prop} (h : Matches R x y) (hR : ∀ b b', R b b' → R' b b') :
    Matches R' x y := by
  cases h with
  | error e => exact .error e
  | ok hb => exact .ok (hR _ _ hb)

theorem Matches.map {f : β → γ} {g : β' → γ'} (h : Matches R x y)
    (hfg : ∀ b b', R b b' → S (f b) (g b')) : Matches S (f <$> x) (g <$> y) := by
  cases h with
  | error e => exact .error e
  | ok hb => exact .ok (hfg _ _ hb)

/-- Sequences match if what is done first and what is done with its result match. -/
theorem Matches.bind {f : β → Except ε γ} {g : β' → Except ε γ'} (h : Matches R x y)
    (hfg : ∀ b b', R b b' → Matches S (f b) (g b')) : Matches S (x >>= f) (y >>= g) := by
  cases h with
  | error e => exact .error e
  | ok hb => exact hfg _ _ hb

theorem Matches.ofMatrix {x : Except MatrixError β} {y : Except MatrixError β'}
    (h : Matches R x y) : Matches R (TransformError.ofMatrix x) (TransformError.ofMatrix y) := by
  cases h with
  | error e => exact .error _
  | ok hb => exact .ok hb

/-- Folds over related lists match if each of their steps does. -/
theorem Matches.foldlM {f : γ → β → Except ε γ} {g : γ' → β' → Except ε γ'} {xs : List β}
    {ys : List β'} {c : γ} {c' : γ'} (hxs : List.Forall₂ R xs ys)
    (hfg : ∀ c c' b b', S c c' → R b b' → Matches S (f c b) (g c' b')) (hc : S c c') :
    Matches S (xs.foldlM f c) (ys.foldlM g c') := by
  induction hxs generalizing c c' with
  | nil => exact .ok hc
  | cons hb _ ih =>
      rw [List.foldlM_cons, List.foldlM_cons]
      exact (hfg _ _ _ _ hc hb).bind fun _ _ => ih

end Matching

section Ensuring

variable {ε β γ : Type} {E : ε → Prop} {P : β → Prop} {Q : γ → Prop} {x : Except ε β}

/-- An error satisfies the first predicate, and a result the second. -/
def Ensures (E : ε → Prop) (P : β → Prop) : Except ε β → Prop
  | .error e => E e
  | .ok b => P b

/-- A predicate holds of the result, if there is one. -/
abbrev Yields (P : β → Prop) : Except ε β → Prop :=
  Ensures (fun _ => True) P

theorem Ensures.mono {P' : β → Prop} (h : Ensures E P x) (hP : ∀ b, P b → P' b) :
    Ensures E P' x := by
  cases x with
  | error e => exact h
  | ok b => exact hP b h

theorem Ensures.map {f : β → γ} (h : Ensures E P x) (hf : ∀ b, P b → Q (f b)) :
    Ensures E Q (f <$> x) := by
  cases x with
  | error e => exact h
  | ok b => exact hf b h

/-- A sequence ensures what is ensured of whatever is done with a result that the first part may
have. -/
theorem Ensures.bind {f : β → Except ε γ} (h : Ensures E P x) (hf : ∀ b, P b → Ensures E Q (f b)) :
    Ensures E Q (x >>= f) := by
  cases x with
  | error e => exact h
  | ok b => exact hf b h

/-- What holds of the result of the second part holds of the result of the sequence. -/
theorem yields_bind {f : β → Except ε γ} (x : Except ε β) (hf : ∀ b, Yields Q (f b)) :
    Yields Q (x >>= f) := by
  cases x with
  | error e => trivial
  | ok b => exact hf b

/-- A fold ensures what its steps keep, where the invariant may speak of what has been done. -/
theorem Ensures.foldlM {f : γ → β → Except ε γ} {I : List β → γ → Prop}
    (hf : ∀ done b c, I done c → Ensures E (I (done ++ [b])) (f c b)) (xs : List β) {c : γ}
    (hc : I [] c) : Ensures E (I xs) (xs.foldlM f c) := by
  have hrest : ∀ done c, I done c → Ensures E (I (done ++ xs)) (xs.foldlM f c) := by
    induction xs with
    | nil =>
        intro done c hdone
        rw [List.append_nil]
        exact hdone
    | cons b xs ih =>
        intro done c hdone
        rw [List.foldlM_cons, List.append_cons]
        exact (hf done b c hdone).bind fun next hnext => ih (done ++ [b]) next hnext
  exact hrest [] c hc

end Ensuring

end Outcome
end SeparableTransforms
