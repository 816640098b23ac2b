import SeparableTransforms.Separation.Session

/-!
# Operations write by write

An operation on a session either gives a new session or an error, and after an error
the session of before goes on.  Here the same operations are done one write at a time
on a session that keeps whatever has been written, an error or not: a list is started,
dimensions are put behind it one after the other, and a separation replaces one list
after the other.

Both ways agree.  So an operation that fails has written nothing yet: everything that
can be refused is checked before the first write.
-/

namespace SeparableTransforms
namespace Session

section Writing

variable {κ α : Type}

/-- Steps on a session that may fail; what has been written before a failure stays written. -/
abbrev Writing (κ α β : Type) := ExceptT TransformError (StateM (Session κ α)) β

/-- Puts dimensions one by one behind the list of one side, which is started if there is none. -/
def writeDimensions (side : Side) (added : List Nat) : Writing κ α Unit :=
  if added.isEmpty then return ()
  else do
    modify fun s => s.withDimensions side (some ((s.dimensions side).getD []))
    added.forM fun d =>
      modify fun s => s.withDimensions side ((s.dimensions side).map fun dims => dims ++ [d])

variable [Kernel κ α] [Scalar α]

/-- An operation, write by write. -/
def write (assembler : Assembler κ α) : Operation → Writing κ α (Option (Transform κ α))
  | .add side added => do
      let s ← get
      ofExcept (checkAddition (s.limit side) 0 (lastOf (s.dimensions side)) added)
      writeDimensions side added
      return none
  | .addRange side lower upper => do
      let s ← get
      if s.limit side < upper then
        throw (.illegalArgument (.rangeBeyondLimit upper (s.limit side)))
      if upper < lower then
        throw (.illegalArgument (.rangeReversed lower upper))
      if let some p := (lastOf (s.dimensions side)).filter fun p => lower ≤ p then
        throw (.illegalArgument (.rangeNotGreater lower p))
      writeDimensions side (List.range' lower (upper - lower))
      return none
  | .clear => do
      modify fun s => { s with sources := none }
      modify fun s => { s with targets := none }
      return none
  | .setTrim trim => do
      modify fun s => s.setTrim trim
      return none
  | .separate => do
      let s ← get
      let result ← ofExcept
        (Separation.separate assembler s.transform s.sources s.targets s.options)
      modify fun s => { s with sources := some result.sourceDimensions }
      modify fun s => { s with targets := some result.targetDimensions }
      return some result.transform

end Writing

section Runs

variable {κ α β γ : Type} {s s' : Session κ α} {x : Writing κ α β} {f : β → Writing κ α γ}

theorem run_bind_ok {b : β} (h : x.run.run s = (.ok b, s')) :
    (x >>= f).run.run s = (f b).run.run s' := by
  rw [ExceptT.run_bind, StateT.run_bind, h]
  rfl

theorem run_bind_error {e : TransformError} (h : x.run.run s = (.error e, s')) :
    (x >>= f).run.run s = (.error e, s') := by
  rw [ExceptT.run_bind, StateT.run_bind, h]
  rfl

end Runs

section Agreement

variable {κ α : Type} {s : Session κ α} {side : Side} {added : List Nat}
  {dims dims' : Option (List Nat)}

@[simp] theorem dimensions_withDimensions :
    (s.withDimensions side dims).dimensions side = dims := by
  cases side with
  | _ => rfl

@[simp] theorem withDimensions_withDimensions :
    (s.withDimensions side dims).withDimensions side dims' = s.withDimensions side dims' := by
  cases side with
  | _ => rfl

@[simp] theorem withDimensions_dimensions : s.withDimensions side (s.dimensions side) = s := by
  cases side with
  | _ => rfl

variable (added) in
/-- Dimensions put behind a list one by one are appended to it. -/
theorem run_forM_append {before : List Nat} (hs : s.dimensions side = some before) :
    ((added.forM fun d => modify fun s : Session κ α =>
        s.withDimensions side ((s.dimensions side).map fun dims => dims ++ [d])) :
      Writing κ α PUnit).run.run s = (.ok (), s.withDimensions side (some (before ++ added))) := by
  induction added generalizing s before with
  | nil =>
      rw [List.append_nil, ← hs, withDimensions_dimensions]
      rfl
  | cons d rest ih =>
      have hfirst : (s.dimensions side).map (fun dims => dims ++ [d]) = some (before ++ [d]) := by
        rw [hs, Option.map_some]
      have hrest := @ih (s.withDimensions side ((s.dimensions side).map fun dims => dims ++ [d]))
        (before ++ [d]) (dimensions_withDimensions.trans hfirst)
      rw [withDimensions_withDimensions, List.append_assoc, List.singleton_append] at hrest
      exact hrest

theorem run_writeDimensions :
    (writeDimensions side added : Writing κ α Unit).run.run s =
      (.ok (), s.withDimensions side (extend (s.dimensions side) added)) := by
  unfold writeDimensions extend
  split
  · rw [withDimensions_dimensions]
    rfl
  · have hstarted : (s.withDimensions side (some ((s.dimensions side).getD []))).dimensions side =
        some ((s.dimensions side).getD []) := dimensions_withDimensions
    have hrun := run_forM_append added hstarted
    rw [withDimensions_withDimensions] at hrun
    exact hrun

variable [Kernel κ α] [Scalar α]

theorem run_write_add (assembler : Assembler κ α) (side : Side) (added : List Nat)
    (s : Session κ α) :
    (write assembler (.add side added)).run.run s =
      ((s.perform assembler (.add side added)).2, (s.perform assembler (.add side added)).1) := by
  refine (run_bind_ok rfl).trans ?_
  cases hcheck : checkAddition (s.limit side) 0 (lastOf (s.dimensions side)) added with
  | error e =>
      have hattempt : s.attempt assembler (.add side added) = .error e := by
        rw [attempt, add, addDimensions, hcheck]
        rfl
      rw [perform, hattempt]
      exact run_bind_error rfl
  | ok u =>
      have hattempt : s.attempt assembler (.add side added) =
          .ok (s.withDimensions side (extend (s.dimensions side) added), none) := by
        rw [attempt, add, addDimensions, hcheck]
        rfl
      rw [perform, hattempt]
      exact (run_bind_ok rfl).trans (run_bind_ok run_writeDimensions)

theorem run_write_addRange (assembler : Assembler κ α) (side : Side) (lower upper : Nat)
    (s : Session κ α) :
    (write assembler (.addRange side lower upper)).run.run s =
      ((s.perform assembler (.addRange side lower upper)).2,
        (s.perform assembler (.addRange side lower upper)).1) := by
  refine (run_bind_ok rfl).trans ?_
  rw [perform, attempt, addRange, addDimensionRange]
  dsimp only
  split
  · exact run_bind_error rfl
  · split
    · exact run_bind_error rfl
    · cases (lastOf (s.dimensions side)).filter fun p => lower ≤ p with
      | some p => exact run_bind_error rfl
      | none => exact run_bind_ok run_writeDimensions

theorem run_write_separate (assembler : Assembler κ α) (s : Session κ α) :
    (write assembler .separate).run.run s =
      ((s.perform assembler .separate).2, (s.perform assembler .separate).1) := by
  refine (run_bind_ok rfl).trans ?_
  cases hresult : Separation.separate assembler s.transform s.sources s.targets s.options with
  | error e =>
      have hattempt : s.attempt assembler .separate = .error e := by
        rw [attempt, separate, hresult]
        rfl
      rw [perform, hattempt]
      exact run_bind_error rfl
  | ok result =>
      have hattempt : s.attempt assembler .separate =
          .ok ({ s with
            sources := some result.sourceDimensions
            targets := some result.targetDimensions }, some result.transform) := by
        rw [attempt, separate, hresult]
        rfl
      rw [perform, hattempt]
      exact run_bind_ok rfl

/-- Write by write, an operation answers the same and leaves the same session behind. -/
theorem run_write (assembler : Assembler κ α) (operation : Operation) (s : Session κ α) :
    (write assembler operation).run.run s =
      ((s.perform assembler operation).2, (s.perform assembler operation).1) := by
  -- where an operation can fail, the session is read first and written only after the last check
  cases operation with
  | add side added => exact run_write_add assembler side added s
  | addRange side lower upper => exact run_write_addRange assembler side lower upper s
  | clear => rfl
  | setTrim trim => rfl
  | separate => exact run_write_separate assembler s

end Agreement

end Session
end SeparableTransforms
