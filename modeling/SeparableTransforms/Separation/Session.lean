import SeparableTransforms.Separation.Basic

/-!
# Separation sessions

A session collects a request for one transform piece by piece.  Each addition
must continue the list of its side: above the last dimension in it and below the
number of dimensions of the transform.  A successful separation replaces both
lists by the dimensions that it uses.

The operations are functions that give a new session or an error.
`Session.perform` runs one of them as a step of a longer conversation, in which
the session of before goes on after an error.
-/

namespace SeparableTransforms

/-- A request under construction. -/
structure Session (κ α : Type) where
  transform : Transform κ α
  sources : Option (List Nat)
  targets : Option (List Nat)
  options : SeparationOptions

namespace Session

section Additions

/-- Checks additional dimensions from position `i` on, given the last dimension before them. -/
def checkAddition (limit : Nat) : Nat → Option Nat → List Nat → Except TransformError Unit
  | _, _, [] => .ok ()
  | i, previous, d :: rest =>
      if limit ≤ d then .error (.illegalArgument (.additionOutOfRange i d limit))
      else
        match previous.filter fun p => d ≤ p with
        | some p => .error (.illegalArgument (.additionNotGreater i d p))
        | none => checkAddition limit (i + 1) (some d) rest

/-- The last dimension of a list under construction. -/
def lastOf (dimensions : Option (List Nat)) : Option Nat :=
  dimensions.bind List.getLast?

/-- A list with more dimensions behind it; adding none does not start a list. -/
def extend (dimensions : Option (List Nat)) (added : List Nat) : Option (List Nat) :=
  if added.isEmpty then dimensions else some (dimensions.getD [] ++ added)

/-- Adds dimensions to a list. -/
def addDimensions (dimensions : Option (List Nat)) (added : List Nat) (limit : Nat) :
    Except TransformError (Option (List Nat)) := do
  checkAddition limit 0 (lastOf dimensions) added
  return extend dimensions added

/-- Adds the dimensions from `lower` up to but not including `upper` to a list. -/
def addDimensionRange (dimensions : Option (List Nat)) (lower upper limit : Nat) :
    Except TransformError (Option (List Nat)) :=
  if limit < upper then .error (.illegalArgument (.rangeBeyondLimit upper limit))
  else if upper < lower then .error (.illegalArgument (.rangeReversed lower upper))
  else
    match (lastOf dimensions).filter fun p => lower ≤ p with
    | some p => .error (.illegalArgument (.rangeNotGreater lower p))
    | none => .ok (extend dimensions (List.range' lower (upper - lower)))

end Additions

section Operations

variable {κ α : Type}

/-- A session without a request. -/
def start (t : Transform κ α) (options : SeparationOptions) : Session κ α :=
  ⟨t, none, none, options⟩

/-- The list of one side. -/
def dimensions (s : Session κ α) : Side → Option (List Nat)
  | .source => s.sources
  | .target => s.targets

/-- The list of one side, or the error that it has not been specified. -/
def specified (s : Session κ α) (side : Side) : Except TransformError (List Nat) :=
  match s.dimensions side with
  | some dimensions => .ok dimensions
  | none => .error (.illegalState (.unspecifiedDimensions side))

/-- The session with another list on one side. -/
def withDimensions (s : Session κ α) (side : Side) (dimensions : Option (List Nat)) :
    Session κ α :=
  match side with
  | .source => { s with sources := dimensions }
  | .target => { s with targets := dimensions }

/-- The session without a request. -/
def clear (s : Session κ α) : Session κ α :=
  { s with sources := none, targets := none }

/-- The session with trimming turned on or off. -/
def setTrim (s : Session κ α) (trim : Bool) : Session κ α :=
  { s with options := { s.options with trimSources := trim } }

variable [Kernel κ α]

/-- How many dimensions the transform has on one side. -/
def limit (s : Session κ α) : Side → Nat
  | .source => s.transform.sourceDimensions
  | .target => s.transform.targetDimensions

/-- Adds dimensions to the request. -/
def add (s : Session κ α) (side : Side) (added : List Nat) :
    Except TransformError (Session κ α) :=
  s.withDimensions side <$> addDimensions (s.dimensions side) added (s.limit side)

/-- Adds a range of dimensions to the request. -/
def addRange (s : Session κ α) (side : Side) (lower upper : Nat) :
    Except TransformError (Session κ α) :=
  s.withDimensions side <$> addDimensionRange (s.dimensions side) lower upper (s.limit side)

variable [Scalar α]

/-- Separates the transform as requested so far. -/
def separate (s : Session κ α) (assembler : Assembler κ α) :
    Except TransformError (Session κ α × Transform κ α) := do
  let result ← Separation.separate assembler s.transform s.sources s.targets s.options
  return ({ s with
    sources := some result.sourceDimensions
    targets := some result.targetDimensions }, result.transform)

end Operations

section Conversation

/-- What can be asked of a session. -/
inductive Operation where
  | add (side : Side) (dimensions : List Nat)
  | addRange (side : Side) (lower upper : Nat)
  | clear
  | setTrim (trim : Bool)
  | separate
deriving DecidableEq, Repr

variable {κ α : Type} [Kernel κ α] [Scalar α]

/-- The session after an operation, and the transform that the operation gives, if any. -/
def attempt (assembler : Assembler κ α) (s : Session κ α) :
    Operation → Except TransformError (Session κ α × Option (Transform κ α))
  | .add side dimensions => (fun next => (next, none)) <$> s.add side dimensions
  | .addRange side lower upper => (fun next => (next, none)) <$> s.addRange side lower upper
  | .clear => .ok (s.clear, none)
  | .setTrim trim => .ok (s.setTrim trim, none)
  | .separate => (fun result => (result.1, some result.2)) <$> s.separate assembler

/-- Performs an operation: the session that goes on, and what the operation answers. -/
def perform (assembler : Assembler κ α) (s : Session κ α) (operation : Operation) :
    Session κ α × Except TransformError (Option (Transform κ α)) :=
  match s.attempt assembler operation with
  | .ok (next, answer) => (next, .ok answer)
  | .error e => (s, .error e)

/-- The session after a sequence of operations. -/
def performAll (assembler : Assembler κ α) (s : Session κ α) (operations : List Operation) :
    Session κ α :=
  operations.foldl (fun current operation => (current.perform assembler operation).1) s

end Conversation

end Session
end SeparableTransforms
