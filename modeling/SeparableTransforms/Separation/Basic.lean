import SeparableTransforms.Separation.Sources

/-!
# Separating a transform

A separation is a transform that does part of the work of another one: it takes
some of the source dimensions and computes some of the target dimensions.

**Input.**  The source dimensions, the target dimensions, or both may be
requested, each as a strictly increasing list.  An empty list requests nothing,
and so does a list of all source dimensions.

**Result.**  With a request for sources the result takes exactly these and
computes the requested targets, or all targets that depend on nothing else.
Without one it computes the requested targets and takes all sources, or, if
trimming is asked for, only those that its first linear step uses.
-/

namespace SeparableTransforms

/-- What to do beyond a request. -/
structure SeparationOptions where
  trimSources : Bool := false
deriving DecidableEq, Repr

/-- A part of a transform, and the dimensions of the whole that it takes and computes. -/
structure Separation (κ α : Type) where
  transform : Transform κ α
  sourceDimensions : List Nat
  targetDimensions : List Nat

namespace Separation

section Requests

/-- Checks the dimensions of a request from position `i` on, given the one before. -/
def checkFrom (side : Side) (limit : Nat) :
    Nat → Option Nat → List Nat → Except TransformError Unit
  | _, _, [] => .ok ()
  | i, previous, d :: rest =>
      if limit ≤ d then .error (.illegalArgument (.requestOutOfRange side i d limit))
      else if previous.any fun p => d ≤ p then
        .error (.illegalArgument (.requestNotIncreasing side i d))
      else checkFrom side limit (i + 1) (some d) rest

/-- Refuses a request that is not strictly increasing or goes beyond the limit. -/
def checkRequest (side : Side) (limit : Nat) (request : Option (List Nat)) :
    Except TransformError Unit :=
  checkFrom side limit 0 none (request.getD [])

/-- A request, with an empty one taken for none. -/
def nonempty (request : Option (List Nat)) : Option (List Nat) :=
  request.filter fun dimensions => !dimensions.isEmpty

end Requests

section Separate

variable {κ α : Type} [Kernel κ α] [Scalar α]

/-- Where the requested targets stand among those that can be computed. -/
def positionsAmong (derived requested : List Nat) : Except TransformError (List Nat) :=
  requested.mapM fun t =>
    if derived.contains t then .ok (derived.idxOf t)
    else .error (.cannotSeparate (.undeterminedTarget t))

/-- The part of a transform that takes the given sources and no others. -/
def bySources (assembler : Assembler κ α) (t : Transform κ α) (sources : List Nat)
    (targets : Option (List Nat)) : Except TransformError (Separation κ α) := do
  let (reduced, derived) ← t.keepSources assembler sources
  if derived.isEmpty then
    throw (.cannotSeparate .nothingDetermined)
  match targets with
  | none => return ⟨reduced, sources, derived⟩
  | some requested =>
      let positions ← positionsAmong derived requested
      let result ← reduced.keepTargets assembler positions
      return ⟨result, sources, requested⟩

/-- The part of a transform that computes the given targets. -/
def byTargets (assembler : Assembler κ α) (t : Transform κ α) (targets : List Nat)
    (options : SeparationOptions) : Except TransformError (Separation κ α) := do
  let reduced ← t.keepTargets assembler targets
  if options.trimSources then
    let (trimmed, kept) ← reduced.trimSources assembler
    return ⟨trimmed, kept, targets⟩
  else return ⟨reduced, List.range t.sourceDimensions, targets⟩

/-- The part of a transform that a request asks for. -/
def separate (assembler : Assembler κ α) (t : Transform κ α)
    (sources targets : Option (List Nat)) (options : SeparationOptions) :
    Except TransformError (Separation κ α) := do
  let sources := nonempty sources
  let targets := nonempty targets
  checkRequest .source t.sourceDimensions sources
  checkRequest .target t.targetDimensions targets
  match sources with
  | some s =>
      if s.length < t.sourceDimensions then bySources assembler t s targets
      else byTargets assembler t (targets.getD (List.range t.targetDimensions)) options
  | none => byTargets assembler t (targets.getD (List.range t.targetDimensions)) options

end Separate

end Separation
end SeparableTransforms
