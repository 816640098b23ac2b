import SeparableTransforms.DenseMatrix.Product
import SeparableTransforms.Transform.Basic

/-!
# Assembling transforms

Code that builds transforms out of others goes through an `Assembler`: three
functions that make a linear transform, a chain and a pass-through transform.
The standard assembler simplifies what it builds, as far as its options allow.

* Neighbouring linear steps are folded into one, with the product of their
  matrices.
* Identity steps are left out; a chain of nothing but identities becomes one
  identity.
* A pass-through of nothing is its inner transform, one around a linear
  transform becomes a larger linear transform, and one around another
  pass-through is merged with it.  This does not depend on the options.

With both options off a chain is built exactly as asked for.
-/

namespace SeparableTransforms

/-- Which simplifications the standard assembler makes in a chain. -/
structure AssemblyOptions where
  foldLinear : Bool := true
  elideIdentity : Bool := true
deriving DecidableEq, Repr

/-- No simplification of chains. -/
def AssemblyOptions.verbatim : AssemblyOptions :=
  ⟨false, false⟩

/-- The ways to build a transform out of a matrix or out of other transforms. -/
structure Assembler (κ α : Type) where
  affine : DenseMatrix α → Except TransformError (Transform κ α)
  concatenate : Transform κ α → Transform κ α → Except TransformError (Transform κ α)
  passThrough : Nat → Transform κ α → Nat → Except TransformError (Transform κ α)

namespace Transform

section Chains

variable {κ α : Type} [Kernel κ α] [Scalar α]

/-- Puts one more step behind the given ones, which are listed from last to first.  Two linear
steps become one if the options say so. -/
def pushStep (options : AssemblyOptions) (stack : List (Transform κ α)) (step : Transform κ α) :
    Except TransformError (List (Transform κ α)) :=
  match options.foldLinear, stack, step with
  | true, linear _ previous :: earlier, linear _ next => do
      let product ← TransformError.ofMatrix (next.multiply previous)
      let folded ← ofMatrix product
      return folded :: earlier
  | _, _, _ => .ok (step :: stack)

/-- The steps of a chain after folding. -/
def foldSteps (options : AssemblyOptions) (steps : List (Transform κ α)) :
    Except TransformError (List (Transform κ α)) :=
  List.reverse <$> steps.foldlM (pushStep options) []

/-- The steps of a chain without the identities, if the options say so. -/
def elideSteps (options : AssemblyOptions) (steps : List (Transform κ α)) :
    List (Transform κ α) :=
  if options.elideIdentity then steps.filter fun s => !s.isIdentity else steps

/-- Two transforms one after the other, simplified as the options say. -/
def concatenateWith (options : AssemblyOptions) (first second : Transform κ α) :
    Except TransformError (Transform κ α) :=
  if first.targetDimensions ≠ second.sourceDimensions then
    .error (.dimensionMismatch .concatenation first.targetDimensions second.sourceDimensions)
  else if !options.foldLinear && !options.elideIdentity then join first second
  else do
    let folded ← foldSteps options (first.steps ++ second.steps)
    match ← joinAll (elideSteps options folded) with
    | some result => return result
    | none => identity first.sourceDimensions

end Chains

section PassThrough

variable {κ α : Type} [Kernel κ α] [Scalar α]

/-- The affine matrix that copies `k` coordinates before and `n` coordinates after those that the
given affine matrix maps. -/
def expand (k : Nat) (m : DenseMatrix α) (n : Nat) : DenseMatrix α :=
  let sources := m.cols - 1
  let targets := m.rows - 1
  DenseMatrix.ofFn (k + targets + n + 1) (k + sources + n + 1) fun r c =>
    if r < k then if c = r then 1 else 0
    else if r < k + targets then
      if c = k + sources + n then m.entry (r - k) sources
      else if k ≤ c ∧ c < k + sources then m.entry (r - k) (c - k)
      else 0
    else if c + targets = r + sources then 1 else 0

/-- A transform with `k` coordinates copied before it and `n` after it, in its simplest form. -/
def passThroughSimplified (k : Nat) (t : Transform κ α) (n : Nat) :
    Except TransformError (Transform κ α) :=
  if k = 0 ∧ n = 0 then .ok t
  else
    match t with
    | linear _ m => ofMatrix (expand k m n)
    | passThrough _ k' inner n' => passThroughSimplified (k + k') inner (n + n')
    | t => .ok (passThrough none k t n)

end PassThrough

end Transform

/-- The assembler that simplifies what it builds, as far as its options allow. -/
def Assembler.standard {κ α : Type} [Kernel κ α] [Scalar α] (options : AssemblyOptions) :
    Assembler κ α where
  affine := Transform.ofMatrix
  concatenate := Transform.concatenateWith options
  passThrough := Transform.passThroughSimplified

/-- All given transforms one after another through an assembler. -/
def Assembler.compose {κ α : Type} (assembler : Assembler κ α) :
    List (Transform κ α) → Except TransformError (Transform κ α)
  | [] => .error (.illegalState .noSteps)
  | first :: rest => rest.foldlM assembler.concatenate first

end SeparableTransforms
