import SeparableTransforms.Decimal.Text
import SeparableTransforms.DenseMatrix.Error

/-!
# Errors of transforms

An error says what kind of mistake was made and gives the cause.  The kinds are
few, because callers decide by them; the causes are the single places where
something is refused.  `TransformError.message` is the wording of all of them.

A request that is well formed but asks for something that does not exist is
*infeasible*: a transform that cannot be separated as asked, or one that has no
inverse.  Every other misuse is a *precondition* that was not met, and what only
the values of a computation bring about is *numerical*.
-/

namespace SeparableTransforms

/-- The two sides of a transform. -/
inductive Side where
  | source
  | target
deriving DecidableEq, Repr

/-- The numbers of dimensions that may be found to differ. -/
inductive TransformError.Measure where
  | point
  | kernelOutput
  | jacobianRows
  | jacobianColumns
  | packedCoordinates
  | concatenation
deriving DecidableEq, Repr

/-- Why an argument is refused. -/
inductive TransformError.Argument where
  | matrixWithoutSource
  | kernelWithoutSource (name : String)
  | eccentricity (squared : Float)
  | axisLengths (semiMajor semiMinor : Float)
  | requestOutOfRange (side : Side) (position dimension limit : Nat)
  | requestNotIncreasing (side : Side) (position dimension : Nat)
  | additionOutOfRange (position dimension limit : Nat)
  | additionNotGreater (position dimension previous : Nat)
  | rangeBeyondLimit (upper limit : Nat)
  | rangeReversed (lower upper : Nat)
  | rangeNotGreater (lower previous : Nat)
deriving DecidableEq

/-- Why something cannot be done at the time it is asked for. -/
inductive TransformError.State where
  | noDerivative
  | noSteps
  | unspecifiedDimensions (side : Side)
  | reported (message : String)
deriving DecidableEq, Repr

/-- What stands in the way of a separation. -/
inductive TransformError.Obstacle where
  | nothingDetermined
  | undeterminedTarget (dimension : Nat)
  | stepWithoutOutput (step : Nat)
  | kernelTargets (name : String) (targets : List Nat)
  | kernelSources (name : String) (dimensions : Nat) (sources : List Nat)
deriving DecidableEq, Repr

/-- Why a transform has no inverse. -/
inductive TransformError.NoInverse where
  | rectangular (sources targets : Nat)
  | kernel (name : String)
deriving DecidableEq, Repr

/-- Why an operation on transforms is refused. -/
inductive TransformError where
  | dimensionMismatch (measure : TransformError.Measure) (expected actual : Nat)
  | illegalArgument (cause : TransformError.Argument)
  | illegalState (cause : TransformError.State)
  | cannotSeparate (cause : TransformError.Obstacle)
  | noninvertible (cause : TransformError.NoInverse)
  | noConvergence (iterations : Nat)
  | matrix (error : MatrixError)
deriving DecidableEq

/-- What a caller can do about an error. -/
inductive ErrorClass where
  | precondition
  | infeasible
  | numerical
deriving DecidableEq, Repr

namespace TransformError

section Wording

/-- A list of dimensions in a message. -/
def listText (dimensions : List Nat) : String :=
  "[" ++ ", ".intercalate (dimensions.map Nat.repr) ++ "]"

/-- The name of a side in a message. -/
def sideLabel : Side → String
  | .source => "source"
  | .target => "target"

/-- The name of a measure in a message. -/
def Measure.label : Measure → String
  | .point => "point"
  | .kernelOutput => "non-linear output"
  | .jacobianRows => "non-linear jacobian rows"
  | .jacobianColumns => "non-linear jacobian columns"
  | .packedCoordinates => "packed coordinates"
  | .concatenation => "concatenation"

/-- The wording of a refused argument. -/
def Argument.text : Argument → String
  | .matrixWithoutSource => "matrix must have at least one source dimension"
  | .kernelWithoutSource name => s!"\"{name}\" must have at least one source dimension"
  | .eccentricity squared =>
      s!"eccentricity_squared = {Decimal.plainText squared} must be in [0, 1)"
  | .axisLengths a b =>
      s!"axis lengths ({Decimal.plainText a}, {Decimal.plainText b}) must satisfy " ++
        "0 < semi_minor <= semi_major"
  | .requestOutOfRange side i d limit =>
      s!"{sideLabel side} dimensions[{i}] = {d} is out of range [0, {limit})"
  | .requestNotIncreasing side i d =>
      s!"{sideLabel side} dimensions[{i}] = {d} is not greater than the previous dimension"
  | .additionOutOfRange i d limit => s!"dimensions[{i}] = {d} is out of range [0, {limit})"
  | .additionNotGreater i d previous => s!"dimensions[{i}] = {d} must be greater than {previous}"
  | .rangeBeyondLimit upper limit =>
      s!"upper = {upper} is greater than the number of dimensions {limit}"
  | .rangeReversed lower upper => s!"lower = {lower} is greater than upper = {upper}"
  | .rangeNotGreater lower previous => s!"lower = {lower} must be greater than {previous}"

/-- The wording of a refusal at the wrong time. -/
def State.text : State → String
  | .noDerivative => "transform did not return a derivative"
  | .noSteps => "no step to concatenate"
  | .unspecifiedDimensions side => s!"{sideLabel side} dimensions are not specified"
  | .reported message => message

/-- The wording of an obstacle to a separation. -/
def Obstacle.text : Obstacle → String
  | .nothingDetermined => "no target dimension depends only on the requested source dimensions"
  | .undeterminedTarget t =>
      s!"target dimension {t} depends on source dimensions that were not requested"
  | .stepWithoutOutput i =>
      s!"no output of step {i} depends only on the requested source dimensions"
  | .kernelTargets name targets =>
      s!"non-linear transform \"{name}\" cannot be reduced to target dimensions {listText targets}"
  | .kernelSources name n sources =>
      s!"non-linear transform \"{name}\" needs all of its {n} source dimensions, " ++
        s!"got {listText sources}"

/-- The wording of a missing inverse. -/
def NoInverse.text : NoInverse → String
  | .rectangular s t => s!"affine map from {s} to {t} dimensions"
  | .kernel name => s!"\"{name}\" has no inverse"

/-- The wording of an error. -/
def message : TransformError → String
  | .dimensionMismatch measure expected actual =>
      s!"dimension mismatch in {measure.label}: expected {expected}, got {actual}"
  | .illegalArgument cause => "illegal argument: " ++ cause.text
  | .illegalState cause => "illegal state: " ++ cause.text
  | .cannotSeparate cause => "cannot separate transform: " ++ cause.text
  | .noninvertible cause => "transform is not invertible: " ++ cause.text
  | .noConvergence n => s!"no convergence after {n} iterations"
  | .matrix e => e.message

end Wording

/-- The class of an error. -/
def errorClass : TransformError → ErrorClass
  | .dimensionMismatch .. | .illegalArgument _ | .illegalState _ => .precondition
  | .cannotSeparate _ | .noninvertible _ => .infeasible
  | .noConvergence _ => .numerical
  | .matrix e => if e.isNumerical then .numerical else .precondition

/-- The outcome of a matrix operation inside an operation on transforms. -/
def ofMatrix {β : Type} (outcome : Except MatrixError β) : Except TransformError β :=
  outcome.mapError TransformError.matrix

end TransformError
end SeparableTransforms
