/-!
# Errors of matrix operations

Each constructor is one reason for which an operation on matrices is refused.
`MatrixError.message` is the wording of all of them.
-/

namespace SeparableTransforms

/-- The numbers that an operation on matrices may find to differ. -/
inductive MatrixError.Measure where
  | valueCount
  | innerSize
  | anchor
deriving DecidableEq, Repr

/-- Why an operation on matrices is refused. -/
inductive MatrixError where
  | dimensionMismatch (measure : MatrixError.Measure) (expected actual : Nat)
  | elementOutOfBounds (row col rows cols : Nat)
  | rowOutOfBounds (index rows : Nat)
  | columnOutOfBounds (index cols : Nat)
  | notSquare (rows cols : Nat)
  | notAffine
  | notInvertible
deriving DecidableEq, Repr

namespace MatrixError

/-- The name of a measure in a message. -/
def Measure.label : Measure → String
  | .valueCount => "value count"
  | .innerSize => "multiplication"
  | .anchor => "anchor"

/-- The wording of an error. -/
def message : MatrixError → String
  | .dimensionMismatch measure expected actual =>
      s!"dimension mismatch in {measure.label}: expected {expected}, got {actual}"
  | .elementOutOfBounds row col rows cols =>
      s!"element ({row}, {col}) is outside a {rows}×{cols} matrix"
  | .rowOutOfBounds index rows =>
      s!"row {index} is out of bounds for a matrix of {rows} rows"
  | .columnOutOfBounds index cols =>
      s!"column {index} is out of bounds for a matrix of {cols} columns"
  | .notSquare rows cols => s!"matrix is not square: {rows}×{cols}"
  | .notAffine => "matrix is not affine: last row must be [0, …, 0, 1]"
  | .notInvertible => "matrix is not invertible"

/-- Whether the values of the matrix are to blame, and not the way it was used. -/
def isNumerical : MatrixError → Bool
  | .notInvertible => true
  | _ => false

end MatrixError
end SeparableTransforms
