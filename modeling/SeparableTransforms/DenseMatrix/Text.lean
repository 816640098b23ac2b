import SeparableTransforms.Decimal.Text
import SeparableTransforms.DenseMatrix.Basic

/-!
# Text of a matrix

One line for each row: the entries in brackets, in plain decimal notation.
-/

namespace SeparableTransforms
namespace DenseMatrix

/-- The lines of a matrix, each ended by a line break. -/
def text (m : DenseMatrix Float) : String :=
  String.join ((List.range m.rows).map fun r =>
    "[" ++ ", ".intercalate ((m.rowList r).map Decimal.plainText) ++ "]\n")

end DenseMatrix
end SeparableTransforms
