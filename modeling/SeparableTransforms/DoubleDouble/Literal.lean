import SeparableTransforms.Decimal.Text
import SeparableTransforms.DoubleDouble.Basic

/-!
# Decimal constants as double-double numbers

A decimal constant such as `0.1` is not a float.  For the few constants that
turn up in unit conversions, the difference between the decimal and its nearest
float is tabulated, so that the constant can be taken over with its error term.
-/

namespace SeparableTransforms
namespace DoubleDouble

/-- Floats nearest to well-known decimals, each with what is missing to the decimal, in increasing
order. -/
def wellKnownValues : List (Float × Float) :=
  [ (Float.ofBits 0x3eb0c6f7a0b5ed8d, Float.ofBits 0x3b4b5a63f9a49c2c),
    (Float.ofBits 0x3ee4f8b588e368f1, Float.ofBits 0xbb8ee78183f91e64),
    (Float.ofBits 0x3f1a36e2eb1c432d, Float.ofBits 0xbbb6a161e4f765fe),
    (Float.ofBits 0x3f50624dd2f1a9fc, Float.ofBits 0xbbd89374bc6a7efa),
    (Float.ofBits 0x3f847ae147ae147b, Float.ofBits 0xbc0eb851eb851eb8),
    (Float.ofBits 0x3fb999999999999a, Float.ofBits 0xbc5999999999999a),
    (Float.ofBits 0x3fd381d7dbf487fd, Float.ofBits 0xbc71b71758e21965),
    (Float.ofBits 0x3feccccccccccccd, Float.ofBits 0xbc7999999999999a) ]

/-- What is missing from a float to the well-known decimal it stands for; zero for other floats.
A negative float stands for the negated decimal. -/
def literalError (x : Float) : Float :=
  match wellKnownValues.find? (fun known => known.1 == x.abs) with
  | some known => if x < 0 then -known.2 else known.2
  | none => 0

/-- The decimal constant that a float stands for. -/
def ofLiteral (x : Float) : DoubleDouble Float :=
  ⟨x, literalError x⟩

/-- The factor `π / 180`. -/
def degreesToRadians : DoubleDouble Float :=
  ⟨Float.ofBits 0x3f91df46a2529d39, Float.ofBits 0x3c15c1d8becdd291⟩

/-- The value, and the error in parentheses. -/
def text (x : DoubleDouble Float) : String :=
  Decimal.plainText x.value ++ " (" ++ Decimal.signedScientificText x.error ++ ")"

end DoubleDouble
end SeparableTransforms
