import SeparableTransforms.Decimal.Shortest

/-!
# Decimal text of floats

Three ways to write a float in decimal digits.

* `plainText` writes the shortest numeral of the float without an exponent.
* `signedScientificText` writes the shortest numeral with one digit before the
  point, an exponent and always a sign.
* `fixedText?` writes the exact value, rounded to a given number of places.

The first two read back as the float they were written from.  The third rounds a
half to the even neighbour and writes no sign in front of a zero.
-/

namespace SeparableTransforms
namespace Decimal

open Float.Model.UnpackedFloat (Sign)

section Digits

/-- The digits of a numeral with the decimal point put in, and no exponent. -/
def Numeral.positional (n : Numeral) : String :=
  let digits := n.coefficient.repr
  let shift := n.exponent.toNat
  let places := (-n.exponent).toNat
  if places = 0 then digits ++ "".pushn '0' shift
  else if places < digits.length then
    String.ofList (digits.toList.take (digits.length - places)) ++ "." ++
      String.ofList (digits.toList.drop (digits.length - places))
  else "0." ++ "".pushn '0' (places - digits.length) ++ digits

/-- The digits of a numeral with one of them before the point, and the exponent. -/
def Numeral.scientific (n : Numeral) : String :=
  let digits := n.coefficient.repr.toList
  let exponent := n.exponent + (digits.length - 1 : Nat)
  let fraction := digits.drop 1
  String.ofList (digits.take 1) ++ (if fraction.isEmpty then "" else "." ++ String.ofList fraction) ++
    "e" ++ (if exponent < 0 then "-" else "") ++ exponent.natAbs.repr

end Digits

section Values

/-- The sign of a negative value. -/
def minus : Sign → String
  | .negative => "-"
  | .positive => ""

/-- The shortest text that reads back as the float, never with an exponent. -/
def plainText (x : Float) : String :=
  match x.toModel.unpack with
  | .notANumber => "NaN"
  | .infinity s => minus s ++ "inf"
  | .zero s => minus s ++ "0"
  | .finite s m e _ => minus s ++ (shortest m e).positional

/-- The sign of a value, also of a positive one. -/
def plusOrMinus : Sign → String
  | .negative => "-"
  | .positive => "+"

/-- The shortest text that reads back as the float, with a sign and an exponent. -/
def signedScientificText (x : Float) : String :=
  match x.toModel.unpack with
  | .notANumber => "NaN"
  | .infinity s => plusOrMinus s ++ "inf"
  | .zero s => plusOrMinus s ++ "0e0"
  | .finite s m e _ => plusOrMinus s ++ (shortest m e).scientific

end Values

section Fixed

/-- The integer nearest to `numerator / denominator`; a half goes to the even neighbour. -/
def nearestEven (numerator denominator : Nat) : Nat :=
  let q := numerator / denominator
  let r := numerator % denominator
  if 2 * r < denominator then q
  else if denominator < 2 * r then q + 1
  else q + q % 2

/-- A rounded quotient is at most half a unit away from the quotient. -/
theorem nearestEven_near (n d : Nat) (hd : 0 < d) :
    2 * n ≤ 2 * (nearestEven n d * d) + d ∧ 2 * (nearestEven n d * d) ≤ 2 * n + d := by
  have hn : n / d * d + n % d = n := by
    rw [Nat.mul_comm]
    exact Nat.div_add_mod n d
  have hr : n % d < d := Nat.mod_lt n hd
  have hnext : (n / d + 1) * d = n / d * d + d := Nat.succ_mul (n / d) d
  unfold nearestEven
  simp only
  split
  · omega
  · split
    · omega
    · rcases Nat.mod_two_eq_zero_or_one (n / d) with h | h
      · rw [h, Nat.add_zero]
        omega
      · rw [h]
        omega

/-- A quotient halfway between two integers is rounded to the even one. -/
theorem nearestEven_even (n d : Nat) (h : 2 * (n % d) = d) : nearestEven n d % 2 = 0 := by
  have h₁ : ¬2 * (n % d) < d := by omega
  have h₂ : ¬d < 2 * (n % d) := by omega
  simp only [nearestEven, h₁, h₂, if_false]
  omega

/-- The value `m * 2 ^ e` in units of `10 ^ -places`, rounded. -/
def inPlaces (places m : Nat) (e : Int) : Nat :=
  nearestEven (m * Nat.pow 2 e.toNat * Nat.pow 10 places) (Nat.pow 2 (-e).toNat)

/-- An integer number of units of `10 ^ -places`, with all the places written. -/
def placesText (places units : Nat) : String :=
  let whole := (units / Nat.pow 10 places).repr
  let fraction := (units % Nat.pow 10 places).repr
  if places = 0 then whole
  else whole ++ "." ++ "".pushn '0' (places - fraction.length) ++ fraction

/-- A finite float with exactly the given number of places; `none` for the other floats. -/
def fixedText? (places : Nat) (x : Float) : Option String :=
  match x.toModel.unpack with
  | .zero _ => some (placesText places 0)
  | .finite s m e _ =>
      let units := inPlaces places m e
      some ((if units = 0 then "" else minus s) ++ placesText places units)
  | _ => none

end Fixed

end Decimal
end SeparableTransforms
