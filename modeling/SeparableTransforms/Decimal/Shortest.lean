/-!
# Shortest decimal numerals

A finite float stands for every real number that rounds to it.  Its shortest
numeral is a decimal numeral with as few digits as any in that interval has, and
among those the one nearest to the float itself; an exact tie goes to the larger
one.

**Input.**  A positive float as an integer significand times a power of two.

**Method.**  For one digit, two digits, and so on up to seventeen, the two
numerals of that length on either side of the float are compared with the ends
of the interval.  All comparisons are between natural numbers, so no rounding
takes place.
-/

namespace SeparableTransforms
namespace Decimal

/-- The number `coefficient * 10 ^ exponent`. -/
structure Numeral where
  coefficient : Nat
  exponent : Int
deriving DecidableEq, Repr

/-- The positive reals that round to one float, in quarters of the float's own unit.

The float is `4 * significand` quarters; the interval ends `2` quarters above it and `below`
quarters under it, and holds its ends if `closed`.  A quarter is `2 ^ exponent`. -/
structure Rounding where
  significand : Nat
  exponent : Int
  below : Nat
  closed : Bool

section Interval

/-- The interval of a float given as `m * 2 ^ e`.  The floats under a power of two lie twice as
close as those over it, unless it is the least normal one. -/
def Rounding.ofFloat (m : Nat) (e : Int) : Rounding where
  significand := m
  exponent := e - 2
  below := if m == Nat.pow 2 52 && decide (e > -1074) then 1 else 2
  closed := m % 2 == 0

/-- A number of quarters, scaled so that it compares with `Rounding.scaledGrid`. -/
def Rounding.scaledQuarters (r : Rounding) (step : Int) (quarters : Nat) : Nat :=
  quarters * Nat.pow 2 r.exponent.toNat * Nat.pow 10 (-step).toNat

/-- The numeral `d * 10 ^ step`, scaled so that it compares with `Rounding.scaledQuarters`. -/
def Rounding.scaledGrid (r : Rounding) (step : Int) (d : Nat) : Nat :=
  d * Nat.pow 10 step.toNat * Nat.pow 2 (-r.exponent).toNat

/-- Whether `d * 10 ^ step` rounds to the float. -/
def Rounding.holds (r : Rounding) (step : Int) (d : Nat) : Bool :=
  let x := r.scaledGrid step d
  let lower := r.scaledQuarters step (4 * r.significand - r.below)
  let upper := r.scaledQuarters step (4 * r.significand + 2)
  if r.closed then lower ≤ x && x ≤ upper else lower < x && x < upper

/-- The greatest multiple of `10 ^ step` that does not exceed the float, counted in steps. -/
def Rounding.gridBelow (r : Rounding) (step : Int) : Nat :=
  r.scaledQuarters step (4 * r.significand) / r.scaledGrid step 1

/-- The multiple of `10 ^ step` in the interval that is nearest to the float, if there is one. -/
def Rounding.nearest? (r : Rounding) (step : Int) : Option Numeral :=
  let d := r.gridBelow step
  let v := r.scaledQuarters step (4 * r.significand)
  let down := r.holds step d && d != 0
  let up := r.holds step (d + 1)
  if down && up then
    if v - r.scaledGrid step d < r.scaledGrid step (d + 1) - v then some ⟨d, step⟩
    else some ⟨d + 1, step⟩
  else if down then some ⟨d, step⟩
  else if up then some ⟨d + 1, step⟩
  else none

/-- What is found has the step asked for and rounds to the float. -/
theorem Rounding.holds_of_nearest? {r : Rounding} {step : Int} {n : Numeral}
    (h : r.nearest? step = some n) : n.exponent = step ∧ r.holds step n.coefficient = true := by
  simp only [Rounding.nearest?] at h
  split at h
  · rename_i both
    simp only [Bool.and_eq_true] at both
    split at h <;> cases Option.some.inj h
    · exact ⟨rfl, both.1.1⟩
    · exact ⟨rfl, both.2⟩
  · split at h
    · rename_i down
      simp only [Bool.and_eq_true] at down
      cases Option.some.inj h
      exact ⟨rfl, down.1⟩
    · split at h
      · rename_i up
        cases Option.some.inj h
        exact ⟨rfl, up⟩
      · cases h

/-- The number of decimal digits before the point, negative for leading zeros after it: the float
lies in `[10 ^ (k - 1), 10 ^ k)`.  The guess from the binary length is at most one too small. -/
def Rounding.magnitude (r : Rounding) : Int :=
  let bits : Int := (4 * r.significand).log2 + r.exponent
  let guess := (bits * 30103).fdiv 100000
  if r.gridBelow (guess + 1) = 0 then guess + 1 else guess + 2

end Interval

section Digits

/-- Removes the trailing zeros of the coefficient; the fuel bounds how many. -/
def Numeral.trimmed : Nat → Numeral → Numeral
  | 0, n => n
  | fuel + 1, n =>
      if n.coefficient != 0 && n.coefficient % 10 == 0 then
        Numeral.trimmed fuel ⟨n.coefficient / 10, n.exponent + 1⟩
      else n

/-- The shortest numeral of the float `m * 2 ^ e` with `0 < m < 2 ^ 53`. -/
def shortest (m : Nat) (e : Int) : Numeral :=
  let r := Rounding.ofFloat m e
  let k := r.magnitude
  let found := (List.range 17).findSome? fun n => r.nearest? (k - Int.ofNat (n + 1))
  Numeral.trimmed 17 (found.getD ⟨r.gridBelow (k - 17), k - 17⟩)

end Digits

end Decimal
end SeparableTransforms
