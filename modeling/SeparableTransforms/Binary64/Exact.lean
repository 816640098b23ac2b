/-!
# Exact intermediate results on binary floats

A finite `Float` is a signed integer times a power of two, so sums and products
of floats can be formed without rounding and be rounded once at the end.  This
module does so for `a * b + c` and for `√(x² + y²)`, and names the constants of
the format.

The computation is on unpacked floats, the same ones that the arithmetic of
`Float` itself is defined on, so an exact intermediate result and a rounded one
can be compared term by term.
-/

namespace SeparableTransforms
namespace Binary64

open Float.Model

/-- The value that is not a number. -/
def nan : Float := Float.ofBits 0x7ff8000000000000

/-- Positive infinity. -/
def infinity : Float := Float.ofBits 0x7ff0000000000000

/-- The largest finite value. -/
def largest : Float := Float.ofBits 0x7fefffffffffffff

/-- Distance from one to the next larger value. -/
def epsilon : Float := Float.ofBits 0x3cb0000000000000

section Unpacked

/-- The product of two unpacked floats, not rounded. -/
def exactProduct : UnpackedFloat → UnpackedFloat → UnpackedFloat
  | .finite s₁ m₁ e₁ h₁, .finite s₂ m₂ e₂ h₂ =>
      .finite (s₁ * s₂) (m₁ * m₂) (e₁ + e₂) (Nat.mul_pos h₁ h₂)
  | a, b => UnpackedFloat.mul Format.binary64 a b

/-- Rounds a finite value with too many digits; keeps the other values. -/
def roundExact : UnpackedFloat → UnpackedFloat
  | .finite s m e _ => UnpackedFloat.round Format.binary64 s m e
  | a => a

/-- The sum of an exact value and a float, rounded once. -/
def addExact (a c : UnpackedFloat) : UnpackedFloat :=
  match c with
  | .zero s =>
      match a with
      | .finite .. => roundExact a
      | _ => UnpackedFloat.add Format.binary64 a (.zero s)
  | c => UnpackedFloat.add Format.binary64 a c

/-- The square of a finite value as an integer times a power of two. -/
def squared : UnpackedFloat → Nat × Int
  | .finite _ m e _ => (m * m, 2 * e)
  | _ => (0, 0)

/-- The sum of two non-negative values, each an integer times a power of two. -/
def addDyadic (a b : Nat × Int) : Nat × Int :=
  let e := min a.2 b.2
  (a.1 <<< (a.2 - e).toNat + b.1 <<< (b.2 - e).toNat, e)

end Unpacked

/-- Fused multiply-add: `a * b + c`, rounded once, to nearest and ties to even. -/
def fma (a b c : Float) : Float :=
  .ofModel (pack (addExact (exactProduct a.toModel.unpack b.toModel.unpack) c.toModel.unpack))

/-- Length of the hypotenuse with legs `x` and `y`, rounded once.  An infinite leg wins over
`NaN`. -/
def hypot (x y : Float) : Float :=
  if x.isInf || y.isInf then infinity
  else if x.isNaN || y.isNaN then nan
  else
    let sum := addDyadic (squared x.toModel.unpack) (squared y.toModel.unpack)
    if h : sum.1 = 0 then 0
    else
      .ofModel (pack (UnpackedFloat.sqrt Format.binary64
        (.finite .positive sum.1 sum.2 (Nat.pos_of_ne_zero h))))

end Binary64
end SeparableTransforms
