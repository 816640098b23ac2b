import SeparableTransforms.Scalar

/-!
# Double-double numbers

A double-double number is the unevaluated sum of a scalar and a much smaller
error term.  Sums and products of two scalars are exact in this form as long as
nothing overflows, and the four operations on double-double numbers keep about
twice the precision of a scalar.

An operation whose leading part is infinite or `NaN` stops there and returns it
with a zero error, so that the correction steps cannot turn an infinity into
`NaN`.

Over scalars with exact arithmetic every error term is zero and each operation
is the ordinary one.
-/

namespace SeparableTransforms

universe u

/-- The unevaluated sum `value + error`. -/
structure DoubleDouble (α : Type u) where
  value : α
  error : α
deriving Repr

namespace DoubleDouble

section Arithmetic

variable {α : Type u} [Scalar α]

/-- A scalar without an error term. -/
def ofScalar (value : α) : DoubleDouble α :=
  ⟨value, 0⟩

instance : Zero (DoubleDouble α) := ⟨ofScalar 0⟩

instance : One (DoubleDouble α) := ⟨ofScalar 1⟩

instance : Inhabited (DoubleDouble α) := ⟨0⟩

/-- Two numbers are equal if both parts are. -/
instance : BEq (DoubleDouble α) :=
  ⟨fun x y => x.value == y.value && x.error == y.error⟩

/-- The sum of two scalars and its rounding error, in any order of magnitudes. -/
def sum (a b : α) : DoubleDouble α :=
  let value := a + b
  if Scalar.isFinite value then
    let v := value - a
    ⟨value, (a - (value - v)) + (b - v)⟩
  else ofScalar value

/-- The sum of two scalars and its rounding error, if `|b| ≤ |a|`. -/
def quickSum (a b : α) : DoubleDouble α :=
  let value := a + b
  if Scalar.isFinite value then ⟨value, b - (value - a)⟩
  else ofScalar value

/-- The product of two scalars and its rounding error. -/
def product (a b : α) : DoubleDouble α :=
  let value := a * b
  if Scalar.isFinite value then ⟨value, Scalar.fma a b (-value)⟩
  else ofScalar value

/-- Moves as much of the error into the value as it can hold. -/
def normalize (x : DoubleDouble α) : DoubleDouble α :=
  quickSum x.value x.error

/-- Whether both parts are zero. -/
def isZero (x : DoubleDouble α) : Bool :=
  x.value == 0 && x.error == 0

instance : Neg (DoubleDouble α) := ⟨fun x => ⟨-x.value, -x.error⟩⟩

/-- Sum of two double-double numbers. -/
def add (x y : DoubleDouble α) : DoubleDouble α :=
  let s := sum x.value y.value
  if Scalar.isFinite s.value then
    let t := sum x.error y.error
    let s := quickSum s.value (s.error + t.value)
    quickSum s.value (s.error + t.error)
  else s

instance : Add (DoubleDouble α) := ⟨add⟩

instance : Sub (DoubleDouble α) := ⟨fun x y => x + -y⟩

/-- Product of two double-double numbers. -/
def mul (x y : DoubleDouble α) : DoubleDouble α :=
  let p := product x.value y.value
  if Scalar.isFinite p.value then
    let cross := Scalar.fma x.value y.error (x.error * y.value)
    quickSum p.value (p.error + cross)
  else p

instance : Mul (DoubleDouble α) := ⟨mul⟩

/-- Product of a double-double number and a scalar. -/
def scale (x : DoubleDouble α) (b : α) : DoubleDouble α :=
  let p := product x.value b
  if Scalar.isFinite p.value then quickSum p.value (p.error + x.error * b)
  else p

/-- Quotient of two double-double numbers: three digits of a long division in scalars. -/
def div (x y : DoubleDouble α) : DoubleDouble α :=
  let q₁ := x.value / y.value
  if Scalar.isFinite q₁ then
    let r₁ := x - y.scale q₁
    let q₂ := r₁.value / y.value
    let r₂ := r₁ - y.scale q₂
    let q₃ := r₂.value / y.value
    quickSum q₁ q₂ + ofScalar q₃
  else ofScalar q₁

instance : Div (DoubleDouble α) := ⟨div⟩

/-- Adds the product of a coefficient and a coordinate; a zero coefficient adds nothing. -/
def addTerm (sum : DoubleDouble α) (a x : α) : DoubleDouble α :=
  if a == 0 then sum else sum + product a x

end Arithmetic

section Roots

variable {α : Type u} [Radical α]

/-- Square root with one correction step.  A negative number has no root, which over floats is
said by `NaN`. -/
def sqrt (x : DoubleDouble α) : DoubleDouble α :=
  if x.value == 0 then 0
  else if x.value < 0 then ofScalar (Scalar.nan)
  else
    let root := Radical.sqrt x.value
    let residual := (x - product root root).value
    quickSum root (residual / (Scalar.ofNat 2 * root))

/-- Euclidean norm, summed in double-double precision and rounded once at the end. -/
def norm (values : List α) : α :=
  (values.foldl (fun sum v => sum + product v v) (0 : DoubleDouble α)).sqrt.value

end Roots

end DoubleDouble
end SeparableTransforms
