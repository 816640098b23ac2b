import SeparableTransforms.DenseMatrix.Inverse
import SeparableTransforms.DenseMatrix.Selection
import SeparableTransforms.DoubleDouble.Literal
import SeparableTransforms.Transform.Assembly

/-!
# Ellipsoids of revolution

Geodetic coordinates are a longitude, a latitude and perhaps a height over an
ellipsoid of revolution.  The kernels of this module convert between them and
Cartesian coordinates for an ellipsoid with a semi-major axis of one, angles
being in radians.  The latitude of a Cartesian point is found by iteration.

`geodeticConversion` is the conversion for an ellipsoid of any size and for
angles in degrees: a linear step, a kernel and a linear step.
-/

namespace SeparableTransforms

/-- An ellipsoid with a semi-major axis of one, and whether points have a height over it. -/
structure Ellipsoid where
  eccentricitySquared : Float
  withHeight : Bool

namespace Ellipsoid

section Geometry

/-- The ellipsoid with the given squared eccentricity, which must lie in `[0, 1)`. -/
def make (eccentricitySquared : Float) (withHeight : Bool) : Except TransformError Ellipsoid :=
  if 0 ≤ eccentricitySquared && eccentricitySquared < 1 then
    .ok ⟨eccentricitySquared, withHeight⟩
  else .error (.illegalArgument (.eccentricity eccentricitySquared))

/-- How many geodetic coordinates a point has. -/
def geodeticDimensions (e : Ellipsoid) : Nat :=
  if e.withHeight then 3 else 2

/-- The Cartesian coordinates of a point, and the rows of their derivative by longitude, latitude
and height. -/
def toCartesian (e : Ellipsoid) (longitude latitude height : Float) :
    List Float × List (List Float) :=
  let e2 := e.eccentricitySquared
  let sinLon := longitude.sin
  let cosLon := longitude.cos
  let sinLat := latitude.sin
  let cosLat := latitude.cos
  -- Radii of curvature: of the prime vertical and of the meridian.
  let nu := 1 / (1 - e2 * sinLat * sinLat).sqrt
  let rho := (1 - e2) * nu * nu * nu
  let r := (nu + height) * cosLat
  let slope := -(rho + height) * sinLat
  ([r * cosLon, r * sinLon, (nu * (1 - e2) + height) * sinLat],
    [[-r * sinLon, slope * cosLon, cosLat * cosLon],
      [r * cosLon, slope * sinLon, cosLat * sinLon],
      [0, (rho + height) * cosLat, sinLat]])

/-- How often a latitude is refined before the iteration is given up. -/
def iterationLimit : Nat := 20

/-- How far the last two latitudes may differ, in radians. -/
def angularTolerance : Float := 1e-14

/-- Refines the latitude of a point at distance `p` from the axis and `z` from the equator, as often
as the fuel allows, and gives the latitude and the height. -/
def refine (e : Ellipsoid) (p z : Float) : Nat → Float → Except TransformError (Float × Float)
  | 0, _ => .error (.noConvergence iterationLimit)
  | fuel + 1, latitude =>
      let e2 := e.eccentricitySquared
      let sinLat := latitude.sin
      let w := (1 - e2 * sinLat * sinLat).sqrt
      let nu := 1 / w
      let height := Binary64.fma p latitude.cos (z * sinLat) - w
      let next := z.atan2 (p * (1 - e2 * nu / (nu + height)))
      if (next - latitude).abs ≤ angularTolerance then .ok (next, height)
      else refine e p z fuel next

/-- The longitude, latitude and height of a Cartesian point. -/
def toGeodetic (e : Ellipsoid) (x y z : Float) : Except TransformError (Float × Float × Float) := do
  let p := Binary64.hypot x y
  let start := z.atan2 (p * (1 - e.eccentricitySquared))
  let (latitude, height) ← e.refine p z iterationLimit start
  return (y.atan2 x, latitude, height)

end Geometry

end Ellipsoid

/-- The two conversions between geodetic and Cartesian coordinates. -/
inductive EllipsoidKernel where
  | toCartesian (ellipsoid : Ellipsoid)
  | toGeodetic (ellipsoid : Ellipsoid)

namespace EllipsoidKernel

section Evaluation

/-- The matrix with the given rows, all of which have three entries. -/
def ofThreeColumns (rows : List (List Float)) : DenseMatrix Float :=
  DenseMatrix.ofFn rows.length 3 fun r c => (rows.getD r []).getD c 0

/-- The Cartesian coordinates of a geodetic point; without a height it lies on the ellipsoid. -/
def evaluateToCartesian (e : Ellipsoid) (point : List Float) (derivative : Bool) :
    Except TransformError (Evaluation Float) :=
  let height := if e.withHeight then point.getD 2 0 else 0
  let (image, rows) := e.toCartesian (point.getD 0 0) (point.getD 1 0) height
  let jacobian := DenseMatrix.takeColumns (ofThreeColumns rows) (List.range e.geodeticDimensions)
  .ok ⟨image, if derivative then some jacobian else none⟩

/-- The geodetic coordinates of a Cartesian point.  Their derivative is the inverse of the
derivative in the other direction, with the row of the height left out if there is none. -/
def evaluateToGeodetic (e : Ellipsoid) (point : List Float) (derivative : Bool) :
    Except TransformError (Evaluation Float) := do
  let (longitude, latitude, height) ←
    e.toGeodetic (point.getD 0 0) (point.getD 1 0) (point.getD 2 0)
  let kept := List.range e.geodeticDimensions
  let image := [longitude, latitude, height].take e.geodeticDimensions
  if derivative then
    let (_, rows) := e.toCartesian longitude latitude height
    let inverse ← TransformError.ofMatrix (ofThreeColumns rows).inverse
    let jacobian ← TransformError.ofMatrix (inverse.selectRows kept)
    return ⟨image, some jacobian⟩
  else return ⟨image, none⟩

end Evaluation

/-- The ellipsoid that a conversion refers to. -/
def ellipsoid : EllipsoidKernel → Ellipsoid
  | toCartesian e => e
  | toGeodetic e => e

/-- The conversion in the other direction. -/
def opposite : EllipsoidKernel → EllipsoidKernel
  | toCartesian e => toGeodetic e
  | toGeodetic e => toCartesian e

instance : Kernel EllipsoidKernel Float where
  name
    | toCartesian _ => "Ellipsoid to Cartesian"
    | toGeodetic _ => "Cartesian to ellipsoid"
  sourceDimensions
    | toCartesian e => e.geodeticDimensions
    | toGeodetic _ => 3
  targetDimensions
    | toCartesian _ => 3
    | toGeodetic e => e.geodeticDimensions
  evaluate
    | toCartesian e => evaluateToCartesian e
    | toGeodetic e => evaluateToGeodetic e
  inverse? k := some k.opposite

end EllipsoidKernel

section Conversion

/-- The matrix that takes degrees to radians and heights to multiples of the semi-major axis. -/
def normalization (semiMajor : Float) (dimensions : Nat) : DenseMatrix Float :=
  DenseMatrix.ofFn (dimensions + 1) (dimensions + 1) fun r c =>
    if r ≠ c then 0
    else if r = dimensions then 1
    else if r < 2 then DoubleDouble.degreesToRadians.value
    else 1 / semiMajor

/-- The matrix that takes multiples of the semi-major axis to lengths. -/
def denormalization (semiMajor : Float) : DenseMatrix Float :=
  DenseMatrix.ofFn 4 4 fun r c => if r ≠ c then 0 else if r = 3 then 1 else semiMajor

/-- The conversion from geodetic coordinates in degrees to Cartesian coordinates. -/
def geodeticConversion (semiMajor semiMinor : Float) (withHeight : Bool) :
    Except TransformError (Transform EllipsoidKernel Float) := do
  unless semiMajor.isFinite && semiMinor.isFinite && 0 < semiMinor && semiMinor ≤ semiMajor do
    throw (.illegalArgument (.axisLengths semiMajor semiMinor))
  let ratio := semiMinor / semiMajor
  let ellipsoid ← Ellipsoid.make (Binary64.fma ratio (-ratio) 1) withHeight
  let assembler : Assembler EllipsoidKernel Float := .standard {}
  let head ← assembler.affine (normalization semiMajor ellipsoid.geodeticDimensions)
  let kernel ← Transform.ofKernel (.toCartesian ellipsoid)
  let normalized ← assembler.concatenate head kernel
  let tail ← assembler.affine (denormalization semiMajor)
  assembler.concatenate normalized tail

end Conversion

end SeparableTransforms
