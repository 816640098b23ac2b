import SeparableTransforms.Binary64.Exact

/-!
# Spacing of floats

The floats of one sign are ordered as their bit patterns are.  The neighbour of
a non-negative finite float that is farther from zero therefore has the next bit
pattern, and the distance to it is the unit in the last place.
-/

namespace SeparableTransforms
namespace Binary64

/-- The distance from `|x|` to the next larger float.  The largest finite float has no larger
finite neighbour and takes the distance to the smaller one. -/
def unitInLastPlace (x : Float) : Float :=
  let a := x.abs
  if x.isNaN then nan
  else if a.isInf then infinity
  else if a == largest then a - Float.ofBits (a.toBits - 1)
  else Float.ofBits (a.toBits + 1) - a

end Binary64
end SeparableTransforms
