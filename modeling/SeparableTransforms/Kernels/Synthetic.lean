import SeparableTransforms.Transform.Kernel

/-!
# Synthetic kernels

Kernels that stand in for others when transforms are tried out.  Coordinate `i`
of the image is the coordinate `i mod s` of the point times `i + 1`, plus a
quadratic term that all coordinates share.  A synthetic kernel can be told to
misbehave in each of the ways in which a kernel may: to return a point or a
derivative of the wrong size, to return no derivative, to fail, and to have an
inverse that does not fit.
-/

namespace SeparableTransforms

/-- Which derivative a synthetic kernel returns. -/
inductive SyntheticJacobian where
  | declared
  | missing
  | shaped (rows cols : Nat)

/-- A kernel made up for a purpose. -/
inductive SyntheticKernel where
  | make (name : String) (sources targets : Nat) (curvature : Float) (outputs : Nat)
      (jacobian : SyntheticJacobian) (failure : Option String) (inverse : Option SyntheticKernel)

namespace SyntheticKernel

/-- The image of a point. -/
def image (sources : Nat) (curvature : Float) (outputs : Nat) (point : List Float) : List Float :=
  let sum := point.foldl (fun s x => s + x) 0
  (List.range outputs).map fun i =>
    point.getD (i % sources) 0 * Float.ofNat (i + 1) + curvature * sum * sum

/-- The derivative at a point, in a given shape. -/
def derivative (sources : Nat) (curvature : Float) (point : List Float) (rows cols : Nat) :
    DenseMatrix Float :=
  let sum := point.foldl (fun s x => s + x) 0
  DenseMatrix.ofFn rows cols fun r c =>
    let own := if c = r % sources then Float.ofNat (r + 1) else 0
    own + 2 * curvature * sum

instance : Kernel SyntheticKernel Float where
  name
    | make name .. => name
  sourceDimensions
    | make _ sources .. => sources
  targetDimensions
    | make _ _ targets .. => targets
  evaluate
    | make _ sources targets curvature outputs jacobian failure _, point, wanted =>
        match failure with
        | some message => .error (.illegalState (.reported message))
        | none =>
            let inShape := derivative sources curvature point
            let returned :=
              match wanted, jacobian with
              | true, .declared => some (inShape targets sources)
              | true, .shaped rows cols => some (inShape rows cols)
              | _, _ => none
            .ok ⟨image sources curvature outputs point, returned⟩
  inverse?
    | make _ _ _ _ _ _ _ inverse => inverse

end SyntheticKernel
end SeparableTransforms
