import SeparableTransforms.Binary64.Spacing
import SeparableTransforms.DenseMatrix.Coefficient
import SeparableTransforms.DenseMatrix.Determinant
import SeparableTransforms.DenseMatrix.Inverse
import SeparableTransforms.DenseMatrix.Product
import SeparableTransforms.DenseMatrix.Selection
import SeparableTransforms.DenseMatrix.Text
import SeparableTransforms.DenseMatrix.UniformScale
import SeparableTransforms.DoubleDouble.Literal
import SeparableTransforms.Kernels.Ellipsoid
import SeparableTransforms.Kernels.Synthetic
import SeparableTransforms.Persistence.Descriptor
import SeparableTransforms.Persistence.Options
import SeparableTransforms.Proofs.DenseMatrix.BlockDiagonal
import SeparableTransforms.Proofs.DenseMatrix.Dependencies
import SeparableTransforms.Proofs.DenseMatrix.ExactInverse
import SeparableTransforms.Proofs.DenseMatrix.ExactScale
import SeparableTransforms.Proofs.DenseMatrix.ScaledPermutations
import SeparableTransforms.Proofs.DenseMatrix.Selections
import SeparableTransforms.Proofs.DoubleDouble.Norms
import SeparableTransforms.Proofs.DoubleDouble.OperandOrder
import SeparableTransforms.Proofs.DoubleDouble.SpecialValues
import SeparableTransforms.Proofs.Kernels.Ellipsoid
import SeparableTransforms.Proofs.Persistence.Descriptors
import SeparableTransforms.Proofs.Separation.Collapsing
import SeparableTransforms.Proofs.Separation.Conversations
import SeparableTransforms.Proofs.Separation.Derivatives
import SeparableTransforms.Proofs.Separation.FoldedSources
import SeparableTransforms.Proofs.Separation.Folding
import SeparableTransforms.Proofs.Separation.Kernels
import SeparableTransforms.Proofs.Separation.Outcomes
import SeparableTransforms.Proofs.Separation.Ranges
import SeparableTransforms.Proofs.Separation.Repetition
import SeparableTransforms.Proofs.Separation.Resemblance
import SeparableTransforms.Proofs.Separation.Separability
import SeparableTransforms.Proofs.Separation.Settling
import SeparableTransforms.Proofs.Separation.SourceJets
import SeparableTransforms.Proofs.Separation.TargetJets
import SeparableTransforms.Proofs.Separation.TargetRequests
import SeparableTransforms.Proofs.Separation.Trimming
import SeparableTransforms.Proofs.Transform.Bounds
import SeparableTransforms.Proofs.Transform.CollapsedInverse
import SeparableTransforms.Proofs.Transform.Concatenation
import SeparableTransforms.Proofs.Transform.Descriptors
import SeparableTransforms.Proofs.Transform.ExactDerivatives
import SeparableTransforms.Proofs.Transform.ExactFolding
import SeparableTransforms.Proofs.Transform.Flattening
import SeparableTransforms.Proofs.Transform.Grouping
import SeparableTransforms.Proofs.Transform.KernelCalls
import SeparableTransforms.Proofs.Transform.LinearChains
import SeparableTransforms.Proofs.Transform.PackedPoints
import SeparableTransforms.Separation.Session
import SeparableTransforms.Transform.Evaluation
import SeparableTransforms.Transform.Inverse
