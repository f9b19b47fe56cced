import NeuralGraph.Layout
import NeuralGraph.Window

/-!
# Kernel faults

Kernels are functions from arrays to an array that refuse operands they have no answer for.  A fault
names the reason with the dimensions and values it rests on.
-/

namespace NeuralGraph
set_option autoImplicit false

/-- What an operand that has to be a matrix is for. -/
inductive MatrixRole where
  | lhs
  | rhs
  | weights
  deriving DecidableEq, Repr

/-- What an operand that has to have four dimensions is for. -/
inductive ImageRole where
  | convolutionInput
  | convolutionFilter
  | poolingInput
  | normalizationInput
  deriving DecidableEq, Repr

/-- A result whose dimensions may be more than an array can have. -/
inductive BuiltArray where
  | gathered
  | convolved
  | patchMatrix
  | imageGradient
  | filterGradient
  | pooled
  | poolingGradient
  deriving DecidableEq, Repr

/-- Why a kernel has no result. -/
inductive KernelFault (α : Type) where
  | shapes (lhs rhs : List Nat)
  | notMatrix (role : MatrixRole) (dims : List Nat)
  | product (lhs rhs : List Nat)
  | flatten (dims : List Nat) (rows columns : Nat)
  | layer (input weights bias : List Nat)
  | slice (slice batch : List Nat)
  | reduceScalar
  | permutation (shuffle dims : List Nat)
  | reshape (source target : List Nat)
  | gatherScalar
  | index (value : α) (bound : Nat)
  | notImage (role : ImageRole) (dims : List Nat)
  | filter (filter input : List Nat) (window : Window)
  | window (window : Window) (input : List Nat)
  | convolutionGradient (got expected : List Nat)
  | poolingGradient (got expected : List Nat)
  | bias (bias : List Nat) (depth : Nat)
  /-- The product is stored by columns, so it is not the row-major image that is wanted. -/
  | columnMajor
  /-- No array has the dimensions of the result. -/
  | unaddressable (what : BuiltArray)
  | softmaxInput
  | softmaxOutput
  | labels (labels rows : Nat)
  | normalizationShapes (input output gradient : List Nat)
  | updateShapes (weight gradient velocity : List Nat)
  /-- The number of operands is not the one the operation takes. -/
  | operandCount
  | result (shape : List Nat) (location : String) (type : TensorType α)

/-- Computations on scalars `α` that may end in a kernel fault. -/
abbrev Kernel (α β : Type) := Except (KernelFault α) β

/-! ## Text -/

def MatrixRole.text : MatrixRole → String
  | .lhs => "lhs"
  | .rhs => "rhs"
  | .weights => "weights"

def ImageRole.text : ImageRole → String
  | .convolutionInput => "convolution input"
  | .convolutionFilter => "convolution filter"
  | .poolingInput => "pooling input"
  | .normalizationInput => "normalization input"

/-- How a shape that an array does not have is reported. -/
def incompatibleShape : String := "ShapeError/IncompatibleShape: incompatible shapes"

/-- What is reported when no array has the dimensions of a result. -/
def BuiltArray.text : BuiltArray → String
  | .gathered => s!"failed to build gather output: {overflowText}"
  | .convolved => s!"failed to build convolution output: {incompatibleShape}"
  | .patchMatrix => s!"failed to build im2col matrix: {overflowText}"
  | .imageGradient => s!"failed to build image: {overflowText}"
  | .filterGradient => s!"filter gradient reshape failed: {incompatibleShape}"
  | .pooled => s!"failed to create pooled output: {overflowText}"
  | .poolingGradient => s!"failed to create input gradient: {overflowText}"

/-- How a storage order that an array does not have is reported. -/
def incompatibleLayout : String := "ShapeError/IncompatibleLayout: incompatible memory layout"

/-- What a kernel fault says. -/
def KernelFault.message : KernelFault Float32 → String
  | .shapes lhs rhs => s!"shape mismatch: {listText lhs} vs {listText rhs}"
  | .notMatrix role dims => s!"{role.text} must be 2D, got {listText dims}: {incompatibleShape}"
  | .product a b => s!"cannot multiply {listText a} by {listText b}"
  | .flatten dims rows columns =>
    s!"cannot flatten {listText dims} to {listText [rows, columns]}: {incompatibleShape}"
  | .layer x w b =>
    s!"fully connected input {listText x}, weights {listText w} "
      ++ s!"and bias {listText b} disagree"
  | .slice s batch => s!"slice {listText s} does not match rows of {listText batch}"
  | .reduceScalar => "cannot reduce a scalar"
  | .permutation shuffle dims => s!"{listText shuffle} is not a permutation of {listText dims}"
  | .reshape source target =>
    s!"cannot reshape {listText source} to {listText target}: {incompatibleShape}"
  | .gatherScalar => "cannot gather from a scalar"
  | .index value bound => s!"index {Binary32.text value} out of range 0..{bound}"
  | .notImage role dims => s!"{role.text} must be 4D, got {listText dims}"
  | .filter f x w =>
    s!"filter {listText f} does not fit input {listText x} with {w.text}"
  | .window w x => s!"window {w.text} does not fit input {listText x}"
  | .convolutionGradient got expected =>
    s!"output gradient {listText got} does not match {listText expected}"
  | .poolingGradient got expected =>
    s!"output gradient {listText got} does not match pooled shape {listText expected}"
  | .bias b depth => s!"bias {listText b} does not match depth {depth}"
  | .columnMajor => s!"failed to build convolution output: {incompatibleLayout}"
  | .unaddressable what => what.text
  | .softmaxInput => s!"softmax input must be 2D: {incompatibleShape}"
  | .softmaxOutput => s!"softmax output must be 2D: {incompatibleShape}"
  | .labels count rows => s!"{count} labels for {rows} rows"
  | .normalizationShapes input output gradient =>
    s!"input {listText input}, output {listText output} and gradient {listText gradient} differ"
  | .updateShapes weight gradient velocity =>
    s!"weight {listText weight}, gradient {listText gradient} "
      ++ s!"and velocity {listText velocity} differ in shape"
  | .operandCount => "operand count does not match the kind"
  | .result shape location type =>
    s!"result of shape {listText shape} does not fit '{location}' of type {type.text}"

end NeuralGraph
