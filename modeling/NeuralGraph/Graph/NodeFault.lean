import NeuralGraph.Graph.Node

/-!
# Node faults

Why a node cannot be made, found or used.
-/

namespace NeuralGraph
set_option autoImplicit false

/-- The number of dimensions that a gradient rule asks of an operand. -/
inductive RankBound where
  | exactly (rank : Nat)
  | atLeast (rank : Nat)
  deriving DecidableEq, Repr

inductive NodeFault (α : Type) where
  | absent (graph : String)
  | arity (kind : NodeKind α) (expected got : Nat)
  /-- An input is a node that is still to come. -/
  | inputToCome (id : NodeId)
  /-- An input is a node that no graph of this length has. -/
  | inputAbsent (id : NodeId)
  | notLowered (id : NodeId)
  | batchDimension (input : TensorType α)
  | layerRanks
  | layer (input weights bias : TensorType α)
  | convolutionInput (input : TensorType α)
  | convolutionRanks
  | filter (filter bias input : TensorType α) (window : Window)
  | window (window : Window) (input : TensorType α)
  | product (lhs rhs : TensorType α)
  | outputShape (output : TensorType α)
  | slice (slice batch output : TensorType α)
  | reduceScalar
  | poolingInput (input : TensorType α)
  | normalizationInput (input : TensorType α)
  | softmaxInput (input : TensorType α)
  | labels (labels : TensorType α)
  | expected (expected input : TensorType α)
  | operands (lhs rhs : TensorType α)
  | branches
  | reshape (input : TensorType α) (dims : List Nat)
  | permutation (shuffle : List Nat) (input : TensorType α)
  | gather (data positions : TensorType α)
  | convert (op : Conversion) (input output : TensorType α)
  | save (value destination : TensorType α)
  | rank (operand : TensorType α) (bound : RankBound)
  | inversePermutation (shuffle : List Nat)

/-! ## Text -/

def RankBound.text : RankBound → String
  | .exactly rank => s!"rank {rank}"
  | .atLeast rank => s!"rank of at least {rank}"

/-- What a node fault says. -/
def NodeFault.message : NodeFault Float32 → String
  | .absent graph => s!"no such node in function '{graph}'"
  | .arity kind n got => s!"{kind.text} expects {n} inputs, got {got}"
  | .inputToCome id => s!"input {id.text} does not exist yet"
  | .inputAbsent id => s!"input {id.text} does not exist"
  | .notLowered id => s!"{id.text} is used before it is lowered"
  | .batchDimension x => s!"input {x.text} needs a batch dimension"
  | .layerRanks => "expected input [N, ...], weights [K, D], bias [D]"
  | .layer x w b => s!"input {x.text}, weights {w.text} and bias {b.text} do not agree"
  | .convolutionInput x => s!"convolution input {x.text} must be NHWC"
  | .convolutionRanks => "expected input NHWC, filter [D, k, k, C], bias [D]"
  | .filter f b x w =>
    s!"filter {f.text} and bias {b.text} do not fit input {x.text} with {w.text}"
  | .window w x => s!"window {w.text} does not fit input {x.text}"
  | .product a b => s!"cannot multiply {a.text} by {b.text}"
  | .outputShape y => s!"output type {y.text} has the wrong shape"
  | .slice s x y => s!"slice {s.text} does not match the rows of {x.text} (output {y.text})"
  | .reduceScalar => "cannot reduce a scalar"
  | .poolingInput x => s!"pooling input {x.text} must be NHWC"
  | .normalizationInput x => s!"normalization input {x.text} must be NHWC"
  | .softmaxInput x => s!"softmax input {x.text} must be [N, C]"
  | .labels l => s!"labels {l.text} must be index [N, 1]"
  | .expected e x => s!"expected values {e.text} do not match {x.text}"
  | .operands a b => s!"operands {a.text} and {b.text} differ in shape"
  | .branches => "condition and branches must share a shape"
  | .reshape x dims => s!"cannot reshape {x.text} to {listText dims}"
  | .permutation p x => s!"{listText p} is not a permutation of {x.text}"
  | .gather x i => s!"cannot gather {x.text} with {i.text}"
  | .convert .dequantize x _ => s!"cannot dequantize {x.text}"
  | .convert .quantize x y => s!"cannot quantize {x.text} to {y.text}"
  | .convert .rescale x y => s!"cannot rescale {x.text} to {y.text}"
  | .save x d => s!"cannot save {x.text} into a variable of type {d.text}"
  | .rank t bound => s!"operand {t.text} needs {bound.text}"
  | .inversePermutation p => s!"{listText p} is not a permutation"

end NeuralGraph
