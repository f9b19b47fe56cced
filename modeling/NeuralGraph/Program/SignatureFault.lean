import NeuralGraph.Program.Instruction

/-!
# Signature faults

Why the operands of an instruction do not suit its kind.  Types are listed as the instruction names
them: the destination, then the sources.
-/

namespace NeuralGraph
set_option autoImplicit false

inductive SignatureFault (α : Type) where
  | count (expected got : Nat)
  | direction (position : Nat) (expected got : Direction)
  | dangling (position : Nat) (value : Value)
  | shapes (types : List (TensorType α))
  | copy (destination source : TensorType α)
  | notImage (type : TensorType α)
  | updateElements
  | product (destination lhs rhs : TensorType α)
  | layer (destination input weights bias : TensorType α)
  | addToRows (batch slice : TensorType α)
  | reduce (destination batch : TensorType α)
  | convolutionRanks (input filter : TensorType α)
  | filter (filter input : TensorType α) (window : Window)
  | convolutionOutput (output input filter : TensorType α)
  | bias (bias filter : TensorType α)
  | pooled (output input : TensorType α)
  | pooledGradient (gradient input : TensorType α)
  | softmax (scores labels : TensorType α)
  | gather (destination data positions : TensorType α)
  | transpose (destination source : TensorType α) (shuffle : List Nat)
  | reshape (destination source : TensorType α)
  | convert (op : Conversion) (destination source : TensorType α)

/-! ## Text -/

/-- What a conversion is called in messages. -/
def Conversion.verb : Conversion → String
  | .quantize => "quantize"
  | .dequantize => "dequantize"
  | .rescale => "rescale"

/-- What a signature fault says. -/
def SignatureFault.message : SignatureFault Float32 → String
  | .count expected got => s!"expected {expected} operands, got {got}"
  | .direction position expected got =>
    s!"operand {position} must be {expected.text}, got {got.text}"
  | .dangling position value => s!"operand {position} ({value.text}) is dangling"
  | .shapes types =>
    "operand shapes differ: " ++ ", ".intercalate (types.map TensorType.text)
  | .copy d s => s!"cannot copy {s.text} into {d.text}"
  | .notImage t => s!"{t.text} must be NHWC"
  | .updateElements => "sgd operates on float operands"
  | .product d a b => s!"{d.text} = {a.text} x {b.text} is not a matrix product"
  | .layer d x w b =>
    s!"fully connected {d.text} <- {x.text}, weights {w.text}, bias {b.text} disagree"
  | .addToRows x s => s!"cannot add slice {s.text} to the rows of {x.text}"
  | .reduce d x => s!"cannot reduce {x.text} into {d.text}"
  | .convolutionRanks x f =>
    s!"convolution needs NHWC input and [D, k, k, C] filter, got {x.text} and {f.text}"
  | .filter f x w => s!"filter {f.text} does not fit input {x.text} with {w.text}"
  | .convolutionOutput y x f =>
    s!"output {y.text} does not match input {x.text} and filter {f.text}"
  | .bias b f => s!"bias {b.text} does not fit {f.text}"
  | .pooled y x => s!"pooled output {y.text} does not match input {x.text}"
  | .pooledGradient g x => s!"output gradient {g.text} does not match input {x.text}"
  | .softmax x l => s!"softmax over {x.text} needs index labels [N, 1], got {l.text}"
  | .gather d x i => s!"gather of {x.text} by {i.text} cannot produce {d.text}"
  | .transpose d s p => s!"{d.text} is not {s.text} transposed by {listText p}"
  | .reshape d s => s!"cannot reshape {s.text} into {d.text}"
  | .convert op d s => s!"cannot {op.verb} {s.text} into {d.text}"

end NeuralGraph
