import NeuralGraph.Kernel.Elementwise
import NeuralGraph.Kernel.Product
import NeuralGraph.Kernel.Rows
import NeuralGraph.Kernel.Axes
import NeuralGraph.Kernel.Convolution
import NeuralGraph.Kernel.Pooling
import NeuralGraph.Kernel.Softmax
import NeuralGraph.Kernel.ResponseNormalization
import NeuralGraph.Kernel.Descent

/-!
# Operators

The operations that a node of a graph asks for and an instruction of a program carries out: one
result from a fixed number of operands.  `Operator.apply` is their meaning.
-/

namespace NeuralGraph
set_option autoImplicit false

/-- Changes of the element kind.  The numbers stay; how they are stored is up to the result. -/
inductive Conversion where
  | quantize
  | dequantize
  | rescale
  deriving DecidableEq, Repr

/-- Operands in order are noted where the name does not tell them. -/
inductive Operator (α : Type) where
  | unary (op : UnaryOp)
  | binary (op : BinaryOp)
  /-- condition, where it holds, where it does not -/
  | select
  | matMul
  /-- batch, weights, bias -/
  | dense
  /-- batch, slice -/
  | addToRows
  | sumRows
  /-- image, filters, bias -/
  | convolution (window : Window)
  | pool (op : Pooling) (window : Window)
  /-- scores, labels -/
  | softmax
  /-- data, positions -/
  | gather
  | transpose (shuffle : List Nat)
  | convert (op : Conversion)
  | responseNormalization (params : ResponseParams α)
  /-- output, gradient of the output -/
  | reluGradient
  /-- output, labels -/
  | softmaxGradient
  /-- filters, gradient of the output -/
  | convolutionInputGradient (window : Window)
  /-- image, gradient of the output -/
  | convolutionFilterGradient (window : Window)
  /-- image, gradient of the output -/
  | maxPoolGradient (window : Window)
  /-- gradient of the output -/
  | averagePoolGradient (window : Window)
  /-- image, output, gradient of the output -/
  | responseNormalizationGradient (params : ResponseParams α)
  deriving DecidableEq

namespace Operator
variable {α : Type}

/-- The number of operands. -/
def arity : Operator α → Nat
  | unary _ | sumRows | pool _ _ | transpose _ | convert _ | responseNormalization _
  | averagePoolGradient _ => 1
  | binary _ | matMul | addToRows | softmax | gather | reluGradient | softmaxGradient
  | convolutionInputGradient _ | convolutionFilterGradient _ | maxPoolGradient _ => 2
  | select | dense | convolution _ | responseNormalizationGradient _ => 3

/-- The elements of a result that is to have the dimensions `dims`. -/
def compute [Scalar α] (op : Operator α) (dims : List Nat) (operands : List (PlacedArray α)) :
    Kernel α (DenseArray α) :=
  match op, operands with
  | unary f, [x] => .ok (Kernel.unary f x.array)
  | binary f, [x, y] => Kernel.binary f x.array y.array
  | select, [c, x, y] => Kernel.select c.array x.array y.array
  | matMul, [x, y] => Kernel.matMul x.array y.array
  | dense, [x, w, b] => Kernel.dense x.array w.array b.array
  | addToRows, [x, s] => Kernel.addToRows x.array s.array
  | sumRows, [x] => Kernel.sumRows x.layout.firstAxisOrder x.array
  | convolution w, [x, f, b] => Kernel.convolution x.array f.array b.array w
  | pool f w, [x] => Kernel.pool f x.array w
  | softmax, [x, _] => Kernel.softmax x.layout.lastAxisOrder x.array
  | gather, [x, i] => Kernel.gather x.array i.array
  | transpose p, [x] => Kernel.transpose x.array p
  | convert _, [x] => .ok x.array
  | responseNormalization p, [x] => Kernel.responseNormalization p x.array
  | reluGradient, [y, g] => Kernel.reluGradient y.array g.array
  | softmaxGradient, [y, l] => Kernel.softmaxGradient y.array l.array
  | convolutionInputGradient w, [f, g] => Kernel.convolutionInputGradient dims f.array g.array w
  | convolutionFilterGradient w, [x, g] => Kernel.convolutionFilterGradient x.array dims g.array w
  | maxPoolGradient w, [x, g] => Kernel.maxPoolGradient x.array g.array w
  | averagePoolGradient w, [g] => Kernel.averagePoolGradient dims g.array w
  | responseNormalizationGradient p, [x, y, g] =>
    Kernel.responseNormalizationGradient p x.array y.array g.array
  | _, _ => .error .operandCount

/-- What an operator builds whose result can have other dimensions than its operands and still be
empty. -/
def built? : Operator α → Option BuiltArray
  | convolution _ => some .convolved
  | pool _ _ => some .pooled
  | gather => some .gathered
  | convolutionInputGradient _ => some .imageGradient
  | convolutionFilterGradient _ => some .filterGradient
  | averagePoolGradient _ => some .poolingGradient
  | _ => none

/-- Where a result of the dimensions `dims` lies. -/
def layout (op : Operator α) (dims : List Nat) (operands : List (PlacedArray α)) : Layout :=
  match op, operands with
  | unary _, [x] | convert _, [x] | addToRows, [x, _] | softmax, [x, _]
  | softmaxGradient, [x, _] => x.layout
  | binary _, xs | select, xs | reluGradient, xs => .combined dims (xs.map PlacedArray.layout)
  | matMul, [x, y] => .product dims x.layout y.layout
  | dense, [x, w, _] => .product dims (.rowMajor [x.array.rows, x.array.rowSize]) w.layout
  | transpose p, [x] => (x.layout.permuted p).standardized dims
  | responseNormalization _, [x] => x.layout.standardized dims
  | _, _ => .rowMajor dims

/-- The result of an operator that is to have the dimensions `dims`. -/
def apply [Scalar α] (op : Operator α) (dims : List Nat) (operands : List (PlacedArray α)) :
    Kernel α (PlacedArray α) := do
  let a ← op.compute dims operands
  match op.built? with
  | some what =>
    if addressable a.dims then .ok ⟨a, op.layout a.dims operands⟩
    else .error (.unaddressable what)
  | none => .ok ⟨a, op.layout a.dims operands⟩

end Operator

/-! ## Text -/

def UnaryOp.text : UnaryOp → String
  | .relu => "relu"
  | .sigmoid => "sigmoid"
  | .tanh => "tanh"

def BinaryOp.text : BinaryOp → String
  | .add => "add"
  | .sub => "sub"
  | .mul => "mul"
  | .div => "div"
  | .max => "max"
  | .min => "min"

def Pooling.text : Pooling → String
  | .max => "pool_max"
  | .average => "pool_avg"

def Conversion.text : Conversion → String
  | .quantize => "quantize"
  | .dequantize => "dequantize"
  | .rescale => "rescale_quantized"

/-- The name without parameters. -/
def Operator.name {α : Type} : Operator α → String
  | .unary op => op.text
  | .binary op => op.text
  | .select => "select"
  | .matMul => "matmul"
  | .dense => "fully_connected"
  | .addToRows => "batched_add"
  | .sumRows => "batched_reduce_add"
  | .convolution _ => "convolution"
  | .pool op _ => op.text
  | .softmax => "softmax"
  | .gather => "gather"
  | .transpose _ => "transpose"
  | .convert op => op.text
  | .responseNormalization _ => "local_response_normalization"
  | .reluGradient => "relu_grad"
  | .softmaxGradient => "softmax_grad"
  | .convolutionInputGradient _ => "convolution_input_grad"
  | .convolutionFilterGradient _ => "convolution_filter_grad"
  | .maxPoolGradient _ => "pool_max_grad"
  | .averagePoolGradient _ => "pool_avg_grad"
  | .responseNormalizationGradient _ => "local_response_normalization_grad"

/-- The window or the shuffle of an operator that has one, in parentheses. -/
def Operator.geometryText {α : Type} : Operator α → String
  | .convolution w | .pool _ w | .convolutionInputGradient w | .convolutionFilterGradient w
  | .maxPoolGradient w | .averagePoolGradient w => "(" ++ w.text ++ ")"
  | .transpose shuffle => "(" ++ listText shuffle ++ ")"
  | _ => ""

/-- The parameters of a local response normalization, in parentheses. -/
def ResponseParams.text (p : ResponseParams Float32) : String :=
  s!"(half_window={p.halfWindow}, alpha={Binary32.text p.alpha}, beta={Binary32.text p.beta}, "
    ++ s!"k={Binary32.text p.k})"

/-- The parameters of a descent step, in parentheses. -/
def UpdateRule.text (u : UpdateRule Float32) : String :=
  s!"(lr={Binary32.text u.learningRate}, momentum={Binary32.text u.momentum}, "
    ++ s!"l2={Binary32.text u.decay})"

end NeuralGraph
