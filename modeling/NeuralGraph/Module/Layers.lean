import NeuralGraph.Module.Build

/-!
# Layers

Nodes for each kind of operation.  A layer infers the type of its result from its inputs and refuses
inputs that do not fit.  Layers with parameters make their variables first.
-/

namespace NeuralGraph.Build
set_option autoImplicit false
variable {α : Type} [Scalar α]

/-! ## Layers with parameters -/

/-- A fully connected layer over given parameters: batch `[N, …]`, weights `[K, D]`, bias `[D]`. -/
def denseWith (f : GraphId) (name : String) (input weights bias : Ref) :
    Build α Ref := do
  let x ← typeOf f input
  let w ← typeOf f weights
  let b ← typeOf f bias
  match w.dims, b.dims with
  | [k, d], [d'] =>
    require (Nat.ble 2 x.rank) name .layerRanks
    require (x.rowSize == k && d == d') name (.layer x w b)
    value f name (.compute .dense) [input, weights, bias] (x.withDims [x.rows, d])
  | _, _ => invalid name .layerRanks

/-- A fully connected layer with new parameters: random weights and a small bias. -/
def dense (f : GraphId) (name : String) (input : Ref) (depth : Nat) :
    Build α Ref := do
  let x ← typeOf f input
  require (Nat.ble 2 x.rank) name (.batchDimension x)
  let k : Nat := x.rowSize
  let weights ← newVariable (name ++ ".weights") (.float [k, depth]) .hidden (.xavier k)
  let bias ← newVariable (name ++ ".bias") (.float [depth]) .hidden (.constant 0.1)
  denseWith f name input (.var weights) (.var bias)

/-- The positions of a window along both sides of an image. -/
def windowPositions (name : String) (x : TensorType α) (w : Window) : Build α (Nat × Nat) :=
  match w.positions? (x.dims.getD 1 0), w.positions? (x.dims.getD 2 0) with
  | some h, some v => pure (h, v)
  | _, _ => invalid name (.window w x)

/-- A convolution over given parameters: image, filters `[D, k, k, C]`, bias `[D]`. -/
def convolutionWith (f : GraphId) (name : String) (input filter bias : Ref) (w : Window) :
    Build α Ref := do
  let x ← typeOf f input
  let t ← typeOf f filter
  let b ← typeOf f bias
  match x.dims, t.dims, b.dims with
  | [n, _, _, channels], [depth, rows, columns, channels'], [depth'] =>
    require (rows == w.kernel && columns == w.kernel && channels' == channels && depth' == depth)
      name (.filter t b x w)
    let (h, v) ← windowPositions name x w
    value f name (.compute (.convolution w)) [input, filter, bias] (x.withDims [n, h, v, depth])
  | _, _, _ => invalid name .convolutionRanks

/-- A convolution with new parameters: random filters and a small bias. -/
def convolution (f : GraphId) (name : String) (input : Ref) (depth : Nat) (w : Window) :
    Build α Ref := do
  let x ← typeOf f input
  match x.dims with
  | [_, _, _, channels] =>
    let k : Nat := w.kernel
    let filter ← newVariable (name ++ ".filter") (.float [depth, k, k, channels]) .hidden
      (.xavier (k * k * channels))
    let bias ← newVariable (name ++ ".bias") (.float [depth]) .hidden (.constant 0.1)
    convolutionWith f name input (.var filter) (.var bias) w
  | _ => invalid name (.convolutionInput x)

/-! ## Matrices and batches -/

/-- The dimensions of a matrix product. -/
def productDims (name : String) (a b : TensorType α) : Build α (List Nat) :=
  match a.dims, b.dims with
  | [n, k], [k', m] => if k = k' then pure [n, m] else invalid name (.product a b)
  | _, _ => invalid name (.product a b)

def matMul (f : GraphId) (name : String) (lhs rhs : Ref) : Build α Ref := do
  let a ← typeOf f lhs
  let b ← typeOf f rhs
  let dims ← productDims name a b
  value f name (.compute .matMul) [lhs, rhs] (a.withDims dims)

/-- A matrix product with a result of the given type. -/
def matMulAs (f : GraphId) (name : String) (out : TensorType α) (lhs rhs : Ref) :
    Build α Ref := do
  let a ← typeOf f lhs
  let b ← typeOf f rhs
  let dims ← productDims name a b
  require (out.dims == dims) name (.outputShape out)
  value f name (.compute .matMul) [lhs, rhs] out

/-- A slice added to every row, with a result of the given type. -/
def addToRowsAs (f : GraphId) (name : String) (out : TensorType α) (batch slice : Ref) :
    Build α Ref := do
  let x ← typeOf f batch
  let s ← typeOf f slice
  require (!x.dims.isEmpty && x.dims.tail == s.dims && out.dims == x.dims) name (.slice s x out)
  value f name (.compute .addToRows) [batch, slice] out

def addToRows (f : GraphId) (name : String) (batch slice : Ref) : Build α Ref := do
  let out ← typeOf f batch
  addToRowsAs f name out batch slice

def sumRows (f : GraphId) (name : String) (batch : Ref) : Build α Ref := do
  let x ← typeOf f batch
  require (!x.dims.isEmpty) name .reduceScalar
  value f name (.compute .sumRows) [batch] (x.withDims x.dims.tail)

/-! ## Pooling and normalization -/

def pool (f : GraphId) (name : String) (op : Pooling) (input : Ref) (w : Window) :
    Build α Ref := do
  let x ← typeOf f input
  match x.dims with
  | [n, _, _, channels] =>
    let (h, v) ← windowPositions name x w
    value f name (.compute (.pool op w)) [input] (x.withDims [n, h, v, channels])
  | _ => invalid name (.poolingInput x)

def responseNormalization (f : GraphId) (name : String) (input : Ref)
    (params : ResponseParams α) : Build α Ref := do
  let x ← typeOf f input
  require (x.rank == 4) name (.normalizationInput x)
  value f name (.compute (.responseNormalization params)) [input] x

/-! ## Activations and losses -/

def unary (f : GraphId) (name : String) (op : UnaryOp) (input : Ref) : Build α Ref := do
  let x ← typeOf f input
  value f name (.compute (.unary op)) [input] x

/-- Softmax over scores `[N, C]`, with labels `[N, 1]` for training. -/
def softmax (f : GraphId) (name : String) (input labels : Ref) : Build α Ref := do
  let x ← typeOf f input
  let l ← typeOf f labels
  require (x.rank == 2) name (.softmaxInput x)
  require (l.element == .index && l.dims == [x.rows, 1]) name (.labels l)
  value f name (.compute .softmax) [input, labels] x

/-- The input itself, with expected values for training. -/
def regression (f : GraphId) (name : String) (input expected : Ref) : Build α Ref := do
  let x ← typeOf f input
  let e ← typeOf f expected
  require (x.dims == e.dims) name (.expected e x)
  value f name .regression [input, expected] x

/-! ## Elementwise operations -/

def binary (f : GraphId) (name : String) (op : BinaryOp) (lhs rhs : Ref) : Build α Ref := do
  let a ← typeOf f lhs
  let b ← typeOf f rhs
  require (a.dims == b.dims) name (.operands a b)
  value f name (.compute (.binary op)) [lhs, rhs] a

def select (f : GraphId) (name : String) (condition lhs rhs : Ref) : Build α Ref := do
  let c ← typeOf f condition
  let a ← typeOf f lhs
  let b ← typeOf f rhs
  require (c.dims == a.dims && a.dims == b.dims) name .branches
  value f name (.compute .select) [condition, lhs, rhs] a

/-! ## Rearrangements -/

def reshape (f : GraphId) (name : String) (input : Ref) (dims : List Nat) : Build α Ref := do
  let x ← typeOf f input
  require (x.size == volume dims) name (.reshape x dims)
  value f name (.reshape dims) [input] (x.withDims dims)

/-- Dimension `i` of the result is dimension `shuffle[i]` of the input. -/
def transpose (f : GraphId) (name : String) (input : Ref) (shuffle : List Nat) :
    Build α Ref := do
  let x ← typeOf f input
  require (Kernel.isPermutation x.rank shuffle) name (.permutation shuffle x)
  let dims : List Nat := shuffle.map fun (axis : Nat) => x.dims.getD axis 0
  value f name (.compute (.transpose shuffle)) [input] (x.withDims dims)

/-- The rows of `data` that `positions` names. -/
def gather (f : GraphId) (name : String) (data positions : Ref) : Build α Ref := do
  let x ← typeOf f data
  let i ← typeOf f positions
  require (!x.dims.isEmpty && i.element == .index) name (.gather x i)
  value f name (.compute .gather) [data, positions] (x.withDims (i.dims ++ x.dims.tail))

/-! ## Quantization -/

def quantize (f : GraphId) (name : String) (input : Ref) (out : TensorType α) :
    Build α Ref := do
  let x ← typeOf f input
  require (x.element == .float && out.isQuantized && out.dims == x.dims) name
    (.convert .quantize x out)
  value f name (.compute (.convert .quantize)) [input] out

def dequantize (f : GraphId) (name : String) (input : Ref) : Build α Ref := do
  let x ← typeOf f input
  let out : TensorType α := .float x.dims
  require x.isQuantized name (.convert .dequantize x out)
  value f name (.compute (.convert .dequantize)) [input] out

def rescale (f : GraphId) (name : String) (input : Ref) (out : TensorType α) :
    Build α Ref := do
  let x ← typeOf f input
  require (x.isQuantized && out.isQuantized && out.dims == x.dims) name (.convert .rescale x out)
  value f name (.compute (.convert .rescale)) [input] out

/-! ## Constants and outputs -/

def splat (f : GraphId) (name : String) (type : TensorType α) (x : α) : Build α Ref :=
  value f name (.splat x) [] type

/-- Stores a value in a variable of the same type. -/
def saveTo (f : GraphId) (name : String) (source : Ref) (destination : VarId) :
    Build α NodeId := do
  let x ← typeOf f source
  let v ← ask fun (m : Module α) => m.var destination
  require (x == v.type) name (.save x v.type)
  node f name .save [source, .var destination] none

/-- Stores a value in a new exposed variable of the same name. -/
def save (f : GraphId) (name : String) (source : Ref) : Build α VarId := do
  let x ← typeOf f source
  let destination ← newVariable name x .exposed .untrained
  let _ ← saveTo f name source destination
  return destination

end NeuralGraph.Build
