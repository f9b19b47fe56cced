import NeuralGraph.Module.Basic

/-!
# Gradient rules

For each kind of node, the nodes that turn the gradient of its value into the gradients of its
inputs.  A loss starts from its inputs instead.  Kinds without a rule refuse.
-/

namespace NeuralGraph
set_option autoImplicit false

/-- Computations that add nodes to a graph and may fail. -/
abbrev Emit (α β : Type) := StateT (Graph α) (Except (Error α)) β

namespace Emit
variable {α : Type}

/-- The type of a value of the graph in the making. -/
def typeOf (m : Module α) (r : Ref) : Emit α (TensorType α) := do
  let g ← get
  m.typeOf g r

def node (name : String) (kind : NodeKind α) (inputs : List Ref) (type : TensorType α) :
    Emit α Ref := do
  let g ← get
  let (g', id) ← g.push name kind inputs (some type)
  set g'
  return .node id

def splat (name : String) (type : TensorType α) (x : α) : Emit α Ref := node name (.splat x) [] type

def binary (m : Module α) (name : String) (op : BinaryOp) (lhs rhs : Ref) : Emit α Ref := do
  let type ← typeOf m lhs
  node name (.compute (.binary op)) [lhs, rhs] type

/-- The type of an operand that must have so many dimensions for the node called `name`. -/
def typeOfRank (m : Module α) (name : String) (r : Ref) (bound : RankBound) :
    Emit α (TensorType α) := do
  let type ← typeOf m r
  let fits : Bool :=
    match bound with
    | .exactly n => type.rank == n
    | .atLeast n => Nat.ble n type.rank
  if fits then return type else throw (.invalidNode name (.rank type bound))

def transposeMatrix (m : Module α) (name : String) (input : Ref) : Emit α Ref := do
  let t ← typeOfRank m name input (.exactly 2)
  node name (.compute (.transpose [1, 0])) [input] (t.withDims t.dims.reverse)

def matMul (m : Module α) (name : String) (lhs rhs : Ref) : Emit α Ref := do
  let a ← typeOfRank m name lhs (.exactly 2)
  let b ← typeOfRank m name rhs (.exactly 2)
  node name (.compute .matMul) [lhs, rhs] (a.withDims [a.rows, b.dims.getD 1 0])

/-- The value in other dimensions, itself if it has them. -/
def reshape (m : Module α) (name : String) (input : Ref) (dims : List Nat) : Emit α Ref := do
  let t ← typeOf m input
  if t.dims = dims then return input else node name (.reshape dims) [input] (t.withDims dims)

def sumRows (m : Module α) (name : String) (input : Ref) : Emit α Ref := do
  let t ← typeOfRank m name input (.atLeast 1)
  node name (.compute .sumRows) [input] (t.withDims t.dims.tail)

end Emit

/-- The inputs that gradients flow into: all of them, less the labels and expected values. -/
def flowPositions {α : Type} (kind : NodeKind α) (count : Nat) : List Nat :=
  if kind.isLoss then [0] else List.range count

/-- Fills the slot of an axis with the place where the axis is listed, if it is in range and not
filled yet. -/
def fillSlot (slots : List (Option Nat)) (entry : Nat × Nat) : Option (List (Option Nat)) :=
  match slots[entry.1]? with
  | some none => some (slots.set entry.1 (some entry.2))
  | _ => none

/-- The shuffle that undoes a shuffle, if every axis occurs in it once. -/
def inverseShuffle? (shuffle : List Nat) : Option (List Nat) := do
  let slots ← shuffle.zipIdx.foldlM fillSlot (List.replicate shuffle.length none)
  some (slots.map fun (slot : Option Nat) => slot.getD 0)

/-- A gradient for the input at a position. -/
structure InputGradient where
  position : Nat
  gradient : Ref
  deriving DecidableEq, Repr

variable {α : Type} [Scalar α]

/-- The gradients of the wanted inputs of an operator, when the gradient of its value is `g`. -/
def Operator.gradients (op : Operator α) (m : Module α) (name : String) (inputs : List Ref)
    (this g : Ref) (wants : Nat → Bool) (refuse : Emit α (List InputGradient)) :
    Emit α (List InputGradient) :=
  let only (position : Nat) (emit : Emit α Ref) : Emit α (List InputGradient) :=
    if wants position then do
      let r ← emit
      return [⟨position, r⟩]
    else return []
  let passed (position : Nat) : Emit α (List InputGradient) := only position (pure g)
  match op, inputs with
  | .dense, [x, w, _] => do
    let t ← Emit.typeOfRank m name x (.atLeast 2)
    let toInput ← only 0 do
      let wt ← Emit.transposeMatrix m (name ++ ".weights_t") w
      let gx ← Emit.matMul m (name ++ ".input_grad") g wt
      Emit.reshape m (name ++ ".input_grad.reshape") gx t.dims
    let toWeights ← only 1 do
      let flat ← Emit.reshape m (name ++ ".input_2d") x [t.rows, t.rowSize]
      let xt ← Emit.transposeMatrix m (name ++ ".input_t") flat
      Emit.matMul m (name ++ ".weights_grad") xt g
    let toBias ← only 2 (Emit.sumRows m (name ++ ".bias_grad") g)
    return toInput ++ toWeights ++ toBias
  | .matMul, [a, b] => do
    let toLhs ← only 0 do
      let bt ← Emit.transposeMatrix m (name ++ ".rhs_t") b
      Emit.matMul m (name ++ ".lhs_grad") g bt
    let toRhs ← only 1 do
      let at_ ← Emit.transposeMatrix m (name ++ ".lhs_t") a
      Emit.matMul m (name ++ ".rhs_grad") at_ g
    return toLhs ++ toRhs
  | .addToRows, [_, _] => do
    let toBatch ← passed 0
    let toSlice ← only 1 (Emit.sumRows m (name ++ ".slice_grad") g)
    return toBatch ++ toSlice
  | .sumRows, [x] =>
    only 0 do
      let t ← Emit.typeOf m x
      let zero ← Emit.splat (name ++ ".zero") t 0
      Emit.node (name ++ ".batch_grad") (.compute .addToRows) [zero, g] t
  | .binary .add, [_, _] => do
    let toLhs ← passed 0
    let toRhs ← passed 1
    return toLhs ++ toRhs
  | .binary .sub, [_, _] => do
    let toLhs ← passed 0
    let toRhs ← only 1 do
      let t ← Emit.typeOf m g
      let zero ← Emit.splat (name ++ ".zero") t 0
      Emit.binary m (name ++ ".rhs_grad") .sub zero g
    return toLhs ++ toRhs
  | .binary .mul, [a, b] => do
    let toLhs ← only 0 (Emit.binary m (name ++ ".lhs_grad") .mul g b)
    let toRhs ← only 1 (Emit.binary m (name ++ ".rhs_grad") .mul g a)
    return toLhs ++ toRhs
  | .unary .relu, [x] =>
    only 0 do
      let t ← Emit.typeOf m x
      Emit.node (name ++ ".grad") (.compute .reluGradient) [this, g] t
  | .unary .sigmoid, [_] =>
    only 0 do
      let t ← Emit.typeOf m this
      let one ← Emit.splat (name ++ ".one") t 1
      let rest ← Emit.binary m (name ++ ".one_minus") .sub one this
      let slope ← Emit.binary m (name ++ ".slope") .mul this rest
      Emit.binary m (name ++ ".grad") .mul g slope
  | .unary .tanh, [_] =>
    only 0 do
      let t ← Emit.typeOf m this
      let one ← Emit.splat (name ++ ".one") t 1
      let square ← Emit.binary m (name ++ ".square") .mul this this
      let slope ← Emit.binary m (name ++ ".slope") .sub one square
      Emit.binary m (name ++ ".grad") .mul g slope
  | .transpose shuffle, [x] =>
    only 0 do
      let t ← Emit.typeOfRank m name x (.exactly shuffle.length)
      match inverseShuffle? shuffle with
      | some inverse => Emit.node (name ++ ".grad") (.compute (.transpose inverse)) [g] t
      | none => throw (.invalidNode name (.inversePermutation shuffle))
  | .convolution w, [x, filter, _] => do
    let toInput ← only 0 do
      let t ← Emit.typeOf m x
      Emit.node (name ++ ".input_grad") (.compute (.convolutionInputGradient w)) [filter, g] t
    let toFilter ← only 1 do
      let t ← Emit.typeOf m filter
      Emit.node (name ++ ".filter_grad") (.compute (.convolutionFilterGradient w)) [x, g] t
    let toBias ← only 2 do
      let t ← Emit.typeOfRank m name g (.exactly 4)
      let depth : Nat := t.dims.getD 3 0
      let flat ← Emit.reshape m (name ++ ".grad_2d") g [t.size / max depth 1, depth]
      Emit.sumRows m (name ++ ".bias_grad") flat
    return toInput ++ toFilter ++ toBias
  | .pool .max w, [x] =>
    only 0 do
      let t ← Emit.typeOf m x
      Emit.node (name ++ ".grad") (.compute (.maxPoolGradient w)) [x, g] t
  | .pool .average w, [x] =>
    only 0 do
      let t ← Emit.typeOf m x
      Emit.node (name ++ ".grad") (.compute (.averagePoolGradient w)) [g] t
  | .responseNormalization p, [x] =>
    only 0 do
      let t ← Emit.typeOf m x
      Emit.node (name ++ ".grad") (.compute (.responseNormalizationGradient p)) [x, this, g] t
  | _, _ => refuse

/-- The gradients of the wanted inputs of node `id`, when the gradient of its value is `gradient`;
a loss does not need one. -/
def Node.gradients (n : Node α) (m : Module α) (id : NodeId) (gradient : Option Ref)
    (wants : Nat → Bool) : Emit α (List InputGradient) :=
  let this : Ref := .node id
  let refuse : Emit α (List InputGradient) := throw (.noGradient n.kind n.name)
  match n.kind, n.inputs with
  | .compute .softmax, [x, labels] => do
    let t ← Emit.typeOf m x
    let g ← Emit.node (n.name ++ ".grad") (.compute .softmaxGradient) [this, labels] t
    return [⟨0, g⟩]
  | .regression, [x, expected] => do
    let g ← Emit.binary m (n.name ++ ".grad") .sub x expected
    return [⟨0, g⟩]
  | kind, inputs =>
    match gradient with
    | none => refuse
    | some g =>
      match kind, inputs with
      | .compute op, _ => op.gradients m n.name inputs this g wants refuse
      | .reshape _, [x] =>
        if wants 0 then do
          let t ← Emit.typeOf m x
          let gx ← Emit.reshape m (n.name ++ ".grad") g t.dims
          return [⟨0, gx⟩]
        else return []
      | _, _ => refuse

end NeuralGraph
