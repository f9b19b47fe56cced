import NeuralGraph.Kernel.Operator

/-!
# Nodes

A node names an operation on values: variables of the module, or nodes that stand before it in the
same graph.  Nodes are numbered by their place in the graph, variables by their place in the module.
-/

namespace NeuralGraph
set_option autoImplicit false

structure NodeId where
  index : Nat
  deriving DecidableEq, Repr

structure VarId where
  index : Nat
  deriving DecidableEq, Repr

/-- A value that a node can use. -/
inductive Ref where
  | var (id : VarId)
  | node (id : NodeId)
  deriving DecidableEq, Repr

inductive NodeKind (α : Type) where
  | compute (op : Operator α)
  | reshape (dims : List Nat)
  /-- value, expected value -/
  | regression
  | splat (value : α)
  /-- value, destination variable -/
  | save
  /-- An operation that has a name and no meaning here. -/
  | custom (name : String)
  /-- Any number of contributions, added in order. -/
  | gradientSum
  /-- weight variable, gradient, velocity variable -/
  | update (rule : UpdateRule α)
  deriving DecidableEq

namespace NodeKind
variable {α : Type}

/-- Whether the node has a value, and so a type. -/
def hasValue : NodeKind α → Bool
  | save | update _ => false
  | _ => true

/-- Whether the gradient of the node comes from the expected outcome that it is given. -/
def isLoss : NodeKind α → Bool
  | compute .softmax | regression => true
  | _ => false

/-- The number of inputs, if it is fixed. -/
def arity : NodeKind α → Option Nat
  | compute op => some op.arity
  | splat _ => some 0
  | reshape _ => some 1
  | regression | save => some 2
  | update _ => some 3
  | gradientSum | custom _ => none

end NodeKind

structure Node (α : Type) where
  name : String
  kind : NodeKind α
  inputs : List Ref
  /-- The type of the value, if the node has one and it is known. -/
  type : Option (TensorType α)

/-! ## Text -/

def NodeId.text (id : NodeId) : String := s!"n{id.index}"

def VarId.text (id : VarId) : String := s!"v{id.index}"

def Ref.text : Ref → String
  | .var id => id.text
  | .node id => id.text

/-- The name without parameters. -/
def NodeKind.name {α : Type} : NodeKind α → String
  | .compute op => op.name
  | .reshape _ => "reshape"
  | .regression => "regression"
  | .splat _ => "splat"
  | .save => "save"
  | .custom name => name
  | .gradientSum => "gradient_sum"
  | .update _ => "sgd"

/-- The name with the parameters that are shown in graphs. -/
def NodeKind.text (kind : NodeKind Float32) : String :=
  kind.name ++
    match kind with
    | .compute op => op.geometryText
    | .reshape dims => "(" ++ listText dims ++ ")"
    | .splat value => "(" ++ Binary32.text value ++ ")"
    | .update rule => rule.text
    | _ => ""

end NeuralGraph
