import NeuralGraph.Gradient.Rules
import NeuralGraph.Graph.Order
import NeuralGraph.Module.Build

/-!
# The training graph

Reverse-mode differentiation of a graph.  The backward set are the nodes that depend on a trained
variable and flow into a saved loss.  They are visited from last to first; each turns the gradient
of its value into gradients for its inputs.  The training graph is the given graph, then these
gradient nodes, then one sum of gradients for each trained variable that is reached, and last one
update for each of them, so that no weight changes while a gradient may still read it.
-/

namespace NeuralGraph
set_option autoImplicit false
variable {α : Type}

namespace Graph

/-- The losses whose value is saved. -/
def savedLosses (g : Graph α) : List NodeId :=
  g.nodes.toList.filterMap fun (n : Node α) =>
    match n.kind, n.inputs with
    | .save, .node source :: _ =>
      if (g.node? source).any fun (s : Node α) => s.kind.isLoss then some source else none
    | _, _ => none

/-- The inputs of a node that gradients flow into. -/
def flows (g : Graph α) (id : NodeId) : List Ref :=
  match g.node? id with
  | some n => (flowPositions n.kind n.inputs.length).filterMap fun (i : Nat) => n.inputs[i]?
  | none => []

/-- The nodes among `order` that depend on a trained variable. -/
def dependents (g : Graph α) (m : Module α) (order : List NodeId) : List NodeId :=
  order.foldl
    (fun (found : List NodeId) (id : NodeId) =>
      let depends : Bool := (g.flows id).any fun (r : Ref) =>
        match r with
        | .var v => m.isTrained v
        | .node source => found.contains source
      if depends then id :: found else found)
    []

/-- The nodes that flow into one of `losses`; `order` lists every node after its inputs. -/
def contributors (g : Graph α) (losses order : List NodeId) : List NodeId :=
  order.reverse.foldl
    (fun (found : List NodeId) (id : NodeId) =>
      if found.contains id then nodeInputs (g.flows id) ++ found else found)
    losses

/-- The nodes that gradients are computed for, in the order in which they are visited. -/
def backwardOrder (g : Graph α) (m : Module α) (order : List NodeId) : List NodeId :=
  let depend : List NodeId := g.dependents m order
  let contribute : List NodeId := g.contributors g.savedLosses order
  order.reverse.filter fun (id : NodeId) => depend.contains id && contribute.contains id

end Graph

/-! ## The backward pass -/

/-- A gradient that was computed for a value. -/
structure Contribution where
  target : Ref
  gradient : Ref
  deriving DecidableEq, Repr

/-- The gradients computed for `target`, in order. -/
def contributionsTo (cs : List Contribution) (target : Ref) : List Ref :=
  (cs.filter fun (c : Contribution) => c.target == target).map fun (c : Contribution) => c.gradient

variable [Scalar α]

/-- The gradient of the value of node `id`: its contributions, added up if there are several. -/
def Node.totalGradient (n : Node α) (m : Module α) (id : NodeId) (cs : List Contribution) :
    Emit α (Option Ref) :=
  if n.kind.isLoss then return none
  else
    match contributionsTo cs (.node id) with
    | [] => return none
    | [g] => return some g
    | parts => do
      let type ← Emit.typeOf m (.node id)
      let total ← Emit.node (n.name ++ ".grad") .gradientSum parts type
      return some total

/-- Visits one node of the backward set. -/
def Node.propagate (n : Node α) (m : Module α) (id : NodeId) (backward : List NodeId)
    (cs : List Contribution) : Emit α (List Contribution) := do
  let total ← n.totalGradient m id cs
  let positions : List Nat := flowPositions n.kind n.inputs.length
  let wants : Nat → Bool := fun (i : Nat) => positions.contains i &&
    match n.inputs[i]? with
    | some (.var v) => m.isTrained v
    | some (.node source) => backward.contains source
    | none => false
  let grads ← n.gradients m id total wants
  return cs ++ grads.filterMap fun (q : InputGradient) =>
    n.inputs[q.position]?.map fun (r : Ref) => ⟨r, q.gradient⟩

/-- Visits the backward set of `forward`; the gradient nodes are added to the graph in the
making. -/
def Graph.backwardPass (forward : Graph α) (m : Module α) (backward : List NodeId) :
    Emit α (List Contribution) :=
  backward.foldlM
    (fun (cs : List Contribution) (id : NodeId) => do
      let n ← forward.node id
      n.propagate m id backward cs)
    []

/-! ## Sums and updates -/

/-- A trained variable with the sum of its gradients. -/
structure WeightGradient where
  weight : VarId
  total : NodeId
  deriving DecidableEq, Repr

/-- One sum for each variable that has gradients, in the order of the variables. -/
def weightSums (m : Module α) (cs : List Contribution) : Emit α (List WeightGradient) :=
  ((List.range m.vars.size).map VarId.mk).filterMapM fun (id : VarId) =>
    match contributionsTo cs (.var id) with
    | [] => return none
    | parts => do
      let v ← m.var id
      let g ← get
      let (g', total) ← g.push (v.name ++ ".grad") .gradientSum parts (some v.type)
      set g'
      return some ⟨id, total⟩

/-- The graph with its gradient nodes and sums, called `….train`, and the sums. -/
def Graph.withGradients (forward : Graph α) (m : Module α) :
    Except (Error α) (Graph α × List WeightGradient) := do
  let order ← forward.evaluationOrder
  if forward.savedLosses.isEmpty then .error (.noLoss forward.name)
  else
    let pass : Emit α (List WeightGradient) := do
      let cs ← forward.backwardPass m (forward.backwardOrder m order)
      weightSums m cs
    let (sums, g) ← pass.run { forward with name := forward.name ++ ".train" }
    .ok (g, sums)

/-! ## The training graph -/

namespace Build

/-- The graph with an update for each weight.  The velocities are variables of the module. -/
def withUpdates (rule : UpdateRule α) : Graph α → List WeightGradient → Build α (Graph α)
  | g, [] => return g
  | g, w :: rest => do
    let v ← ask fun (m : Module α) => m.var w.weight
    let velocity ← attempt fun (m : Module α) =>
      m.findOrDeclare (v.name ++ ".velocity") v.type .hidden .untrained
    let (g', _) ← ask fun _ =>
      g.push (v.name ++ ".sgd") (.update rule) [.var w.weight, .node w.total, .var velocity] none
    withUpdates rule g' rest

/-- The training graph of a graph of the module.  It is not added to the module, but the
velocities it needs are. -/
def trainingGraph (f : GraphId) (rule : UpdateRule α) : Build α (Graph α) := do
  let (g, sums) ← ask fun (m : Module α) => do
    let forward ← m.graph f
    forward.withGradients m
  withUpdates rule g sums

end Build
end NeuralGraph
