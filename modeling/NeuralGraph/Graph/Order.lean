import NeuralGraph.Graph.Basic

/-!
# The order of a graph

Who uses which node, and `evaluationOrder`, an order in which every node comes after its inputs.  It
is found from the inputs alone: of the nodes whose inputs have all been computed, the first comes
next.
-/

namespace NeuralGraph.Graph
set_option autoImplicit false
variable {α : Type}

/-! ## Uses -/

/-- The nodes that the nodes use, each as often as it is used. -/
def uses (g : Graph α) : List NodeId :=
  g.nodes.toList.flatMap fun (n : Node α) => nodeInputs n.inputs

/-- How often nodes use a node. -/
def fanOut (g : Graph α) (id : NodeId) : Nat := g.uses.count id

def fanOuts (g : Graph α) : List Nat :=
  (List.range g.size).map fun (i : Nat) => g.fanOut ⟨i⟩

/-- The numbers of the nodes that use node `u`, each as often as it does. -/
def consumers (g : Graph α) (u : Nat) : List Nat :=
  g.nodes.toList.zipIdx.flatMap fun (p : Node α × Nat) =>
    List.replicate ((nodeInputs p.1.inputs).count ⟨u⟩) p.2

/-! ## Order -/

/-- A number put into an increasing list. -/
def insertOrdered (n : Nat) : List Nat → List Nat
  | [] => [n]
  | m :: ms => if n < m then n :: m :: ms else if n = m then m :: ms else m :: insertOrdered n ms

/-- Nodes that can be computed, in increasing order, and for each node how many inputs it still
waits for. -/
structure Agenda where
  ready : List Nat
  waiting : Array Nat

/-- One input of node `v` has been computed. -/
def Agenda.arrive (a : Agenda) (v : Nat) : Agenda :=
  let left : Nat := a.waiting.getD v 0 - 1
  { ready := if left = 0 then insertOrdered v a.ready else a.ready
    waiting := a.waiting.setIfInBounds v left }

/-- At most `fuel` nodes in the order in which they become ready, the least number first. -/
def drain (users : Nat → List Nat) : Nat → Agenda → List Nat
  | 0, _ => []
  | fuel + 1, a =>
    match a.ready with
    | [] => []
    | u :: rest => u :: drain users fuel ((users u).foldl Agenda.arrive { a with ready := rest })

/-- The agenda before any node is computed. -/
def agenda (g : Graph α) : Agenda :=
  let waiting : Array Nat := g.nodes.map fun (n : Node α) => (nodeInputs n.inputs).length
  { ready := (List.range g.size).filter fun (i : Nat) => waiting.getD i 0 == 0
    waiting := waiting }

/-- An input that no node of the graph is, with the node that has it. -/
def danglingInput? (g : Graph α) : Option (Node α × NodeId) :=
  g.nodes.toList.findSome? fun (n : Node α) =>
    ((nodeInputs n.inputs).find? fun (id : NodeId) => Nat.ble g.size id.index).map
      fun (id : NodeId) => (n, id)

/-- An order in which every node comes after its inputs. -/
def evaluationOrder (g : Graph α) : Except (Error α) (List NodeId) :=
  match g.danglingInput? with
  | some (n, id) => .error (.invalidNode n.name (.inputAbsent id))
  | none =>
    let order : List Nat := drain g.consumers g.size g.agenda
    if order.length = g.size then .ok (order.map NodeId.mk) else .error (.cyclic g.name)

end NeuralGraph.Graph
