import NeuralGraph.Error

/-!
# Graphs

A graph is a sequence of nodes with different names.  A node can only use variables and nodes that
stand before it.
-/

namespace NeuralGraph
set_option autoImplicit false

structure Graph (α : Type) where
  name : String
  nodes : Array (Node α)
  /-- Whether an activation may take the place of its input. -/
  inPlace : Bool

namespace Graph
variable {α : Type}

def empty (name : String) : Graph α := ⟨name, #[], false⟩

def size (g : Graph α) : Nat := g.nodes.size

def node? (g : Graph α) (id : NodeId) : Option (Node α) := g.nodes[id.index]?

def node (g : Graph α) (id : NodeId) : Except (Error α) (Node α) :=
  match g.node? id with
  | some n => .ok n
  | none => .error (.invalidNode id.text (.absent g.name))

/-- The number of the node with this name. -/
def find? (g : Graph α) (name : String) : Option NodeId :=
  (g.nodes.findIdx? fun (n : Node α) => n.name == name).map NodeId.mk

def hasName (g : Graph α) (name : String) : Bool := (g.find? name).isSome

/-! ## Adding nodes -/

/-- The names that are tried for `base`: itself, then with 1, 2, … after it. -/
def candidates (base : String) (count : Nat) : List String :=
  base :: (List.range count).map fun (i : Nat) => base ++ toString (i + 1)

/-- The first candidate that no node is called.  One of the first `size + 1` is free. -/
def freshName (g : Graph α) (base : String) : String :=
  ((candidates base g.size).find? fun (name : String) => !g.hasName name).getD base

/-- The nodes among the inputs. -/
def nodeInputs (inputs : List Ref) : List NodeId :=
  inputs.filterMap fun (r : Ref) =>
    match r with
    | .node id => some id
    | .var _ => none

/-- The graph with one more node, whose name is made unique. -/
def push (g : Graph α) (name : String) (kind : NodeKind α) (inputs : List Ref)
    (type : Option (TensorType α)) : Except (Error α) (Graph α × NodeId) :=
  let name : String := g.freshName name
  if kind.arity.any fun (n : Nat) => n != inputs.length then
    .error (.invalidNode name (.arity kind (kind.arity.getD 0) inputs.length))
  else
    match (nodeInputs inputs).find? fun (id : NodeId) => Nat.ble g.size id.index with
    | some id => .error (.invalidNode name (.inputToCome id))
    | none => .ok ({ g with nodes := g.nodes.push ⟨name, kind, inputs, type⟩ }, ⟨g.size⟩)

@[simp] theorem empty_nodes (name : String) : (empty name : Graph α).nodes = #[] := rfl

/-- A node is added at the end, under the unique name, and numbered by the former size. -/
theorem push_eq {g g' : Graph α} {name : String} {kind : NodeKind α} {inputs : List Ref}
    {type : Option (TensorType α)} {id : NodeId}
    (h : g.push name kind inputs type = .ok (g', id)) :
    g' = { g with nodes := g.nodes.push ⟨g.freshName name, kind, inputs, type⟩ } ∧
      id = ⟨g.size⟩ := by
  simp only [push] at h
  split at h
  · cases h
  · split at h
    · cases h
    · cases h
      exact ⟨rfl, rfl⟩

end Graph

/-! ## Text -/

def Node.text (n : Node Float32) (id : NodeId) : String :=
  let type : String := (n.type.map TensorType.text).getD "-"
  s!"  {id.text} [{n.name}]: {n.kind.text} <- [{inputs}] :: {type}\n"
where
  inputs : String := ", ".intercalate (n.inputs.map Ref.text)

def Graph.text (g : Graph Float32) : String :=
  let lines : List String :=
    g.nodes.toList.zipIdx.map fun (p : Node Float32 × Nat) => p.1.text ⟨p.2⟩
  s!"=== Function: {g.name} ({g.size} nodes) ===\n" ++ String.join lines

end NeuralGraph
