import NeuralGraph.Module.Basic

/-!
# Building graphs

`Build` computations change a module and may fail; what they did before they failed stays done.
Here are the steps that all of them are made of: questions, new variables and new nodes.
-/

namespace NeuralGraph
set_option autoImplicit false

/-- Computations that change a module and may fail. -/
abbrev Build (α β : Type) := ExceptT (Error α) (StateM (Module α)) β

namespace Build
variable {α β : Type}

/-- A change that is made only if it succeeds. -/
def attempt (f : Module α → Except (Error α) (Module α × β)) : Build α β :=
  ExceptT.mk fun (m : Module α) =>
    match f m with
    | .ok (m', b) => (.ok b, m')
    | .error e => (.error e, m)

/-- A question that changes nothing. -/
def ask (f : Module α → Except (Error α) β) : Build α β :=
  ExceptT.mk fun (m : Module α) => (f m, m)

/-- Refuses the node called `name`. -/
def invalid (name : String) (fault : NodeFault α) : Build α β :=
  throw (.invalidNode name fault)

/-- Refuses the node called `name` unless the condition holds. -/
def require (condition : Bool) (name : String) (fault : NodeFault α) : Build α Unit :=
  if condition then pure () else invalid name fault

/-- The computation for a graph that has to exist. -/
def within (f : GraphId) (build : Build α β) : Build α β := do
  let _ ← ask fun (m : Module α) => m.graph f
  build

/-- The type of a value as the graph sees it. -/
def typeOf (f : GraphId) (value : Ref) : Build α (TensorType α) :=
  ask fun (m : Module α) => do
    let g ← m.graph f
    m.typeOf g value

/-- The first variable among the inputs that does not exist. -/
def unknownInput? (m : Module α) (inputs : List Ref) : Option VarId :=
  inputs.findSome? fun (r : Ref) =>
    match r with
    | .var id => if (m.var? id).isSome then none else some id
    | .node _ => none

/-- A node as it is given, its variables checked. -/
def node (f : GraphId) (name : String) (kind : NodeKind α) (inputs : List Ref)
    (type : Option (TensorType α)) : Build α NodeId :=
  attempt fun (m : Module α) =>
    match unknownInput? m inputs with
    | some id => .error (.unknownVariable id)
    | none => do
      let g ← m.graph f
      let (g', id) ← g.push name kind inputs type
      .ok (m.putGraph f g', id)

/-- A node with a value. -/
def value (f : GraphId) (name : String) (kind : NodeKind α) (inputs : List Ref)
    (type : TensorType α) : Build α Ref := do
  let id ← node f name kind inputs (some type)
  return .node id

variable [Scalar α]

def newVariable (name : String) (type : TensorType α) (visibility : Visibility)
    (training : Training α) : Build α VarId :=
  attempt fun (m : Module α) => m.declare name type visibility training

end Build
end NeuralGraph
