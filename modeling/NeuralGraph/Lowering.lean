import NeuralGraph.Graph.Order
import NeuralGraph.Module.Basic
import NeuralGraph.Program.Basic

/-!
# Lowering

From a graph to a program.  Each variable has one location in the weight store, made when it is
first needed and kept from then on; each node with a value has an activation.  In an in-place graph
an activation function writes over its input if nothing else uses it.  What was added to the weight
store stays there even if a later node cannot be lowered.
-/

namespace NeuralGraph
set_option autoImplicit false

/-- Storage for variables, with the location of each variable that has one. -/
structure WeightStorage (α : Type) where
  arena : Arena α
  homes : List (VarId × LocationId)

namespace WeightStorage
variable {α : Type}

def empty : WeightStorage α := ⟨.empty, []⟩

/-- The location of a variable. -/
def home? (s : WeightStorage α) (id : VarId) : Option LocationId := s.homes.lookup id

/-- The location of a variable, made from its initial value if there is none. -/
def allocate [Scalar α] (s : WeightStorage α) (id : VarId) (v : Variable α)
    (mutability : Mutability) :
    Except (Error α) (WeightStorage α × LocationId) :=
  match s.home? id with
  | some l => .ok (s, l)
  | none => do
    let (arena, l) ← s.arena.createHolding v.name v.type mutability v.visibility v.initial
    .ok (⟨arena, s.homes ++ [(id, l)]⟩, l)

end WeightStorage

/-- The variables that a node stores into. -/
def Node.storesInto {α : Type} (n : Node α) : List VarId :=
  match n.kind, n.inputs with
  | .save, [_, .var v] => [v]
  | .update _, [w, _, v] => [w, v].filterMap fun (r : Ref) =>
    match r with
    | .var id => some id
    | .node _ => none
  | _, _ => []

def Graph.storesInto {α : Type} (g : Graph α) : List VarId :=
  g.nodes.toList.flatMap Node.storesInto

/-- A program in the making: the store it uses and the value of every reference seen so far. -/
structure Lowering (α : Type) where
  program : Program α
  store : WeightStorage α
  values : List (Ref × Value)

/-- What lowering takes from its surroundings. -/
structure LoweringContext (α : Type) where
  module : Module α
  graph : Graph α
  /-- The variables that some graph stores into. -/
  stored : List VarId

/-- Computations that extend a program and may fail. -/
abbrev Lower (α β : Type) := ExceptT (Error α) (StateM (Lowering α)) β

namespace Lower
variable {α β : Type}

/-- A change that is made only if it succeeds. -/
def attempt (f : Lowering α → Except (Error α) (Lowering α × β)) : Lower α β :=
  ExceptT.mk fun (s : Lowering α) =>
    match f s with
    | .ok (s', b) => (.ok b, s')
    | .error e => (.error e, s)

variable [Scalar α]

/-- The value of a reference. -/
def operand (c : LoweringContext α) (r : Ref) : Lower α Value :=
  attempt fun (s : Lowering α) =>
    match s.values.lookup r with
    | some value => .ok (s, value)
    | none =>
      match r with
      | .var id => do
        let v ← c.module.var id
        let mutability : Mutability :=
          if v.isTrained || c.stored.contains id then .mutable else .constant
        let (store, l) ← s.store.allocate id v mutability
        .ok ({ s with store := store, values := s.values ++ [(r, .weight l)] }, .weight l)
      | .node id => .error (.invalidNode (c.module.nameOf c.graph r) (.notLowered id))

/-- The values of all inputs of a node. -/
def operands (c : LoweringContext α) (n : Node α) : Lower α (List Value) :=
  n.inputs.mapM (operand c)

/-- Makes `value` the value of node `id`. -/
def define (id : NodeId) (value : Value) : Lower α Unit :=
  attempt fun (s : Lowering α) => .ok ({ s with values := (.node id, value) :: s.values }, ())

/-- A new activation for the result of a node. -/
def result (id : NodeId) (n : Node α) : Lower α Value := do
  match n.type with
  | none => throw (.unresolvedType n.name)
  | some type =>
    let value ← attempt fun (s : Lowering α) => do
      let (program, value) ← s.program.newActivation n.name type
      .ok ({ s with program := program }, value)
    define id value
    return value

/-- Whether a node may write over its first input, whose value is `input`. -/
def mayReuse (c : LoweringContext α) (n : Node α) (input : Value) : Bool :=
  c.graph.inPlace && input.isActivation &&
    match n.inputs with
    | .node id :: _ => c.graph.fanOut id == 1
    | _ => false

/-- Where an activation function puts its result. -/
def activationTarget (c : LoweringContext α) (id : NodeId) (n : Node α) (input : Value) :
    Lower α Value :=
  if mayReuse c n input then
    match n.type with
    | none => throw (.unresolvedType n.name)
    | some _ => do
      define id input
      return input
  else result id n

/-- Adds an instruction for a node. -/
def emit (n : Node α) (kind : Opcode α) (values : List Value) : Lower α Unit :=
  attempt fun (s : Lowering α) => do
    let program ← s.program.push s.store.arena (.ofValues n.name kind values)
    .ok ({ s with program := program }, ())

/-- A new activation computed from all inputs. -/
def compute (c : LoweringContext α) (id : NodeId) (n : Node α) (kind : Opcode α) :
    Lower α Unit := do
  let values ← operands c n
  let target ← result id n
  emit n kind (target :: values)

/-- Refuses a node that has not the inputs of its kind. -/
def wrongArity (n : Node α) : Lower α Unit :=
  throw (.invalidNode n.name (.arity n.kind (n.kind.arity.getD 0) n.inputs.length))

/-- The instructions of a node. -/
def node (c : LoweringContext α) (id : NodeId) (n : Node α) : Lower α Unit :=
  match n.kind with
  | .compute (.unary op) =>
    match n.inputs with
    | [r] => do
      let source ← operand c r
      let target ← activationTarget c id n source
      emit n (.compute (.unary op)) [target, source]
    | _ => wrongArity n
  | .compute op => compute c id n (.compute op)
  | .reshape _ => compute c id n .reshape
  | .regression => do
    let values ← operands c n
    match values with
    | [x, _] => do
      let target ← result id n
      emit n .copy [target, x]
    | _ => wrongArity n
  | .splat value => do
    let target ← result id n
    emit n (.splat value) [target]
  | .save => do
    let values ← operands c n
    match values with
    | [x, destination] => emit n .copy [destination, x]
    | _ => wrongArity n
  | .gradientSum => do
    let contributions ← operands c n
    let total ← result id n
    emit n (.splat 0) [total]
    contributions.forM fun (x : Value) => emit n (.compute (.binary .add)) [total, total, x]
  | .update rule => do
    let values ← operands c n
    emit n (.update rule) values
  | .custom _ => throw (.noLowering n.kind n.name)

/-- The instructions of the nodes with these numbers. -/
def nodes (c : LoweringContext α) (ids : List NodeId) : Lower α Unit :=
  ids.forM fun (id : NodeId) => do
    let n ← attempt fun (s : Lowering α) => (c.graph.node id).map fun (n : Node α) => (s, n)
    node c id n

end Lower

variable {α : Type} [Scalar α]

/-- The variables that the graphs of a module or the graph itself store into. -/
def Module.storedWith (m : Module α) (g : Graph α) : List VarId :=
  m.graphs.toList.flatMap Graph.storesInto ++ g.storesInto

/-- The program of a graph over the variables of a module, and the weight storage it leaves. -/
def Graph.lower (g : Graph α) (m : Module α) (store : WeightStorage α) :
    Except (Error α) (Program α) × WeightStorage α :=
  match g.evaluationOrder with
  | .error e => (.error e, store)
  | .ok order =>
    let context : LoweringContext α := ⟨m, g, m.storedWith g⟩
    let start : Lowering α := ⟨.empty g.name, store, []⟩
    match (Lower.nodes context order).run.run start with
    | (.ok (), s) => (.ok s.program, s.store)
    | (.error e, s) => (.error e, s.store)

end NeuralGraph
