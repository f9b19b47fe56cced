import NeuralGraph.Graph.Basic
import NeuralGraph.Random.KeyStream

/-!
# Modules

A module owns the variables that graphs share, the graphs themselves, and the generator that random
initial weights are drawn from.  Variables and graphs are only ever added, so their numbers last.
-/

namespace NeuralGraph
set_option autoImplicit false

/-- Whether a variable is trained, and from which initial value. -/
inductive Training (α : Type) where
  /-- Not trained, zero at first. -/
  | untrained
  | constant (value : α)
  /-- Random, for a layer with this many inputs. -/
  | xavier (fanIn : Nat)
  deriving DecidableEq

def Training.isTrained {α : Type} : Training α → Bool
  | .untrained => false
  | _ => true

/-- Whether there are initial values of this type.  Random elements are drawn for an array, and not all
dimensions are those of one. -/
def Training.suits {α : Type} (type : TensorType α) : Training α → Bool
  | .xavier _ => addressable type.dims
  | _ => true

/-- The initial value of a variable, and the generator after drawing it. -/
def Training.draw {α : Type} [Scalar α] (type : TensorType α) (g : Random.Generator) :
    Training α → Tensor α × Random.Generator
  | .untrained => (.zeros type, g)
  | .constant value => (.full type value, g)
  | .xavier fanIn => (.ofFn type fun (i : Nat) => Scalar.xavier fanIn (g.word i), g.skip type.size)

/-- A named input, output or parameter. -/
structure Variable (α : Type) where
  name : String
  type : TensorType α
  visibility : Visibility
  training : Training α
  initial : Tensor α

def Variable.isTrained {α : Type} (v : Variable α) : Bool := v.training.isTrained

/-- The number of a graph in its module. -/
structure GraphId where
  index : Nat
  deriving DecidableEq, Repr

structure Module (α : Type) where
  vars : Array (Variable α)
  graphs : Array (Graph α)
  generator : Random.Generator

namespace Module
variable {α : Type}

/-- The seed of a module that is not given one. -/
def standardSeed : UInt64 := 24301

def ofSeed (seed : UInt64) : Module α := ⟨#[], #[], .ofSeed seed⟩

def var? (m : Module α) (id : VarId) : Option (Variable α) := m.vars[id.index]?

def var (m : Module α) (id : VarId) : Except (Error α) (Variable α) :=
  match m.var? id with
  | some v => .ok v
  | none => .error (.unknownVariable id)

/-- The number of the variable with this name. -/
def find? (m : Module α) (name : String) : Option VarId :=
  (m.vars.findIdx? fun (v : Variable α) => v.name == name).map VarId.mk

def graph? (m : Module α) (id : GraphId) : Option (Graph α) := m.graphs[id.index]?

def graph (m : Module α) (id : GraphId) : Except (Error α) (Graph α) :=
  match m.graph? id with
  | some g => .ok g
  | none => .error (.unknownGraph id.index)

/-- Whether a variable exists and is trained. -/
def isTrained (m : Module α) (id : VarId) : Bool := (m.var? id).any Variable.isTrained

/-! ## Variables -/

/-- The module with one more variable, unless the name is taken or the initial value cannot be drawn. -/
def declare [Scalar α] (m : Module α) (name : String) (type : TensorType α)
    (visibility : Visibility) (training : Training α) : Except (Error α) (Module α × VarId) :=
  match m.find? name with
  | some _ => .error (.duplicateName name .vars)
  | none =>
    if training.suits type then
      let (initial, generator) := training.draw type m.generator
      .ok ({ m with
          vars := m.vars.push ⟨name, type, visibility, training, initial⟩
          generator := generator }, ⟨m.vars.size⟩)
    else .error (.tensor .unaddressable)

/-- The variable with this name, made if there is none; one of another type is in the way. -/
def findOrDeclare [Scalar α] (m : Module α) (name : String) (type : TensorType α)
    (visibility : Visibility) (training : Training α) : Except (Error α) (Module α × VarId) :=
  match m.find? name with
  | some id =>
    if (m.var? id).any fun (v : Variable α) => v.type == type then .ok (m, id)
    else .error (.duplicateName name .vars)
  | none => m.declare name type visibility training

def putVariable (m : Module α) (id : VarId) (v : Variable α) : Module α :=
  { m with vars := m.vars.setIfInBounds id.index v }

/-- Replaces an initial value by one of the same type. -/
def setInitial [Scalar α] (m : Module α) (id : VarId) (t : Tensor α) :
    Except (Error α) (Module α) := do
  let v ← m.var id
  if t.type == v.type then .ok (m.putVariable id { v with initial := t })
  else .error (.payload v.name v.type t.type)

def fillInitial (m : Module α) (id : VarId) (value : α) : Except (Error α) (Module α) := do
  let v ← m.var id
  .ok (m.putVariable id { v with initial := v.initial.refill value })

/-! ## Graphs -/

/-- The module with one more graph, unless the name is taken. -/
def insertGraph (m : Module α) (g : Graph α) : Except (Error α) (Module α × GraphId) :=
  if m.graphs.any fun (f : Graph α) => f.name == g.name then
    .error (.duplicateName g.name .graphs)
  else .ok ({ m with graphs := m.graphs.push g }, ⟨m.graphs.size⟩)

/-- The module with a new graph without nodes. -/
def addGraph (m : Module α) (name : String) : Except (Error α) (Module α × GraphId) :=
  m.insertGraph (.empty name)

def putGraph (m : Module α) (id : GraphId) (g : Graph α) : Module α :=
  { m with graphs := m.graphs.setIfInBounds id.index g }

/-! ## Values as a graph sees them -/

def typeOf (m : Module α) (g : Graph α) : Ref → Except (Error α) (TensorType α)
  | .var id => (m.var id).map fun (v : Variable α) => v.type
  | .node id => do
    let n ← g.node id
    match n.type with
    | some type => .ok type
    | none => .error (.unresolvedType n.name)

/-- The name of a value, its number if there is no such value. -/
def nameOf (m : Module α) (g : Graph α) : Ref → String
  | .var id => ((m.var? id).map fun (v : Variable α) => v.name).getD id.text
  | .node id => ((g.node? id).map fun (n : Node α) => n.name).getD id.text

end Module
end NeuralGraph
