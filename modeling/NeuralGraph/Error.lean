import NeuralGraph.Tensor
import NeuralGraph.Graph.NodeFault
import NeuralGraph.Program.SignatureFault

/-!
# Errors

Every way in which an operation of the library can be refused.  `Error.message` is the only place
that words them.
-/

namespace NeuralGraph
set_option autoImplicit false

/-- Where names have to differ. -/
inductive Scope where
  | vars
  | graphs
  | storage
  deriving DecidableEq, Repr

/-- What a caller wants to do with a location. -/
inductive Access where
  | bind
  | read
  | write
  deriving DecidableEq, Repr

/-- How a location was asked for. -/
inductive LocationRef where
  | id (id : LocationId)
  | name (name : String)
  deriving DecidableEq, Repr

inductive Error (α : Type) where
  | duplicateName (name : String) (scope : Scope)
  /-- A caller's tensor does not have the type of the location it is meant for. -/
  | binding (name : String) (expected got : TensorType α)
  /-- An initial value does not have the type it is declared with. -/
  | payload (name : String) (expected got : TensorType α)
  | hiddenLocation (name : String) (access : Access)
  | unknownLocation (location : LocationRef)
  | unknownVariable (id : VarId)
  | unknownGraph (index : Nat)
  | notCompiled
  | invalidNode (node : String) (fault : NodeFault α)
  | unresolvedType (node : String)
  /-- No instruction carries out the node. -/
  | noLowering (kind : NodeKind α) (node : String)
  /-- The node is on a path of gradients and has no rule, or none of them reaches it. -/
  | noGradient (kind : NodeKind α) (node : String)
  | noLoss (graph : String)
  | cyclic (graph : String)
  | constantWrite (instruction location : String)
  | undefinedOperand (instruction : String) (value : Value) (location : String)
  | signature (instruction : String) (kind : Opcode α) (fault : SignatureFault α)
  | kernel (instruction : String) (fault : KernelFault α)
  | tensor (fault : TensorFault α)
  | other (text : String)

/-! ## Text -/

def Scope.text : Scope → String
  | .vars => "module variables"
  | .graphs => "module functions"
  | .storage => "storage arena"

def Access.text : Access → String
  | .bind => "bound"
  | .read => "read"
  | .write => "written"

def LocationRef.text : LocationRef → String
  | .id l => s!"#{l.index}"
  | .name n => n

/-- What an error says. -/
def Error.message : Error Float32 → String
  | .duplicateName name scope => s!"duplicate name '{name}' in {scope.text}"
  | .binding name expected got =>
    s!"cannot bind tensor of type {got.text} to '{name}' of type {expected.text}"
  | .payload name expected got =>
    s!"payload of type {got.text} does not fit '{name}' of type {expected.text}"
  | .hiddenLocation name access =>
    s!"location '{name}' is private and cannot be {access.text} externally"
  | .unknownLocation location => s!"unknown storage location '{location.text}'"
  | .unknownVariable id => s!"unknown variable '{id.text}'"
  | .unknownGraph index => s!"unknown function #{index}"
  | .notCompiled => "no compiled unit is active; call compile() first"
  | .invalidNode node fault => s!"invalid node '{node}': {fault.message}"
  | .unresolvedType node => s!"cannot resolve the output type of node '{node}'"
  | .noLowering kind node => s!"no lowering rule for operator '{kind.name}' (node '{node}')"
  | .noGradient kind node => s!"no gradient rule for operator '{kind.name}' (node '{node}')"
  | .noLoss graph =>
    s!"function '{graph}' has no loss node (softmax or regression) feeding a save"
  | .cyclic graph => s!"function '{graph}' is not acyclic"
  | .constantWrite instruction location =>
    s!"instruction '{instruction}' writes constant location '{location}'"
  | .undefinedOperand instruction value location =>
    s!"instruction '{instruction}' reads {value.longText} ('{location}') before it is defined"
  | .signature instruction kind fault =>
    s!"instruction '{instruction}' ({kind.name}): {fault.message}"
  | .kernel instruction fault => s!"kernel failure in '{instruction}': {fault.message}"
  | .tensor fault => fault.message
  | .other text => text

end NeuralGraph
