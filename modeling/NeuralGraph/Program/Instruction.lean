import NeuralGraph.Kernel.Operator
import NeuralGraph.Storage.Value

/-!
# Instructions

A named step of a program: what to do and the values to do it with.  The values that are written
come first, then the ones that are only read, in the order of the operator's operands.
-/

namespace NeuralGraph
set_option autoImplicit false

/-- How an instruction uses an operand. -/
inductive Direction where
  | input
  | output
  | both
  deriving DecidableEq, Repr

namespace Direction

def reads : Direction → Bool
  | input | both => true
  | output => false

def writes : Direction → Bool
  | output | both => true
  | input => false

end Direction

structure Operand where
  value : Value
  direction : Direction
  deriving DecidableEq, Repr

inductive Opcode (α : Type) where
  /-- destination, source -/
  | copy
  /-- destination -/
  | splat (value : α)
  /-- destination, operands -/
  | compute (op : Operator α)
  /-- destination, source -/
  | reshape
  /-- weight, gradient, velocity -/
  | update (rule : UpdateRule α)
  deriving DecidableEq

namespace Opcode
variable {α : Type}

/-- The directions that the operands must have, in order. -/
def layout : Opcode α → List Direction
  | copy | reshape => [.output, .input]
  | splat _ => [.output]
  | compute op => .output :: List.replicate op.arity .input
  | update _ => [.both, .input, .both]

/-- Initializers may give a constant location its value. -/
def initializes : Opcode α → Bool
  | splat _ => true
  | _ => false

end Opcode

structure Instruction (α : Type) where
  name : String
  kind : Opcode α
  operands : List Operand
  deriving DecidableEq

namespace Instruction
variable {α : Type}

/-- The instruction whose operands have the directions of its layout; values beyond the layout are
read. -/
def ofValues (name : String) (kind : Opcode α) (values : List Value) : Instruction α where
  name := name
  kind := kind
  operands := values.zipIdx.map fun (p : Value × Nat) => ⟨p.1, kind.layout.getD p.2 .input⟩

def reads (i : Instruction α) (value : Value) : Bool :=
  i.operands.any fun (o : Operand) => o.value == value && o.direction.reads

def writes (i : Instruction α) (value : Value) : Bool :=
  i.operands.any fun (o : Operand) => o.value == value && o.direction.writes

/-- The values that the instruction writes, in order. -/
def written (i : Instruction α) : List Value :=
  (i.operands.filter fun (o : Operand) => o.direction.writes).map fun (o : Operand) => o.value

end Instruction

/-! ## Text -/

def Direction.text : Direction → String
  | .input => "in"
  | .output => "out"
  | .both => "inout"

def Operand.text (o : Operand) : String := o.value.text ++ ":" ++ o.direction.text

/-- The name without parameters. -/
def Opcode.name {α : Type} : Opcode α → String
  | .copy => "copy"
  | .splat _ => "splat"
  | .compute (.binary op) => "element_" ++ op.text
  | .compute .select => "element_select"
  | .compute op => op.name
  | .reshape => "reshape"
  | .update _ => "sgd"

/-- The name with all parameters. -/
def Opcode.text (kind : Opcode Float32) : String :=
  kind.name ++
    match kind with
    | .splat value => "(" ++ Binary32.text value ++ ")"
    | .compute (.responseNormalization p) => p.text
    | .compute (.responseNormalizationGradient p) => p.text
    | .compute op => op.geometryText
    | .update rule => rule.text
    | .copy | .reshape => ""

def Instruction.text (i : Instruction Float32) : String :=
  i.name ++ " = " ++ i.kind.text ++ " " ++ ", ".intercalate (i.operands.map Operand.text)

end NeuralGraph
