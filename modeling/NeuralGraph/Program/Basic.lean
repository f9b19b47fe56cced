import NeuralGraph.Program.Signature
import NeuralGraph.Storage.Arena

/-!
# Programs

A sequence of instructions with the storage for its intermediate results.  `push` accepts an
instruction only after `check`: its operands exist and have the right directions and types, what it
reads is defined, and no constant is overwritten.  `verify` repeats the check for a whole program.
-/

namespace NeuralGraph
set_option autoImplicit false

structure Program (α : Type) where
  name : String
  instructions : Array (Instruction α)
  activations : Arena α

/-- The activations that instructions write. -/
def activationsWritten {α : Type} (is : List (Instruction α)) : List LocationId :=
  is.flatMap fun (i : Instruction α) => i.written.filterMap fun (v : Value) =>
    match v with
    | .activation id => some id
    | .weight _ => none

/-! ## Checking one instruction -/

namespace Instruction
variable {α : Type}

/-- Whether a value is defined when the activations in `defined` are; weights always are. -/
def isDefined (defined : List LocationId) : Value → Bool
  | .weight _ => true
  | .activation id => defined.contains id

/-- The type of the operand at `position`, which must have the direction `expected`. -/
def checkOperand (i : Instruction α) (m : Memory α) (defined : List LocationId)
    (position : Nat) (o : Operand) (expected : Direction) :
    Except (Error α) (TensorType α) :=
  if o.direction ≠ expected then
    .error (.signature i.name i.kind (.direction position expected o.direction))
  else
    match m.locate? o.value with
    | none => .error (.signature i.name i.kind (.dangling position o.value))
    | some l =>
      if o.direction.reads && !isDefined defined o.value then
        .error (.undefinedOperand i.name o.value l.name)
      else if o.direction.writes && l.isConstant
          && !(i.kind.initializes && o.value.isActivation && !isDefined defined o.value) then
        .error (.constantWrite i.name l.name)
      else .ok l.type

/-- The types of the operands from `position` on. -/
def checkOperands (i : Instruction α) (m : Memory α) (defined : List LocationId) :
    Nat → List Operand → List Direction → Except (Error α) (List (TensorType α))
  | position, o :: os, d :: ds => do
    let t ← i.checkOperand m defined position o d
    let ts ← i.checkOperands m defined (position + 1) os ds
    .ok (t :: ts)
  | _, _, _ => .ok []

/-- Whether the instruction can follow instructions that write the activations in `defined`. -/
def check [Scalar α] (i : Instruction α) (m : Memory α) (defined : List LocationId) :
    Except (Error α) Unit :=
  if i.operands.length ≠ i.kind.layout.length then
    .error (.signature i.name i.kind (.count i.kind.layout.length i.operands.length))
  else do
    let types ← i.checkOperands m defined 0 i.operands i.kind.layout
    match Signature.instruction i.kind types with
    | .ok () => .ok ()
    | .error fault => .error (.signature i.name i.kind fault)

end Instruction

/-! ## Building programs -/

namespace Program
variable {α : Type}

def empty (name : String) : Program α := ⟨name, #[], .empty⟩

def size (p : Program α) : Nat := p.instructions.size

/-- The program's storage beside the weights. -/
def memory (p : Program α) (weights : Arena α) : Memory α := ⟨p.activations, weights⟩

/-- The activations that some instruction writes. -/
def defined (p : Program α) : List LocationId := activationsWritten p.instructions.toList

/-- A new activation: mutable, hidden, and undefined until an instruction writes it. -/
def newActivation [Scalar α] (p : Program α) (name : String) (type : TensorType α) :
    Except (Error α) (Program α × Value) := do
  let (activations, id) ← p.activations.create name type .mutable .hidden
  .ok ({ p with activations := activations }, .activation id)

/-- The program with one more instruction. -/
def push [Scalar α] (p : Program α) (weights : Arena α) (i : Instruction α) :
    Except (Error α) (Program α) := do
  i.check (p.memory weights) p.defined
  .ok { p with instructions := p.instructions.push i }

/-- Checks instructions one after the other, the first of which may use what `done` write. -/
def verifyFrom [Scalar α] (m : Memory α) :
    List (Instruction α) → List (Instruction α) → Except (Error α) Unit
  | _, [] => .ok ()
  | done, i :: is => do
    i.check m (activationsWritten done)
    verifyFrom m (done ++ [i]) is

def verify [Scalar α] (p : Program α) (weights : Arena α) : Except (Error α) Unit :=
  verifyFrom (p.memory weights) [] p.instructions.toList

/-! ## Questions about a program -/

def operands? (p : Program α) (index : Nat) : Option (List Operand) :=
  p.instructions[index]?.map fun (i : Instruction α) => i.operands

/-- The numbers of the instructions that satisfy `test`. -/
def indicesOf (p : Program α) (test : Instruction α → Bool) : List Nat :=
  p.instructions.toList.zipIdx.filterMap fun (q : Instruction α × Nat) =>
    if test q.1 then some q.2 else none

def users (p : Program α) (value : Value) : List Nat :=
  p.indicesOf fun (i : Instruction α) => i.reads value

def writers (p : Program α) (value : Value) : List Nat :=
  p.indicesOf fun (i : Instruction α) => i.writes value

/-- Kinds and operands without names: equal for two lowerings of one graph. -/
def signature (p : Program α) : List (Opcode α × List Operand) :=
  p.instructions.toList.map fun (i : Instruction α) => (i.kind, i.operands)

@[simp] theorem empty_instructions (name : String) :
    (empty name : Program α).instructions = #[] := rfl

@[simp] theorem empty_defined (name : String) : (empty name : Program α).defined = [] := rfl

end Program

/-! ## Text -/

def Program.signatureText (p : Program Float32) : List String :=
  p.signature.map fun (s : Opcode Float32 × List Operand) =>
    s.1.text ++ " " ++ " ".intercalate (s.2.map Operand.text)

/-- The declarations of all locations, then the numbered instructions. -/
def Program.text (p : Program Float32) (weights : Arena Float32) : String :=
  let weightLines : List String :=
    weights.locations.toList.zipIdx.map fun (q : Location Float32 × Nat) =>
      s!"  {(Value.weight ⟨q.2⟩).text} {q.1.mutability.text} {q.1.visibility.text} "
        ++ s!"{q.1.name} : {q.1.type.text}\n"
  let activationLines : List String :=
    p.activations.locations.toList.zipIdx.map fun (q : Location Float32 × Nat) =>
      s!"  {(Value.activation ⟨q.2⟩).text} {q.1.name} : {q.1.type.text}\n"
  let codeLines : List String :=
    p.instructions.toList.zipIdx.map fun (q : Instruction Float32 × Nat) =>
      s!"  {q.2} {q.1.text}\n"
  s!"=== IR: {p.name} ({p.size} instructions) ===\n" ++ "declare \x7b\n"
    ++ String.join weightLines ++ String.join activationLines ++ "\x7d\n\ncode \x7b\n"
    ++ String.join codeLines ++ "\x7d\n"

end NeuralGraph
