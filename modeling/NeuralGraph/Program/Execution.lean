import NeuralGraph.Program.Basic
import NeuralGraph.Quantization

/-!
# Execution

An instruction reads its operands as numbers, computes its results, and stores them one after the
other in the locations it writes.  A constant location is refused even if it was mutable when the
instruction was accepted.  A run stops at the first instruction that fails; what was stored before
stays stored.
-/

namespace NeuralGraph
set_option autoImplicit false
variable {α : Type} [Scalar α]

namespace Instruction

/-- The results of an instruction whose operands hold `tensors`. -/
def results (kind : Opcode α) (tensors : List (Tensor α)) : Kernel α (List (PlacedArray α)) :=
  match kind, tensors with
  | .copy, [_, source] => .ok [source.decoded]
  | .splat value, [target] => .ok [.byRows (.fill target.dims value)]
  | .reshape, [target, source] =>
    (Kernel.reshape source.decoded.array target.dims).map fun (a : DenseArray α) => [.byRows a]
  | .compute op, target :: sources =>
    (op.apply target.dims (sources.map Tensor.decoded)).map fun (a : PlacedArray α) => [a]
  | .update rule, [weight, gradient, velocity] =>
    rule.apply weight.decoded gradient.decoded velocity.decoded
  | _, _ => .error .operandCount

/-- The results of an instruction in a memory. -/
def evaluate (i : Instruction α) (m : Memory α) : Except (Error α) (List (PlacedArray α)) := do
  let locations ← i.operands.mapM fun (o : Operand) => m.locate o.value
  if locations.length ≠ i.kind.layout.length then .error (.kernel i.name .operandCount)
  else
    match results i.kind (locations.map fun (l : Location α) => l.payload) with
    | .ok arrays => .ok arrays
    | .error fault => .error (.kernel i.name fault)

/-- Stores one result. -/
def store (i : Instruction α) (m : Memory α) (value : Value) (a : PlacedArray α) :
    Except (Error α) (Memory α) := do
  let l ← m.locate value
  if l.isConstant && !(i.kind.initializes && value.isActivation) then
    .error (.constantWrite i.name l.name)
  else if h : a.dims = l.type.dims then
    .ok (m.put value { l with payload := .encoded l.type a h })
  else .error (.kernel i.name (.result a.dims l.name l.type))

/-- Stores results in order, up to the first that is refused. -/
def storeAll (i : Instruction α) :
    List (Value × PlacedArray α) → Memory α → Memory α × Option (Error α)
  | [], m => (m, none)
  | (value, a) :: rest, m =>
    match i.store m value a with
    | .ok m' => i.storeAll rest m'
    | .error e => (m, some e)

/-- What executing an instruction makes of a memory, and the error if it fails. -/
def step (i : Instruction α) (m : Memory α) : Memory α × Option (Error α) :=
  match i.evaluate m with
  | .ok arrays => i.storeAll (i.written.zip arrays) m
  | .error e => (m, some e)

end Instruction

/-- How far a run came: the number of instructions that succeeded is also the number of the one that
failed, if one did. -/
structure Run (α : Type) where
  memory : Memory α
  executed : Nat
  failure : Option (Error α)

/-- Executes instructions in order. -/
def execute : List (Instruction α) → Memory α → Run α
  | [], m => ⟨m, 0, none⟩
  | i :: is, m =>
    match i.step m with
    | (m', none) =>
      let rest : Run α := execute is m'
      { rest with executed := rest.executed + 1 }
    | (m', some e) => ⟨m', 0, some e⟩

@[simp] theorem execute_nil (m : Memory α) : execute [] m = ⟨m, 0, none⟩ := rfl

theorem execute_append (is js : List (Instruction α)) (m : Memory α) :
    execute (is ++ js) m =
      match (execute is m).failure with
      | none =>
        let rest : Run α := execute js (execute is m).memory
        { rest with executed := (execute is m).executed + rest.executed }
      | some _ => execute is m := by
  induction is generalizing m with
  | nil => simp
  | cons i is ih =>
    simp only [List.cons_append, execute]
    split
    · next m' _ =>
      rw [ih m']
      split <;> simp_all [Nat.add_right_comm]
    · simp

/-- Runs a program: its activations and the weights change, the program does not. -/
def Program.run (p : Program α) (weights : Arena α) : Run α :=
  execute p.instructions.toList (p.memory weights)

/-- The program with the activations that a run left. -/
def Program.after (p : Program α) (r : Run α) : Program α :=
  { p with activations := r.memory.activations }

end NeuralGraph
