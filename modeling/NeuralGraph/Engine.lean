import NeuralGraph.Gradient.Training
import NeuralGraph.Lowering
import NeuralGraph.Program.Execution

/-!
# The engine

An engine owns a module, the weights, and at most one compiled unit for inference and one for
training.  Both units work on the same weights.  Callers bind tensors to exposed locations, run the
active unit, and read exposed locations.  All bindings are checked before any is copied.
-/

namespace NeuralGraph
set_option autoImplicit false

inductive Mode where
  /-- The graph alone. -/
  | infer
  /-- The graph, its gradients, and one update for each weight. -/
  | train
  deriving DecidableEq, Repr

structure CompiledGraph (α : Type) where
  mode : Mode
  source : GraphId
  program : Program α

structure Engine (α : Type) where
  module : Module α
  rule : UpdateRule α
  store : WeightStorage α
  infer : Option (CompiledGraph α)
  train : Option (CompiledGraph α)
  active : Option Mode

/-- A tensor for the location with this name. -/
structure Binding (α : Type) where
  name : String
  tensor : Tensor α

/-- Computations that use an engine and may fail. -/
abbrev Operate (α β : Type) := ExceptT (Error α) (StateM (Engine α)) β

namespace Engine
variable {α β : Type}

/-- A change that is made whether it succeeds or not. -/
def carry (f : Engine α → Except (Error α) β × Engine α) : Operate α β := ExceptT.mk f

/-- A change that is made only if it succeeds. -/
def attempt (f : Engine α → Except (Error α) (Engine α × β)) : Operate α β :=
  carry fun (e : Engine α) =>
    match f e with
    | .ok (e', b) => (.ok b, e')
    | .error error => (.error error, e)

/-- A question that changes nothing. -/
def ask (f : Engine α → Except (Error α) β) : Operate α β :=
  carry fun (e : Engine α) => (f e, e)

/-- A change of the module. -/
def build (b : Build α β) : Operate α β :=
  carry fun (e : Engine α) =>
    let (result, m) := b.run.run e.module
    (result, { e with module := m })

def ofModule [Scalar α] (m : Module α) : Engine α := ⟨m, .standard, .empty, none, none, none⟩

def compiled? (e : Engine α) : Mode → Option (CompiledGraph α)
  | .infer => e.infer
  | .train => e.train

/-- The engine with a unit in the place of the one of its mode. -/
def withCompiled (e : Engine α) (u : CompiledGraph α) : Engine α :=
  match u.mode with
  | .infer => { e with infer := some u }
  | .train => { e with train := some u }

def withArena (e : Engine α) (a : Arena α) : Engine α :=
  { e with store := { e.store with arena := a } }

/-- Makes the unit of a mode the active one. -/
def activate (mode : Mode) : Operate α Unit :=
  attempt fun (e : Engine α) =>
    match e.compiled? mode with
    | some _ => .ok ({ e with active := some mode }, ())
    | none => .error .notCompiled

/-! ## Compiling -/

section
variable [Scalar α]

/-- The graph that is lowered in a mode. -/
def graphFor (mode : Mode) (f : GraphId) : Operate α (Graph α) :=
  match mode with
  | .infer => ask fun (e : Engine α) => e.module.graph f
  | .train => carry fun (e : Engine α) => (build (.trainingGraph f e.rule)).run.run e

/-- Lowers a graph into the weight store. -/
def lowerGraph (g : Graph α) : Operate α (Program α) :=
  carry fun (e : Engine α) =>
    let (result, store) := g.lower e.module e.store
    (result, { e with store := store })

/-- Compiles a graph for a mode and makes the new unit the active one. -/
def compile (mode : Mode) (f : GraphId) : Operate α Unit := do
  let g ← graphFor mode f
  let program ← lowerGraph g
  attempt fun (e : Engine α) =>
    .ok ({ e.withCompiled ⟨mode, f, program⟩ with active := some mode }, ())

end

/-! ## Locations as callers see them -/

/-- An exposed location. -/
def exposed (e : Engine α) (name : String) (access : Access) : Except (Error α) (Location α) :=
  match e.store.arena.named? name with
  | none => .error (.unknownLocation (.name name))
  | some l => if l.isExposed then .ok l else .error (.hiddenLocation name access)

/-- The contents of an exposed location. -/
def read (e : Engine α) (name : String) : Except (Error α) (Tensor α) :=
  (e.exposed name .read).map fun (l : Location α) => l.payload

/-- The engine with new contents for the location called `name`. -/
def overwrite (e : Engine α) (name : String)
    (f : Tensor α → Except (TensorFault α) (Tensor α)) : Except (Error α) (Engine α) :=
  match e.store.arena.find? name with
  | none => .error (.unknownLocation (.name name))
  | some id => do
    let arena ← e.store.arena.update id fun (l : Location α) => l.overwrite f
    .ok (e.withArena arena)

variable [Scalar α]

/-- Overwrites an exposed location with a tensor of its type. -/
def write (name : String) (t : Tensor α) : Operate α Unit :=
  attempt fun (e : Engine α) => do
    let l ← e.exposed name .write
    if t.type == l.type then
      let e' ← e.overwrite name fun (old : Tensor α) => old.assign t
      .ok (e', ())
    else .error (.binding name l.type t.type)

/-! ## Running -/

/-- Every binding is for an exposed location whose type accepts it. -/
def checkBindings (e : Engine α) (accepts : TensorType α → TensorType α → Bool) :
    List (Binding α) → Except (Error α) Unit
  | [] => .ok ()
  | b :: rest => do
    let l ← e.exposed b.name .bind
    if accepts l.type b.tensor.type then e.checkBindings accepts rest
    else .error (.binding b.name l.type b.tensor.type)

/-- Whether rows of a tensor of type `source` can be bound to a location of type `target`. -/
def acceptsBatch (target source : TensorType α) : Bool :=
  target.acceptsRows source && Nat.blt 0 source.rows

/-- Copies each binding into its location. -/
def bindAll : List (Binding α) → Operate α Unit
  | [] => return ()
  | b :: rest => do
    attempt fun (e : Engine α) => do
      let e' ← e.overwrite b.name fun (old : Tensor α) => old.assign b.tensor
      .ok (e', ())
    bindAll rest

/-- Copies into each location its share of the rows for one iteration: with `b` rows in the
location, row `iteration * b` of the tensor and the ones after it, counted around its end. -/
def bindRows (iteration : Nat) : List (Binding α) → Operate α Unit
  | [] => return ()
  | b :: rest => do
    attempt fun (e : Engine α) => do
      let e' ← e.overwrite b.name fun (old : Tensor α) =>
        old.assignRows b.tensor (iteration * old.type.rows % b.tensor.type.rows)
      .ok (e', ())
    bindRows iteration rest

/-- Executes the active unit once. -/
def executeActive : Operate α Unit :=
  carry fun (e : Engine α) =>
    match e.active.bind e.compiled? with
    | none => (.error .notCompiled, e)
    | some u =>
      let r : Run α := u.program.run e.store.arena
      let e' : Engine α :=
        (e.withCompiled { u with program := u.program.after r }).withArena r.memory.weights
      match r.failure with
      | none => (.ok (), e')
      | some error => (.error error, e')

/-- Binds tensors and runs the active unit once. -/
def run (bindings : List (Binding α)) : Operate α Unit := do
  ask fun (e : Engine α) =>
    if e.active.isNone then .error .notCompiled
    else e.checkBindings (fun (target source : TensorType α) => source == target) bindings
  bindAll bindings
  executeActive

/-- Runs the active unit on the rows of each iteration in turn, from `iteration` on. -/
def runIterations (bindings : List (Binding α)) : Nat → Nat → Operate α Unit
  | 0, _ => return ()
  | count + 1, iteration => do
    bindRows iteration bindings
    executeActive
    runIterations bindings count (iteration + 1)

/-- Binds the rows of tensors in batches and runs the active unit once for each batch. -/
def runBatches (iterations : Nat) (bindings : List (Binding α)) : Operate α Unit := do
  ask fun (e : Engine α) =>
    if e.active.isNone then .error .notCompiled else e.checkBindings acceptsBatch bindings
  runIterations bindings iterations 0

end Engine

/-! ## Text -/

def Mode.text : Mode → String
  | .infer => "infer"
  | .train => "train"

/-- The mode in the summary of an engine. -/
def Mode.longText : Mode → String
  | .infer => "Infer"
  | .train => "Train"

/-- The name of what executes programs. -/
def Engine.backendName : String := "interpreter"

/-- A summary: the backend, the update rule, the number of weights and the active mode. -/
def Engine.summary (e : Engine Float32) : String :=
  let active : String :=
    match e.active with
    | none => "None"
    | some mode => s!"Some({mode.longText})"
  let rule : String :=
    s!"learning_rate: {Binary32.longText e.rule.learningRate}, "
      ++ s!"momentum: {Binary32.longText e.rule.momentum}, "
      ++ s!"l2_decay: {Binary32.longText e.rule.decay}"
  s!"ExecutionEngine \x7b backend: \"{backendName}\", config: TrainingConfig \x7b {rule} \x7d, "
    ++ s!"weights: {e.store.arena.size}, active: {active} \x7d"

end NeuralGraph
