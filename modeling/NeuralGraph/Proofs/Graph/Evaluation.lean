import NeuralGraph.Graph.Basic
import NeuralGraph.Quantization

/-!
# Evaluation of graphs

The meaning of a graph, without programs and storage: its nodes are computed one after the other.  A
valuation says what variables and nodes hold.  The value of a node is what its kind makes of the
numbers that its inputs stand for, stored as its type asks; where a kind needs the dimensions of its
result, it takes those of the node.  Saving and updating change what variables hold, and whatever is
computed later sees the change.
-/

namespace NeuralGraph
set_option autoImplicit false
variable {α : Type}

/-- What variables and nodes hold. -/
structure Valuation (α : Type) where
  vars : VarId → Option (Tensor α)
  nodes : NodeId → Option (Tensor α)

namespace Valuation

/-- Nothing is computed yet. -/
def start (vars : VarId → Option (Tensor α)) : Valuation α := ⟨vars, fun _ => none⟩

/-- What a variable holds now, or what a node was computed to be. -/
def read (V : Valuation α) : Ref → Except (Error α) (Tensor α)
  | .var id => match V.vars id with
    | some t => .ok t
    | none => .error (.unknownVariable id)
  | .node id => match V.nodes id with
    | some t => .ok t
    | none => .error (.invalidNode id.text (.inputAbsent id))

/-- A variable holds something else from now on. -/
def assign (V : Valuation α) (id : VarId) (t : Tensor α) : Valuation α :=
  { V with vars := fun (v : VarId) => if v = id then some t else V.vars v }

/-- A node has been computed. -/
def record (V : Valuation α) (id : NodeId) (t : Tensor α) : Valuation α :=
  { V with nodes := fun (i : NodeId) => if i = id then some t else V.nodes i }

@[simp] theorem assign_nodes (V : Valuation α) (id : VarId) (t : Tensor α) :
    (V.assign id t).nodes = V.nodes := rfl

@[simp] theorem record_vars (V : Valuation α) (id : NodeId) (t : Tensor α) :
    (V.record id t).vars = V.vars := rfl

@[simp] theorem record_self (V : Valuation α) (id : NodeId) (t : Tensor α) :
    (V.record id t).nodes id = some t := if_pos rfl

theorem record_ne (V : Valuation α) {id other : NodeId} (t : Tensor α) (h : other ≠ id) :
    (V.record id t).nodes other = V.nodes other := if_neg h

theorem read_record_ne (V : Valuation α) {id : NodeId} {r : Ref} (t : Tensor α)
    (h : r ≠ .node id) : (V.record id t).read r = V.read r := by
  cases r with
  | var v => rfl
  | node i =>
    have : i ≠ id := fun e => h (congrArg Ref.node e)
    simp only [read, V.record_ne t this]

@[simp] theorem record_record (V : Valuation α) (id : NodeId) (t u : Tensor α) :
    (V.record id t).record id u = V.record id u := by
  simp only [record, mk.injEq, true_and]
  funext i
  by_cases h : i = id <;> simp [h]

@[simp] theorem assign_self (V : Valuation α) (id : VarId) (t : Tensor α) :
    (V.assign id t).vars id = some t := if_pos rfl

theorem assign_ne (V : Valuation α) {id other : VarId} (t : Tensor α) (h : other ≠ id) :
    (V.assign id t).vars other = V.vars other := if_neg h

end Valuation

variable [Scalar α]

/-- What a node of this kind makes of numbers, if it is to have the dimensions `dims`. -/
def NodeKind.numbers (kind : NodeKind α) (dims : List Nat) (xs : List (PlacedArray α)) :
    Kernel α (PlacedArray α) :=
  match kind, xs with
  | .compute op, xs => op.apply dims xs
  | .reshape _, [x] => (Kernel.reshape x.array dims).map PlacedArray.byRows
  | .regression, [x, _] => .ok x
  | .splat value, [] => .ok (.byRows (.fill dims value))
  | _, _ => .error .operandCount

namespace Node

/-- Numbers as a tensor of the given type. -/
def keep (n : Node α) (type : TensorType α) (a : PlacedArray α) : Except (Error α) (Tensor α) :=
  if h : a.dims = type.dims then .ok (.encoded type a h)
  else .error (.kernel n.name (.result a.dims n.name type))

/-- The numbers that a kernel finds, as a tensor of the given type. -/
def keepResult (n : Node α) (type : TensorType α) (r : Kernel α (PlacedArray α)) :
    Except (Error α) (Tensor α) :=
  match r with
  | .ok a => n.keep type a
  | .error fault => .error (.kernel n.name fault)

theorem keep_of_dims (n : Node α) {type : TensorType α} {a : PlacedArray α}
    (h : a.dims = type.dims) : n.keep type a = .ok (.encoded type a h) := dif_pos h

theorem keep_type {n : Node α} {type : TensorType α} {a : PlacedArray α} {t : Tensor α}
    (h : n.keep type a = .ok t) : t.type = type := by
  simp only [keep] at h
  split at h
  · cases h
    rfl
  · cases h

theorem keepResult_type {n : Node α} {type : TensorType α} {r : Kernel α (PlacedArray α)}
    {t : Tensor α} (h : n.keepResult type r = .ok t) : t.type = type := by
  cases r with
  | ok a => exact keep_type h
  | error fault => cases h

/-- One stored addition. -/
def addTo (n : Node α) (type : TensorType α) (total x : Tensor α) : Except (Error α) (Tensor α) :=
  n.keepResult type ((Operator.binary .add).apply type.dims [total.decoded, x.decoded])

/-- The value of a node of the given type whose inputs are `xs`.  A sum of gradients starts from a
stored zero and stores every partial sum. -/
def value (n : Node α) (type : TensorType α) (xs : List (Tensor α)) :
    Except (Error α) (Tensor α) :=
  match n.kind with
  | .gradientSum => do
    let zero ← n.keep type (.byRows (.fill type.dims 0))
    xs.foldlM (n.addTo type) zero
  | kind => n.keepResult type (kind.numbers type.dims (xs.map Tensor.decoded))

/-- Saving `x` in variable `id`. -/
def saveTo (n : Node α) (id : VarId) (x old : Tensor α) (V : Valuation α) :
    Except (Error α) (Valuation α) := do
  let t ← n.keep old.type x.decoded
  .ok (V.assign id t)

/-- Updating the weight `w` and its velocity `v`. -/
def updateWith (n : Node α) (rule : UpdateRule α) (w v : VarId) (weight gradient velocity : Tensor α)
    (V : Valuation α) : Except (Error α) (Valuation α) :=
  match rule.apply weight.decoded gradient.decoded velocity.decoded with
  | .ok [a, b] => do
    let weight' ← n.keep weight.type a
    let velocity' ← n.keep velocity.type b
    .ok ((V.assign w weight').assign v velocity')
  | .ok _ => .error (.kernel n.name .operandCount)
  | .error fault => .error (.kernel n.name fault)

/-- The valuation after node `id`. -/
def evaluate (n : Node α) (id : NodeId) (V : Valuation α) : Except (Error α) (Valuation α) := do
  let xs ← n.inputs.mapM V.read
  match n.kind, n.inputs, xs with
  | .save, [_, .var d], [x, old] => n.saveTo d x old V
  | .update rule, [.var w, _, .var v], [weight, gradient, velocity] =>
    n.updateWith rule w v weight gradient velocity V
  | _, _, _ =>
    match n.type with
    | some type => do
      let t ← n.value type xs
      .ok (V.record id t)
    | none => .error (.unresolvedType n.name)

end Node

namespace Node

theorem value_of_not_sum {n : Node α} {type : TensorType α} {xs : List (Tensor α)}
    (h : n.kind ≠ .gradientSum) :
    n.value type xs = n.keepResult type (n.kind.numbers type.dims (xs.map Tensor.decoded)) := by
  rw [value]
  split
  · next hk => exact absurd hk h
  · rfl

/-- The nodes that have a value are computed from what is read of their inputs. -/
theorem evaluate_of_hasValue {n : Node α} {id : NodeId} {V : Valuation α} {xs : List (Tensor α)}
    {type : TensorType α} (hk : n.kind.hasValue = true) (hxs : n.inputs.mapM V.read = .ok xs)
    (htype : n.type = some type) :
    n.evaluate id V = (n.value type xs).map (V.record id) := by
  simp only [evaluate, hxs, bind, Except.bind]
  split
  · next h _ => rw [h] at hk; cases hk
  · next h _ => rw [h] at hk; cases hk
  · next ys _ _ =>
    rw [htype]
    cases n.value type ys <;> rfl

theorem evaluate_save {n : Node α} {id : NodeId} {V : Valuation α} {r : Ref} {d : VarId}
    {x old : Tensor α} (hk : n.kind = .save) (hi : n.inputs = [r, .var d])
    (hxs : n.inputs.mapM V.read = .ok [x, old]) : n.evaluate id V = n.saveTo d x old V := by
  rw [hi] at hxs
  simp only [evaluate, hxs, hk, hi, bind, Except.bind]

theorem evaluate_update {n : Node α} {id : NodeId} {V : Valuation α} {rule : UpdateRule α}
    {r : Ref} {w v : VarId} {weight gradient velocity : Tensor α} (hk : n.kind = .update rule)
    (hi : n.inputs = [.var w, r, .var v])
    (hxs : n.inputs.mapM V.read = .ok [weight, gradient, velocity]) :
    n.evaluate id V = n.updateWith rule w v weight gradient velocity V := by
  rw [hi] at hxs
  simp only [evaluate, hxs, hk, hi, bind, Except.bind]

end Node

/-- What a save overwrites is a variable, and so are the weight and the velocity of an update. -/
def Node.StoresIntoVariables (n : Node α) : Prop :=
  match n.kind, n.inputs with
  | .save, [_, d] => ∃ v, d = .var v
  | .update _, [w, _, v] => (∃ id, w = .var id) ∧ ∃ id, v = .var id
  | _, _ => True

/-- The valuation after these nodes, the first of which is node `i`, or the node that has no value
and why. -/
def evaluateFrom (i : Nat) (ns : List (Node α)) (V : Valuation α) :
    Except (NodeId × Error α) (Valuation α) :=
  match ns with
  | [] => .ok V
  | n :: rest =>
    match n.evaluate ⟨i⟩ V with
    | .ok V' => evaluateFrom (i + 1) rest V'
    | .error e => .error (⟨i⟩, e)

/-- What a graph makes of the contents of variables. -/
def Graph.evaluate (g : Graph α) (vars : VarId → Option (Tensor α)) :
    Except (NodeId × Error α) (Valuation α) :=
  evaluateFrom 0 g.nodes.toList (.start vars)

@[simp] theorem evaluateFrom_nil (i : Nat) (V : Valuation α) : evaluateFrom i [] V = .ok V := rfl

theorem evaluateFrom_append (i : Nat) (ns ms : List (Node α)) (V : Valuation α) :
    evaluateFrom i (ns ++ ms) V =
      match evaluateFrom i ns V with
      | .ok V' => evaluateFrom (i + ns.length) ms V'
      | .error e => .error e := by
  induction ns generalizing i V with
  | nil => simp
  | cons n ns ih =>
    simp only [List.cons_append, evaluateFrom]
    cases n.evaluate ⟨i⟩ V with
    | error e => rfl
    | ok V' =>
      simp only [ih (i + 1) V', List.length_cons]
      rw [Nat.add_right_comm, Nat.add_assoc]

end NeuralGraph
