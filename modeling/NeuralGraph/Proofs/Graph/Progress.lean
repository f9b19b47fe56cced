import NeuralGraph.Proofs.Graph.Solutions
import NeuralGraph.Proofs.Graph.Updating
import NeuralGraph.Proofs.Module.Evolution
import NeuralGraph.Proofs.Program.Safety

/-!
# Progress of an evaluation

While the variables of a proper graph of layers hold tensors of their types, its nodes have values one
after the other, and these have the types of the nodes.  `Node.Stuck` lists the inputs that are refused
although their types suit the node; nothing else stops an evaluation, unless an array is too large.
-/

namespace NeuralGraph
set_option autoImplicit false
variable {α : Type} [Scalar α]

/-! ## Inputs that are refused -/

/-- The node of a layer has no value for these inputs, although their types suit it. -/
inductive Node.Stuck (n : Node α) : List (Tensor α) → Prop
  /-- A position that names no row. -/
  | position {data positions : Tensor α} {v : α} : n.kind = .compute .gather →
    v ∈ positions.decoded.array.data.toList → ¬Kernel.IsIndex data.type.rows v →
    Stuck n [data, positions]
  /-- No rows, in a batch whose rows would have elements. -/
  | batch {x weights bias : Tensor α} : n.kind = .compute .dense → x.type.rows = 0 →
    x.type.rowSize ≠ 0 → Stuck n [x, weights, bias]
  /-- Patches of one element each, for several filters and several pixels. -/
  | patches {w : Window} {type : TensorType α} {image filters bias : Tensor α} :
    n.kind = .compute (.convolution w) → n.type = some type →
    w.kernel * w.kernel * image.type.channels = 1 → 1 < filters.type.rows →
    1 < volume (type.dims.take 3) → Stuck n [image, filters, bias]

/-- Arrays can have the dimensions of the node, of its inputs, and of the patch matrix if it has one. -/
def Node.Fits (n : Node α) (xs : List (Tensor α)) : Prop :=
  ∀ type, n.type = some type →
    match n.kind with
    | .compute op => Opcode.Addressable (.compute op) (type :: xs.map Tensor.type)
    | _ => addressable type.dims = true

/-- Evaluation of the graph from these contents comes to the node, whose inputs are then `xs`. -/
def Graph.Meets (g : Graph α) (vars : VarId → Option (Tensor α)) (n : Node α)
    (xs : List (Tensor α)) : Prop :=
  ∃ i V, g.node? i = some n ∧ evaluateFrom 0 (g.nodes.toList.take i.index) (.start vars) = .ok V ∧
    n.inputs.mapM V.read = .ok xs

/-- For the operators of layers, instructions and nodes are refused the same. -/
theorem Node.stuck_iff {n : Node α} {op : Operator α} {type : TensorType α} {xs : List (Tensor α)}
    (kind : n.kind = .compute op) (typed : n.type = some type) (forward : op.IsForward)
    (suits : Signature.operator op (type :: xs.map Tensor.type) = .ok ()) :
    n.Stuck xs ↔ Opcode.Refuses (.compute op) (.zeros type :: xs) := by
  constructor
  · intro stuck
    cases stuck with
    | position kind' named bad =>
      cases kind.symm.trans kind'
      exact ⟨_, named, bad⟩
    | batch kind' rows size =>
      cases kind.symm.trans kind'
      exact ⟨rows, size⟩
    | patches kind' typed' single filters pixels =>
      cases kind.symm.trans kind'
      cases typed.symm.trans typed'
      exact ⟨single, filters, pixels⟩
  · intro refused
    rw [Opcode.Refuses.eq_def] at refused
    split at refused
    · next same inputs =>
      cases same
      cases inputs
      obtain ⟨v, named, bad⟩ := refused
      exact .position kind named bad
    · next same _ =>
      cases same
      exact forward.elim
    · next same inputs =>
      cases same
      cases inputs
      obtain ⟨length, -⟩ := Signature.transpose_eq_ok suits
      exact absurd (length ▸ forward) refused
    · next same _ =>
      cases same
      exact forward.elim
    · next same inputs =>
      cases same
      cases inputs
      exact .batch kind refused.1 refused.2
    · next same inputs =>
      cases same
      cases inputs
      exact .patches kind typed refused.1 refused.2.1 refused.2.2
    · exact refused.elim

/-! ## One node -/

/-- The outcome of a node: it has a value exactly if it is not stuck. -/
structure Node.Settles {β : Type} (n : Node α) (xs : List (Tensor α))
    (r : Except (Error α) β) : Prop where
  refuses : n.Stuck xs → ∃ e, r = .error e
  succeeds : ¬n.Stuck xs → ∃ b, r = .ok b

namespace Node
variable {n : Node α} {type : TensorType α} {xs : List (Tensor α)}

/-- Only operators get stuck. -/
theorem not_stuck (other : ∀ op, n.kind ≠ .compute op) : ¬n.Stuck xs := by
  intro stuck
  cases stuck with
  | position kind => exact other _ kind
  | batch kind => exact other _ kind
  | patches kind => exact other _ kind

theorem Settles.of_eq_ok {β : Type} {r : Except (Error α) β} {b : β}
    (other : ∀ op, n.kind ≠ .compute op) (h : r = .ok b) : n.Settles xs r :=
  ⟨fun stuck => absurd stuck (not_stuck other), fun _ => ⟨b, h⟩⟩

theorem settles_compute {op : Operator α} (kind : n.kind = .compute op) (typed : n.type = some type)
    (forward : op.IsForward) (count : xs.length = op.arity) (fits : n.Fits xs)
    (suits : Signature.operator op (type :: xs.map Tensor.type) = .ok ()) :
    n.Settles xs (n.value type xs) := by
  have small : Opcode.Addressable (.compute op) (type :: xs.map Tensor.type) := by
    have := fits type typed
    rwa [kind] at this
  have room : addressable type.dims = true := small.1 type List.mem_cons_self
  have settles := op.compute_settles (.zeros type) xs count suits small
  rw [Tensor.zeros_type] at settles
  have value : n.value type xs = n.keepResult type (op.apply type.dims (xs.map Tensor.decoded)) := by
    rw [value_of_not_sum (by simp [kind]), kind]
    rfl
  rw [value]
  constructor
  · intro stuck
    obtain ⟨fault, failed⟩ := settles.refuses ((stuck_iff kind typed forward suits).mp stuck)
    rw [Operator.apply_of_fault failed]
    exact ⟨_, rfl⟩
  · intro free
    obtain ⟨a, found, dims⟩ := settles.succeeds fun refused =>
      free ((stuck_iff kind typed forward suits).mpr refused)
    rw [Operator.apply_of_compute found dims room]
    exact ⟨_, n.keep_of_dims (a := ⟨a, _⟩) dims⟩

/-- A node with inputs of types that its kind accepts. -/
theorem settles_value {ts : List (TensorType α)} (accepts : n.kind.Accepts ts (some type))
    (typed : n.type = some type) (forward : n.kind.IsForward)
    (arity : ∀ count, n.kind.arity = some count → xs.length = count) (fits : n.Fits xs)
    (shapes : List.Forall₂ TensorType.SameShape (xs.map Tensor.type) ts) :
    n.Settles xs (n.value type xs) := by
  generalize kind : n.kind = k at accepts forward arity
  have value : k ≠ .gradientSum →
      n.value type xs = n.keepResult type (k.numbers type.dims (xs.map Tensor.decoded)) := by
    intro other
    rw [value_of_not_sum (kind ▸ other), kind]
  have room : (∀ op, k ≠ .compute op) → addressable type.dims = true := by
    intro other
    have := fits type typed
    rw [kind] at this
    split at this
    · next op => exact absurd rfl (other op)
    · exact this
  cases accepts with
  | @unary op =>
    refine settles_compute kind typed forward (arity _ rfl) fits ?_
    obtain ⟨x, rfl⟩ := List.length_eq_one_iff.mp (arity _ rfl)
    obtain ⟨same, -⟩ := List.forall₂_cons.mp shapes
    simpa [Signature.operator] using same.1
  | @compute op _ _ _ suits =>
    refine settles_compute kind typed forward (arity _ rfl) fits ?_
    refine Signature.operator_congr op (.cons ⟨rfl, rfl⟩ ?_) suits
    exact shapes.flip.imp fun _ _ same => ⟨same.1.symm, same.2.symm⟩
  | @reshape dims x _ volumes =>
    obtain ⟨y, rfl⟩ := List.length_eq_one_iff.mp (arity _ rfl)
    obtain ⟨same, -⟩ := List.forall₂_cons.mp shapes
    have sizes : volume y.decoded.array.dims = volume type.dims := by
      rw [Tensor.decoded_array_dims, same.1, volumes]
    have numbers := value (by simp)
    simp only [List.map_cons, List.map_nil, NodeKind.numbers,
      Kernel.reshape_eq sizes (room (by simp))] at numbers
    exact .of_eq_ok (by simp [kind]) (numbers.trans (n.keep_of_dims rfl))
  | @regression _ e same =>
    obtain ⟨y, z, rfl⟩ := List.length_eq_two.mp (arity _ rfl)
    obtain ⟨own, -⟩ := List.forall₂_cons.mp shapes
    exact .of_eq_ok (by simp [kind]) ((value (by simp)).trans
      (n.keep_of_dims (y.decoded_dims.trans own.1)))
  | splat =>
    obtain rfl := List.length_eq_zero_iff.mp (arity _ rfl)
    exact .of_eq_ok (by simp [kind]) ((value (by simp)).trans (n.keep_of_dims rfl))
  | gradientSum => exact forward.elim

theorem Settles.map {β γ : Type} {r : Except (Error α) β} (settles : n.Settles xs r) (f : β → γ) :
    n.Settles xs (r.map f) where
  refuses stuck := by
    obtain ⟨e, rfl⟩ := settles.refuses stuck
    exact ⟨e, rfl⟩
  succeeds free := by
    obtain ⟨b, rfl⟩ := settles.succeeds free
    exact ⟨f b, rfl⟩

end Node

/-! ## Contents of the types of the graph -/

/-- Variables that the graph uses hold tensors of their types, and so do the nodes before node `k`. -/
structure Valuation.Suits (V : Valuation α) (m : Module α) (g : Graph α) (k : Nat) : Prop where
  vars : ∀ v t, g.References v → m.typeOf g (.var v) = .ok t →
    ∃ x, V.vars v = some x ∧ x.type.SameShape t
  nodes : ∀ i t, i.index < k → m.typeOf g (.node i) = .ok t →
    ∃ x, V.nodes i = some x ∧ x.type.SameShape t

namespace Valuation.Suits
variable {V V' : Valuation α} {m : Module α} {g : Graph α} {k : Nat} {n : Node α}

omit [Scalar α] in
theorem read (suits : V.Suits m g k) (formed : g.WellFormed) (hn : g.node? ⟨k⟩ = some n) {r : Ref}
    {t : TensorType α} (used : r ∈ n.inputs) (typed : m.typeOf g r = .ok t) :
    ∃ x, V.read r = .ok x ∧ x.type.SameShape t := by
  cases r with
  | var v =>
    obtain ⟨x, held, same⟩ := suits.vars v t ⟨n, Array.mem_of_getElem? hn, used⟩ typed
    exact ⟨x, read_var_eq_ok.mpr held, same⟩
  | node i =>
    obtain ⟨x, held, same⟩ := suits.nodes i t 
      (formed.ordered k n hn i (Graph.mem_nodeInputs.mpr used)) typed
    exact ⟨x, read_node_eq_ok.mpr held, same⟩

omit [Scalar α] in
/-- The inputs of the next node are there, in the types that it was checked with. -/
theorem readAll (suits : V.Suits m g k) (formed : g.WellFormed) (hn : g.node? ⟨k⟩ = some n)
    {ts : List (TensorType α)} (types : m.TypesOf g n.inputs ts) :
    ∃ xs, n.inputs.mapM V.read = .ok xs ∧
      List.Forall₂ TensorType.SameShape (xs.map Tensor.type) ts := by
  have read {r : Ref} {t : TensorType α} (used : r ∈ n.inputs) (typed : m.typeOf g r = .ok t) :=
    suits.read formed hn used typed
  rw [Module.TypesOf] at types
  generalize n.inputs = rs at types read
  induction types with
  | nil => exact ⟨[], rfl, .nil⟩
  | @cons r t rs ts typed _ ih =>
    obtain ⟨x, held, same⟩ := read List.mem_cons_self typed
    obtain ⟨xs, reads, shapes⟩ := ih fun used typed => read (List.mem_cons_of_mem _ used) typed
    exact ⟨x :: xs, by rw [List.mapM_cons, held, reads]; rfl, .cons same shapes⟩

/-- The next node has a value exactly if it is not stuck. -/
theorem settles (suits : V.Suits m g k) (proper : g.Proper m) (hn : g.node? ⟨k⟩ = some n)
    (forward : n.kind.IsForward) {xs : List (Tensor α)} (reads : n.inputs.mapM V.read = .ok xs)
    (fits : n.Fits xs) : n.Settles xs (n.evaluate ⟨k⟩ V) := by
  have mem : n ∈ g.nodes := Array.mem_of_getElem? hn
  have typed := proper.typed n mem
  obtain ⟨ts, types, accepts⟩ := typed.accepts
  obtain ⟨xs', reads', shapes⟩ := suits.readAll proper.formed hn types
  obtain rfl := Except.ok.inj (reads.symm.trans reads')
  have length : xs.length = n.inputs.length := by
    rw [types.length_eq, ← shapes.length_eq, List.length_map]
  cases type : n.type with
  | some d =>
    rw [type] at accepts
    rw [Node.evaluate_of_hasValue accepts.hasValue reads type]
    exact (Node.settles_value accepts type forward
      (fun count arity => length.trans (proper.formed.arities n mem count arity)) fits shapes).map _
  | none =>
    have stores := typed.stores
    rw [type] at accepts
    rw [Node.StoresIntoVariables] at stores
    generalize kind : n.kind = operation at accepts forward stores
    cases accepts with
    | save same =>
      obtain ⟨source, destination, inputs⟩ := List.length_eq_two.mp types.length_eq
      obtain ⟨x, old, rfl⟩ := List.length_eq_two.mp (length.trans types.length_eq)
      rw [inputs] at stores
      obtain ⟨v, rfl⟩ := stores
      rcases shapes with _ | ⟨own, _ | ⟨held, -⟩⟩
      have dims : x.decoded.dims = old.type.dims :=
        x.decoded_dims.trans (own.1.trans ((TensorType.dims_eq_of_beq same).trans held.1.symm))
      have step : n.evaluate ⟨k⟩ V = n.saveTo v x old V := Node.evaluate_save kind inputs reads
      rw [Node.saveTo, n.keep_of_dims dims] at step
      exact .of_eq_ok (by simp [kind]) step
    | update => exact forward.elim

/-- The next node leaves contents that suit. -/
theorem evaluate (suits : V.Suits m g k) (proper : g.Proper m) (hn : g.node? ⟨k⟩ = some n)
    (forward : n.kind.IsForward) (h : n.evaluate ⟨k⟩ V = .ok V') : V'.Suits m g (k + 1) := by
  have plain : n.kind.hasValue = true ∨ n.kind = .save := by
    generalize n.kind = kind at forward
    cases kind with
    | update => exact forward.elim
    | save => exact .inr rfl
    | _ => exact .inl rfl
  rcases Node.evaluate_cases h plain with
    ⟨valued, t, ⟨xs, type, typed, -, value⟩, rfl⟩ | ⟨d, old, t, stored, held, type, rfl⟩
  · refine ⟨suits.vars, fun i u before known => ?_⟩
    by_cases own : i = ⟨k⟩
    · subst own
      obtain ⟨n', hn', typed'⟩ := Module.typeOf_node_iff.mp known
      obtain rfl := Option.some.inj (hn.symm.trans hn')
      obtain rfl := Option.some.inj (typed.symm.trans typed')
      refine ⟨t, V.record_self _ t, ?_⟩
      rw [Node.value_type value]
      exact ⟨rfl, rfl⟩
    · have earlier : i.index < k := by
        have : i.index ≠ k := fun e => own (congrArg NodeId.mk e)
        omega
      rw [V.record_ne t own]
      exact suits.nodes i u earlier known
  · refine ⟨fun v u used known => ?_, fun i u before known => ?_⟩
    · by_cases own : v = d
      · subst own
        obtain ⟨x, held', same⟩ := suits.vars v u used known
        obtain rfl := Option.some.inj (held.symm.trans held')
        exact ⟨t, V.assign_self v t, type ▸ same⟩
      · rw [V.assign_ne t own]
        exact suits.vars v u used known
    · rw [Valuation.assign_nodes]
      refine suits.nodes i u ?_ known
      by_contra late
      obtain ⟨n', hn', typed⟩ := Module.typeOf_node_iff.mp known
      obtain rfl : i = ⟨k⟩ := congrArg NodeId.mk (by omega : i.index = k)
      obtain rfl := Option.some.inj (hn.symm.trans hn')
      rw [Node.storesInto_of_hasValue (proper.hasValue (Array.mem_of_getElem? hn) typed)] at stored
      cases stored

end Valuation.Suits

/-! ## Evaluations -/

/-- An evaluation that fails has come to a node that has no value. -/
theorem evaluateFrom_eq_error {k : Nat} {ns : List (Node α)} {V : Valuation α} {i : NodeId}
    {e : Error α} (h : evaluateFrom k ns V = .error (i, e)) :
    ∃ j n V', ns[j]? = some n ∧ i = ⟨k + j⟩ ∧ evaluateFrom k (ns.take j) V = .ok V' ∧
      n.evaluate i V' = .error e := by
  induction ns generalizing k V with
  | nil => cases h
  | cons n ns ih =>
    rw [evaluateFrom] at h
    cases first : n.evaluate ⟨k⟩ V with
    | error e' =>
      rw [first] at h
      cases h
      exact ⟨0, n, V, rfl, rfl, rfl, first⟩
    | ok V₁ =>
      rw [first] at h
      obtain ⟨j, n', V', hj, rfl, before, failed⟩ := ih h
      refine ⟨j + 1, n', V', hj, congrArg NodeId.mk (by omega), ?_, failed⟩
      rw [List.take_succ_cons, evaluateFrom, first]
      exact before

/-- A node that has no value stops the evaluation. -/
theorem evaluateFrom_of_error {ns : List (Node α)} {V V' : Valuation α} {j : Nat} {n : Node α}
    {e : Error α} (hj : ns[j]? = some n) (before : evaluateFrom 0 (ns.take j) V = .ok V')
    (failed : n.evaluate ⟨j⟩ V' = .error e) : evaluateFrom 0 ns V = .error (⟨j⟩, e) := by
  obtain ⟨bound, rfl⟩ := List.getElem?_eq_some_iff.mp hj
  have split : ns = ns.take j ++ ns[j] :: ns.drop (j + 1) := by
    rw [List.getElem_cons_drop, List.take_append_drop]
  rw [split, evaluateFrom_append, before]
  simp only [List.length_take, Nat.min_eq_left (Nat.le_of_lt bound), Nat.zero_add, evaluateFrom,
    failed]

namespace Graph.Proper
variable {m : Module α} {g : Graph α} {vars : VarId → Option (Tensor α)}

theorem suits (proper : g.Proper m) (forward : ∀ n ∈ g.nodes, n.kind.IsForward)
    (start : (Valuation.start vars).Suits m g 0) {k : Nat} (bound : k ≤ g.size) {V : Valuation α}
    (h : evaluateFrom 0 (g.nodes.toList.take k) (.start vars) = .ok V) : V.Suits m g k := by
  induction k generalizing V with
  | zero =>
    cases h
    exact start
  | succ k ih =>
    have hk : k < g.nodes.toList.length := by rw [Array.length_toList]; exact bound
    have hn : g.node? ⟨k⟩ = some g.nodes.toList[k] := by
      rw [node?, ← Array.getElem?_toList, List.getElem?_eq_getElem hk]
    rw [List.take_succ_eq_append_getElem hk, evaluateFrom_append] at h
    cases before : evaluateFrom 0 (g.nodes.toList.take k) (.start vars) with
    | error e =>
      rw [before] at h
      cases h
    | ok V₁ =>
      simp only [before, List.length_take, Nat.min_eq_left (Nat.le_of_lt hk), Nat.zero_add] at h
      obtain ⟨V₂, step, rest⟩ := evaluateFrom_cons h
      cases rest
      exact (ih (Nat.le_of_lt bound) before).evaluate proper hn
        (forward _ (Array.mem_of_getElem? hn)) step

/-- An evaluation that fails has come to a node that is stuck, or does not fit. -/
theorem stuck_of_error (proper : g.Proper m) (forward : ∀ n ∈ g.nodes, n.kind.IsForward)
    (start : (Valuation.start vars).Suits m g 0) {i : NodeId} {e : Error α}
    (h : g.evaluate vars = .error (i, e)) :
    ∃ n xs, g.Meets vars n xs ∧ (n.Stuck xs ∨ ¬n.Fits xs) := by
  obtain ⟨j, n, V, hj, rfl, before, failed⟩ := evaluateFrom_eq_error h
  rw [Nat.zero_add] at failed
  have hn : g.node? ⟨j⟩ = some n := by rw [node?, ← Array.getElem?_toList]; exact hj
  have mem : n ∈ g.nodes := Array.mem_of_getElem? hn
  have suits := proper.suits forward start (Nat.le_of_lt (Array.getElem?_eq_some_iff.mp hn).1) before
  obtain ⟨ts, types, -⟩ := (proper.typed n mem).accepts
  obtain ⟨xs, reads, -⟩ := suits.readAll proper.formed hn types
  refine ⟨n, xs, ⟨⟨j⟩, V, hn, before, reads⟩, ?_⟩
  by_contra free
  obtain ⟨free, fits⟩ := not_or.mp free
  obtain ⟨V', value⟩ :=
    (suits.settles proper hn (forward n mem) reads (not_not.mp fits)).succeeds free
  cases failed.symm.trans value

/-- An evaluation that comes to a node that is stuck fails there. -/
theorem error_of_stuck (proper : g.Proper m) (forward : ∀ n ∈ g.nodes, n.kind.IsForward)
    (start : (Valuation.start vars).Suits m g 0) {n : Node α} {xs : List (Tensor α)}
    (meets : g.Meets vars n xs) (stuck : n.Stuck xs) (fits : n.Fits xs) :
    ∃ i e, g.evaluate vars = .error (i, e) := by
  obtain ⟨⟨j⟩, V, hn, before, reads⟩ := meets
  have suits := proper.suits forward start (Nat.le_of_lt (Array.getElem?_eq_some_iff.mp hn).1) before
  obtain ⟨e, failed⟩ :=
    (suits.settles proper hn (forward n (Array.mem_of_getElem? hn)) reads fits).refuses stuck
  refine ⟨⟨j⟩, e, evaluateFrom_of_error ?_ before failed⟩
  rw [Array.getElem?_toList]
  exact hn

end Graph.Proper
end NeuralGraph
