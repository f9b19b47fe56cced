import NeuralGraph.Proofs.Graph.Solutions

/-!
# Updating and saving

What a graph does with variables.  Updates that share no variable all start from what variables hold
before the first of them, so it is as if they took place at the same time.
-/

namespace NeuralGraph
set_option autoImplicit false
variable {α : Type}

/-- The node updates a weight along a gradient, with a velocity. -/
structure Node.IsUpdate (n : Node α) (rule : UpdateRule α) (weight : VarId) (gradient : NodeId)
    (velocity : VarId) : Prop where
  kind : n.kind = .update rule
  inputs : n.inputs = [.var weight, .node gradient, .var velocity]

theorem Node.IsUpdate.storesInto {n : Node α} {rule : UpdateRule α} {w u : VarId} {d : NodeId}
    (h : n.IsUpdate rule w d u) : n.storesInto = [w, u] := by
  simp only [Node.storesInto, h.kind, h.inputs, List.filterMap_cons, List.filterMap_nil]

namespace Graph

/-- A node of the graph saves into the variable. -/
def Saves (g : Graph α) (v : VarId) : Prop :=
  ∃ n ∈ g.nodes, n.kind = .save ∧ ∃ r, n.inputs = [r, .var v]

/-- The variable is an input of a node of the graph. -/
def References (g : Graph α) (v : VarId) : Prop := ∃ n ∈ g.nodes, .var v ∈ n.inputs

/-- A node of the graph updates the weight along a gradient, with a velocity. -/
def Updates (g : Graph α) (weight : VarId) (gradient : NodeId) (velocity : VarId) : Prop :=
  ∃ n ∈ g.nodes, ∃ rule, n.IsUpdate rule weight gradient velocity

/-- The variables that are saved into. -/
def saved (g : Graph α) : List VarId :=
  g.nodes.toList.filterMap fun (n : Node α) =>
    match n.kind, n.inputs with
    | .save, [_, .var v] => some v
    | _, _ => none

/-- The variables that are inputs. -/
def referenced (g : Graph α) : List VarId :=
  g.nodes.toList.flatMap fun (n : Node α) => n.inputs.filterMap fun (r : Ref) =>
    match r with
    | .var v => some v
    | .node _ => none

/-- The weights that are updated, each with its gradient and its velocity. -/
def updated (g : Graph α) : List (VarId × NodeId × VarId) :=
  g.nodes.toList.filterMap fun (n : Node α) =>
    match n.kind, n.inputs with
    | .update _, [.var w, .node d, .var u] => some (w, d, u)
    | _, _ => none

theorem mem_saved {g : Graph α} {v : VarId} : v ∈ g.saved ↔ g.Saves v := by
  simp only [saved, Saves, List.mem_filterMap, Array.mem_toList_iff]
  refine exists_congr fun n => and_congr_right fun _ => ⟨fun h => ?_, fun ⟨kind, r, inputs⟩ => ?_⟩
  · split at h
    · next r w kind inputs =>
      cases h
      exact ⟨kind, r, inputs⟩
    · cases h
  · rw [kind, inputs]

theorem mem_referenced {g : Graph α} {v : VarId} : v ∈ g.referenced ↔ g.References v := by
  simp only [referenced, References, List.mem_flatMap, List.mem_filterMap, Array.mem_toList_iff]
  refine exists_congr fun n => and_congr_right fun _ => ⟨fun ⟨r, hr, h⟩ => ?_, fun h => ⟨_, h, rfl⟩⟩
  cases r with
  | var w =>
    cases h
    exact hr
  | node _ => cases h

theorem mem_updated {g : Graph α} {w u : VarId} {d : NodeId} :
    (w, d, u) ∈ g.updated ↔ g.Updates w d u := by
  simp only [updated, Updates, List.mem_filterMap, Array.mem_toList_iff]
  refine exists_congr fun n => and_congr_right fun _ =>
    ⟨fun h => ?_, fun ⟨rule, kind, inputs⟩ => ?_⟩
  · split at h
    · next rule _ _ _ kind inputs =>
      cases h
      exact ⟨rule, kind, inputs⟩
    · cases h
  · rw [kind, inputs]

theorem Saves.references {g : Graph α} {v : VarId} (h : g.Saves v) : g.References v := by
  obtain ⟨n, hn, -, r, inputs⟩ := h
  exact ⟨n, hn, by rw [inputs]; exact List.mem_cons_of_mem _ (List.mem_singleton_self _)⟩

end Graph

variable [Scalar α]

/-! ## One step of descent -/

/-- `velocity' = momentum * velocity - learningRate * (gradient + decay * weight)` and
`weight' = weight + velocity'`, element by element. -/
structure UpdateRule.Descends (rule : UpdateRule α)
    (weight gradient velocity weight' velocity' : Tensor α) : Prop where
  types : weight'.type = weight.type ∧ velocity'.type = velocity.type
  velocity : ∀ i < volume weight.type.dims, velocity'.array.get i =
    rule.momentum * velocity.array.get i -
      rule.learningRate * (gradient.array.get i + rule.decay * weight.array.get i)
  weight : ∀ i < volume weight.type.dims, weight'.array.get i =
    weight.array.get i + velocity'.array.get i

theorem Tensor.decoded_array {t : Tensor α} (float : t.type.element = .float) :
    t.decoded.array = t.array := by
  rw [decoded, TensorType.decode_of_float float, DenseArray.map_id]

theorem Tensor.encoded_array {type : TensorType α} (float : type.element = .float)
    (a : PlacedArray α) (h : a.dims = type.dims) : (encoded type a h).array = a.array := by
  show a.array.map type.encode = a.array
  rw [TensorType.encode_of_float float, DenseArray.map_id]

/-- The rule turns a weight and its velocity into new ones, which are stored under their types. -/
def UpdateRule.Makes (rule : UpdateRule α) (weight gradient velocity weight' velocity' : Tensor α) :
    Prop :=
  ∃ a b ha hb, rule.apply weight.decoded gradient.decoded velocity.decoded = .ok [a, b] ∧
    weight' = .encoded weight.type a ha ∧ velocity' = .encoded velocity.type b hb

/-- Of number tensors the rule makes a step of descent. -/
theorem UpdateRule.Makes.descends {rule : UpdateRule α}
    {weight gradient velocity weight' velocity' : Tensor α}
    (h : rule.Makes weight gradient velocity weight' velocity')
    (fw : weight.type.element = .float) (fg : gradient.type.element = .float)
    (fv : velocity.type.element = .float) :
    rule.Descends weight gradient velocity weight' velocity' := by
  obtain ⟨a, b, ha, hb, applied, rfl, rfl⟩ := h
  simp only [apply, Kernel.update, bind, Except.bind] at applied
  split at applied
  · cases applied
  · next updated done =>
    split at done
    · cases done
    · cases done
      simp only [Except.ok.injEq, List.cons.injEq, and_true] at applied
      obtain ⟨rfl, rfl⟩ := applied
      have dims : weight.decoded.array.dims = weight.type.dims := weight.decoded_dims
      refine ⟨⟨rfl, rfl⟩, fun i hi => ?_, fun i hi => ?_⟩
      · rw [Tensor.encoded_array fv, DenseArray.get_ofFn _ _ (by rw [dims]; exact hi),
          Tensor.decoded_array fw, Tensor.decoded_array fg, Tensor.decoded_array fv]
        rfl
      · rw [Tensor.encoded_array fw, Tensor.encoded_array fv,
          DenseArray.get_ofFn _ _ (by rw [dims]; exact hi), Tensor.decoded_array fw]

/-! ## One update -/

theorem Node.keep_eq_ok {n : Node α} {type : TensorType α} {a : PlacedArray α} {t : Tensor α}
    (h : n.keep type a = .ok t) : ∃ dims : a.dims = type.dims, t = .encoded type a dims := by
  rw [keep] at h
  split at h
  · next dims =>
    cases h
    exact ⟨dims, rfl⟩
  · cases h

variable {rule : UpdateRule α} {w u : VarId} {d : NodeId} {V V' : Valuation α}

theorem Node.IsUpdate.evaluate_eq_ok {n : Node α} {id : NodeId} (update : n.IsUpdate rule w d u)
    (h : n.evaluate id V = .ok V') : ∃ weight gradient velocity weight' velocity',
      V.vars w = some weight ∧ V.nodes d = some gradient ∧ V.vars u = some velocity ∧
        rule.Makes weight gradient velocity weight' velocity' ∧
        V' = (V.assign w weight').assign u velocity' := by
  cases reads : n.inputs.mapM V.read with
  | error e => simp [Node.evaluate, reads, bind, Except.bind] at h
  | ok xs =>
    have listed := forall₂_of_mapM_eq_ok reads
    rw [update.inputs] at listed
    rcases listed with _ | ⟨hw, _ | ⟨hd, _ | ⟨hu, _ | -⟩⟩⟩
    rw [Node.evaluate_update update.kind update.inputs reads, Node.updateWith] at h
    split at h
    · next a b applied =>
      simp only [bind, Except.bind] at h
      split at h
      · cases h
      · next weight' kept =>
        split at h
        · cases h
        · next velocity' kept' =>
          cases h
          obtain ⟨ha, rfl⟩ := Node.keep_eq_ok kept
          obtain ⟨hb, rfl⟩ := Node.keep_eq_ok kept'
          exact ⟨_, _, _, _, _, Valuation.read_var_eq_ok.mp hw, Valuation.read_node_eq_ok.mp hd,
            Valuation.read_var_eq_ok.mp hu, ⟨a, b, ha, hb, applied, rfl, rfl⟩, rfl⟩
    · cases h
    · cases h

/-! ## Updates one after the other -/

/-- All of the nodes are updates. -/
def AllUpdates (ns : List (Node α)) : Prop := ∀ n ∈ ns, ∃ rule w d u, n.IsUpdate rule w d u

/-- Updates compute no value, and change only what they store into. -/
theorem evaluateFrom_updates_frame {ns : List (Node α)} {i : Nat} (all : AllUpdates ns)
    (h : evaluateFrom i ns V = .ok V') : V'.nodes = V.nodes ∧
      ∀ v, (∀ n ∈ ns, v ∉ n.storesInto) → V'.vars v = V.vars v := by
  induction ns generalizing i V with
  | nil =>
    cases h
    exact ⟨rfl, fun _ _ => rfl⟩
  | cons n ns ih =>
    obtain ⟨V₁, first, rest⟩ := evaluateFrom_cons h
    obtain ⟨rule, w, d, u, update⟩ := all n List.mem_cons_self
    obtain ⟨_, _, _, weight', velocity', -, -, -, -, rfl⟩ := update.evaluate_eq_ok first
    obtain ⟨nodes, vars⟩ := ih (fun n hn => all n (List.mem_cons_of_mem _ hn)) rest
    refine ⟨nodes, fun v other => ?_⟩
    have apart := other n List.mem_cons_self
    rw [update.storesInto] at apart
    simp only [List.mem_cons, List.not_mem_nil, or_false, not_or] at apart
    rw [vars v fun n hn => other n (List.mem_cons_of_mem _ hn), Valuation.assign_ne _ _ apart.2,
      Valuation.assign_ne _ _ apart.1]

/-- Updates that share no variable all start from what there was before the first of them. -/
theorem evaluateFrom_updates {ns : List (Node α)} {i : Nat} (all : AllUpdates ns)
    (separate : ns.Pairwise fun (n m : Node α) => ∀ v ∈ n.storesInto, v ∉ m.storesInto)
    (h : evaluateFrom i ns V = .ok V') {n : Node α} (hn : n ∈ ns) (update : n.IsUpdate rule w d u)
    (own : w ≠ u) : ∃ weight gradient velocity weight' velocity',
      V.vars w = some weight ∧ V.nodes d = some gradient ∧ V.vars u = some velocity ∧
        rule.Makes weight gradient velocity weight' velocity' ∧
        V'.vars w = some weight' ∧ V'.vars u = some velocity' := by
  induction ns generalizing i V with
  | nil => cases hn
  | cons m ns ih =>
    obtain ⟨V₁, first, rest⟩ := evaluateFrom_cons h
    obtain ⟨apart, separate'⟩ := List.pairwise_cons.mp separate
    have all' : AllUpdates ns := fun n hn => all n (List.mem_cons_of_mem _ hn)
    have stores := update.storesInto
    have mem_w : w ∈ n.storesInto := by rw [stores]; exact List.mem_cons_self
    have mem_u : u ∈ n.storesInto := by
      rw [stores]
      exact List.mem_cons_of_mem _ (List.mem_singleton_self u)
    rcases List.mem_cons.mp hn with rfl | hn
    · obtain ⟨weight, gradient, velocity, weight', velocity', hw, hd, hu, makes, rfl⟩ :=
        update.evaluate_eq_ok first
      obtain ⟨-, vars⟩ := evaluateFrom_updates_frame all' rest
      refine ⟨weight, gradient, velocity, weight', velocity', hw, hd, hu, makes, ?_, ?_⟩
      · rw [vars w fun m hm => apart m hm w mem_w, Valuation.assign_ne _ _ own, Valuation.assign_self]
      · rw [vars u fun m hm => apart m hm u mem_u, Valuation.assign_self]
    · obtain ⟨weight, gradient, velocity, weight', velocity', hw, hd, hu, found⟩ :=
        ih all' separate' rest hn
      have single : AllUpdates [m] := fun m' hm' => by
        rw [List.mem_singleton.mp hm']
        exact all m List.mem_cons_self
      have one : evaluateFrom i [m] V = .ok V₁ := by rw [evaluateFrom, first]; rfl
      obtain ⟨nodes, vars⟩ := evaluateFrom_updates_frame single one
      have kept : ∀ v ∈ n.storesInto, V₁.vars v = V.vars v := fun v hv => vars v fun m' hm' => by
        rw [List.mem_singleton.mp hm']
        exact fun stored => apart n hn v stored hv
      exact ⟨weight, gradient, velocity, weight', velocity', (kept w mem_w) ▸ hw, nodes ▸ hd,
        (kept u mem_u) ▸ hu, found⟩

end NeuralGraph
