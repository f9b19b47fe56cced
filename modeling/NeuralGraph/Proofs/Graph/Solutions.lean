import NeuralGraph.Lowering
import NeuralGraph.Proofs.Module.Typing
import NeuralGraph.Proofs.Yields

/-!
# Solutions

After an evaluation every node satisfies its equation: its value is what its kind makes of the values
that its inputs have in the end.  This needs that no variable is stored into after it was read, and
it makes what is said about values independent of the order in which they were computed.
-/

namespace NeuralGraph
set_option autoImplicit false
variable {α : Type}

/-! ## One node -/

theorem Node.storesInto_of_hasValue {n : Node α} (h : n.kind.hasValue = true) :
    n.storesInto = [] := by
  unfold Node.storesInto
  split
  · next kind _ => simp [kind, NodeKind.hasValue] at h
  · next kind _ => simp [kind, NodeKind.hasValue] at h
  · rfl

theorem Valuation.read_var_eq_ok {V : Valuation α} {v : VarId} {t : Tensor α} :
    V.read (.var v) = .ok t ↔ V.vars v = some t := by
  rw [read]
  cases V.vars v <;> simp

theorem Valuation.read_node_eq_ok {V : Valuation α} {id : NodeId} {t : Tensor α} :
    V.read (.node id) = .ok t ↔ V.nodes id = some t := by
  rw [read]
  cases V.nodes id <;> simp

section
variable [Scalar α] {n : Node α} {id : NodeId} {V V' : Valuation α}

/-- The equation of a node with a value. -/
def Node.Computed (n : Node α) (V : Valuation α) (t : Tensor α) : Prop :=
  ∃ xs type, n.type = some type ∧ n.inputs.mapM V.read = .ok xs ∧ n.value type xs = .ok t

/-- What evaluating a node does that is not an update. -/
theorem Node.evaluate_cases (h : n.evaluate id V = .ok V')
    (plain : n.kind.hasValue = true ∨ n.kind = .save) :
    (n.kind.hasValue = true ∧ ∃ t, n.Computed V t ∧ V' = V.record id t) ∨
      ∃ d old t, n.storesInto = [d] ∧ V.vars d = some old ∧ t.type = old.type ∧
        V' = V.assign d t := by
  cases hxs : n.inputs.mapM V.read with
  | error e => simp [evaluate, hxs, bind, Except.bind] at h
  | ok xs =>
    rcases plain with valued | save
    · cases htype : n.type with
      | none =>
        simp only [evaluate, hxs, htype, bind, Except.bind] at h
        split at h
        · next kind _ => simp [kind, NodeKind.hasValue] at valued
        · next kind _ => simp [kind, NodeKind.hasValue] at valued
        · cases h
      | some type =>
        rw [evaluate_of_hasValue valued hxs htype] at h
        obtain ⟨t, hv, rfl⟩ := exists_of_map_eq_ok h
        exact .inl ⟨valued, t, ⟨xs, type, htype, hxs, hv⟩, rfl⟩
    · have refused : ∀ type, ∃ e, n.value type xs = .error e := by
        intro type
        rw [value_of_not_sum (by simp [save]), save]
        exact ⟨_, rfl⟩
      simp only [evaluate, hxs, bind, Except.bind] at h
      split at h
      · next r d x old _ inputs =>
        have held : V.vars d = some old := by
          rw [inputs] at hxs
          cases forall₂_of_mapM_eq_ok hxs with
          | cons _ rest =>
            cases rest with
            | cons read _ => exact Valuation.read_var_eq_ok.mp read
        simp only [saveTo, bind, Except.bind] at h
        split at h
        · cases h
        · next t kept =>
          cases h
          refine .inr ⟨d, old, t, ?_, held, keep_type kept, rfl⟩
          simp only [storesInto, save, inputs]
      · next kind _ => rw [save] at kind; cases kind
      · split at h
        · next type _ =>
          obtain ⟨e, he⟩ := refused type
          simp [he] at h
        · cases h

/-! ## A run -/

section
variable {ns : List (Node α)} {i : Nat} {V V' : Valuation α}

theorem evaluateFrom_cons {n : Node α} (h : evaluateFrom i (n :: ns) V = .ok V') :
    ∃ V₁, n.evaluate ⟨i⟩ V = .ok V₁ ∧ evaluateFrom (i + 1) ns V₁ = .ok V' := by
  rw [evaluateFrom] at h
  cases hn : n.evaluate ⟨i⟩ V with
  | error e => simp [hn] at h
  | ok V₁ => exact ⟨V₁, rfl, by simpa [hn] using h⟩

/-- Nodes that were computed before keep their values, and variables that are not stored into what
they hold. -/
theorem evaluateFrom_read (h : evaluateFrom i ns V = .ok V')
    (plain : ∀ n ∈ ns, n.kind.hasValue = true ∨ n.kind = .save) {r : Ref}
    (earlier : ∀ k, r = .node k → k.index < i)
    (kept : ∀ v, r = .var v → ∀ n ∈ ns, v ∉ n.storesInto) : V'.read r = V.read r := by
  induction ns generalizing i V with
  | nil =>
    cases h
    rfl
  | cons n ns ih =>
    obtain ⟨V₁, first, rest⟩ := evaluateFrom_cons h
    rw [ih rest (fun n hn => plain n (List.mem_cons_of_mem _ hn))
      (fun k hk => Nat.lt_succ_of_lt (earlier k hk))
      fun v hv n hn => kept v hv n (List.mem_cons_of_mem _ hn)]
    rcases Node.evaluate_cases first (plain n List.mem_cons_self) with
      ⟨-, t, -, rfl⟩ | ⟨d, old, t, stores, -, -, rfl⟩
    · refine V.read_record_ne t ?_
      rintro rfl
      exact absurd (earlier _ rfl) (Nat.lt_irrefl i)
    · cases r with
      | node k => rfl
      | var v =>
        have other : v ≠ d := by
          rintro rfl
          exact kept v rfl n List.mem_cons_self (by rw [stores]; exact List.mem_singleton_self v)
        simp only [Valuation.read, V.assign_ne t other]

/-- Variables hold tensors of the types that they held at first. -/
theorem evaluateFrom_vars (h : evaluateFrom i ns V = .ok V')
    (plain : ∀ n ∈ ns, n.kind.hasValue = true ∨ n.kind = .save) {v : VarId} {t : Tensor α}
    (ht : V'.vars v = some t) : ∃ u, V.vars v = some u ∧ t.type = u.type := by
  induction ns generalizing i V with
  | nil =>
    cases h
    exact ⟨t, ht, rfl⟩
  | cons n ns ih =>
    obtain ⟨V₁, first, rest⟩ := evaluateFrom_cons h
    obtain ⟨u, hu, same⟩ := ih rest fun n hn => plain n (List.mem_cons_of_mem _ hn)
    rcases Node.evaluate_cases first (plain n List.mem_cons_self) with
      ⟨-, w, -, rfl⟩ | ⟨d, old, w, -, hold, type, rfl⟩
    · exact ⟨u, hu, same⟩
    · by_cases e : v = d
      · subst e
        rw [Valuation.assign_self] at hu
        cases hu
        exact ⟨old, hold, same.trans type⟩
      · rw [V.assign_ne w e] at hu
        exact ⟨u, hu, same⟩

theorem evaluateFrom_computed (h : evaluateFrom i ns V = .ok V')
    (plain : ∀ n ∈ ns, n.kind.hasValue = true ∨ n.kind = .save)
    (past : ∀ k t, V.nodes k = some t → k.index < i)
    (kept : ns.Pairwise fun (n n' : Node α) =>
      n.kind.hasValue = true → ∀ v, Ref.var v ∈ n.inputs → v ∉ n'.storesInto)
    {j : Nat} {n : Node α} (hn : ns[j]? = some n) (valued : n.kind.hasValue = true) :
    ∃ t, n.Computed V' t ∧ V'.nodes ⟨i + j⟩ = some t := by
  induction ns generalizing i j V with
  | nil => simp at hn
  | cons a ns ih =>
    obtain ⟨V₁, first, rest⟩ := evaluateFrom_cons h
    have plain' := fun n hn => plain n (List.mem_cons_of_mem a hn)
    have step := Node.evaluate_cases first (plain a List.mem_cons_self)
    obtain ⟨here, kept'⟩ := List.pairwise_cons.mp kept
    cases j with
    | succ j =>
      have past' : ∀ k t, V₁.nodes k = some t → k.index < i + 1 := by
        intro k t hk
        rcases step with ⟨-, w, -, rfl⟩ | ⟨d, old, w, -, -, -, rfl⟩
        · by_cases e : k = ⟨i⟩
          · rw [e]
            exact Nat.lt_succ_self i
          · rw [V.record_ne w e] at hk
            exact Nat.lt_succ_of_lt (past k t hk)
        · exact Nat.lt_succ_of_lt (past k t hk)
      have later := ih rest plain' past' kept' hn
      rwa [Nat.add_right_comm, Nat.add_assoc] at later
    | zero =>
      cases hn
      rcases step with ⟨-, t, ⟨xs, type, htype, reads, value⟩, rfl⟩ | ⟨d, old, w, stores, -⟩
      · have final : V'.read (.node ⟨i⟩) = .ok t := by
          rw [evaluateFrom_read rest plain' (fun k hk => by cases hk; exact Nat.lt_succ_self i)
            (fun v hv => by cases hv)]
          exact Valuation.read_node_eq_ok.mpr (V.record_self ⟨i⟩ t)
        refine ⟨t, ⟨xs, type, htype, ?_, value⟩, Valuation.read_node_eq_ok.mp final⟩
        have listed := (List.forall₂_and_left _ _).mpr ⟨fun _ hr => hr, forall₂_of_mapM_eq_ok reads⟩
        refine mapM_eq_ok_of_forall₂ (listed.imp fun r x hr => ?_)
        rw [evaluateFrom_read h plain ?_ ?_, hr.2]
        · rintro k rfl
          exact past k x (Valuation.read_node_eq_ok.mp hr.2)
        · rintro v rfl a ha
          rcases List.mem_cons.mp ha with rfl | ha
          · simp [Node.storesInto_of_hasValue valued]
          · exact here a ha valued v hr.1
      · rw [Node.storesInto_of_hasValue valued] at stores
        cases stores

end

/-! ## Equations -/

/-- Variables hold tensors of their types, and every node that has a type satisfies its equation. -/
structure Graph.Solution (m : Module α) (g : Graph α) (V : Valuation α) : Prop where
  vars : ∀ v t u, V.vars v = some t → m.var? v = some u → t.type.SameShape u.type
  nodes : ∀ id n d, g.node? id = some n → n.type = some d → ∃ t, n.Computed V t ∧ V.nodes id = some t

/-- The numbers that a reference stands for, and where they lie. -/
def Valuation.placed (V : Valuation α) (r : Ref) : PlacedArray α :=
  match V.read r with
  | .ok t => t.decoded
  | .error _ => .byRows (.zeros [])

/-- The numbers that a reference stands for. -/
def Valuation.array (V : Valuation α) (r : Ref) : DenseArray α := (V.placed r).array

theorem Valuation.map_placed {V : Valuation α} {rs : List Ref} {xs : List (Tensor α)}
    (h : rs.mapM V.read = .ok xs) : rs.map V.placed = xs.map Tensor.decoded := by
  have listed := forall₂_of_mapM_eq_ok h
  clear h
  induction listed with
  | nil => rfl
  | cons h _ ih => rw [List.map_cons, List.map_cons, ih, placed, h]

theorem Valuation.array_of_read {V : Valuation α} {r : Ref} {t : Tensor α} (h : V.read r = .ok t) :
    V.array r = t.decoded.array := by
  rw [array, placed, h]

omit [Scalar α] in
theorem DenseArray.map_id (a : DenseArray α) : a.map (fun (x : α) => x) = a := by
  simp [map]

theorem TensorType.decode_of_float {t : TensorType α} (h : t.element = .float) :
    t.decode = fun (x : α) => x := by
  funext x
  simp [decode, isQuantized, h]

theorem TensorType.encode_of_float {t : TensorType α} (h : t.element = .float) :
    t.encode = fun (x : α) => x := by
  funext x
  simp [encode, isQuantized, h]

theorem Tensor.decoded_encoded {type : TensorType α} {a : PlacedArray α} (h : a.dims = type.dims)
    (float : type.element = .float) : (encoded type a h).decoded.array = a.array := by
  show (type.encodeAll a.array).map type.decode = a.array
  rw [TensorType.encodeAll, TensorType.encode_of_float float, TensorType.decode_of_float float,
    DenseArray.map_id, DenseArray.map_id]

namespace Node
variable {n : Node α} {type : TensorType α}

/-- What a value was made of. -/
theorem keepResult_eq_ok {r : Kernel α (PlacedArray α)} {t : Tensor α}
    (h : n.keepResult type r = .ok t) : ∃ a, ∃ dims : a.dims = type.dims,
      r = .ok a ∧ t = .encoded type a dims := by
  cases r with
  | error fault => cases h
  | ok a =>
    simp only [keepResult, keep] at h
    split at h
    · next dims =>
      cases h
      exact ⟨a, dims, rfl, rfl⟩
    · cases h

theorem foldlM_addTo_type {xs : List (Tensor α)} {total t : Tensor α}
    (h : xs.foldlM (n.addTo type) total = .ok t) (ht : total.type = type) : t.type = type := by
  induction xs generalizing total with
  | nil =>
    cases h
    exact ht
  | cons x xs ih =>
    rw [List.foldlM_cons] at h
    cases hx : n.addTo type total x with
    | error e => simp [hx, bind, Except.bind] at h
    | ok u => exact ih (by simpa [hx, bind, Except.bind] using h) (keepResult_type hx)

theorem value_type {xs : List (Tensor α)} {t : Tensor α} (h : n.value type xs = .ok t) :
    t.type = type := by
  rw [value] at h
  split at h
  · cases hz : n.keep type (.byRows (.fill type.dims 0)) with
    | error e => simp [hz, bind, Except.bind] at h
    | ok zero => exact foldlM_addTo_type (by simpa [hz, bind, Except.bind] using h) (keep_type hz)
  · exact keepResult_type h

end Node

namespace Graph.Solution
variable {m : Module α} {g : Graph α} {V : Valuation α} (solution : g.Solution m V)
include solution

theorem shape {r : Ref} {t : TensorType α} {x : Tensor α} (typed : m.typeOf g r = .ok t)
    (read : V.read r = .ok x) : x.type.SameShape t := by
  cases r with
  | var v =>
    obtain ⟨u, hu, rfl⟩ := Module.typeOf_var_iff.mp typed
    exact solution.vars v x u (Valuation.read_var_eq_ok.mp read) hu
  | node id =>
    obtain ⟨n, hn, hnt⟩ := Module.typeOf_node_iff.mp typed
    obtain ⟨y, ⟨xs, type, htype, -, value⟩, hy⟩ := solution.nodes id n t hn hnt
    obtain rfl := Option.some.inj (htype.symm.trans hnt)
    obtain rfl := Option.some.inj ((Valuation.read_node_eq_ok.mp read).symm.trans hy)
    rw [Node.value_type value]
    exact ⟨rfl, rfl⟩

theorem array_dims {r : Ref} {t : TensorType α} {x : Tensor α} (typed : m.typeOf g r = .ok t)
    (read : V.read r = .ok x) : (V.array r).dims = t.dims := by
  rw [Valuation.array_of_read read]
  exact x.fits.trans (solution.shape typed read).1

theorem reads {id : NodeId} {n : Node α} {d : TensorType α} (hn : g.node? id = some n)
    (type : n.type = some d) {r : Ref} (hr : r ∈ n.inputs) : ∃ x, V.read r = .ok x := by
  obtain ⟨t, ⟨xs, -, -, reads, -⟩, -⟩ := solution.nodes id n d hn type
  have listed := forall₂_of_mapM_eq_ok reads
  clear reads
  generalize n.inputs = rs at hr listed
  induction listed with
  | nil => cases hr
  | cons h _ ih =>
    rcases List.mem_cons.mp hr with rfl | hr
    · exact ⟨_, h⟩
    · exact ih hr

theorem input_dims {id : NodeId} {n : Node α} {d : TensorType α} (hn : g.node? id = some n)
    (type : n.type = some d) {r : Ref} (hr : r ∈ n.inputs) {t : TensorType α}
    (typed : m.typeOf g r = .ok t) : (V.array r).dims = t.dims := by
  obtain ⟨x, hx⟩ := solution.reads hn type hr
  exact solution.array_dims typed hx

theorem node_dims {id : NodeId} {n : Node α} {d : TensorType α} (hn : g.node? id = some n)
    (type : n.type = some d) : (V.array (.node id)).dims = d.dims := by
  obtain ⟨t, -, ht⟩ := solution.nodes id n d hn type
  exact solution.array_dims (Module.typeOf_node_iff.mpr ⟨n, hn, type⟩)
    (Valuation.read_node_eq_ok.mpr ht)

/-- The value of a node is what its kind makes of the values of its inputs. -/
theorem numbers {id : NodeId} {n : Node α} {d : TensorType α} (hn : g.node? id = some n)
    (type : n.type = some d) (float : d.element = .float) (other : n.kind ≠ .gradientSum) :
    ∃ a, n.kind.numbers d.dims (n.inputs.map V.placed) = .ok a ∧ V.array (.node id) = a.array := by
  obtain ⟨t, ⟨xs, u, hu, reads, value⟩, ht⟩ := solution.nodes id n d hn type
  obtain rfl := Option.some.inj (hu.symm.trans type)
  rw [Node.value_of_not_sum other, ← Valuation.map_placed reads] at value
  obtain ⟨a, dims, made, rfl⟩ := Node.keepResult_eq_ok value
  refine ⟨a, made, ?_⟩
  rw [Valuation.array_of_read (Valuation.read_node_eq_ok.mpr ht), Tensor.decoded_encoded dims float]

end Graph.Solution

theorem NodeKind.Accepts.hasValue {kind : NodeKind α} {ts : List (TensorType α)}
    {d : TensorType α} (h : kind.Accepts ts (some d)) : kind.hasValue = true := by
  cases h <;> rfl

theorem Graph.Proper.hasValue {m : Module α} {g : Graph α} (proper : g.Proper m) {n : Node α}
    (hn : n ∈ g.nodes) {d : TensorType α} (type : n.type = some d) : n.kind.hasValue = true := by
  obtain ⟨ts, -, accepts⟩ := (proper.typed n hn).accepts
  rw [type] at accepts
  exact accepts.hasValue

theorem Graph.Solution.of_evaluate {m : Module α} {g : Graph α} {V : Valuation α}
    {vars : VarId → Option (Tensor α)} (h : g.evaluate vars = .ok V) (proper : g.Proper m)
    (typed : ∀ v t u, vars v = some t → m.var? v = some u → t.type.SameShape u.type)
    (plain : ∀ n ∈ g.nodes, n.kind.hasValue = true ∨ n.kind = .save)
    (kept : g.nodes.toList.Pairwise fun (n n' : Node α) =>
      n.kind.hasValue = true → ∀ v, Ref.var v ∈ n.inputs → v ∉ n'.storesInto) :
    g.Solution m V := by
  have plain' : ∀ n ∈ g.nodes.toList, n.kind.hasValue = true ∨ n.kind = .save := fun n hn =>
    plain n (Array.mem_toList_iff.mp hn)
  constructor
  · intro v t u ht hu
    obtain ⟨t₀, ht₀, same⟩ := evaluateFrom_vars h plain' ht
    rw [same]
    exact typed v t₀ u ht₀ hu
  · intro id n d hn type
    have valued := proper.hasValue (Array.mem_of_getElem? hn) type
    have listed : g.nodes.toList[id.index]? = some n := by rwa [Array.getElem?_toList]
    have computed := evaluateFrom_computed h plain' (by simp [Valuation.start]) kept listed valued
    rwa [Nat.zero_add] at computed

end
end NeuralGraph
