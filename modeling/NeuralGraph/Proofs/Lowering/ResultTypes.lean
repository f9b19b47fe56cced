import NeuralGraph.Proofs.Lowering.Allocation
import NeuralGraph.Proofs.Lowering.InPlace
import NeuralGraph.Proofs.Lowering.Sections

/-!
# Types of results

The result of a node lies in an activation that has the type of the node, unless the node is an
activation function that has taken the place of its input: then it lies where its input lay, under the
type of the input, whatever type the node has.  `Graph.Origin` follows such chains back to the node
that the activation was made for.
-/

namespace NeuralGraph
set_option autoImplicit false
variable {α : Type}

namespace Graph

/-- The node whose place an activation function takes. -/
def reused? (g : Graph α) (n : Node α) : Option NodeId :=
  match n.kind, n.inputs with
  | .compute (.unary _), [.node j] => if g.inPlace && g.fanOut j == 1 then some j else none
  | _, _ => none

/-- The result of the first node lies in the activation that was made for the second. -/
inductive Origin (g : Graph α) : NodeId → NodeId → Prop
  | own {i : NodeId} {n : Node α} : g.node? i = some n → g.reused? n = none → Origin g i i
  | shared {i j k : NodeId} {n : Node α} : g.node? i = some n → g.reused? n = some j →
      Origin g j k → Origin g i k

/-- The value is an activation that was made for the origin of node `i`: it is called like the origin
and has its type. -/
def Hosts (g : Graph α) (a : Arena α) (i : NodeId) (value : Value) : Prop :=
  ∃ k r id l, g.Origin i k ∧ g.node? k = some r ∧ value = .activation id ∧ a.get? id = some l ∧
    l.name = r.name ∧ r.type = some l.type

variable {g : Graph α} {n : Node α} {i j k : NodeId}

theorem reused?_eq_some (h : g.reused? n = some j) : g.inPlace = true ∧
    (∃ op, n.kind = .compute (.unary op)) ∧ n.inputs = [.node j] := by
  rw [reused?] at h
  split at h
  · next op j' kind inputs =>
    split at h
    · next reuse =>
      cases h
      exact ⟨(Bool.and_eq_true_iff.mp reuse).1, ⟨op, kind⟩, inputs⟩
    · cases h
  · cases h

theorem reused?_eq_none_of_kind (h : ∀ op, n.kind ≠ .compute (.unary op)) : g.reused? n = none := by
  cases reused : g.reused? n with
  | none => rfl
  | some j =>
    obtain ⟨-, ⟨op, kind⟩, -⟩ := reused?_eq_some reused
    exact absurd kind (h op)

/-- Where activation functions have the types of their inputs, all of a chain have one type. -/
theorem Origin.type_eq (origin : g.Origin i k) (keeps : g.inPlace = false ∨ g.KeepsTypes)
    {m : Node α} {t : TensorType α} (hn : g.node? i = some n) (hm : g.node? k = some m)
    (type : m.type = some t) : n.type = some t := by
  induction origin generalizing n with
  | own =>
    obtain rfl := Option.some.inj (hn.symm.trans hm)
    exact type
  | @shared i j k n' hn' reused origin ih =>
    obtain rfl := Option.some.inj (hn.symm.trans hn')
    obtain ⟨inPlace, ⟨op, kind⟩, inputs⟩ := reused?_eq_some reused
    rcases keeps with plain | keeps
    · rw [plain] at inPlace
      cases inPlace
    · have source : ∃ s, g.node? j = some s := by
        cases origin with
        | own hs _ => exact ⟨_, hs⟩
        | shared hs _ _ => exact ⟨_, hs⟩
      obtain ⟨s, hs⟩ := source
      exact keeps n (Array.mem_of_getElem? hn) op j s t kind inputs hs (ih hs hm)

end Graph

/-! ## The invariant -/

namespace Lowering

/-- The values of nodes lie in activations that were made for their origins. -/
def Typed (g : Graph α) (s : Lowering α) : Prop :=
  ∀ i value, s.place (.node i) = some value → g.Hosts s.program.activations i value

/-- If the values of nodes lay in activations of the right types, they still do. -/
def KeepsTyped (g : Graph α) (s t : Lowering α) : Prop := s.Typed g → t.Typed g

instance (g : Graph α) : IsPreorder (Lowering α) (KeepsTyped g) where
  refl _ := id
  trans _ _ _ h h' typed := h' (h typed)

variable {g : Graph α} {s t : Lowering α} {i : NodeId}

theorem KeepsTyped.of_eq (places : ∀ i, t.place (.node i) = s.place (.node i))
    (activations : t.program.activations = s.program.activations) : KeepsTyped g s t := by
  intro typed i value placed
  rw [places] at placed
  rw [activations]
  exact typed i value placed

theorem Typed.define (typed : s.Typed g) {a : Arena α} {value : Value}
    (grows : ∀ id l, s.program.activations.get? id = some l → a.get? id = some l)
    (own : g.Hosts a i value) : Typed g { s with
      program := { s.program with activations := a }
      values := (.node i, value) :: s.values } := by
  intro j value' placed
  rw [place, lookup_cons_if] at placed
  split at placed
  · next same =>
    cases same
    cases placed
    exact own
  · obtain ⟨k, r, id, l, origin, hr, rfl, hl, rest⟩ := typed j value' placed
    exact ⟨k, r, id, l, origin, hr, rfl, grows id l hl, rest⟩

end Lowering

/-! ## Nodes -/

namespace Lower
open Lowering
variable [Scalar α] {c : LoweringContext α} {s : Lowering α} {id : NodeId} {n : Node α}

theorem keepsTyped_operand (r : Ref) : Leads (KeepsTyped c.graph) (operand c r) := by
  refine leads_attempt fun s s' value h => ?_
  rcases operand_cases (yields_attempt.mpr h) with ⟨-, rfl⟩ | ⟨v, _, _, l, rfl, -, -, -, -, rfl⟩
  · exact refl_of (KeepsTyped c.graph) s'
  · exact .of_eq place_homed_node rfl

theorem keepsTyped_emit (kind : Opcode α) (values : List Value) :
    Leads (KeepsTyped c.graph) (emit n kind values) := by
  refine leads_attempt fun s s' _ h => ?_
  simp only [bind, Except.bind] at h
  split at h
  · cases h
  · next p pushed =>
    cases h
    obtain ⟨-, rfl⟩ := Program.push_eq_ok_iff.mp pushed
    exact .of_eq (fun _ => rfl) rfl

theorem keepsTyped_result (hn : c.graph.node? id = some n) (own : c.graph.reused? n = none) :
    Leads (KeepsTyped c.graph) (result id n) := by
  rw [result]
  cases type : n.type with
  | none => exact leads_throw _
  | some t =>
    intro s typed
    simp only [run_bind]
    simp only [attempt, define, ExceptT.run_mk, StateT.run, bind, Except.bind]
    cases made : s.program.newActivation n.name t with
    | error e => exact typed
    | ok r =>
      obtain ⟨a, aid, inserted, program, value⟩ := Program.newActivation_eq_ok_iff.mp made
      obtain ⟨p, w⟩ := r
      cases program
      cases value
      obtain ⟨-, rfl, rfl⟩ := Arena.insert_eq_ok_iff.mp inserted
      exact typed.define (fun _ _ => Arena.get?_push_of_some)
        ⟨id, n, _, ⟨n.name, .mutable, .hidden, .zeros t⟩, .own hn own, hn, rfl,
          Arena.get?_push_self _ _, rfl, type⟩

omit [Scalar α] in
/-- Whether the place of the input is taken depends on the graph only. -/
theorem mayReuse_eq (typed : s.Typed c.graph) {op : UnaryOp} {r : Ref} {source : Value}
    (kind : n.kind = .compute (.unary op)) (inputs : n.inputs = [r])
    (placed : s.place r = some source) :
    mayReuse c n source = (c.graph.reused? n).isSome := by
  cases r with
  | var v => simp [mayReuse, Graph.reused?, kind, inputs]
  | node j =>
    obtain ⟨_, _, aid, _, _, _, rfl, _⟩ := typed j source placed
    rw [mayReuse, Graph.reused?, kind, inputs]
    by_cases reuse : (c.graph.inPlace && c.graph.fanOut j == 1) = true
    · simp [reuse, Value.isActivation]
    · simp [reuse, Value.isActivation]

theorem keepsTyped_unary (hn : c.graph.node? id = some n) {op : UnaryOp} {r : Ref}
    (kind : n.kind = .compute (.unary op)) (inputs : n.inputs = [r]) :
    Leads (KeepsTyped c.graph) (do
      let source ← operand c r
      let target ← activationTarget c id n source
      emit n (.compute (.unary op)) [target, source]) := by
  intro s typed
  have kept := keepsTyped_operand (c := c) r s typed
  rw [run_bind]
  generalize run : (operand c r).run.run s = q at kept
  obtain ⟨outcome, s₁⟩ := q
  cases outcome with
  | error e => exact kept
  | ok source =>
    -- the operand has a place by now, so it is known whether it is an activation
    have placed := operand_places run
    have decided := mayReuse_eq kept kind inputs placed
    cases reused : c.graph.reused? n with
    | none =>
      simp only [activationTarget, decided, reused, Option.isSome_none, Bool.false_eq_true, if_false]
      exact leads_bind (keepsTyped_result hn reused) (fun _ => keepsTyped_emit _ _) s₁ kept
    | some j =>
      simp only [activationTarget, decided, reused, Option.isSome_some, if_true]
      obtain ⟨-, -, input⟩ := Graph.reused?_eq_some reused
      obtain rfl : r = .node j := List.head_eq_of_cons_eq (inputs.symm.trans input)
      obtain ⟨k, m, aid, l, origin, hm, rfl, located, named⟩ := kept j source placed
      cases n.type with
      | none => exact kept
      | some t =>
        exact keepsTyped_emit _ _ _ (kept.define (fun _ _ located => located)
          ⟨k, m, aid, l, .shared hn reused origin, hm, rfl, located, named⟩)

theorem keepsTyped_nodes (ids : List NodeId) : Leads (KeepsTyped c.graph) (nodes c ids) :=
  leads_nodes_of (fun _ _ hn => leads_node_of keepsTyped_operand keepsTyped_emit
    (fun other => keepsTyped_result hn (Graph.reused?_eq_none_of_kind other))
    fun _ _ kind inputs => keepsTyped_unary hn kind inputs) ids

end Lower

/-! ## Programs -/

/-- The instructions of node `i` in a program of the graph. -/
def Graph.instructionsOf (g : Graph α) (p : Program α) (i : NodeId) : List (Instruction α) :=
  (p.instructions.toList.take (g.firstInstruction (i.index + 1))).drop (g.firstInstruction i.index)

/-- The result of node `i` is put into an activation: this is what the instructions of the node
write. -/
def Program.PutsResult (p : Program α) (g : Graph α) (i : NodeId) (id : LocationId) : Prop :=
  g.instructionsOf p i ≠ [] ∧ ∀ k ∈ g.instructionsOf p i, k.written = [.activation id]

variable [Scalar α] {g : Graph α} {p : Program α} {i : NodeId} {n : Node α}

theorem Emitted.instructionsOf {place : Ref → Option Value}
    (h : Emitted place 0 g.nodes.toList p.instructions.toList) (hn : g.node? i = some n) :
    n.LowersTo place i.index (g.instructionsOf p i) := by
  obtain ⟨bound, rfl⟩ := Array.getElem?_eq_some_iff.mp hn
  have bound' : i.index < g.nodes.toList.length := by rwa [Array.length_toList]
  have upTo : g.nodes.toList.take (i.index + 1) =
      g.nodes.toList.take i.index ++ [g.nodes[i.index]] := by
    rw [List.take_succ_eq_append_getElem bound', Array.getElem_toList]
  have whole : Emitted place 0 (g.nodes.toList.take i.index ++
      g.nodes[i.index] :: g.nodes.toList.drop (i.index + 1)) p.instructions.toList := by
    rwa [← Array.getElem_toList bound, List.cons_getElem_drop_succ, List.take_append_drop]
  obtain ⟨first, rest, instructions, before, after⟩ := whole.split
  rw [Nat.zero_add, List.length_take, Nat.min_eq_left (Nat.le_of_lt bound')] at after
  cases after with
  | @cons _ _ _ is js lowers emitted =>
    have start : g.firstInstruction i.index = first.length := before.length_eq.symm
    have stop : g.firstInstruction (i.index + 1) = (first ++ is).length := by
      rw [List.length_append, before.length_eq, lowers.length_eq, Graph.firstInstruction, upTo,
        instructionCounts, instructionCounts, List.map_append, List.sum_append, List.map_singleton,
        List.sum_singleton]
    rw [Graph.instructionsOf, instructions, start, stop, ← List.append_assoc, List.take_left,
      List.drop_left]
    exact lowers

/-- The result of a node lies under the name and the type of its origin: in an activation of its own
or, where activation functions keep types, in any case in one of the type of the node. -/
theorem Graph.results_typed {m : Module α} {store store' : WeightStorage α} (formed : g.WellFormed)
    (sound : store.Sound) (lowered : g.lower m store = (.ok p, store')) (hn : g.node? i = some n)
    (valued : n.kind.hasValue = true) :
    ∃ id l k r, p.PutsResult g i id ∧ p.activations.get? id = some l ∧
      g.Origin i k ∧ g.node? k = some r ∧ l.name = r.name ∧ r.type = some l.type ∧
      (g.inPlace = false ∨ g.KeepsTypes → n.type = some l.type) := by
  obtain ⟨s, rfl, -, run⟩ := yields_of_lower formed lowered
  obtain ⟨tidy, is, emits, emitted⟩ := (Lowering.Tidy.start sound g g.name).nodes_from
    (c := ⟨m, g, m.storedWith g⟩) formed rfl run
  have typed : s.Typed g :=
    (Lower.keepsTyped_nodes _).of_yields run fun _ _ placed => by cases placed
  have instructions : s.program.instructions.toList = is := emits.instructions
  rw [← instructions] at emitted
  have lowers := emitted.instructionsOf hn
  have count := lowers.length_eq
  obtain ⟨self, values, -, own, block⟩ := lowers
  obtain ⟨k, r, id, l, origin, hr, rfl, located, name, type⟩ := typed i self (own valued)
  refine ⟨id, l, k, r, ⟨?_, fun j hj => ?_⟩, located, origin, hr, name, type,
    fun keeps => origin.type_eq keeps hn hr type⟩
  · intro none
    rw [none, List.length_nil, Node.instructionCount] at count
    split at count <;> omega
  · have listed : j ∈ s.program.instructions.toList :=
      List.mem_of_mem_take (List.mem_of_mem_drop hj)
    obtain ⟨_, _, accepted⟩ := tidy.suited j listed
    rcases Node.block_writes block hj with ⟨-, kind, rest, rfl, first⟩ | ⟨kind, -⟩ | ⟨rule, kind, -⟩
    · exact Instruction.written_ofValues accepted.directions first
    · rw [kind] at valued
      cases valued
    · rw [kind] at valued
      cases valued

/-! ## Two rectifiers of different types -/

/-- A number is rectified, rectified again into a quantized one, doubled and saved. -/
def roundedGraph : Graph Int where
  name := "rounded"
  nodes := #[⟨"positive", .compute (.unary .relu), [.var ⟨0⟩], some (.float [1])⟩,
    ⟨"rounded", .compute (.unary .relu), [.node ⟨0⟩], some ⟨.quantized, [1], 1, 0⟩⟩,
    ⟨"double", .compute (.binary .add), [.node ⟨1⟩, .node ⟨1⟩], some (.float [1])⟩,
    ⟨"save", .save, [.node ⟨2⟩, .var ⟨1⟩], none⟩]
  inPlace := true

/-- An input and an output. -/
def roundedModule : Module Int where
  vars := #[⟨"x", .float [1], .exposed, .untrained, .zeros (.float [1])⟩,
    ⟨"result", .float [1], .exposed, .untrained, .zeros (.float [1])⟩]
  graphs := #[roundedGraph]
  generator := .ofSeed 1

theorem roundedGraph_made : roundedGraph.Made := by
  have plain : (roundedGraph.withInPlace false).Made :=
    .of_rebuild (g := roundedGraph.withInPlace false) (by cbv)
  exact plain.relabel rfl

theorem roundedGraph_results_typed : roundedGraph.WellFormed ∧
    (WeightStorage.empty : WeightStorage Int).Sound ∧
    ∃ p store, roundedGraph.lower roundedModule .empty = (.ok p, store) ∧
      ∃ id l k r, p.PutsResult roundedGraph ⟨1⟩ id ∧ p.activations.get? id = some l ∧
        roundedGraph.Origin ⟨1⟩ k ∧ roundedGraph.node? k = some r ∧ l.name = r.name ∧
        r.type = some l.type := by
  have lowers : (roundedGraph.lower roundedModule .empty).1.isOk = true := by cbv
  obtain ⟨p, first⟩ := exists_eq_ok lowers
  have lowered : roundedGraph.lower roundedModule .empty =
      (.ok p, (roundedGraph.lower roundedModule .empty).2) := Prod.ext first rfl
  obtain ⟨id, l, k, r, puts, located, origin, hr, name, type, -⟩ :=
    Graph.results_typed (i := ⟨1⟩) roundedGraph_made.formed .empty lowered rfl rfl
  exact ⟨roundedGraph_made.formed, .empty, p, _, lowered, id, l, k, r, puts, located, origin, hr,
    name, type⟩

/-- The result of the quantized node is put into an activation of numbers. -/
theorem roundedGraph_not_typed : ∃ p store n id l,
    roundedGraph.lower roundedModule .empty = (.ok p, store) ∧ roundedGraph.node? ⟨1⟩ = some n ∧
      n.kind.hasValue = true ∧ p.PutsResult roundedGraph ⟨1⟩ id ∧
      p.activations.get? id = some l ∧ n.type ≠ some l.type := by
  have lowers : (roundedGraph.lower roundedModule .empty).1.toOption.map (fun (p : Program Int) =>
      ((roundedGraph.instructionsOf p ⟨1⟩).map Instruction.written,
        (p.activations.get? ⟨0⟩).map Location.type)) =
      some ([[.activation ⟨0⟩]], some (.float [1])) := by cbv
  generalize lowered : roundedGraph.lower roundedModule .empty = r at lowers
  obtain ⟨result, store⟩ := r
  cases result with
  | error e => cases lowers
  | ok p =>
    simp only [Except.toOption, Option.map_some, Option.some.injEq, Prod.mk.injEq] at lowers
    obtain ⟨written, type⟩ := lowers
    obtain ⟨l, located, type⟩ := Option.map_eq_some_iff.mp type
    obtain ⟨j, rest, block, first, others⟩ := List.map_eq_cons_iff.mp written
    obtain rfl := List.map_eq_nil_iff.mp others
    refine ⟨p, store,
      ⟨"rounded", .compute (.unary .relu), [.node ⟨0⟩], some ⟨.quantized, [1], 1, 0⟩⟩,
      ⟨0⟩, l, rfl, rfl, rfl, ⟨?_, ?_⟩, located, ?_⟩
    · rw [block]
      exact List.cons_ne_nil _ _
    · rw [block]
      simpa using first
    · rw [type]
      rintro ⟨⟩

end NeuralGraph
