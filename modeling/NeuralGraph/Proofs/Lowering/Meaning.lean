import NeuralGraph.Proofs.Integers
import NeuralGraph.Proofs.Lowering.Simulation

/-!
# Lowering preserves meaning

A graph that is lowered without in-place activations becomes a program that does what the graph
means, whatever its storage holds when it starts.
-/

namespace NeuralGraph
set_option autoImplicit false
variable {α : Type}

/-- What the homes of variables hold in an arena. -/
def WeightStorage.contents (s : WeightStorage α) (a : Arena α) (v : VarId) : Option (Tensor α) :=
  ((s.home? v).bind a.get?).map Location.payload

variable [Scalar α]

/-- Before anything runs, a memory shows the contents of the homes. -/
theorem Shows.start {s : Lowering α} {g : Graph α} {k : Nat} {m : Memory α} (tidy : s.Tidy g k)
    (covers : m.Covers s.memory) : Shows s 0 m (.start (s.store.contents m.weights)) := by
  refine ⟨covers, fun v l home => ?_, fun i value hi => absurd hi (Nat.not_lt_zero _)⟩
  obtain ⟨q, hq⟩ := tidy.store.located v l home
  obtain ⟨p, hp, -⟩ := covers (.weight l) q hq
  refine ⟨p, hp, ?_⟩
  have located : m.weights.get? l = some p := hp
  simp only [Valuation.start, WeightStorage.contents, home, Option.bind_some, located,
    Option.map_some]

/-- The nodes of an emitted sequence all lower to something. -/
theorem Emitted.lowersTo {place : Ref → Option Value} {k : Nat} {ns : List (Node α)}
    {is : List (Instruction α)} (h : Emitted place k ns is) {j : Nat} {n : Node α}
    (hj : ns[j]? = some n) : ∃ js, n.LowersTo place (k + j) js := by
  induction h generalizing j with
  | nil => simp at hj
  | @cons k n' ns is js lowers _ ih =>
    cases j with
    | zero =>
      cases hj
      exact ⟨is, lowers⟩
    | succ j =>
      rw [Nat.add_comm j, ← Nat.add_assoc]
      exact ih hj

theorem Emitted.length_eq {place : Ref → Option Value} {k : Nat} {ns : List (Node α)}
    {is : List (Instruction α)} (h : Emitted place k ns is) : is.length = instructionCounts ns := by
  induction h with
  | nil => rfl
  | cons lowers _ ih => rw [List.length_append, lowers.length_eq, ih, instructionCounts_cons]

/-- The program of a graph agrees with the evaluation of the graph.  Both succeed or both fail, with
the same error and at the same node; if they succeed, the home of every variable holds the value of
the variable, and the activation called like a node holds the value of the node. -/
theorem Graph.lower_preserves_meaning {g : Graph α} {m : Module α} {store store' : WeightStorage α}
    {p : Program α} {memory : Memory α} (formed : g.WellFormed) (plain : g.inPlace = false)
    (stores : ∀ n ∈ g.nodes, n.StoresIntoVariables) (sound : store.Sound)
    (lowered : g.lower m store = (.ok p, store'))
    (contents : memory.Covers (p.memory store'.arena)) :
    match g.evaluate (store'.contents memory.weights), execute p.instructions.toList memory with
    | .ok V, r => r.failure = none ∧ r.executed = p.size ∧
        (∀ v l, store'.home? v = some l →
          ∃ k, r.memory.weights.get? l = some k ∧ V.vars v = some k.payload) ∧
        ∀ i n, g.node? i = some n → n.kind.hasValue = true →
          ∃ id k, p.activations.find? n.name = some id ∧ r.memory.activations.get? id = some k ∧
            V.nodes i = some k.payload
    | .error (i, e), r => r.failure = some e ∧
        g.firstInstruction i.index ≤ r.executed ∧ r.executed < g.firstInstruction (i.index + 1) := by
  obtain ⟨s, rfl, rfl, tidy, -, emitted⟩ := Graph.lower_eq_ok formed sound lowered
  have keeps : g.KeepsInputs := fun _ _ _ _ => plain
  have shows := Shows.start tidy contents
  have has : g.HasNodes 0 g.nodes.toList := by
    intro j n hj
    rwa [Array.getElem?_toList, ← Nat.zero_add j] at hj
  have run := shows.agrees_run tidy keeps formed emitted has
    (fun n hn => stores n (Array.mem_toList_iff.mp hn)) tidy.suited
  rw [Graph.evaluate]
  cases hV : evaluateFrom 0 g.nodes.toList (.start (s.store.contents memory.weights)) with
  | error q =>
    obtain ⟨i, e⟩ := q
    rw [hV] at run
    obtain ⟨failure, j, -, rfl, low, high⟩ := run
    simp only [Nat.zero_add]
    exact ⟨failure, low, high⟩
  | ok V =>
    rw [hV] at run
    obtain ⟨failure, executed, shown⟩ := run
    refine ⟨failure, ?_, shown.vars, fun i n hn valued => ?_⟩
    · rw [executed, ← emitted.length_eq]
      rfl
    · obtain ⟨js, lowers⟩ := emitted.lowersTo (j := i.index) (n := n)
        (by rw [Array.getElem?_toList]; exact hn)
      rw [Nat.zero_add] at lowers
      obtain ⟨self, -, -, own, -⟩ := lowers
      have placed : s.place (.node i) = some self := own valued
      obtain ⟨_, _, id, _, rfl, _⟩ := tidy.nodes i self placed
      obtain ⟨n', l, hn', hl, hname, -⟩ := (tidy.apart keeps).named i id placed
      rw [hn] at hn'
      cases hn'
      have before : i.index < 0 + g.nodes.toList.length := by
        rw [Nat.zero_add, Array.length_toList]
        exact (Array.getElem?_eq_some_iff.mp hn).1
      obtain ⟨k, hk, hV⟩ := shown.nodes i _ before placed
      exact ⟨id, k, hname ▸ tidy.distinct.find? hl, hk, hV⟩

/-! ## A training step -/

/-- An input, a weight, its velocity and an output. -/
def stepModule : Module Int where
  vars := #[⟨"x", .float [2], .exposed, .untrained, .full (.float [2]) 5⟩,
    ⟨"w", .float [2], .hidden, .constant 3, .full (.float [2]) 3⟩,
    ⟨"v", .float [2], .hidden, .untrained, .zeros (.float [2])⟩,
    ⟨"y", .float [2], .exposed, .untrained, .zeros (.float [2])⟩]
  graphs := #[]
  generator := .ofSeed 1

/-- A product and the input are added up, the sum is saved, and the weight descends along it. -/
def stepGraph : Graph Int where
  name := "step"
  nodes := #[⟨"product", .compute (.binary .mul), [.var ⟨0⟩, .var ⟨1⟩], some (.float [2])⟩,
    ⟨"sum", .gradientSum, [.node ⟨0⟩, .var ⟨0⟩], some (.float [2])⟩,
    ⟨"result", .save, [.node ⟨1⟩, .var ⟨3⟩], none⟩,
    ⟨"descent", .update ⟨1, 0, 0⟩, [.var ⟨1⟩, .node ⟨1⟩, .var ⟨2⟩], none⟩]
  inPlace := false

theorem mem_stepGraph_nodes {n : Node Int} (h : n ∈ stepGraph.nodes) :
    n ∈ stepGraph.nodes.toList := Array.mem_toList_iff.mpr h

theorem stepGraph_wellFormed : stepGraph.WellFormed := by
  constructor
  · intro i n h
    match i, h with
    | 0, h | 1, h | 2, h | 3, h => cases h; decide
  · intro n hn count hk
    have listed := mem_stepGraph_nodes hn
    simp only [stepGraph, List.mem_cons, List.not_mem_nil, or_false] at listed
    rcases listed with rfl | rfl | rfl | rfl <;> cases hk <;> rfl

theorem stepGraph_storesIntoVariables : ∀ n ∈ stepGraph.nodes, n.StoresIntoVariables := by
  intro n hn
  have listed := mem_stepGraph_nodes hn
  simp only [stepGraph, List.mem_cons, List.not_mem_nil, or_false] at listed
  rcases listed with rfl | rfl | rfl | rfl <;> simp [Node.StoresIntoVariables]

theorem stepGraph_lower_preserves_meaning :
    ∃ p store V, stepGraph.lower stepModule .empty = (.ok p, store) ∧
      stepGraph.evaluate (store.contents store.arena) = .ok V ∧
      (p.run store.arena).failure = none ∧ (p.run store.arena).executed = p.size ∧
      ∀ v l, store.home? v = some l →
        ∃ k, (p.run store.arena).memory.weights.get? l = some k ∧ V.vars v = some k.payload := by
  have lowers : (stepGraph.lower stepModule .empty).1.isOk = true := by cbv
  have evaluates : (stepGraph.evaluate ((stepGraph.lower stepModule .empty).2.contents
      (stepGraph.lower stepModule .empty).2.arena)).isOk = true := by cbv
  generalize lowered : stepGraph.lower stepModule .empty = r at lowers evaluates ⊢
  obtain ⟨result, store⟩ := r
  cases result with
  | error e => cases lowers
  | ok p =>
    have meaning := Graph.lower_preserves_meaning stepGraph_wellFormed rfl
      stepGraph_storesIntoVariables .empty lowered (.refl (p.memory store.arena))
    cases evaluated : stepGraph.evaluate (store.contents store.arena) with
    | error e =>
      rw [evaluated] at evaluates
      cases evaluates
    | ok V =>
      simp only [Program.memory, evaluated] at meaning
      obtain ⟨failure, executed, vars, -⟩ := meaning
      exact ⟨p, store, V, rfl, evaluated, failure, executed, vars⟩

end NeuralGraph
