import NeuralGraph.Proofs.Gradient.Naming
import NeuralGraph.Proofs.Lowering.Sections

/-!
# Programs in the order of insertion

However a graph was made, its nodes are visited in the order in which they were added, so the program
of the graph is the blocks of its nodes in that order.  The updates of a training graph are added
last: their instructions end the program, and none of them runs before all others have succeeded.
-/

namespace NeuralGraph
set_option autoImplicit false
variable {α : Type} [Scalar α]

/-- The numbers of the nodes in the order in which they were added. -/
def Graph.ids (g : Graph α) : List NodeId := (List.range g.size).map NodeId.mk

/-- The program of a graph whose nodes are visited in this order, and the weight storage it leaves. -/
def Graph.lowerAlong (g : Graph α) (order : List NodeId) (m : Module α) (store : WeightStorage α) :
    Except (Error α) (Program α) × WeightStorage α :=
  match (Lower.nodes ⟨m, g, m.storedWith g⟩ order).run.run ⟨.empty g.name, store, []⟩ with
  | (.ok (), s) => (.ok s.program, s.store)
  | (.error e, s) => (.error e, s.store)

/-- Lowering visits the nodes in the order of insertion, whether it succeeds or fails. -/
theorem Graph.Ordered.lower_eq {g : Graph α} (ordered : g.Ordered) (m : Module α)
    (store : WeightStorage α) : g.lower m store = g.lowerAlong g.ids m store := by
  rw [Graph.lower, ordered.evaluationOrder_eq]
  rfl

/-! ## Updates at the end -/

/-- This instruction is the update that a node stands for. -/
def Node.Becomes (place : Ref → Option Value) (rule : UpdateRule α) (n : Node α)
    (i : Instruction α) : Prop :=
  ∃ values, n.inputs.map place = values.map some ∧ i = .ofValues n.name (.update rule) values

/-- Updates become one instruction each. -/
theorem Emitted.becomes {place : Ref → Option Value} {rule : UpdateRule α} {k : Nat}
    {ns : List (Node α)} {is : List (Instruction α)} (h : Emitted place k ns is)
    (all : ∀ n ∈ ns, n.kind = .update rule) : List.Forall₂ (Node.Becomes place rule) ns is := by
  induction h with
  | nil => exact .nil
  | @cons k n ns is js lowers _ ih =>
    obtain ⟨self, values, sources, -, block⟩ := lowers
    simp only [Node.block, all n List.mem_cons_self, Option.some.injEq] at block
    subst block
    exact .cons ⟨values, sources, rfl⟩ (ih fun n hn => all n (List.mem_cons_of_mem _ hn))

/-- A run that comes past a part of its instructions goes on from where this part ends. -/
theorem execute_beyond {is js : List (Instruction α)} {m : Memory α}
    (h : is.length ≤ (execute (is ++ js) m).executed) : (execute is m).failure = none ∧
      (execute (is ++ js) m).memory = (execute js (execute is m).memory).memory := by
  have success := execute_past h
  refine ⟨success, ?_⟩
  rw [execute_append, success]

/-- The nodes of a training graph: those of the graph itself, then gradients and their sums, then the
updates. -/
theorem Build.trainingGraph_sections {m m' : Module α} {f : GraphId} {rule : UpdateRule α}
    {g train : Graph α} (found : m.graph? f = some g) (h : Yields (trainingGraph f rule) m train m') :
    ∃ gradients updates, train.nodes.toList = g.nodes.toList ++ gradients ++ updates ∧
      (∀ n ∈ gradients, n.kind.IsGradient) ∧ ∀ n ∈ updates, n.kind = .update rule := by
  obtain ⟨g', complete, sums, found', gradients, updated⟩ := trainingGraph_parts h
  obtain rfl : g = g' := Option.some.inj (found.symm.trans found')
  obtain ⟨added, nodes, kinds⟩ := (Graph.withGradients_pushes gradients).nodes
  obtain ⟨updates, nodes', kinds'⟩ := (withUpdates_pushes updated).nodes
  exact ⟨added, updates, by rw [nodes', nodes], kinds, kinds'⟩

/-- The program of a graph that ends with updates: what comes before them, then the updates. -/
theorem Graph.WellFormed.lower_updates {train : Graph α} (formed : train.WellFormed)
    {rule : UpdateRule α} {ns updates : List (Node α)} (nodes : train.nodes.toList = ns ++ updates)
    (all : ∀ n ∈ updates, n.kind = .update rule) {m : Module α} {store store' : WeightStorage α}
    {p : Program α} (sound : store.Sound) (h : train.lower m store = (.ok p, store')) :
    ∃ place first last, p.instructions.toList = first ++ last ∧ Emitted place 0 ns first ∧
      List.Forall₂ (Node.Becomes place rule) updates last := by
  obtain ⟨s, rfl, -, -, -, emitted⟩ := Graph.lower_eq_ok formed sound h
  rw [nodes] at emitted
  obtain ⟨first, last, split, before, after⟩ := emitted.split
  exact ⟨s.place, first, last, split, before, after.becomes all⟩

/-! ## The order of insertion -/

/-- However a graph was made, it is computed and lowered in the order in which its nodes were added,
and what a training step updates it updates last. -/
theorem Graph.Made.insertionOrder {g : Graph α} (made : g.Made) :
    g.evaluationOrder = .ok ((List.range g.size).map NodeId.mk) ∧
    (∀ m store, g.lower m store = g.lowerAlong g.ids m store) ∧
    (∀ m store p store', store.Sound → g.lower m store = (.ok p, store') →
      ∃ place, Emitted place 0 g.nodes.toList p.instructions.toList) ∧
    ∀ m f rule train m', m.graph? f = some g → Yields (Build.trainingGraph f rule) m train m' →
      ∃ gradients updates, train.nodes.toList = g.nodes.toList ++ gradients ++ updates ∧
        (∀ n ∈ gradients, n.kind.IsGradient) ∧ (∀ n ∈ updates, n.kind = .update rule) ∧
        ∀ m'' store p store', store.Sound → train.lower m'' store = (.ok p, store') →
          ∃ place first last, p.instructions.toList = first ++ last ∧
            Emitted place 0 (g.nodes.toList ++ gradients) first ∧
            List.Forall₂ (Node.Becomes place rule) updates last ∧
            ∀ memory, first.length ≤ (execute p.instructions.toList memory).executed →
              (execute first memory).failure = none ∧
                (execute p.instructions.toList memory).memory =
                  (execute last (execute first memory).memory).memory := by
  refine ⟨made.formed.ordered.evaluationOrder_eq, made.formed.ordered.lower_eq,
    fun m store p store' sound lowered => ?_, fun m f rule train m' found trains => ?_⟩
  · obtain ⟨s, rfl, -, -, -, emitted⟩ := Graph.lower_eq_ok made.formed sound lowered
    exact ⟨s.place, emitted⟩
  · obtain ⟨gradients, updates, nodes, kinds, last⟩ := Build.trainingGraph_sections found trains
    refine ⟨gradients, updates, nodes, kinds, last, fun m'' store p store' sound lowered => ?_⟩
    obtain ⟨place, first, rest, split, emitted, become⟩ :=
      (made.trainingGraph found trains).formed.lower_updates nodes last sound lowered
    refine ⟨place, first, rest, split, emitted, become, fun memory past => ?_⟩
    rw [split] at past ⊢
    exact execute_beyond past

/-- The training graph of a line has one update, which ends its program. -/
theorem namedModule_insertionOrder : (namedGraph "product").Made ∧
    (namedGraph "product").evaluationOrder = .ok [⟨0⟩, ⟨1⟩, ⟨2⟩] ∧
    (namedModule "product" "spare").graph? ⟨0⟩ = some (namedGraph "product") ∧
    ∃ train m' p store gradients updates place first last,
      Yields (Build.trainingGraph ⟨0⟩ ⟨0, 1, 0⟩) (namedModule "product" "spare") train m' ∧
      train.lower m' .empty = (.ok p, store) ∧ updates.length = 1 ∧
      p.instructions.toList = first ++ last ∧
      Emitted place 0 ((namedGraph "product").nodes.toList ++ gradients) first ∧
      List.Forall₂ (Node.Becomes place ⟨0, 1, 0⟩) updates last := by
  have made : (namedGraph "product").Made := .of_rebuild (g := namedGraph "product") (by cbv)
  have found : (namedModule "product" "spare").graph? ⟨0⟩ = some (namedGraph "product") := by cbv
  have trains := namedModule_trains "product" "spare" (by decide +kernel)
  obtain ⟨order, -, -, training⟩ := made.insertionOrder
  obtain ⟨gradients, updates, nodes, kinds, all, ends⟩ := training _ _ _ _ _ found trains
  have lowers : ((namedTrain "product" "spare").lower (namedAfter "product" "spare") .empty).1.isOk =
      true := by decide +kernel
  -- the saved result and the updates are the nodes without a value
  have valueless : (namedTrain "product" "spare").nodes.toList.countP
      (fun (n : Node Int) => !n.kind.hasValue) = 2 := by decide +kernel
  have none : gradients.countP (fun (n : Node Int) => !n.kind.hasValue) = 0 :=
    List.countP_eq_zero.mpr fun n hn => by simp [(kinds n hn).hasValue]
  have each : updates.countP (fun (n : Node Int) => !n.kind.hasValue) = updates.length :=
    List.countP_eq_length.mpr fun n hn => by simp [all n hn, NodeKind.hasValue]
  have saved : (namedGraph "product").nodes.toList.countP
      (fun (n : Node Int) => !n.kind.hasValue) = 1 := by decide
  rw [nodes, List.countP_append, List.countP_append, none, each, saved] at valueless
  generalize lowered : (namedTrain "product" "spare").lower (namedAfter "product" "spare") .empty = r
    at lowers
  obtain ⟨result, store⟩ := r
  obtain ⟨p, rfl⟩ := exists_eq_ok lowers
  obtain ⟨place, first, last, split, emitted, become, -⟩ := ends _ _ _ _ .empty lowered
  exact ⟨made, order, found, _, _, p, store, gradients, updates, place, first, last, trains, lowered,
    by omega, split, emitted, become⟩

end NeuralGraph
