import NeuralGraph.Proofs.Gradient.Training

/-!
# Sections of a training graph

The nodes of a training graph by their numbers: first those of the graph itself, then the gradient
nodes and sums, which have values and none of which is an activation function, then the updates.
-/

namespace NeuralGraph
set_option autoImplicit false
variable {α : Type}

theorem Graph.Extends.node?_of_lt {g h : Graph α} (extends' : g.Extends h) {i : NodeId}
    (bound : i.index < h.size) : g.node? i = h.node? i := by
  have hn : h.node? i = some h.nodes[i.index] := Array.getElem?_eq_getElem bound
  rw [hn]
  exact extends' i.index _ hn

/-- Among nodes with distinct names one that stands later is none of the earlier. -/
theorem Graph.DistinctNames.not_mem {g h : Graph α} (distinct : g.DistinctNames)
    (extends' : g.Extends h) {i : NodeId} {n : Node α} (hn : g.node? i = some n)
    (late : h.size ≤ i.index) : n ∉ h.nodes := by
  intro member
  obtain ⟨j, hj⟩ := Array.getElem?_of_mem member
  have same := distinct i.index j n n hn (extends' j n hj) rfl
  exact absurd (Array.getElem?_eq_some_iff.mp hj).1 (Nat.not_lt.mpr (same ▸ late))

variable [Scalar α] {m m' : Module α} {forward g train : Graph α} {cs : List Contribution}

/-- What stands after the graph itself and before the updates. -/
theorem Shaped.added_of_le (shaped : Shaped m forward g cs) {i : NodeId} {n : Node α}
    (hn : g.node? i = some n) (late : forward.size ≤ i.index) :
    (n.kind.isRule = true ∨ n.kind = .gradientSum) ∧ ∃ t, n.type = some t :=
  ((shaped.added n (Array.mem_of_getElem? hn)).resolve_left
    (shaped.ready.proper.distinct.not_mem shaped.extends' hn late)).imp_right
      fun ⟨t, type, _⟩ => ⟨t, type⟩

theorem Shaped.hasValue_of_le (shaped : Shaped m forward g cs) {i : NodeId} {n : Node α}
    (hn : g.node? i = some n) (late : forward.size ≤ i.index) : n.kind.hasValue = true := by
  obtain ⟨kind, -⟩ := shaped.added_of_le hn late
  exact NodeKind.IsGradient.hasValue kind

/-- What stands at the end. -/
theorem AddsUpdates.update_of_le {rule : UpdateRule α} {sums : List WeightGradient}
    (added : AddsUpdates rule sums m m' g train) {i : NodeId} {n : Node α}
    (hn : train.node? i = some n) (late : g.size ≤ i.index) :
    ∃ w ∈ sums, ∃ velocity, n.kind = .update rule ∧
      n.inputs = [.var w.weight, .node w.total, .var velocity] :=
  (added.nodes n (Array.mem_of_getElem? hn)).resolve_left
    (added.ready.proper.distinct.not_mem added.extends' hn late)

end NeuralGraph
