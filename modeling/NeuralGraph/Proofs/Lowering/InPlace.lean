import Mathlib
import NeuralGraph.Proofs.Gradient.Pushes
import NeuralGraph.Proofs.Integers
import NeuralGraph.Proofs.Lowering.Twins

/-!
# Lowering in place

Whether activation functions take the place of their inputs does not matter to anyone who looks at the
weights: an input is given up only to the one node that uses it.
-/

namespace NeuralGraph
set_option autoImplicit false
variable {α : Type}

namespace Graph

/-- The graph, to be lowered in place or not. -/
def withInPlace (g : Graph α) (inPlace : Bool) : Graph α := { g with inPlace := inPlace }

variable [Scalar α]

/-- In place or not, the graph is lowered, to programs that mirror each other, or it is refused. -/
def InPlaceAgrees (g : Graph α) (m : Module α) (store : WeightStorage α) : Prop :=
  (∃ p q store', (g.withInPlace false).lower m store = (.ok p, store') ∧
      (g.withInPlace true).lower m store = (.ok q, store') ∧ p.Mirrors q) ∨
    ∃ e e' store' store'', (g.withInPlace false).lower m store = (.error e, store') ∧
      (g.withInPlace true).lower m store = (.error e', store'')

/-- By induction over the nodes, both lowerings side by side. -/
theorem inPlaceAgrees {g : Graph α} (made : g.Made) (keeps : g.KeepsTypes) (m : Module α)
    (store : WeightStorage α) : g.InPlaceAgrees m store := by
  have order : ∀ inPlace, (g.withInPlace inPlace).evaluationOrder =
      .ok ((List.range' 0 g.size).map NodeId.mk) := fun inPlace => by
    rw [← List.range_eq_range']
    exact made.formed.ordered.evaluationOrder_eq
  have coupled := (Lowering.Twins.start (g := g) (P := g.Live 0) store (g.withInPlace false).name
    (g.withInPlace true).name).nodes_from
    (c := ⟨m, g.withInPlace false, m.storedWith (g.withInPlace false)⟩)
    (d := ⟨m, g.withInPlace true, m.storedWith (g.withInPlace true)⟩)
    made.formed made.distinct keeps rfl rfl rfl rfl rfl (Nat.zero_add _)
  rw [InPlaceAgrees, lower, lower, order, order]
  cases coupled with
  | ok left right twins =>
    rw [Yields] at left right
    simp only [left, right]
    exact .inl ⟨_, _, _, rfl, by rw [twins.store], twins.mirrors⟩
  | error left right =>
    simp only [left, right]
    exact .inr ⟨_, _, _, _, rfl, rfl⟩

/-- In place or not: the same for the graph and for its training graph. -/
theorem Made.inPlace_agrees {g : Graph α} (made : g.Made) (keeps : g.KeepsTypes) (m : Module α) :
    (∀ store, g.InPlaceAgrees m store) ∧
      ∀ (f : GraphId) (rule : UpdateRule α) (train : Graph α) (m' : Module α),
        m.graph? f = some g → (Build.trainingGraph f rule).run.run m = (.ok train, m') →
        ∀ store, train.InPlaceAgrees m' store := by
  refine ⟨inPlaceAgrees made keeps m, fun f rule train m' hf trained store => ?_⟩
  have pushes := Build.trainingGraph_pushes hf trained
  have renamed : Made { g with name := g.name ++ ".train" } := made.relabel rfl
  have kept : KeepsTypes { g with name := g.name ++ ".train" } := keeps
  exact inPlaceAgrees (renamed.pushes pushes) (kept.pushes renamed pushes) m' store

end Graph

/-! ## Two activation functions in a row -/

/-- The rectified product of an input and a weight, rectified once more, as a regression. -/
def rectifierGraph : Graph Int where
  name := "rectifier"
  nodes := #[⟨"product", .compute .matMul, [.var ⟨0⟩, .var ⟨1⟩], some (.float [1, 1])⟩,
    ⟨"inner", .compute (.unary .relu), [.node ⟨0⟩], some (.float [1, 1])⟩,
    ⟨"outer", .compute (.unary .relu), [.node ⟨1⟩], some (.float [1, 1])⟩,
    ⟨"loss", .regression, [.node ⟨2⟩, .var ⟨2⟩], some (.float [1, 1])⟩,
    ⟨"save", .save, [.node ⟨3⟩, .var ⟨3⟩], none⟩]
  inPlace := false

/-- An input, a weight, an expected value and an output. -/
def rectifierModule : Module Int where
  vars := #[⟨"x", .float [1, 1], .exposed, .untrained, .full (.float [1, 1]) 5⟩,
    ⟨"w", .float [1, 1], .hidden, .constant 3, .full (.float [1, 1]) 3⟩,
    ⟨"y", .float [1, 1], .exposed, .untrained, .zeros (.float [1, 1])⟩,
    ⟨"result", .float [1, 1], .exposed, .untrained, .zeros (.float [1, 1])⟩]
  graphs := #[rectifierGraph]
  generator := .ofSeed 1

theorem rectifierGraph_made : rectifierGraph.Made :=
  .of_rebuild (g := rectifierGraph) (by cbv)

theorem rectifierGraph_keepsTypes : rectifierGraph.KeepsTypes := by
  intro n hn op i source type kind inputs hi ht
  have listed : n ∈ rectifierGraph.nodes.toList := Array.mem_toList_iff.mpr hn
  simp only [rectifierGraph, List.mem_cons, List.not_mem_nil, or_false] at listed
  rcases listed with rfl | rfl | rfl | rfl | rfl <;> cases kind <;> cases inputs <;> cases hi <;> exact ht

theorem rectifierGraph_inPlace_agrees :
    rectifierGraph.Made ∧ rectifierGraph.KeepsTypes ∧
      rectifierGraph.InPlaceAgrees rectifierModule .empty ∧
      ∃ train m', (Build.trainingGraph ⟨0⟩ ⟨1, 0, 0⟩).run.run rectifierModule = (.ok train, m') ∧
        train.InPlaceAgrees m' .empty := by
  have agrees := rectifierGraph_made.inPlace_agrees rectifierGraph_keepsTypes rectifierModule
  refine ⟨rectifierGraph_made, rectifierGraph_keepsTypes, agrees.1 .empty, ?_⟩
  have trains : ((Build.trainingGraph ⟨0⟩ ⟨1, 0, 0⟩).run.run rectifierModule).1.isOk = true := by
    decide +kernel
  generalize trained : (Build.trainingGraph ⟨0⟩ ⟨1, 0, 0⟩).run.run rectifierModule = r at trains
  obtain ⟨result, m'⟩ := r
  cases result with
  | error e => cases trains
  | ok train => exact ⟨train, m', rfl, agrees.2 ⟨0⟩ _ train m' rfl trained .empty⟩

/-- In place, one activation serves the product and both rectifiers, and one the loss. -/
example : (((rectifierGraph.withInPlace true).lower rectifierModule .empty).1.map fun (p : Program Int) =>
    p.activations.size).toOption = some 2 := by cbv

end NeuralGraph
