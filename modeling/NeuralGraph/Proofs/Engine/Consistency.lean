import Mathlib
import NeuralGraph.Proofs.Engine.Histories

/-!
# Consistency of an engine

What holds in every state that operations can bring about.
-/

namespace NeuralGraph
set_option autoImplicit false
variable {α : Type} [Scalar α]

namespace Engine

/-- The active mode has a unit; homes are separate and carry the names and types of their variables;
data have the shapes of their types; units still pass their verification.  A unit consists of the blocks
of the graph it was compiled from, and its operands for variables are the homes of the variables, which
are the same for both modes. -/
structure Consistent (start e : Engine α) : Prop where
  active : ∀ mode, e.active = some mode → ∃ u, e.compiled? mode = some u
  separate : ∀ v w l, e.store.home? v = some l → e.store.home? w = some l → v = w
  labelled : ∀ v l, e.store.home? v = some l → ∃ u p, e.module.var? v = some u ∧
    e.store.arena.get? l = some p ∧ p.name = u.name ∧ (p.type == u.type) = true
  weightShapes : ∀ p ∈ e.store.arena.locations, p.payload.array.dims = p.type.dims
  activationShapes : ∀ mode u, e.compiled? mode = some u →
    ∀ p ∈ u.program.activations.locations, p.payload.array.dims = p.type.dims
  verified : ∀ mode u, e.compiled? mode = some u → u.program.verify e.store.arena = .ok ()
  operands : ∀ mode u, e.compiled? mode = some u → ∃ c g c' place, start.Reaches c ∧
    Retains mode u.source c e ∧ Yields (graphFor mode u.source) c g c' ∧
    Emitted place 0 g.nodes.toList u.program.instructions.toList ∧
    ∀ v value, place (.var v) = some value → ∃ l, value = .weight l ∧ e.store.home? v = some l

theorem Retains.exists_graphFor {mode : Mode} {f : GraphId} {c e : Engine α} (h : Retains mode f c e) :
    ∃ g c', Yields (Engine.graphFor mode f) c g c' := by
  induction h with
  | compile compiled =>
    obtain ⟨g, c', -, -, graph, -⟩ := yields_compile compiled
    exact ⟨g, c', graph⟩
  | step _ _ _ ih => exact ih

/-- Operations in any number and order, whether they succeed or fail, leave an engine consistent, and
never give a variable another home. -/
theorem Reaches.consistent {seed : UInt64} {e : Engine α}
    (h : (ofModule (.ofSeed seed)).Reaches e) :
    Consistent (ofModule (.ofSeed seed)) e ∧
      ∀ e', e.Reaches e' → ∀ v l, e.store.home? v = some l → e'.store.home? v = some l := by
  have valid := h.valid (.ofSeed seed)
  have unit : ∀ mode u, e.compiled? mode = some u → ∃ c g c', (ofModule (.ofSeed seed)).Reaches c ∧
      Retains mode u.source c e ∧ Yields (graphFor mode u.source) c g c' ∧
      e.Holds mode u.source g u := by
    intro mode u found
    have absent : (ofModule (.ofSeed seed) : Engine α).compiled? mode = none := by cases mode <;> rfl
    obtain ⟨c, reached, retained⟩ := h.retains (.ofSeed seed) absent found
    obtain ⟨g, c', graph⟩ := retained.exists_graphFor
    obtain ⟨u', holds⟩ := retained.holds (reached.valid (.ofSeed seed)) graph
    obtain rfl : u = u' := Option.some.inj (found.symm.trans holds.compiled)
    exact ⟨c, g, c', reached, retained, graph, holds⟩
  refine ⟨⟨valid.active, valid.sound.separate, valid.labelled, fun p _ => p.payload.fits,
    fun _ _ _ p _ => p.payload.fits, fun mode u found => ?_, fun mode u found => ?_⟩,
    fun e' later => (later.lasts valid).2.homes⟩
  · obtain ⟨_, _, _, -, -, -, holds⟩ := unit mode u found
    exact holds.verified
  · obtain ⟨c, g, c', reached, retained, graph, holds⟩ := unit mode u found
    obtain ⟨place, emitted, homes⟩ := holds.realizes.operands
    exact ⟨c, g, c', place, reached, retained, graph, emitted, homes⟩

end Engine

/-! ## Two rectifiers in a row -/

/-- The variables of the rectifiers, and their graph. -/
def rectifierBuild : Engine Int :=
  let declare (name : String) (training : Training Int) : Operate Int VarId :=
    Engine.build (Build.newVariable name (.float [1, 1]) .exposed training)
  (Engine.ofModule (.ofSeed 1)).after (declare "x" .untrained)
    |>.after (declare "w" (.constant 3))
    |>.after (declare "y" .untrained)
    |>.after (declare "result" .untrained)
    |>.after (Engine.build (Build.attempt fun (m : Module Int) => m.insertGraph rectifierGraph))

/-- The graph is compiled for inference, another one in vain, and again the graph for training; then an
input of one is bound and the training unit runs. -/
def rectifierEngine : Engine Int :=
  rectifierBuild.after (Engine.compile .infer ⟨0⟩)
    |>.after (Engine.compile .infer ⟨1⟩)
    |>.after (Engine.compile .train ⟨0⟩)
    |>.after (Engine.run [⟨"x", .full (.float [1, 1]) 1⟩])

theorem rectifierBuild_reached : (Engine.ofModule (.ofSeed 1)).Reaches rectifierBuild :=
  Engine.Reaches.refl.edit (.declare "x" _ _ _)
    |>.edit (.declare "w" _ _ _)
    |>.edit (.declare "y" _ _ _)
    |>.edit (.declare "result" _ _ _)
    |>.edit (.insertGraph rectifierGraph_made)

theorem rectifierEngine_reached : (Engine.ofModule (.ofSeed 1)).Reaches rectifierEngine :=
  .step (.step (.step (.step rectifierBuild_reached (.compile .infer ⟨0⟩)) (.compile .infer ⟨1⟩))
    (.compile .train ⟨0⟩)) (.run _)

theorem rectifierEngine_consistent : (Engine.ofModule (.ofSeed 1)).Reaches rectifierEngine ∧
    Engine.Consistent (Engine.ofModule (.ofSeed 1)) rectifierEngine ∧
      rectifierEngine.active = some .train ∧ rectifierEngine.infer.isSome = true ∧
      rectifierEngine.store.home? ⟨1⟩ = some ⟨1⟩ :=
  ⟨rectifierEngine_reached, rectifierEngine_reached.consistent.1, by decide +kernel,
    by decide +kernel, by decide +kernel⟩

end NeuralGraph
