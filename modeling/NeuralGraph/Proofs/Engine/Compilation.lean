import Mathlib
import NeuralGraph.Proofs.Engine.Histories
import NeuralGraph.Proofs.Integers
import NeuralGraph.Proofs.Lowering.Success

/-!
# Compiling modules

All graphs of a module of layers can be compiled for inference, in any order and any number of times:
homes that the first graphs make suit the later ones, since what any graph of the module stores into is
mutable from the start.
-/

namespace NeuralGraph
set_option autoImplicit false
variable {α : Type}

/-- The variables that graphs of the module store into. -/
def Module.stored (m : Module α) : List VarId := m.graphs.toList.flatMap Graph.storesInto

theorem Module.mem_storedWith {m : Module α} {f : GraphId} {g : Graph α} (found : m.graph? f = some g)
    (v : VarId) : v ∈ m.storedWith g ↔ v ∈ m.stored := by
  rw [storedWith, List.mem_append]
  refine ⟨fun h => h.elim id fun own => ?_, .inl⟩
  exact List.mem_flatMap.mpr ⟨g, Array.mem_toList_iff.mpr (Array.mem_of_getElem? found), own⟩

variable [Scalar α]

/-- Fewer variables that are stored into ask for less. -/
theorem WeightStorage.Serves.mono {s : WeightStorage α} {m : Module α} {stored stored' : List VarId}
    (serves : s.Serves m stored) (fewer : ∀ v ∈ stored', v ∈ stored) : s.Serves m stored' := by
  refine ⟨fun v l home => ?_, serves.owned⟩
  obtain ⟨u, p, hu, hp, name, type, mutable⟩ := serves.homes v l home
  exact ⟨u, p, hu, hp, name, type, fun written => mutable (written.imp_right (fewer v))⟩

namespace Engine
variable {m : Module α} {e : Engine α} {f : GraphId}

/-- The weights can serve every graph of the module. -/
structure Prepared (m : Module α) (e : Engine α) : Prop where
  module : e.module = m
  sound : e.store.Sound
  serves : e.store.Serves m m.stored

/-- One more graph can be compiled, and the weights serve all graphs as before. -/
theorem Prepared.compile [PartialEquivBEq α] {g : Graph α} (prepared : Prepared m e)
    (sound : m.Sound) (found : m.graph? f = some g) (ready : g.Ready m) :
    ∃ e', Yields (Engine.compile .infer f) e () e' ∧ Prepared m e' := by
  obtain ⟨rfl, kept, serves⟩ := prepared
  have same := Module.mem_storedWith found
  obtain ⟨p, store, lowered, serves'⟩ := Graph.lower_succeeds ready sound kept
    (serves.mono fun v => (same v).mp)
  have allocates := g.lower_allocates e.module e.store
  rw [lowered] at allocates
  let u : CompiledGraph α := ⟨.infer, f, p⟩
  let e₁ : Engine α := { e with store := store }
  have asked : Yields (graphFor .infer f) e g e := by
    rw [Yields, graphFor, ask, run_carry, Module.graph_eq_ok_iff.mpr found]
  have compiled : Yields (lowerGraph g) e p e₁ := by
    rw [Yields, lowerGraph, run_carry, lowered]
  refine ⟨{ e₁.withCompiled u with active := some .infer },
    yields_bind.mpr ⟨g, e, asked, yields_bind.mpr ⟨p, e₁, compiled, rfl⟩⟩, ?_, ?_, ?_⟩
  · exact withCompiled_module e₁ u
  · show (e₁.withCompiled u).store.Sound
    rw [withCompiled_store]
    exact allocates.sound kept
  · show (e₁.withCompiled u).store.Serves e.module e.module.stored
    rw [withCompiled_store]
    exact serves'.mono fun v => (same v).mpr

end Engine

/-! ## A graph that reads what another one saves -/

section
open Engine

/-- The first graph saves a product, the second one rectifies what the first one has saved. -/
def relayEngine : Engine Int :=
  let graph (name : String) : Operate Int GraphId :=
    build (Build.attempt fun (m : Module Int) => m.addGraph name)
  let declare (name : String) (training : Training Int) : Operate Int VarId :=
    build (Build.newVariable name (.float [1, 1]) .exposed training)
  (ofModule (.ofSeed 0)).after (graph "scale")
    |>.after (graph "clip")
    |>.after (declare "x" .untrained)
    |>.after (declare "w" (.constant 3))
    |>.after (build (Build.matMul ⟨0⟩ "product" (.var ⟨0⟩) (.var ⟨1⟩)))
    |>.after (build (Build.save ⟨0⟩ "scaled" (.node ⟨0⟩)))
    |>.after (build (Build.unary ⟨1⟩ "clip" .relu (.var ⟨2⟩)))
    |>.after (build (Build.save ⟨1⟩ "clipped" (.node ⟨0⟩)))

theorem relayEngine_layered : relayEngine.module.Layered := by
  have declared := ((((Module.Layered.ofSeed 0 : Module.Layered (α := Int) _).newGraph
    "scale").newGraph "clip").newVariable "x" (.float [1, 1]) .exposed .untrained).newVariable
      "w" (.float [1, 1]) .exposed (.constant 3)
  have scaled := (declared.create (.matMul (f := ⟨0⟩) "product" (.var ⟨0⟩) (.var ⟨1⟩))).create
    (.save (f := ⟨0⟩) "scaled" (.node ⟨0⟩))
  have clipped := (scaled.create (.unary (f := ⟨1⟩) "clip" .relu (.var ⟨2⟩))).create
    (.save (f := ⟨1⟩) "clipped" (.node ⟨0⟩))
  exact clipped

end
end NeuralGraph
