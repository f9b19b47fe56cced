import NeuralGraph.Proofs.Engine.Steps
import NeuralGraph.Proofs.Graph.Progress

/-!
# Runs of inference units

Whatever tensors are bound, the unit of a graph that is made by layers runs to its end, unless it comes
to a node that is stuck or does not fit.
-/

namespace NeuralGraph
set_option autoImplicit false
variable {α : Type} [Scalar α]

namespace Engine
variable {c e : Engine α} {f : GraphId} {g : Graph α} {bindings : List (Binding α)} {a : Arena α}

/-- When bindings have been copied, variables hold tensors of their types. -/
theorem Retains.suits (retained : Retains .infer f c e) (arises : c.Arises)
    (found : c.module.graph? f = some g) (keeps : g.KeepsTypes) {u : CompiledGraph α}
    (compiled : e.compiled? .infer = some u) (binds : e.Binds bindings a) :
    (Valuation.start (e.withArena a).payload).Suits c.module g 0 := by
  have computes := retained.computes arises (graphFor_infer found) keeps binds compiled
  have valid := retained.reaches.valid arises.valid
  have covers := (retained.reaches.lasts arises.valid).1
  have grows := (binds.keeps.persists valid).grows
  refine ⟨fun v t used known => ?_, fun i t before => absurd before (Nat.not_lt_zero _)⟩
  obtain ⟨l, k, home, located⟩ := computes.home_of_references used
  obtain ⟨w, declared, rfl⟩ := Module.typeOf_var_iff.mp known
  have held : (e.withArena a).payload v = some k.payload :=
    (WeightStorage.contents_of_home home a).trans (congrArg (Option.map Location.payload) located)
  exact ⟨k.payload, held, valid.labelled.shape grows.arena covers held declared⟩

/-- A run with bindings that are accepted succeeds, unless evaluation of the graph comes to a node that
is stuck or does not fit; and it never gets past a node that fits and is stuck. -/
theorem inference_progress [PartialEquivBEq α] (retained : Retains .infer f c e) (arises : c.Arises)
    (built : c.module.Built f) (found : c.module.graph? f = some g) (bindings : List (Binding α))
    (accepted : e.checkBindings (fun (target source : TensorType α) => source == target) bindings =
      .ok ()) :
    ∃ e₀, Yields (prepare .infer bindings) e () e₀ ∧
      ((∃ e', Yields (step .infer bindings) e () e') ∨
        ∃ n xs, g.Meets e₀.payload n xs ∧ (n.Stuck xs ∨ ¬n.Fits xs)) ∧
      ((∃ e', Yields (step .infer bindings) e () e') →
        ∀ n xs, g.Meets e₀.payload n xs → n.Fits xs → ¬n.Stuck xs) := by
  have proper := built.proper.graph g found
  have forward := built.forward g found
  obtain ⟨a, binds⟩ := exists_binds accepted
  obtain ⟨u, holds⟩ := retained.holds arises.valid (graphFor_infer found)
  obtain ⟨r, e', stepped, runs⟩ := runs_of_binds holds.compiled binds
  have suits := retained.suits arises found proper.keepsTypes holds.compiled binds
  have computes := retained.computes arises (graphFor_infer found) proper.keepsTypes binds holds.compiled
  obtain ⟨evaluates, ends⟩ := computes.agrees proper.formed fun n hn => (proper.typed n hn).stores
  refine ⟨_, prepare_of_binds holds.compiled binds, ?_, ?_⟩
  · cases evaluated : g.evaluate (e.withArena a).payload with
    | ok V =>
      obtain rfl : r = .ok () := runs.result.trans (outcome_eq_ok_iff.mpr (ends V evaluated).1)
      exact .inl ⟨e', stepped⟩
    | error failed => exact .inr (proper.stuck_of_error forward suits evaluated)
  · rintro ⟨e'', success⟩ n xs meets fits stuck
    obtain ⟨rfl, rfl⟩ := Prod.mk.inj (stepped.symm.trans success)
    obtain ⟨V, evaluated⟩ := evaluates (outcome_eq_ok_iff.mp runs.result.symm)
    obtain ⟨i, error, failed⟩ := proper.error_of_stuck forward suits meets stuck fits
    cases evaluated.symm.trans failed

end Engine

section
open Engine

/-- With row 1 the run succeeds, so no node that it meets is stuck.  With row 7 it meets one. -/
theorem lineEngine_inference_progress : ∃ (g : Graph Int) (e₀ e₁ : Engine Int),
    (lineBuild "spare").module.graph? ⟨0⟩ = some g ∧
      Yields (prepare .infer (lineBindings 1)) (lineEngine "spare") () e₀ ∧
      (∀ n xs, g.Meets e₀.payload n xs → n.Fits xs → ¬n.Stuck xs) ∧
      Yields (prepare .infer (lineBindings 7)) (lineEngine "spare") () e₁ ∧
      ∃ n xs, g.Meets e₁.payload n xs ∧ (n.Stuck xs ∨ ¬n.Fits xs) := by
  obtain ⟨g, h, c', trains⟩ := lineTrains "spare" (by decide +kernel)
  have built : (lineBuild "spare").module.Built ⟨0⟩ := lineBuild_built "spare"
  obtain ⟨e₀, prepared, -, free⟩ := inference_progress trains.inferred (lineBuild_arises "spare")
    built trains.found (lineBindings 1) (eq_ok_of_isOk (by decide +kernel))
  obtain ⟨e₁, prepared', progress, -⟩ := inference_progress trains.inferred (lineBuild_arises "spare")
    built trains.found (lineBindings 7) (eq_ok_of_isOk (by decide +kernel))
  refine ⟨g, e₀, e₁, trains.found, prepared, free ⟨_, yields_after (by decide +kernel)⟩, prepared',
    progress.resolve_left ?_⟩
  rintro ⟨e', succeeds⟩
  obtain ⟨name, fault, failed⟩ := kernelFails_iff.mp (by decide +kernel :
    kernelFails ((step .infer (lineBindings 7)).run.run (lineEngine "spare")).1 = true)
  cases failed.symm.trans (congrArg Prod.fst succeeds)

/-! ## Layers that never run -/

/-- One layer of `x`, `w` and `b`, saved. -/
def layerBuild (input weights : TensorType Int) (layer : Build Int Ref) : Engine Int :=
  let declare (name : String) (type : TensorType Int) : Operate Int VarId :=
    build (Build.newVariable name type .exposed .untrained)
  (ofModule (.ofSeed 0)).after (build (Build.attempt fun (m : Module Int) => m.addGraph "layer"))
    |>.after (declare "x" input)
    |>.after (declare "w" weights)
    |>.after (declare "b" (.float [2]))
    |>.after (build layer)
    |>.after (build (Build.save ⟨0⟩ "y" (.node ⟨0⟩)))

def layerEngine (input weights : TensorType Int) (layer : Build Int Ref) : Engine Int :=
  (layerBuild input weights layer).after (compile .infer ⟨0⟩)

/-- A graph of layers, none of which is a Gather, and its unit, which does not run. -/
structure NeverRuns (c e : Engine Int) (g : Graph Int) : Prop where
  retained : Retains .infer ⟨0⟩ c e
  arises : c.Arises
  built : c.module.Built ⟨0⟩
  found : c.module.graph? ⟨0⟩ = some g
  gathers : ∀ n ∈ g.nodes, n.kind ≠ .compute .gather
  accepted : e.checkBindings (fun (target source : TensorType Int) => source == target) [] = .ok ()
  fails : ¬∃ e', Yields (step .infer []) e () e'

/-- What can be checked of a layer by running it. -/
def layerChecks (input weights : TensorType Int) (layer : Build Int Ref) : Bool :=
  ((compile .infer ⟨0⟩).run.run (layerBuild input weights layer)).1.isOk &&
    kernelFails ((step .infer []).run.run (layerEngine input weights layer)).1 &&
    ((layerBuild input weights layer).module.graph? ⟨0⟩).any fun (g : Graph Int) =>
      g.nodes.toList.all fun (n : Node Int) => n.kind != .compute .gather

theorem neverRuns_of_checks {input weights : TensorType Int} {layer : Build Int Ref}
    (creates : Build.Creates ⟨0⟩ layer) (checks : layerChecks input weights layer = true) :
    ∃ g, NeverRuns (layerBuild input weights layer) (layerEngine input weights layer) g := by
  simp only [layerChecks, Bool.and_eq_true, Option.any_eq_true, List.all_eq_true, bne_iff_ne] at checks
  obtain ⟨⟨compiles, stops⟩, g, found, gathers⟩ := checks
  refine ⟨g, .compile (yields_after compiles), ?_, ?_, found,
    fun n hn => gathers n (Array.mem_toList_iff.mpr hn), rfl, ?_⟩
  · exact Arises.start 0
      |>.operate (.edit (.insertGraph (.empty "layer")))
      |>.operate (.edit (.declare "x" _ _ _))
      |>.operate (.edit (.declare "w" _ _ _))
      |>.operate (.edit (.declare "b" _ _ _))
      |>.operate (.edit (.layer creates))
      |>.operate (.edit (.layer (.save _ _)))
  · exact built_create (.save _ _) <| built_create creates <| built_declare <| built_declare <|
      built_declare <| (Module.Built.ofSeed 0).newGraph "layer"
  · rintro ⟨e', succeeds⟩
    obtain ⟨name, fault, failed⟩ := kernelFails_iff.mp stops
    cases failed.symm.trans (congrArg Prod.fst succeeds)

def denseLayer : Build Int Ref := .denseWith ⟨0⟩ "dense" (.var ⟨0⟩) (.var ⟨1⟩) (.var ⟨2⟩)

/-- A convolution with a window of one pixel. -/
def pixelLayer : Build Int Ref :=
  .convolutionWith ⟨0⟩ "conv" (.var ⟨0⟩) (.var ⟨1⟩) (.var ⟨2⟩) ⟨1, 1, 0⟩

/-- A dense layer over no rows, which would have three elements each, and two filters over two pixels of
one channel. -/
theorem layers_neverRun :
    (∃ g, NeverRuns (layerBuild (.float [0, 3]) (.float [3, 2]) denseLayer)
      (layerEngine (.float [0, 3]) (.float [3, 2]) denseLayer) g) ∧
    ∃ g, NeverRuns (layerBuild (.float [1, 1, 2, 1]) (.float [2, 1, 1, 1]) pixelLayer)
      (layerEngine (.float [1, 1, 2, 1]) (.float [2, 1, 1, 1]) pixelLayer) g :=
  ⟨neverRuns_of_checks (.denseWith _ _ _ _) (by decide +kernel),
    neverRuns_of_checks (.convolutionWith _ _ _ _ _) (by decide +kernel)⟩

end
end NeuralGraph
