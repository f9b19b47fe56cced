import Mathlib
import NeuralGraph.Proofs.Engine.Histories
import NeuralGraph.Proofs.Engine.Runs
import NeuralGraph.Proofs.Gradient.Steps

/-!
# Training steps of an engine

A training step and an inference step of one graph do the same, up to the weights and their velocities;
and weights take their steps all together, from what they were when the bindings had been copied, or
none of them does.
-/

namespace NeuralGraph
set_option autoImplicit false
variable {α : Type} [Scalar α]

namespace Engine
variable {c c' e e' : Engine α} {mode : Mode} {f : GraphId} {g h : Graph α}
  {bindings : List (Binding α)} {a : Arena α} {u : CompiledGraph α}

/-- What the home of a variable holds. -/
def payload (e : Engine α) (v : VarId) : Option (Tensor α) := e.store.contents e.store.arena v

/-- What a location holds. -/
def holding (e : Engine α) (l : LocationId) : Option (Tensor α) :=
  (e.store.arena.get? l).map Location.payload

/-! ## Units of training graphs -/

/-- The training graph of a graph made by layers, in its parts. -/
theorem graphFor_train (arises : c.Arises) (built : c.module.Built f)
    (found : c.module.graph? f = some g) (graph : Yields (graphFor .train f) c h c') :
    ∃ s sums updates, g.withGradients c.module = .ok (s, sums) ∧
      g.Trains c.rule c.module c'.module s h sums updates ∧ h.Made ∧ h.KeepsTypes := by
  have proper := built.proper
  have made := graphFor_made arises.valid graph
  rw [Yields, graphFor, run_carry, run_build] at graph
  obtain ⟨result, rfl⟩ := Prod.mk.inj graph
  have trained : Yields (Build.trainingGraph f c.rule) c.module h
      ((Build.trainingGraph f c.rule).run.run c.module).2 := Prod.ext result rfl
  obtain ⟨s, sums, updates, gradients, trains⟩ :=
    Build.trainingGraph_trains proper.sound (proper.graph g found).formed found trained
  have pushes := Build.trainingGraph_pushes found trained
  have renamed : Graph.Made { g with name := g.name ++ ".train" } :=
    (arises.valid.made.graph found).relabel rfl
  have kept : Graph.KeepsTypes { g with name := g.name ++ ".train" } :=
    (proper.graph g found).keepsTypes
  exact ⟨s, sums, updates, gradients, trains, made, kept.pushes renamed pushes⟩

/-- A unit computes its graph over the weights that bindings leave. -/
theorem Retains.computes (retains : Retains mode f c e) (arises : c.Arises)
    (graph : Yields (graphFor mode f) c h c') (keeps : h.KeepsTypes) (binds : e.Binds bindings a)
    (found : e.compiled? mode = some u) : u.program.Computes h (e.store.withArena a) := by
  obtain ⟨u', holds⟩ := retains.holds arises.valid graph
  obtain rfl := Option.some.inj (found.symm.trans holds.compiled)
  have valid := retains.reaches.valid arises.valid
  have kept : Keeps none e (e.withArena a) := binds.keeps
  exact (holds.computes keeps).mono (kept.persists valid).grows (kept.valid valid).sound rfl (.refl _)

theorem graphFor_infer (found : c.module.graph? f = some g) :
    Yields (graphFor .infer f) c g c := by
  rw [Yields, graphFor, ask, run_carry, Module.graph_eq_ok_iff.mpr found]

/-! ## Steps -/

/-- A step that comes to the program of its unit. -/
structure Runs (e : Engine α) (mode : Mode) (bindings : List (Binding α)) (a : Arena α)
    (u : CompiledGraph α) (r : Except (Error α) Unit) (e' : Engine α) : Prop where
  compiled : e.compiled? mode = some u
  binds : e.Binds bindings a
  result : r = outcome (u.program.run a)
  store : e'.store = e.store.withArena (u.program.run a).memory.weights

theorem runs_of_binds (found : e.compiled? mode = some u) (binds : e.Binds bindings a) :
    ∃ r e', (step mode bindings).run.run e = (r, e') ∧ e.Runs mode bindings a u r e' :=
  ⟨_, _, run_step found binds, found, binds, rfl, store_ran _ u _⟩

theorem runs_of_step {r : Except (Error α) Unit} (h : (step mode bindings).run.run e = (r, e'))
    (late : r = .ok () ∨ ∃ name fault, r = .error (.kernel name fault)) :
    ∃ u a, e.Runs mode bindings a u r e' := by
  obtain ⟨u, a, found, binds⟩ := binds_of_step h late
  obtain ⟨r', e₁, stepped, runs⟩ := runs_of_binds found binds
  obtain ⟨rfl, rfl⟩ := Prod.mk.inj (h.symm.trans stepped)
  exact ⟨u, a, runs⟩

omit [Scalar α] in
theorem outcome_eq_ok_iff {r : Run α} : outcome r = .ok () ↔ r.failure = none := by
  cases h : r.failure <;> simp [outcome, h]

theorem Runs.payload {r : Except (Error α) Unit} (runs : e.Runs mode bindings a u r e') (v : VarId) :
    e'.payload v = e.store.contents (u.program.run a).memory.weights v := by
  rw [Engine.payload, runs.store]
  rfl

theorem Runs.holding {r : Except (Error α) Unit} (runs : e.Runs mode bindings a u r e')
    (l : LocationId) :
    e'.holding l = ((u.program.run a).memory.weights.get? l).map Location.payload := by
  rw [Engine.holding, runs.store]
  rfl

theorem Runs.located {r : Except (Error α) Unit} (runs : e.Runs mode bindings a u r e')
    {l : LocationId} {k : Location α} (h : a.get? l = some k) : ∃ x, e'.holding l = some x := by
  have covers := (Memory.covers_iff.mp
    (execute_covers u.program.instructions.toList (u.program.memory a))).2
  obtain ⟨k', located, -⟩ := covers l k h
  exact ⟨k'.payload, (runs.holding l).trans (congrArg (Option.map Location.payload) located)⟩

theorem Runs.payload_of_home {r : Except (Error α) Unit} (runs : e.Runs mode bindings a u r e')
    {v : VarId} {l : LocationId} (home : e.store.home? v = some l) : e'.payload v = e'.holding l := by
  rw [runs.payload, runs.holding, WeightStorage.contents_of_home home]

/-- Before a training step that succeeds, an inference step with the same bindings succeeds as well.  It
leaves the same in all variables that the graph saves into, and in all locations but the homes of
weights and their velocities. -/
theorem steps_agree {ci ct : Engine α} (inferred : Retains .infer f ci e)
    (trained : Retains .train f ct e) (arises : ci.Arises) (arises' : ct.Arises)
    (built : ct.module.Built f) (found : ci.module.graph? f = some g)
    (found' : ct.module.graph? f = some g) (graph : Yields (graphFor .train f) ct h c')
    (saves : ∀ v, g.Saves v → e.module.isTrained v = false)
    (velocities : ∀ v, g.References v → ∀ w d, ¬h.Updates w d v) (bindings : List (Binding α))
    (succeeds : Yields (step .train bindings) e () e') :
    ∃ e'', Yields (step .infer bindings) e () e'' ∧
      (∀ v, g.Saves v → ∃ x, e'.payload v = some x ∧ e''.payload v = some x) ∧
      ∀ l, e'.holding l ≠ e''.holding l → ∃ w d u, h.Updates w d u ∧
        e.module.isTrained w = true ∧ (e.store.home? w = some l ∨ e.store.home? u = some l) := by
  obtain ⟨u, a, runs⟩ := runs_of_step succeeds (.inl rfl)
  obtain ⟨u', holds⟩ := inferred.holds arises.valid (graphFor_infer found)
  obtain ⟨r, e'', stepped, runs'⟩ := runs_of_binds holds.compiled runs.binds
  obtain ⟨s, sums, updates, -, trains, made, kept⟩ := graphFor_train arises' built found' graph
  have proper := built.proper.graph g found'
  have layers := built.proper.layers g found'
  have stores : ∀ n ∈ g.nodes, n.StoresIntoVariables := fun n hn => (proper.typed n hn).stores
  have computes := trained.computes arises' graph kept runs.binds runs.compiled
  have computes' := inferred.computes arises (graphFor_infer found) proper.keepsTypes runs.binds
    holds.compiled
  obtain ⟨success, agree⟩ := trains.run_forward layers computes computes' proper.formed made.formed
    stores (outcome_eq_ok_iff.mp runs.result.symm)
  obtain rfl : r = .ok () := runs'.result.trans (outcome_eq_ok_iff.mpr success)
  have weights : ∀ w d u, h.Updates w d u → e.module.isTrained w = true := fun w d u update =>
    ((trained.reaches.lasts arises'.valid).1.isTrained (trains.isTrained layers update))
  have same : ∀ l, (∀ w d u, h.Updates w d u → e.store.home? w ≠ some l ∧ e.store.home? u ≠ some l) →
      e'.holding l = e''.holding l := by
    intro l other
    rw [runs.holding, runs'.holding]
    exact agree l other
  refine ⟨e'', stepped, fun v saved => ?_, fun l differ => ?_⟩
  · obtain ⟨l, k, home, located⟩ := computes'.home_of_references saved.references
    obtain ⟨x, holds'⟩ := runs.located located
    have other : ∀ w d u, h.Updates w d u →
        e.store.home? w ≠ some l ∧ e.store.home? u ≠ some l := by
      refine fun w d u update => ⟨fun home' => ?_, fun home' => ?_⟩
      · obtain rfl := computes.sound.separate w v l home' home
        exact absurd (saves w saved) (by simp [weights w d u update])
      · obtain rfl := computes.sound.separate u v l home' home
        exact velocities u saved.references w d update
    refine ⟨x, (runs.payload_of_home home).trans holds', ?_⟩
    rw [runs'.payload_of_home home, ← same l other, holds']
  · by_contra none
    refine differ (same l fun w d u update => ⟨fun home => ?_, fun home => ?_⟩)
    · exact none ⟨w, d, u, update, weights w d u update, .inl home⟩
    · exact none ⟨w, d, u, update, weights w d u update, .inr home⟩

/-- A training step takes all weights one step along gradients that are those of the moment when the
bindings had been copied, and leaves all other trained variables alone, except for velocities.  If a
kernel fails it leaves all of them as they were at that moment. -/
theorem step_descends {r : Except (Error α) Unit} (trained : Retains .train f c e)
    (arises : c.Arises) (built : c.module.Built f) (found : c.module.graph? f = some g)
    (graph : Yields (graphFor .train f) c h c')
    (saves : ∀ v, g.Saves v → e.module.isTrained v = false)
    (velocities : ∀ v, g.References v → ∀ w d, ¬h.Updates w d v) (bindings : List (Binding α))
    (stepped : (step .train bindings).run.run e = (r, e'))
    (late : r = .ok () ∨ ∃ name fault, r = .error (.kernel name fault)) :
    ∃ e₀ s sums, Yields (prepare .train bindings) e () e₀ ∧
      g.withGradients c.module = .ok (s, sums) ∧
      (r = .ok () → ∃ V, s.evaluate e₀.payload = .ok V ∧
        (∀ w d u, h.Updates w d u → ⟨w, d⟩ ∈ sums ∧ ∃ weight gradient velocity weight' velocity',
          e₀.payload w = some weight ∧ V.nodes d = some gradient ∧ e₀.payload u = some velocity ∧
            c.rule.Descends weight gradient velocity weight' velocity' ∧
            e'.payload w = some weight' ∧ e'.payload u = some velocity') ∧
        ∀ v, e.module.isTrained v = true → (∀ w d u, h.Updates w d u → v ≠ w ∧ v ≠ u) →
          e'.payload v = e₀.payload v) ∧
      ∀ name fault, r = .error (.kernel name fault) → ∀ v,
        e.module.isTrained v = true ∨ (∃ w d, h.Updates w d v) → e'.payload v = e₀.payload v := by
  obtain ⟨u, a, runs⟩ := runs_of_step stepped late
  obtain ⟨s, sums, updates, gradients, trains, made, kept⟩ := graphFor_train arises built found graph
  have proper := built.proper.graph g found
  have layers := built.proper.layers g found
  have stores : ∀ n ∈ g.nodes, n.StoresIntoVariables := fun n hn => (proper.typed n hn).stores
  have computes := trained.computes arises graph kept runs.binds runs.compiled
  have lasts := (trained.reaches.lasts arises.valid).1
  have apart : g.KeepsApart h := by
    refine ⟨fun v saved w d u update => ?_, velocities⟩
    rintro rfl
    exact absurd (saves v saved) (by simp [lasts.isTrained (trains.isTrained layers update)])
  have unsaved : ∀ v, e.module.isTrained v = true → ¬g.Saves v := fun v is saved => by
    simp [saves v saved] at is
  refine ⟨_, s, sums, prepare_of_binds runs.compiled runs.binds, gradients, fun succeeded => ?_,
    fun name fault failed v own => ?_⟩
  · obtain ⟨V, evaluated, descends⟩ := trains.run_descends layers apart computes made.formed stores
      (outcome_eq_ok_iff.mp (runs.result.symm.trans succeeded))
    refine ⟨V, evaluated, fun w d u update => ⟨trains.sum_mem layers update, ?_⟩,
      fun v is other => ?_⟩
    · obtain ⟨weight, gradient, velocity, weight', velocity', hw, hd, hu, steps, hw', hu'⟩ :=
        descends w d u update
      exact ⟨weight, gradient, velocity, weight', velocity', hw, hd, hu, steps,
        (runs.payload w).trans hw', (runs.payload u).trans hu'⟩
    · exact (runs.payload v).trans
        (trains.run_keeps layers computes stores (unsaved v is) other)
  · have untouched : ¬g.Saves v := by
      rcases own with is | ⟨w, d, update⟩
      · exact unsaved v is
      · exact fun saved => velocities v saved.references w d update
    refine (runs.payload v).trans (trains.run_fails layers computes stores ?_ untouched)
    intro success
    have result := runs.result.trans (outcome_eq_ok_iff.mpr success)
    rw [failed] at result
    cases result

end Engine

/-! ## A line with a further weight -/

section
open Engine

/-- The loss of a linear function of a row of `x`, saved, in a module with one more trained variable. -/
def lineBuild (name : String) : Engine Int :=
  let declare (name : String) (type : TensorType Int) (training : Training Int) :
      Operate Int VarId := build (Build.newVariable name type .exposed training)
  (ofModule (.ofSeed 0)).after (attempt fun (e : Engine Int) => .ok ({ e with rule := ⟨1, 1, 0⟩ }, ()))
    |>.after (build (Build.attempt fun (m : Module Int) => m.addGraph "line"))
    |>.after (declare "x" (.float [2, 2]) .untrained)
    |>.after (declare "row" (.index [1]) .untrained)
    |>.after (declare "w" (.float [2, 1]) (.constant 1))
    |>.after (declare "y" (.float [1, 1]) .untrained)
    |>.after (declare name (.float [2, 1]) (.constant 5))
    |>.after (build (Build.gather ⟨0⟩ "pick" (.var ⟨0⟩) (.var ⟨1⟩)))
    |>.after (build (Build.matMul ⟨0⟩ "product" (.node ⟨0⟩) (.var ⟨2⟩)))
    |>.after (build (Build.regression ⟨0⟩ "loss" (.node ⟨1⟩) (.var ⟨3⟩)))
    |>.after (build (Build.save ⟨0⟩ "result" (.node ⟨2⟩)))

theorem lineBuild_arises (name : String) : (lineBuild name).Arises :=
  Arises.start 0
    |>.operate (.configure _)
    |>.operate (.edit (.insertGraph (.empty "line")))
    |>.operate (.edit (.declare "x" _ _ _))
    |>.operate (.edit (.declare "row" _ _ _))
    |>.operate (.edit (.declare "w" _ _ _))
    |>.operate (.edit (.declare "y" _ _ _))
    |>.operate (.edit (.declare name _ _ _))
    |>.operate (.edit (.layer (.gather _ _ _)))
    |>.operate (.edit (.layer (.matMul _ _ _)))
    |>.operate (.edit (.layer (.regression _ _ _)))
    |>.operate (.edit (.layer (.save _ _)))

theorem lineBuild_built (name : String) : (lineBuild name).module.Built ⟨0⟩ := by
  rw [lineBuild]
  exact built_create (.save _ _) <| built_create (.regression _ _ _) <|
    built_create (.matMul _ _ _) <| built_create (.gather _ _ _) <| built_declare <|
      built_declare <| built_declare <| built_declare <| built_declare <|
        (Module.Built.ofSeed 0).newGraph "line"

/-- The graph is compiled for inference and for training. -/
def lineInference (name : String) : Engine Int := (lineBuild name).after (compile .infer ⟨0⟩)

def lineEngine (name : String) : Engine Int := (lineInference name).after (compile .train ⟨0⟩)

/-- Inputs, the row to take, and an expected value. -/
def lineBindings (row : Int) : List (Binding Int) :=
  [⟨"x", .full (.float [2, 2]) 2⟩, ⟨"row", .full (.index [1]) row⟩, ⟨"y", .full (.float [1, 1]) 1⟩]

theorem lineInference_arises (name : String) : (lineInference name).Arises :=
  .operate (lineBuild_arises name) (.compile .infer ⟨0⟩)

/-- What both compilations of the line come to, whatever its further weight is called. -/
structure LineTrains (name : String) (g h : Graph Int) (c' : Engine Int) : Prop where
  inferred : Retains .infer ⟨0⟩ (lineBuild name) (lineEngine name)
  trained : Retains .train ⟨0⟩ (lineInference name) (lineEngine name)
  built : (lineInference name).module.Built ⟨0⟩
  found : (lineBuild name).module.graph? ⟨0⟩ = some g
  found' : (lineInference name).module.graph? ⟨0⟩ = some g
  graph : Yields (graphFor .train ⟨0⟩) (lineInference name) h c'
  result : g.Saves ⟨5⟩
  saves : ∀ v, g.Saves v → (lineEngine name).module.isTrained v = false
  velocities : ∀ v, g.References v → ∀ w d, ¬h.Updates w d v
  updates : ∃ d u, h.Updates ⟨2⟩ d u
  single : ∀ w d u, h.Updates w d u → w = ⟨2⟩

/-- What can be checked of the line by running it. -/
def lineChecks (name : String) : Bool :=
  ((compile .infer ⟨0⟩).run.run (lineBuild name)).1.isOk &&
    ((compile .train ⟨0⟩).run.run (lineInference name)).1.isOk &&
    ((lineBuild name).module.graph? ⟨0⟩).any (fun (g : Graph Int) =>
      g.saved.contains ⟨5⟩ && g.saved.all (fun (v : VarId) => !(lineEngine name).module.isTrained v) &&
        ((graphFor .train ⟨0⟩).run.run (lineInference name)).1.toOption.any fun (h : Graph Int) =>
          h.updated.any (fun (update : VarId × NodeId × VarId) => update.1 == ⟨2⟩) &&
            h.updated.all fun (update : VarId × NodeId × VarId) =>
              update.1 == ⟨2⟩ && !g.referenced.contains update.2.2)

theorem lineTrains (name : String) (checks : lineChecks name = true) :
    ∃ g h c', LineTrains name g h c' := by
  simp only [lineChecks, Bool.and_eq_true, Option.any_eq_true, List.all_eq_true,
    List.any_eq_true, beq_iff_eq] at checks
  obtain ⟨⟨compiles, compiles'⟩, g, found, ⟨result, saves⟩, h, differentiates,
    ⟨⟨w, d, u⟩, listed, rfl⟩, updates⟩ := checks
  have inference : Yields (compile .infer ⟨0⟩) (lineBuild name) () (lineInference name) :=
    yields_after compiles
  obtain ⟨_, _, _, _, asked, -, same, -⟩ := yields_compile inference
  obtain ⟨-, rfl⟩ := Prod.mk.inj asked
  refine ⟨g, h, ((graphFor .train ⟨0⟩).run.run (lineInference name)).2,
    .step (.compile inference) (.compile .train ⟨0⟩) (by simp), .compile (yields_after compiles'),
    by rw [same]; exact lineBuild_built name, found, by rw [same]; exact found, ?_,
    Graph.mem_saved.mp (List.contains_iff_mem.mp result), fun v saved => ?_,
    fun v used w d update => ?_, ⟨d, u, Graph.mem_updated.mp listed⟩,
    fun w d u update => (updates _ (Graph.mem_updated.mpr update)).1⟩
  · rw [Yields]
    generalize (graphFor .train ⟨0⟩).run.run (lineInference name) = r at differentiates
    obtain ⟨_ | _, _⟩ := r
    · cases differentiates
    · cases differentiates
      rfl
  · simpa using saves v (Graph.mem_saved.mpr saved)
  · have unused := (updates _ (Graph.mem_updated.mpr update)).2
    simp [Graph.mem_referenced.mpr used] at unused

theorem lineEngine_steps_agree : ∃ h c' e' e'',
    Yields (graphFor .train ⟨0⟩) (lineInference "spare") h c' ∧
      Yields (step .train (lineBindings 1)) (lineEngine "spare") () e' ∧
      Yields (step .infer (lineBindings 1)) (lineEngine "spare") () e'' ∧
      (∃ x, e'.payload ⟨5⟩ = some x ∧ e''.payload ⟨5⟩ = some x) ∧
      ∀ l, e'.holding l ≠ e''.holding l → ∃ w d u, h.Updates w d u ∧
        (lineEngine "spare").module.isTrained w = true ∧
          ((lineEngine "spare").store.home? w = some l ∨
            (lineEngine "spare").store.home? u = some l) := by
  obtain ⟨g, h, c', trains⟩ := lineTrains "spare" (by decide +kernel)
  have trained : Yields (step .train (lineBindings 1)) (lineEngine "spare") ()
      ((lineEngine "spare").after (step .train (lineBindings 1))) := yields_after (by decide +kernel)
  obtain ⟨e'', inferred, results, apart⟩ := steps_agree trains.inferred trains.trained
    (lineBuild_arises "spare") (lineInference_arises "spare")
    trains.built trains.found trains.found' trains.graph trains.saves trains.velocities
    (lineBindings 1) trained
  exact ⟨h, c', _, e'', trains.graph, trained, inferred, results ⟨5⟩ trains.result, apart⟩

/-- A kernel has failed. -/
def kernelFails : Except (Error Int) Unit → Bool
  | .error (.kernel _ _) => true
  | _ => false

theorem kernelFails_iff {r : Except (Error Int) Unit} :
    kernelFails r = true ↔ ∃ name fault, r = .error (.kernel name fault) := by
  constructor
  · intro h
    rw [kernelFails.eq_def] at h
    split at h
    · exact ⟨_, _, rfl⟩
    · cases h
  · rintro ⟨name, fault, rfl⟩
    rfl

/-- With row 1 the weight takes its step, with row 7 a kernel fails and the weight stays. -/
theorem lineEngine_step_descends :
    (∃ (e₀ e' : Engine Int) (s : Graph Int) (V : Valuation Int) (d : NodeId) (u : VarId)
      (weight gradient velocity weight' velocity' : Tensor Int),
      Yields (prepare .train (lineBindings 1)) (lineEngine "spare") () e₀ ∧
        Yields (step .train (lineBindings 1)) (lineEngine "spare") () e' ∧
        s.evaluate e₀.payload = .ok V ∧ e₀.payload ⟨2⟩ = some weight ∧ V.nodes d = some gradient ∧
        e₀.payload u = some velocity ∧
        (lineInference "spare").rule.Descends weight gradient velocity weight' velocity' ∧
        e'.payload ⟨2⟩ = some weight' ∧ e'.payload u = some velocity') ∧
      ∃ (e₀ e' : Engine Int) (name : String) (fault : KernelFault Int),
        Yields (prepare .train (lineBindings 7)) (lineEngine "spare") () e₀ ∧
          (step .train (lineBindings 7)).run.run (lineEngine "spare") =
            (.error (.kernel name fault), e') ∧
          e'.payload ⟨2⟩ = e₀.payload ⟨2⟩ := by
  obtain ⟨g, h, c', trains⟩ := lineTrains "spare" (by decide +kernel)
  have arises := lineInference_arises "spare"
  constructor
  · have stepped : Yields (step .train (lineBindings 1)) (lineEngine "spare") ()
        ((lineEngine "spare").after (step .train (lineBindings 1))) := yields_after (by decide +kernel)
    obtain ⟨e₀, s, sums, prepared, -, succeeds, -⟩ := step_descends trains.trained arises trains.built
      trains.found' trains.graph trains.saves trains.velocities (lineBindings 1) stepped (.inl rfl)
    obtain ⟨V, evaluated, descends, -⟩ := succeeds rfl
    obtain ⟨d, u, update⟩ := trains.updates
    obtain ⟨-, weight, gradient, velocity, weight', velocity', steps⟩ := descends _ d u update
    exact ⟨e₀, _, s, V, d, u, weight, gradient, velocity, weight', velocity', prepared, stepped,
      evaluated, steps⟩
  · obtain ⟨name, fault, failed⟩ := kernelFails_iff.mp (by decide +kernel :
      kernelFails ((step .train (lineBindings 7)).run.run (lineEngine "spare")).1 = true)
    have stepped : (step .train (lineBindings 7)).run.run (lineEngine "spare") =
        (.error (.kernel name fault), (lineEngine "spare").after (step .train (lineBindings 7))) :=
      Prod.ext failed rfl
    obtain ⟨e₀, s, sums, prepared, -, -, fails⟩ := step_descends trains.trained arises trains.built
      trains.found' trains.graph trains.saves trains.velocities (lineBindings 7) stepped
      (.inr ⟨name, fault, rfl⟩)
    exact ⟨e₀, _, name, fault, prepared, stepped, fails name fault rfl ⟨2⟩ (.inl (by decide +kernel))⟩

/-- A trained variable that is called like the velocity of a weight becomes that velocity.  It changes,
though nothing updates it as a weight. -/
theorem lineEngine_velocity_moves : ∃ (g h : Graph Int) (c' e₀ e' : Engine Int),
    LineTrains "w.velocity" g h c' ∧ (lineInference "w.velocity").Arises ∧
      Yields (prepare .train (lineBindings 1)) (lineEngine "w.velocity") () e₀ ∧
      Yields (step .train (lineBindings 1)) (lineEngine "w.velocity") () e' ∧
      (lineEngine "w.velocity").module.isTrained ⟨4⟩ = true ∧ (∀ d u, ¬h.Updates ⟨4⟩ d u) ∧
      e'.payload ⟨4⟩ ≠ e₀.payload ⟨4⟩ := by
  obtain ⟨g, h, c', trains⟩ := lineTrains "w.velocity" (by decide +kernel)
  refine ⟨g, h, c', _, _, trains, lineInference_arises _, yields_after (by decide +kernel),
    yields_after (by decide +kernel), by decide +kernel, fun d u update => ?_, fun same => ?_⟩
  · cases trains.single _ d u update
  · have first := congrArg (Option.map fun (t : Tensor Int) => t.array.get 0) same
    revert first
    decide +kernel

end
end NeuralGraph
