import Mathlib
import NeuralGraph.Proofs.Engine.Recompilation
import NeuralGraph.Proofs.Engine.Steps
import NeuralGraph.Proofs.Gradient.Repetition
import NeuralGraph.Proofs.Integers
import NeuralGraph.Proofs.Lowering.Repetition

/-!
# Compilations are repeated

A compilation gives homes to all variables of its graph, and declares its velocities.  Variables and homes
last, whatever is done to the engine.  So the same nodes are compiled to the same code later on, and no
location is added.
-/

namespace NeuralGraph
set_option autoImplicit false
variable {α β : Type} [Scalar α]

namespace Engine
variable {e e' e₁ e₂ e₃ c : Engine α} {mode : Mode} {f : GraphId}

/-! ## Sound modules -/

/-- If the variables of the module are sound, they still are. -/
def StaysSound (e e' : Engine α) : Prop := e.module.Sound → e'.module.Sound

instance staysSound_isPreorder : IsPreorder (Engine α) StaysSound where
  refl _ := id
  trans _ _ _ h h' := h' ∘ h

theorem StaysSound.of_eq (same : e'.module = e.module) : e.StaysSound e' := fun sound => same ▸ sound

theorem leads_sound_attempt {x : Engine α → Except (Error α) (Engine α × β)}
    (h : ∀ e e' b, x e = .ok (e', b) → e'.module = e.module) : Leads StaysSound (attempt x) := by
  intro e
  simp only [attempt, carry, ExceptT.run_mk, StateT.run]
  cases hx : x e with
  | error error => exact .of_eq rfl
  | ok r => exact .of_eq (h e r.1 r.2 hx)

theorem leads_sound_ask (x : Engine α → Except (Error α) β) : Leads StaysSound (ask x) :=
  fun _ => .of_eq rfl

theorem leads_sound_executeActive : Leads StaysSound (executeActive : Operate α Unit) := by
  intro e
  rw [executeActive, run_carry]
  split
  · exact .of_eq rfl
  · dsimp only
    split
    all_goals exact .of_eq (withCompiled_module e _)

theorem leads_sound_runIterations (bindings : List (Binding α)) (count iteration : Nat) :
    Leads StaysSound (runIterations bindings count iteration) := by
  induction count generalizing iteration with
  | zero => exact leads_pure ()
  | succ count ih =>
    exact leads_bind (fun e => .of_eq (by rw [run_bindRows]; rfl)) fun _ =>
      leads_bind leads_sound_executeActive fun _ => ih (iteration + 1)

theorem leads_sound_compile (mode : Mode) (f : GraphId) :
    Leads StaysSound (compile mode f : Operate α Unit) := by
  refine fun e sound => ?_
  rcases after_compile mode f e with ⟨g, c, graph, module, -⟩ | ⟨-, -, still⟩
  · exact module ▸ (yields_graphFor graph).2.2.1 sound
  · exact still sound

theorem Operation.sound {recompiled : Option Mode} {x : Operate α β}
    (operation : Operation recompiled x) : Leads StaysSound x := by
  cases operation with
  | edit edits => exact fun e => edits.sound e.module
  | configure rule =>
    refine leads_sound_attempt fun e e' _ h => ?_
    cases h
    rfl
  | compile mode f => exact leads_sound_compile mode f
  | activate mode =>
    refine leads_sound_attempt fun e e' _ h => ?_
    split at h
    · cases h
      rfl
    · cases h
  | run bindings =>
    exact leads_bind (leads_sound_ask _) fun _ =>
      leads_bind (fun e => .of_eq (by rw [run_bindAll]; rfl)) fun _ => leads_sound_executeActive
  | runBatches iterations bindings =>
    exact leads_bind (leads_sound_ask _) fun _ => leads_sound_runIterations bindings iterations 0
  | read name => exact leads_sound_ask _
  | write name t =>
    refine leads_sound_attempt fun e e' _ h => ?_
    simp only [bind, Except.bind, overwrite_eq_map] at h
    split at h
    · cases h
    · split at h
      · split at h
        · cases h
        · next done =>
          cases h
          obtain ⟨a, -, rfl⟩ := exists_of_map_eq_ok done
          rfl
      · cases h
  | touch id alike =>
    refine leads_sound_attempt fun e e' _ h => ?_
    simp only [bind, Except.bind] at h
    split at h
    · cases h
    · cases h
      rfl
  | locate name type mutability visibility =>
    refine leads_sound_attempt fun e e' _ h => ?_
    simp only [bind, Except.bind] at h
    split at h
    · cases h
    · cases h
      rfl

omit [Scalar α] in
theorem after_retag (e : Engine α) (id : LocationId) (mutability : Mutability) :
    (e.after (retag id mutability)).module = e.module ∧
      (e.after (retag id mutability)).store.homes = e.store.homes := by
  simp only [after, retag, attempt, run_carry, Arena.update, bind, Except.bind]
  cases e.store.arena.get id with
  | error _ => exact ⟨rfl, rfl⟩
  | ok l => exact ⟨rfl, rfl⟩

theorem Arises.sound (h : e.Arises) : e.module.Sound := by
  induction h with
  | start seed => exact .ofSeed seed
  | operate _ operation ih => exact operation.sound _ ih
  | @retag e id mutability _ ih => exact (e.after_retag id mutability).1 ▸ ih

/-! ## What happens in between -/

/-- Operations and changes of mutability tags lead from one engine to the other. -/
inductive Becomes (e : Engine α) : Engine α → Prop
  | refl : Becomes e e
  | operate {e' : Engine α} {recompiled : Option Mode} {β : Type} {x : Operate α β} :
    Becomes e e' → Operation recompiled x → Becomes e (e'.after x)
  | retag {e' : Engine α} (id : LocationId) (mutability : Mutability) :
    Becomes e e' → Becomes e (e'.after (retag id mutability))

theorem Becomes.arises (h : e.Becomes e') (arises : e.Arises) : e'.Arises := by
  induction h with
  | refl => exact arises
  | operate _ operation ih => exact .operate ih operation
  | retag id mutability _ ih => exact .retag id mutability ih

theorem Becomes.lasts (h : e.Becomes e') (arises : e.Arises) : e'.module.Covers e.module ∧
    ∀ v l, e.store.home? v = some l → e'.store.home? v = some l := by
  induction h with
  | refl => exact ⟨.refl _, fun _ _ home => home⟩
  | operate earlier operation ih =>
    have kept := (operation.keeps _).persists (earlier.arises arises).valid
    exact ⟨kept.covers.trans ih.1, fun v l home => kept.grows.homes v l (ih.2 v l home)⟩
  | @retag e' id mutability earlier ih =>
    obtain ⟨module, homes⟩ := e'.after_retag id mutability
    refine ⟨module ▸ ih.1, fun v l home => ?_⟩
    rw [WeightStorage.home?, homes]
    exact ih.2 v l home

/-- The graph has the nodes that it had, and writes in place if it did. -/
def KeepsGraph (f : GraphId) (e e' : Engine α) : Prop :=
  ∀ g, e.module.graph? f = some g →
    ∃ g', e'.module.graph? f = some g' ∧ g'.nodes = g.nodes ∧ g'.inPlace = g.inPlace

omit [Scalar α] in
theorem KeepsGraph.withName {g : Graph α} (h : KeepsGraph f e e') (found : e.module.graph? f = some g) :
    ∃ name, e'.module.graph? f = some (g.withName name) := by
  obtain ⟨⟨name, nodes, inPlace⟩, found', rfl, rfl⟩ := h g found
  exact ⟨name, found'⟩

/-! ## The graph that is lowered -/

theorem arises_of_yields {x : Operate α β} {b : β} {recompiled : Option Mode} (arises : e.Arises)
    (operation : Operation recompiled x) (h : Yields x e b e') : e'.Arises := by
  have done : e.after x = e' := congrArg Prod.snd h
  exact done ▸ .operate arises operation

theorem exists_var?_of_compile {g : Graph α} (arises : e.Arises)
    (compiled : Yields (compile mode f) e () e₁) (graph : Yields (graphFor mode f) e g c) {v : VarId}
    (used : g.References v) : ∃ u, e₁.module.var? v = some u := by
  obtain ⟨unit, holds⟩ := (Retains.compile compiled).holds arises.valid graph
  obtain ⟨l, -, home, -⟩ := holds.realizes.home_of_references used
  obtain ⟨u, -, known, -⟩ :=
    (arises_of_yields arises (.compile mode f) compiled).valid.labelled v l home
  exact ⟨u, known⟩

/-- Once a graph is compiled, the same graph is lowered when it is compiled again, and no variable is
declared for it. -/
theorem graphFor_again {g g' : Graph α} {c' : Engine α} (arises : e.Arises)
    (compiled : Yields (compile mode f) e () e₁) (between : e₁.Becomes e₂) (kept : KeepsGraph f e e₂)
    (rule : mode = .train → e₂.rule = e.rule) (graph : Yields (graphFor mode f) e g c)
    (graph' : Yields (graphFor mode f) e₂ g' c') :
    c' = e₂ ∧ ∃ name, g' = g.withName name := by
  have arises₁ := arises_of_yields arises (.compile mode f) compiled
  have known := fun v => exists_var?_of_compile arises compiled graph (v := v)
  obtain ⟨_, c₁, _, _, asked, -, module₁, -⟩ := yields_compile compiled
  obtain ⟨⟨⟩, rfl⟩ := Prod.mk.inj (asked.symm.trans graph)
  cases mode with
  | infer =>
    have found : e.module.graph f = .ok g := congrArg Prod.fst graph
    have found' : e₂.module.graph f = .ok g' := congrArg Prod.fst graph'
    have unchanged : e₂ = c' := congrArg Prod.snd graph'
    obtain ⟨name, same⟩ := kept.withName (Module.graph_eq_ok_iff.mp found)
    obtain rfl := Option.some.inj ((Module.graph_eq_ok_iff.mp found').symm.trans same)
    exact ⟨unchanged.symm, name, rfl⟩
  | train =>
    rw [Yields, graphFor, run_carry, run_build] at graph graph'
    obtain ⟨result, rfl⟩ := Prod.mk.inj graph
    obtain ⟨result', rfl⟩ := Prod.mk.inj graph'
    have trained : Yields (Build.trainingGraph f e.rule) e.module g e₁.module :=
      Prod.ext result module₁.symm
    have trained' : Yields (Build.trainingGraph f e.rule) e₂.module g'
      ((Build.trainingGraph f e₂.rule).run.run e₂.module).2 := rule rfl ▸ Prod.ext result' rfl
    obtain ⟨forward, _, _, found, -, -⟩ := Build.trainingGraph_parts trained
    obtain ⟨name, found'⟩ := kept.withName found
    have covers := (between.lasts arises₁).1
    have alike : forward.TrainsAlike e.module e₂.module := by
      rintro v ⟨n, hn, used⟩
      have grown := (Build.trainingGraph_pushes found trained).extends'
      obtain ⟨i, hi⟩ := Array.getElem?_of_mem hn
      obtain ⟨u, hu⟩ := known v ⟨n, Array.mem_of_getElem? (grown i n hi), used⟩
      have same := Build.trainsSame_trainingGraph f e.rule e.module v
      rw [trained] at same
      exact (covers.isTrained_eq hu).trans same
    have formed := (arises.valid.made.graph found).formed
    obtain ⟨same, rfl⟩ := Build.trainingGraph_again formed (between.arises arises₁).sound covers found
      found' alike trained trained'
    exact ⟨by rw [same], _, rfl⟩

/-- The graph is compiled to the same code again, and neither a variable nor a location is added. -/
theorem compile_again (arises : e.Arises) (compiled : Yields (compile mode f) e () e₁)
    (between : e₁.Becomes e₂) (kept : KeepsGraph f e e₂) (rule : mode = .train → e₂.rule = e.rule)
    (again : Yields (compile mode f) e₂ () e₃) :
    ∃ u u', e₁.compiled? mode = some u ∧ e₃.compiled? mode = some u' ∧
      u'.program.signature = u.program.signature ∧ e₃.module = e₂.module ∧ e₃.store = e₂.store := by
  obtain ⟨g, c, p, store, graph, lowered, module, rfl, unit, -⟩ := yields_compile compiled
  obtain ⟨g', c', p', store', graph', lowered', module', rfl, unit', -⟩ := yields_compile again
  obtain ⟨rfl, name, rfl⟩ := graphFor_again arises compiled between kept rule graph graph'
  have ordered := (graphFor_made arises.valid graph).formed.ordered
  obtain ⟨same, instructions, -⟩ := Graph.lower_again ordered lowered lowered'
    (between.lasts (arises_of_yields arises (.compile mode f) compiled)).2
  exact ⟨_, _, unit, unit', by rw [Program.signature, Program.signature, instructions], module', same⟩

end Engine

/-! ## Checking that a graph is kept -/

section
variable [DecidableEq α]

omit [Scalar α] in
instance TensorType.decidableEq : DecidableEq (TensorType α) := fun s t =>
  decidable_of_iff (s.element = t.element ∧ s.dims = t.dims ∧ s.scale = t.scale ∧ s.offset = t.offset)
    (by cases s; cases t; simp)

omit [Scalar α] in
instance Node.decidableEq : DecidableEq (Node α) := fun n k =>
  decidable_of_iff (n.name = k.name ∧ n.kind = k.kind ∧ n.inputs = k.inputs ∧ n.type = k.type)
    (by cases n; cases k; simp)

end

omit [Scalar α] in
/-- Whether the graph is kept can be checked. -/
theorem Engine.keepsGraph_of_parts {f : GraphId} {e e' : Engine α}
    (h : (e'.module.graph? f).map (fun (g : Graph α) => (g.nodes, g.inPlace)) =
      (e.module.graph? f).map fun (g : Graph α) => (g.nodes, g.inPlace)) : KeepsGraph f e e' := by
  intro g found
  rw [found] at h
  obtain ⟨g', found', same⟩ := Option.map_eq_some_iff.mp h
  exact ⟨g', found', Prod.mk.inj same⟩

/-! ## A line that is compiled twice -/

section
open Engine

/-- The line is compiled for training. -/
def lineTrained : Engine Int := (lineBuild "spare").after (compile .train ⟨0⟩)

/-- The line takes a step, and a graph with a variable of its own is made and compiled. -/
def lineExtended : Engine Int :=
  lineTrained.after (run (lineBindings 1))
    |>.after (build (Build.newVariable "late" (.float [2, 2]) .exposed (.constant 3)))
    |>.after (build (Build.attempt fun (m : Module Int) => m.addGraph "other"))
    |>.after (build (Build.unary ⟨1⟩ "positive" .relu (.var ⟨7⟩)))
    |>.after (build (Build.save ⟨1⟩ "rectified" (.node ⟨0⟩)))
    |>.after (compile .infer ⟨1⟩)

theorem lineExtended_becomes : lineTrained.Becomes lineExtended :=
  Becomes.refl
    |>.operate (.run _)
    |>.operate (.edit (.declare "late" _ _ _))
    |>.operate (.edit (.insertGraph (.empty "other")))
    |>.operate (.edit (.layer (.unary _ _ _)))
    |>.operate (.edit (.layer (.save _ _)))
    |>.operate (.compile .infer ⟨1⟩)

theorem lineExtended_compile_again :
    (lineBuild "spare").Arises ∧ Yields (compile .train ⟨0⟩) (lineBuild "spare") () lineTrained ∧
      lineTrained.Becomes lineExtended ∧ KeepsGraph ⟨0⟩ (lineBuild "spare") lineExtended ∧
      lineExtended.rule = (lineBuild "spare").rule ∧
      lineTrained.store.arena.size < lineExtended.store.arena.size ∧
      ∃ e₃ u u', Yields (compile .train ⟨0⟩) lineExtended () e₃ ∧
        lineTrained.compiled? .train = some u ∧ e₃.compiled? .train = some u' ∧
        u'.program.signature = u.program.signature ∧ e₃.store = lineExtended.store := by
  have compiled : Yields (compile .train ⟨0⟩) (lineBuild "spare") () lineTrained :=
    yields_after (by decide +kernel)
  have again : Yields (compile .train ⟨0⟩) lineExtended () (lineExtended.after (compile .train ⟨0⟩)) :=
    yields_after (by decide +kernel)
  have kept : KeepsGraph ⟨0⟩ (lineBuild "spare") lineExtended :=
    keepsGraph_of_parts (by decide +kernel)
  have rule : lineExtended.rule = (lineBuild "spare").rule := by decide +kernel
  obtain ⟨u, u', unit, unit', same, -, store⟩ := compile_again (lineBuild_arises "spare") compiled
    lineExtended_becomes kept (fun _ => rule) again
  exact ⟨lineBuild_arises "spare", compiled, lineExtended_becomes, kept, rule, by decide +kernel, _, u,
    u', again, unit, unit', same, store⟩

end
end NeuralGraph
