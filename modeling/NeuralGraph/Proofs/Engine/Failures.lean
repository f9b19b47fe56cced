import Mathlib
import NeuralGraph.Proofs.Engine.Atomicity
import NeuralGraph.Proofs.Engine.Idempotence
import NeuralGraph.Proofs.Gradient.Layout
import NeuralGraph.Proofs.Integers
import NeuralGraph.Proofs.Program.Appending

/-!
# Compilations that fail

A compilation that fails may have declared velocities and given homes to variables before it came to what
it refuses.  All of this stands at the end of what there was, where no unit and no name that was known
before leads to: so callers that go on with these get the replies that they would have got without it.
-/

namespace NeuralGraph
set_option autoImplicit false
variable {α β : Type}

/-! ## New variables, locations and homes -/

/-- The module has its graphs and variables as before, and maybe more variables. -/
structure Module.Appends (m m' : Module α) : Prop where
  graphs : m'.graphs = m.graphs
  generator : m'.generator = m.generator
  vars : ∃ more, m.Gains m' more

instance Module.appends_isPreorder : IsPreorder (Module α) Module.Appends where
  refl _ := ⟨rfl, rfl, [], (List.append_nil _).symm⟩
  trans _ _ _ h h' := by
    obtain ⟨more, gains⟩ := h.vars
    obtain ⟨more', gains'⟩ := h'.vars
    exact ⟨h'.graphs.trans h.graphs, h'.generator.trans h.generator, more ++ more',
      by rw [Module.Gains, gains', gains, List.append_assoc]⟩

/-- The store has its locations and homes as before, and maybe more of them. -/
structure WeightStorage.Appends (s s' : WeightStorage α) : Prop where
  arena : ∃ more, s'.arena = s.arena.append more
  homes : ∃ more, s'.homes = s.homes ++ more

theorem WeightStorage.Appends.refl (s : WeightStorage α) : s.Appends s :=
  ⟨⟨#[], congrArg Arena.mk Array.append_empty.symm⟩, [], (List.append_nil _).symm⟩

theorem WeightStorage.Appends.trans {s t u : WeightStorage α} (h : s.Appends t) (h' : t.Appends u) :
    s.Appends u := by
  obtain ⟨⟨more, arena⟩, others, homes⟩ := h
  obtain ⟨⟨more', arena'⟩, others', homes'⟩ := h'
  refine ⟨⟨more ++ more', ?_⟩, others ++ others', by rw [homes', homes, List.append_assoc]⟩
  rw [arena', arena]
  exact congrArg Arena.mk Array.append_assoc

namespace Engine

/-- Nothing has changed but that there may be more variables, locations and homes at the end. -/
structure Appends (e e' : Engine α) : Prop where
  infer : e'.infer = e.infer
  train : e'.train = e.train
  active : e'.active = e.active
  rule : e'.rule = e.rule
  module : e.module.Appends e'.module
  store : e.store.Appends e'.store

instance appends_isPreorder : IsPreorder (Engine α) Appends where
  refl e := ⟨rfl, rfl, rfl, rfl, refl_of Module.Appends e.module, .refl e.store⟩
  trans _ _ _ h h' := ⟨h'.infer.trans h.infer, h'.train.trans h.train, h'.active.trans h.active,
    h'.rule.trans h.rule, trans_of Module.Appends h.module h'.module, h.store.trans h'.store⟩

end Engine

/-! ## What a failure leaves -/

variable [Scalar α]

/-- A velocity that is new stands at the end, and no random number is drawn for it. -/
theorem Module.appends_of_findOrDeclare {m m' : Module α} {name : String} {type : TensorType α}
    {id : VarId} (h : m.findOrDeclare name type .hidden .untrained = .ok (m', id)) : m.Appends m' := by
  obtain ⟨more, gains, -⟩ := findOrDeclare_gains h
  rcases findOrDeclare_eq_ok h with ⟨rfl, -⟩ | declared
  · exact ⟨rfl, rfl, more, gains⟩
  · obtain ⟨-, -, rfl⟩ := declare_eq_ok declared
    exact ⟨rfl, rfl, more, gains⟩

theorem WeightStorage.Allocates.appends {m : Module α} {stored : List VarId} {s t : WeightStorage α}
    (h : Allocates m stored s t) : s.Appends t := by
  refine h.keeps (.refl s) fun {t u id v l} appends _ given => ?_
  rcases allocate_eq_ok_iff.mp given with ⟨-, rfl⟩ | ⟨-, -, a, inserted, rfl⟩
  · exact appends
  · obtain ⟨-, rfl, -⟩ := Arena.insert_eq_ok_iff.mp inserted
    exact appends.trans ⟨⟨_, congrArg Arena.mk Array.push_eq_append⟩, [(id, l)], rfl⟩

/-! ## Copying over more weights -/

namespace Arena
omit [Scalar α]
variable {a b : Arena α} {name : String}

/-- The name is one of a location. -/
def Knows (a : Arena α) (name : String) : Prop := ∃ l, a.named? name = some l

theorem Knows.of_peers (knows : b.Knows name) (peers : a.Peers b) : a.Knows name := by
  obtain ⟨l, hl⟩ := knows
  have rel := peers.named? name
  rw [hl] at rel
  generalize found : a.named? name = r at rel
  cases rel with
  | some _ => exact ⟨_, found⟩

theorem overwrite_append (knows : a.Knows name)
    (f : Tensor α → Except (TensorFault α) (Tensor α)) (more : Array (Location α)) :
    (a.append more).overwrite name f =
      (a.overwrite name f).map fun (b : Arena α) => b.append more := by
  obtain ⟨l, hl⟩ := knows
  obtain ⟨id, found, located⟩ := Option.bind_eq_some_iff.mp hl
  have bound := lt_size_of_get? located
  rw [overwrite_eq found located, overwrite_eq (find?_append found more)
    ((get?_append bound more).trans located)]
  cases l.overwrite f with
  | error _ => rfl
  | ok k => exact congrArg Except.ok (put_append bound k more)

theorem overwriteEach_append {f : Binding α → Tensor α → Except (TensorFault α) (Tensor α)}
    (keeps : ∀ b, KeepsType (f b)) {bindings : List (Binding α)}
    (knows : ∀ b ∈ bindings, a.Knows b.name) (more : Array (Location α)) :
    (a.append more).overwriteEach f bindings =
      ((a.overwriteEach f bindings).1, (a.overwriteEach f bindings).2.append more) := by
  induction bindings generalizing a with
  | nil => rfl
  | cons b rest ih =>
    rw [overwriteEach, overwriteEach, overwrite_append (knows b List.mem_cons_self)]
    cases done : a.overwrite b.name (f b) with
    | error _ => rfl
    | ok a' =>
      have peers := overwrite_peers (keeps b) done
      exact ih fun b' hb' => (knows b' (List.mem_cons_of_mem _ hb')).of_peers peers

end Arena

namespace Engine
variable {e e' : Engine α} {mode : Mode} {f : GraphId}

theorem appends_graphFor (mode : Mode) (f : GraphId) :
    Leads Appends (graphFor mode f : Operate α (Graph α)) := by
  intro e
  cases mode with
  | infer => exact refl_of Appends e
  | train =>
    have appends : Leads Module.Appends (Build.trainingGraph f e.rule) :=
      Build.leads_differentiation (fun _ _ => Build.leads_attempt fun _ _ _ found =>
        Module.appends_of_findOrDeclare found) f e.rule
    exact ⟨rfl, rfl, rfl, rfl, appends e.module, .refl e.store⟩

theorem appends_lowerGraph (g : Graph α) : Leads Appends (lowerGraph g) := fun e =>
  ⟨rfl, rfl, rfl, rfl, refl_of Module.Appends e.module, (g.lower_allocates e.module e.store).appends⟩

theorem appends_of_compile_error {error : Error α}
    (h : (compile mode f).run.run e = (.error error, e')) : e.Appends e' :=
  related_of_compile_error (appends_graphFor mode f) appends_lowerGraph h

/-! ## Units name what there is -/

/-- The weights that units name exist. -/
def IsWithin (e : Engine α) : Prop :=
  ∀ mode u, e.compiled? mode = some u → u.program.IsWithin e.store.arena.size

omit [Scalar α] in
theorem isWithin_of_program {p q : Program α} {size size' : Nat} (h : p.IsWithin size)
    (same : q.instructions = p.instructions) (le : size ≤ size') : q.IsWithin size' :=
  fun i hi => (h i (same ▸ hi)).mono le

theorem Arises.isWithin (h : e.Arises) : e.IsWithin := by
  intro mode u found i hi o ho
  obtain ⟨ls, typed⟩ := h.isTyped mode u found i hi
  obtain ⟨l, hl⟩ := typed.located.located ho
  exact .of_located hl

/-! ## Calls -/

/-- What callers do with the units and the locations that they know.  In between they may change the module
and the update rule, with whatever outcome. -/
inductive Call (α : Type) : Type 1 where
  | edit {β : Type} (x : Build α β)
  | configure (rule : UpdateRule α)
  | activate (mode : Mode)
  | run (bindings : List (Binding α))
  | runBatches (iterations : Nat) (bindings : List (Binding α))
  | read (name : String)
  | write (name : String) (t : Tensor α)

namespace Call

/-- The names of the locations that the call is about. -/
def names : Call α → List String
  | .edit _ | .configure _ | .activate _ => []
  | .run bindings | .runBatches _ bindings => bindings.map Binding.name
  | .read name | .write name _ => [name]

/-- The call, which replies with what was read if it reads. -/
def perform : Call α → Operate α (Option (Tensor α))
  | .edit x => carry fun (e : Engine α) => (.ok none, e.after (build x))
  | .configure rule => carry fun (e : Engine α) => (.ok none, { e with rule := rule })
  | .activate mode => do
    Engine.activate mode
    return none
  | .run bindings => do
    Engine.run bindings
    return none
  | .runBatches iterations bindings => do
    Engine.runBatches iterations bindings
    return none
  | .read name => do
    let t ← ask fun (e : Engine α) => e.read name
    return some t
  | .write name t => do
    Engine.write name t
    return none

end Call

/-- The replies to calls that are made one after the other. -/
def replies (e : Engine α) : List (Call α) → List (Except (Error α) (Option (Tensor α)))
  | [] => []
  | call :: calls => (call.perform.run.run e).1 :: (e.after call.perform).replies calls

/-! ## Calls that cannot tell -/

/-- Two engines with the same units.  The weights of the second are those of the first, all of which are
in `a` under the same names, and then `more`. -/
structure Shadows (a : Arena α) (more : Array (Location α)) (e e' : Engine α) : Prop where
  units : ∀ mode, e'.compiled? mode = e.compiled? mode
  active : e'.active = e.active
  arena : e'.store.arena = e.store.arena.append more
  peers : e.store.arena.Peers a
  within : e.IsWithin

variable {a : Arena α} {more : Array (Location α)} {name : String} {bindings : List (Binding α)}

omit [Scalar α] in
theorem Shadows.named? (h : Shadows a more e e') (knows : a.Knows name) :
    e'.store.arena.named? name = e.store.arena.named? name := by
  obtain ⟨l, hl⟩ := knows.of_peers h.peers
  rw [h.arena, Arena.named?_append hl, hl]

omit [Scalar α] in
theorem Shadows.exposed (h : Shadows a more e e') (knows : a.Knows name) (access : Access) :
    e'.exposed name access = e.exposed name access := by
  rw [Engine.exposed, Engine.exposed, h.named? knows]

omit [Scalar α] in
theorem Shadows.withArena {b : Arena α} (h : Shadows a more e e') (peers : b.Peers e.store.arena) :
    Shadows a more (e.withArena b) (e'.withArena (b.append more)) where
  units mode := by rw [compiled?_withArena, compiled?_withArena, h.units mode]
  active := h.active
  arena := rfl
  peers := peers.trans h.peers
  within mode u found := by
    rw [compiled?_withArena] at found
    exact isWithin_of_program (h.within mode u found) rfl peers.size_eq.ge

omit [Scalar α] in
theorem checkBindings_congr {accepts : TensorType α → TensorType α → Bool}
    (same : ∀ b ∈ bindings, e'.exposed b.name .bind = e.exposed b.name .bind) :
    e'.checkBindings accepts bindings = e.checkBindings accepts bindings := by
  induction bindings with
  | nil => rfl
  | cons b rest ih =>
    rw [checkBindings, checkBindings, same b List.mem_cons_self,
      ih fun b' hb' => same b' (List.mem_cons_of_mem _ hb')]

/-! ## Each call -/

omit [Scalar α] in
theorem echoes_ask {R : Engine α → Engine α → Prop} {f : Engine α → Except (Error α) β}
    (same : ∀ e e', R e e' → f e' = f e) : Echoes R (ask f) :=
  fun e e' related => ⟨same e e' related, related⟩

omit [Scalar α] in
theorem echoes_activate (mode : Mode) :
    Echoes (Shadows a more) (activate mode : Operate α Unit) := by
  intro e e' h
  have units := h.units mode
  cases found : e.compiled? mode with
  | none =>
    rw [run_activate_error found, run_activate_error (units.trans found)]
    exact ⟨rfl, h⟩
  | some u =>
    rw [run_activate found, run_activate (units.trans found)]
    refine ⟨rfl, fun mode' => ?_, rfl, h.arena, h.peers, fun mode' u' found' => ?_⟩
    · rw [compiled?_withActive, compiled?_withActive, h.units mode']
    · rw [compiled?_withActive] at found'
      exact h.within mode' u' found'

omit [Scalar α] in
theorem echoes_checkBindings (accepts : TensorType α → TensorType α → Bool)
    (knows : ∀ b ∈ bindings, a.Knows b.name) : Echoes (Shadows a more) (ask fun (e : Engine α) =>
      if e.active.isNone then .error .notCompiled else e.checkBindings accepts bindings) := by
  refine echoes_ask fun e e' h => ?_
  rw [h.active, checkBindings_congr fun b hb => h.exposed (knows b hb) .bind]

theorem echoes_bindAll (knows : ∀ b ∈ bindings, a.Knows b.name) :
    Echoes (Shadows a more) (bindAll bindings) := by
  intro e e' h
  have known := fun b hb => (knows b hb).of_peers h.peers
  rw [run_bindAll, run_bindAll, h.arena, Arena.assignEach,
    Arena.overwriteEach_append (fun _ _ _ => Tensor.assign_type) known]
  exact ⟨rfl, h.withArena (Arena.assignEach_peers bindings e.store.arena)⟩

theorem echoes_bindRows (iteration : Nat) (knows : ∀ b ∈ bindings, a.Knows b.name) :
    Echoes (Shadows a more) (bindRows iteration bindings) := by
  intro e e' h
  have known := fun b hb => (knows b hb).of_peers h.peers
  rw [run_bindRows, run_bindRows, h.arena,
    Arena.overwriteEach_append (fun _ _ _ => Tensor.assignRows_type) known]
  exact ⟨rfl, h.withArena
    (Arena.overwriteEach_peers (fun _ _ _ => Tensor.assignRows_type) bindings e.store.arena)⟩

omit [Scalar α] in
theorem compiled?_ran_if (e : Engine α) (u : CompiledGraph α) (r : Run α) (mode : Mode) :
    (e.ran u r).compiled? mode =
      if mode = u.mode then some { u with program := u.program.after r } else e.compiled? mode := by
  rw [ran, compiled?_withArena, compiled?_withCompiled]

omit [Scalar α] in
theorem Shadows.ran (h : Shadows a more e e') {u : CompiledGraph α} (found : e.compiled? mode = some u)
    {r : Run α} (peers : r.memory.weights.Peers e.store.arena) :
    Shadows a more (e.ran u r) (e'.ran u (r.append more)) where
  units mode := by
    rw [compiled?_ran_if, compiled?_ran_if, h.units mode]
    rfl
  active := by rw [active_ran, active_ran, h.active]
  arena := by
    rw [store_ran, store_ran]
    rfl
  peers := by
    rw [store_ran]
    exact peers.trans h.peers
  within mode' u' found' := by
    rw [store_ran]
    rw [compiled?_ran_if] at found'
    split at found'
    · cases found'
      exact isWithin_of_program (h.within mode u found) rfl peers.size_eq.ge
    · exact isWithin_of_program (h.within mode' u' found') rfl peers.size_eq.ge

/-- A unit does over more weights what it does without them. -/
theorem echoes_executeActive : Echoes (Shadows a more) (executeActive : Operate α Unit) := by
  intro e e' h
  cases active : e.active.bind e.compiled? with
  | none =>
    have active' : e'.active.bind e'.compiled? = none := by
      rw [h.active, ← active]
      exact congrArg _ (funext h.units)
    rw [executeActive, run_carry, run_carry, active, active']
    exact ⟨rfl, h⟩
  | some u =>
    obtain ⟨mode, active, found⟩ := Option.bind_eq_some_iff.mp active
    have peers := (execute_peers u.program.instructions.toList (u.program.memory e.store.arena)).weights
    rw [run_executeActive active found,
      run_executeActive (h.active.trans active) ((h.units mode).trans found), h.arena,
      Program.run_append (h.within mode u found) more]
    exact ⟨rfl, h.ran found peers⟩

theorem echoes_run (knows : ∀ b ∈ bindings, a.Knows b.name) :
    Echoes (Shadows a more) (run bindings) :=
  echoes_bind (echoes_checkBindings _ knows) fun _ =>
    echoes_bind (echoes_bindAll knows) fun _ => echoes_executeActive

theorem echoes_runIterations (knows : ∀ b ∈ bindings, a.Knows b.name) (count iteration : Nat) :
    Echoes (Shadows a more) (runIterations bindings count iteration) := by
  induction count generalizing iteration with
  | zero => exact echoes_pure ()
  | succ count ih =>
    exact echoes_bind (echoes_bindRows iteration knows) fun _ =>
      echoes_bind echoes_executeActive fun _ => ih (iteration + 1)

theorem echoes_runBatches (iterations : Nat) (knows : ∀ b ∈ bindings, a.Knows b.name) :
    Echoes (Shadows a more) (runBatches iterations bindings) :=
  echoes_bind (echoes_checkBindings _ knows) fun _ => echoes_runIterations knows iterations 0

theorem echoes_write (knows : a.Knows name) (t : Tensor α) :
    Echoes (Shadows a more) (write name t) := by
  intro e e' h
  rw [write, attempt, run_carry, run_carry, h.exposed knows]
  cases e.exposed name .write with
  | error _ => exact ⟨rfl, h⟩
  | ok l =>
    simp only [bind, Except.bind, overwrite_eq_map, h.arena,
      Arena.overwrite_append (knows.of_peers h.peers)]
    by_cases same : (t.type == l.type) = true
    · simp only [same, if_true]
      cases done : e.store.arena.overwrite name fun (old : Tensor α) => old.assign t with
      | error _ => exact ⟨rfl, h⟩
      | ok b => exact ⟨rfl, h.withArena (Arena.overwrite_peers (fun _ _ => Tensor.assign_type) done)⟩
    · simp only [same]
      exact ⟨rfl, h⟩

theorem echoes_perform {call : Call α} (knows : ∀ name ∈ call.names, a.Knows name) :
    Echoes (Shadows a more) call.perform := by
  have bound : ∀ bindings : List (Binding α), (∀ name ∈ bindings.map Binding.name, a.Knows name) →
      ∀ b ∈ bindings, a.Knows b.name := fun bindings knows b hb => knows _ (List.mem_map_of_mem hb)
  cases call with
  | edit x => exact fun e e' h => ⟨rfl, h.units, h.active, h.arena, h.peers, h.within⟩
  | configure rule => exact fun e e' h => ⟨rfl, h.units, h.active, h.arena, h.peers, h.within⟩
  | activate mode => exact echoes_bind (echoes_activate mode) fun _ => echoes_pure _
  | run bindings => exact echoes_bind (echoes_run (bound bindings knows)) fun _ => echoes_pure _
  | runBatches iterations bindings =>
    exact echoes_bind (echoes_runBatches iterations (bound bindings knows)) fun _ => echoes_pure _
  | read name =>
    refine echoes_bind (echoes_ask fun e e' h => ?_) fun _ => echoes_pure _
    rw [read, read, h.exposed (knows name List.mem_cons_self)]
  | write name t =>
    exact echoes_bind (echoes_write (knows name List.mem_cons_self) t) fun _ => echoes_pure _

theorem Shadows.replies (h : Shadows a more e e') {calls : List (Call α)}
    (knows : ∀ call ∈ calls, ∀ name ∈ call.names, a.Knows name) :
    e'.replies calls = e.replies calls := by
  induction calls generalizing e e' with
  | nil => rfl
  | cons call calls ih =>
    obtain ⟨same, left⟩ := echoes_perform (knows call List.mem_cons_self) e e' h
    rw [Engine.replies, Engine.replies, same,
      ih left fun call' hc => knows call' (List.mem_cons_of_mem _ hc)]

/-- A compilation that fails leaves all there was as it was, and adds variables, locations and homes at
the end at most.  So calls about names that were known before get the replies that they would have got
without it. -/
theorem compile_error_harmless {error : Error α}
    (failed : (compile mode f).run.run e = (.error error, e')) :
    e.Appends e' ∧ (e.Arises → ∀ calls : List (Call α),
      (∀ call ∈ calls, ∀ name ∈ call.names, e.store.arena.Knows name) →
        e'.replies calls = e.replies calls) := by
  have appends := appends_of_compile_error failed
  refine ⟨appends, fun arises calls knows => ?_⟩
  obtain ⟨more, arena⟩ := appends.store.arena
  have units : ∀ mode, e'.compiled? mode = e.compiled? mode := by
    intro mode
    cases mode with
    | infer => exact appends.infer
    | train => exact appends.train
  have shadows : Shadows e.store.arena more e e' :=
    ⟨units, appends.active, arena, .refl _, arises.isWithin⟩
  exact shadows.replies knows

end Engine

/-! ## A graph with a node that cannot be lowered -/

section
open Engine

/-- The second graph has got a node without an implementation. -/
def probeEngine : Engine Int :=
  scaleEngine.after (build (Build.node ⟨1⟩ "probe" (.custom "probe") [.node ⟨0⟩] none))

theorem probeEngine_arises : probeEngine.Arises :=
  Arises.start 0
    |>.operate (.edit (.insertGraph (.empty "scale")))
    |>.operate (.edit (.insertGraph (.empty "clip")))
    |>.operate (.edit (.declare "x" _ _ _))
    |>.operate (.edit (.declare "w" _ _ _))
    |>.operate (.edit (.layer (.matMul _ _ _)))
    |>.operate (.edit (.layer (.save _ _)))
    |>.operate (.edit (.layer (.unary _ _ _)))
    |>.operate (.edit (.layer (.save _ _)))
    |>.operate (.compile .infer ⟨0⟩)
    |>.operate (.edit (.node ⟨1⟩ "probe" _ _ _))

/-- Its compilation comes as far as to give a home to the variable that the graph saves into.  The first
graph is run as before. -/
theorem probeEngine_compile_error_harmless : ∃ error e',
    (compile .infer ⟨1⟩).run.run probeEngine = (.error error, e') ∧ probeEngine.Appends e' ∧
      probeEngine.store.arena.size = 3 ∧ e'.store.arena.size = 4 ∧
      e'.replies [.run scaleBindings, .read "scaled"] =
        probeEngine.replies [.run scaleBindings, .read "scaled"] ∧
      savedProduct (e'.after (run scaleBindings)) = some 6 := by
  have failed : ((compile .infer ⟨1⟩).run.run probeEngine).1.isOk = false := by decide +kernel
  cases result : ((compile .infer ⟨1⟩).run.run probeEngine).1 with
  | ok _ =>
    rw [result] at failed
    cases failed
  | error error =>
    obtain ⟨appends, same⟩ := compile_error_harmless (Prod.ext result rfl :
      (compile .infer ⟨1⟩).run.run probeEngine = (.error error, probeEngine.after (compile .infer ⟨1⟩)))
    have known : ∀ name ∈ ["x", "scaled"], probeEngine.store.arena.Knows name := by
      have found : ["x", "scaled"].all fun (name : String) =>
        (probeEngine.store.arena.named? name).isSome := by decide +kernel
      exact fun name hn => Option.isSome_iff_exists.mp (List.all_eq_true.mp found name hn)
    refine ⟨error, _, Prod.ext result rfl, appends, by decide +kernel, by decide +kernel,
      same probeEngine_arises _ fun call hc name hn => known name ?_, by decide +kernel⟩
    simp only [List.mem_cons, List.not_mem_nil, or_false] at hc
    rcases hc with rfl | rfl
    · exact List.mem_cons.mpr (.inl (List.mem_singleton.mp hn))
    · exact List.mem_cons_of_mem _ hn

end
end NeuralGraph
