import NeuralGraph.Proofs.Engine.Bindings
import NeuralGraph.Proofs.Lowering.Allocation
import NeuralGraph.Proofs.Module.Evolution

/-!
# Operations of an engine

`Engine.Operation` lists what can be done to an engine from outside, except for changes of mutability
tags.  Whatever the outcome of an operation, the engine stays valid and what it has lasts: variables,
locations, homes, and the code of compiled units, unless it is a unit of the mode that is compiled.
-/

namespace NeuralGraph
set_option autoImplicit false
variable {α β γ : Type}

/-! ## What can be done -/

/-- Changes of a module: variables, initial values, graphs and their nodes. -/
inductive Build.Edits [Scalar α] : {β : Type} → Build α β → Prop
  | declare (name : String) (type : TensorType α) (visibility : Visibility) (training : Training α) :
    Edits (newVariable name type visibility training)
  | findOrDeclare (name : String) (type : TensorType α) (visibility : Visibility)
      (training : Training α) :
    Edits (attempt fun (m : Module α) => m.findOrDeclare name type visibility training)
  | setInitial (id : VarId) (t : Tensor α) :
    Edits (attempt fun (m : Module α) => (m.setInitial id t).map fun (m' : Module α) => (m', ()))
  | fillInitial (id : VarId) (value : α) :
    Edits (attempt fun (m : Module α) => (m.fillInitial id value).map fun (m' : Module α) => (m', ()))
  | insertGraph {g : Graph α} : g.Made → Edits (attempt fun (m : Module α) => m.insertGraph g)
  /-- A graph is renamed, marked as in place, or given nodes that no layer makes. -/
  | putGraph (f : GraphId) {g : Graph α} : g.Made →
    Edits (attempt fun (m : Module α) => .ok (m.putGraph f g, ()))
  | node (f : GraphId) (name : String) (kind : NodeKind α) (inputs : List Ref)
      (type : Option (TensorType α)) : Edits (node f name kind inputs type)
  | layer {f : GraphId} {β : Type} {x : Build α β} : Creates f x → Edits x
  | differentiate (f : GraphId) (rule : UpdateRule α) : Edits (trainingGraph f rule)

/-- What can be done to an engine, with the mode for which a unit is compiled, if one is. -/
inductive Engine.Operation [Scalar α] : {β : Type} → Option Mode → Operate α β → Prop
  | edit {β : Type} {x : Build α β} : x.Edits → Operation none (build x)
  | configure (rule : UpdateRule α) :
    Operation none (attempt fun (e : Engine α) => .ok ({ e with rule := rule }, ()))
  | compile (mode : Mode) (f : GraphId) : Operation (some mode) (compile mode f)
  | activate (mode : Mode) : Operation none (activate mode)
  | run (bindings : List (Binding α)) : Operation none (run bindings)
  | runBatches (iterations : Nat) (bindings : List (Binding α)) :
    Operation none (runBatches iterations bindings)
  | read (name : String) : Operation none (ask fun (e : Engine α) => e.read name)
  | write (name : String) (t : Tensor α) : Operation none (write name t)
  /-- A location is shown or hidden, or given other contents of its type. -/
  | touch (id : LocationId) {change : Location α → Location α} : (∀ l, (change l).Alike l) →
    Operation none (attempt fun (e : Engine α) => do
      let arena ← e.store.arena.update id fun (l : Location α) => .ok (change l)
      .ok (e.withArena arena, ()))
  /-- A location that is the home of no variable. -/
  | locate (name : String) (type : TensorType α) (mutability : Mutability) (visibility : Visibility) :
    Operation none (attempt fun (e : Engine α) => do
      let (arena, id) ← e.store.arena.create name type mutability visibility
      .ok (e.withArena arena, id))

theorem Build.Edits.evolves [Scalar α] {x : Build α β} (edits : x.Edits) :
    Leads Module.Evolves x := by
  cases edits with
  | declare name type visibility training => exact leads_newVariable name type visibility training
  | findOrDeclare name type visibility training =>
    exact leads_attempt fun _ _ _ => Module.findOrDeclare_evolves
  | setInitial id t =>
    refine leads_attempt fun m m' _ h => ?_
    obtain ⟨r, hm, same⟩ := exists_of_map_eq_ok h
    cases same
    exact Module.setInitial_evolves hm
  | fillInitial id value =>
    refine leads_attempt fun m m' _ h => ?_
    obtain ⟨r, hm, same⟩ := exists_of_map_eq_ok h
    cases same
    exact Module.fillInitial_evolves hm
  | insertGraph made => exact leads_attempt fun _ _ _ => Module.insertGraph_evolves made
  | putGraph f made =>
    refine leads_attempt fun m m' _ h => ?_
    cases h
    exact Module.putGraph_evolves m f fun _ => made
  | node f name kind inputs type => exact node_evolves f name kind inputs type
  | layer creates => exact creates.evolves
  | differentiate f rule => exact leads_trainingGraph f rule

/-! ## What lasts -/

namespace WeightStorage
variable {s : WeightStorage α} {a : Arena α}

/-- The homes in another arena. -/
def withArena (s : WeightStorage α) (a : Arena α) : WeightStorage α := { s with arena := a }

theorem grows_withArena (covers : a.Covers s.arena) : s.Grows (s.withArena a) :=
  ⟨fun _ _ home => home, covers⟩

theorem Sound.withArena (sound : s.Sound) (covers : a.Covers s.arena) : (s.withArena a).Sound where
  located v l home := by
    obtain ⟨k, hk⟩ := sound.located v l home
    obtain ⟨k', hk', -⟩ := covers l k hk
    exact ⟨k', hk'⟩
  separate := sound.separate

theorem Labelled.withArena [Scalar α] {m : Module α} (labelled : s.Labelled m)
    (covers : a.Covers s.arena) : (s.withArena a).Labelled m := by
  intro v l home
  obtain ⟨u, p, hu, hp, name, type⟩ := labelled v l home
  obtain ⟨q, hq, alike⟩ := covers l p hp
  exact ⟨u, q, hu, hq, alike.name.trans name, by rw [alike.type]; exact type⟩

end WeightStorage

/-- The same code, with activations that may hold something else. -/
structure CompiledGraph.Continues (u u' : CompiledGraph α) : Prop where
  mode : u'.mode = u.mode
  source : u'.source = u.source
  instructions : u'.program.instructions = u.program.instructions
  activations : u'.program.activations.Covers u.program.activations

theorem CompiledGraph.Continues.refl (u : CompiledGraph α) : u.Continues u := ⟨rfl, rfl, rfl, .refl _⟩

theorem CompiledGraph.Continues.trans {u u' u'' : CompiledGraph α} (h : u.Continues u')
    (h' : u'.Continues u'') : u.Continues u'' :=
  ⟨h'.mode.trans h.mode, h'.source.trans h.source, h'.instructions.trans h.instructions,
    h'.activations.trans h.activations⟩

namespace Engine

/-- Graphs are made of nodes, homes are sound and carry the names and types of their variables, and
units stand where they belong. -/
structure Valid [Scalar α] (e : Engine α) : Prop where
  made : e.module.AllMade
  sound : e.store.Sound
  labelled : e.store.Labelled e.module
  modes : ∀ mode u, e.compiled? mode = some u → u.mode = mode
  active : ∀ mode, e.active = some mode → ∃ u, e.compiled? mode = some u

/-- Variables, locations and homes last, and so does the code of units, unless it is a unit of the mode
`recompiled`. -/
structure Persists (recompiled : Option Mode) (e e' : Engine α) : Prop where
  covers : e'.module.Covers e.module
  grows : e.store.Grows e'.store
  units : ∀ mode, recompiled ≠ some mode →
    Option.Rel CompiledGraph.Continues (e.compiled? mode) (e'.compiled? mode)

/-- What is done keeps the engine valid, and what it has lasts. -/
structure Keeps [Scalar α] (recompiled : Option Mode) (e e' : Engine α) : Prop where
  valid : e.Valid → e'.Valid
  persists : e.Valid → e.Persists recompiled e'

theorem continues_refl : ∀ u : Option (CompiledGraph α), Option.Rel CompiledGraph.Continues u u
  | none => .none
  | some u => .some (.refl u)

theorem continues_trans {u u' u'' : Option (CompiledGraph α)}
    (h : Option.Rel CompiledGraph.Continues u u') (h' : Option.Rel CompiledGraph.Continues u' u'') :
    Option.Rel CompiledGraph.Continues u u'' := by
  cases h with
  | none => exact h'
  | some h =>
    cases h' with
    | some h' => exact .some (h.trans h')

theorem Persists.refl (recompiled : Option Mode) (e : Engine α) : e.Persists recompiled e :=
  ⟨.refl _, .refl _, fun mode _ => continues_refl (e.compiled? mode)⟩

theorem Persists.trans {recompiled : Option Mode} {e e' e'' : Engine α}
    (h : Persists recompiled e e') (h' : Persists recompiled e' e'') : Persists recompiled e e'' :=
  ⟨h'.covers.trans h.covers, h.grows.trans h'.grows,
    fun mode other => continues_trans (h.units mode other) (h'.units mode other)⟩

variable [Scalar α] {recompiled : Option Mode} {e e' : Engine α}

instance keeps_isPreorder : IsPreorder (Engine α) (Keeps recompiled) where
  refl e := ⟨id, fun _ => .refl recompiled e⟩
  trans _ _ _ h h' :=
    ⟨fun valid => h'.valid (h.valid valid),
      fun valid => (h.persists valid).trans (h'.persists (h.valid valid))⟩

theorem Keeps.refl (e : Engine α) : Keeps recompiled e e := refl_of (Keeps recompiled) e

/-! ## Steps of operations -/

theorem keeps_attempt {f : Engine α → Except (Error α) (Engine α × β)}
    (h : ∀ e e' b, f e = .ok (e', b) → Keeps recompiled e e') :
    Leads (Keeps recompiled) (attempt f) := by
  intro e
  simp only [attempt, carry, ExceptT.run_mk, StateT.run]
  cases hf : f e with
  | error error => exact .refl e
  | ok r => exact h e r.1 r.2 hf

theorem keeps_ask (f : Engine α → Except (Error α) β) : Leads (Keeps recompiled) (ask f) :=
  Keeps.refl

omit [Scalar α] in
theorem run_carry (f : Engine α → Except (Error α) β × Engine α) (e : Engine α) :
    (carry f).run.run e = f e := rfl

omit [Scalar α] in
theorem run_build (x : Build α β) (e : Engine α) : (build x).run.run e =
    ((x.run.run e.module).1, { e with module := (x.run.run e.module).2 }) := rfl

theorem keeps_build {x : Build α β} (h : Leads Module.Evolves x) :
    Leads (Keeps recompiled) (build x) := by
  intro e
  have evolves := h e.module
  rw [run_build]
  refine ⟨fun valid => ⟨evolves.made valid.made, valid.sound, valid.labelled.mono evolves.covers,
    valid.modes, valid.active⟩, fun valid => ⟨evolves.covers, .refl _, fun mode _ => ?_⟩⟩
  exact continues_refl (e.compiled? mode)

theorem keeps_graphFor (mode : Mode) (f : GraphId) :
    Leads (Keeps recompiled) (graphFor mode f : Operate α (Graph α)) := by
  cases mode with
  | infer => exact keeps_ask _
  | train =>
    intro e
    rw [graphFor, run_carry]
    exact keeps_build (Build.leads_trainingGraph f e.rule) e

theorem keeps_lowerGraph (g : Graph α) : Leads (Keeps recompiled) (lowerGraph g) := by
  intro e
  have allocates := g.lower_allocates e.module e.store
  refine ⟨fun valid => ⟨valid.made, allocates.sound valid.sound, allocates.labelled valid.labelled,
    valid.modes, valid.active⟩, fun valid => ⟨.refl _, allocates.grows, fun mode _ => ?_⟩⟩
  exact continues_refl (e.compiled? mode)

theorem keeps_withArena {a : Arena α} (covers : a.Covers e.store.arena) :
    Keeps recompiled e (e.withArena a) :=
  ⟨fun valid => ⟨valid.made, valid.sound.withArena covers, valid.labelled.withArena covers,
    valid.modes, valid.active⟩,
    fun _ => ⟨.refl _, WeightStorage.grows_withArena covers, fun mode _ =>
      continues_refl (e.compiled? mode)⟩⟩

omit [Scalar α] in
theorem Arena.update_covers {a b : Arena α} {id : LocationId}
    {f : Location α → Except (Error α) (Location α)} (alike : ∀ l k, f l = .ok k → k.Alike l)
    (h : a.update id f = .ok b) : b.Covers a := by
  obtain ⟨l, k, hl, hk, rfl⟩ := Arena.exists_of_update_eq_ok h
  exact (Arena.Covers.refl a).put hl (alike l k hk)

theorem keeps_overwrite {name : String} {f : Tensor α → Except (TensorFault α) (Tensor α)}
    (keeps : KeepsType f) (h : e.overwrite name f = .ok e') : Keeps recompiled e e' := by
  rw [overwrite_eq_map] at h
  obtain ⟨a, done, rfl⟩ := exists_of_map_eq_ok h
  exact keeps_withArena (Arena.overwrite_peers keeps done).covers

theorem keeps_bindAll (bindings : List (Binding α)) :
    Leads (Keeps recompiled) (bindAll bindings) := by
  intro e
  rw [run_bindAll]
  exact keeps_withArena (Arena.assignEach_peers bindings e.store.arena).covers

theorem keeps_bindRows (iteration : Nat) (bindings : List (Binding α)) :
    Leads (Keeps recompiled) (bindRows iteration bindings) := by
  intro e
  rw [run_bindRows]
  exact keeps_withArena
    (Arena.overwriteEach_peers (fun _ _ _ => Tensor.assignRows_type) bindings e.store.arena).covers

omit [Scalar α] in
theorem compiled?_withCompiled (e : Engine α) (u : CompiledGraph α) (mode : Mode) :
    (e.withCompiled u).compiled? mode = if mode = u.mode then some u else e.compiled? mode := by
  rw [withCompiled]
  cases hu : u.mode <;> cases mode <;> simp [compiled?]

omit [Scalar α] in
theorem withCompiled_active (e : Engine α) (u : CompiledGraph α) :
    (e.withCompiled u).active = e.active := by
  rw [withCompiled]
  cases u.mode <;> rfl

omit [Scalar α] in
theorem withCompiled_module (e : Engine α) (u : CompiledGraph α) :
    (e.withCompiled u).module = e.module := by
  rw [withCompiled]
  cases u.mode <;> rfl

omit [Scalar α] in
theorem withCompiled_store (e : Engine α) (u : CompiledGraph α) :
    (e.withCompiled u).store = e.store := by
  rw [withCompiled]
  cases u.mode <;> rfl

theorem keeps_withCompiled {u u' : CompiledGraph α} {mode : Mode}
    (retained : e.compiled? mode = some u) (continues : u.Continues u') :
    Keeps recompiled e (e.withCompiled u') := by
  have units : e.Valid → ∀ mode', Option.Rel CompiledGraph.Continues (e.compiled? mode')
      ((e.withCompiled u').compiled? mode') := by
    intro valid mode'
    have own : u'.mode = mode := continues.mode.trans (valid.modes mode u retained)
    rw [compiled?_withCompiled]
    split
    · next same =>
      rw [same, own, retained]
      exact .some continues
    · exact continues_refl (e.compiled? mode')
  refine ⟨fun valid => ⟨?_, ?_, ?_, ?_, ?_⟩, fun valid => ⟨?_, ?_, fun mode' _ => units valid mode'⟩⟩
  · rw [withCompiled_module]
    exact valid.made
  · rw [withCompiled_store]
    exact valid.sound
  · rw [withCompiled_store, withCompiled_module]
    exact valid.labelled
  · intro mode' v hv
    rw [compiled?_withCompiled] at hv
    split at hv
    · next same =>
      cases hv
      exact same.symm
    · exact valid.modes mode' v hv
  · intro mode' active
    rw [withCompiled_active] at active
    obtain ⟨v, hv⟩ := valid.active mode' active
    have kept := units valid mode'
    rw [hv] at kept
    generalize (e.withCompiled u').compiled? mode' = r at kept
    cases kept with
    | some _ => exact ⟨_, rfl⟩
  · rw [withCompiled_module]
    exact .refl _
  · rw [withCompiled_store]
    exact .refl _

theorem keeps_executeActive : Leads (Keeps recompiled) (executeActive : Operate α Unit) := by
  intro e
  rw [executeActive, run_carry]
  cases found : e.active.bind e.compiled? with
  | none => exact .refl e
  | some u =>
    obtain ⟨mode, -, retained⟩ := Option.bind_eq_some_iff.mp found
    have covers := Memory.covers_iff.mp
      (execute_covers u.program.instructions.toList (u.program.memory e.store.arena))
    let u' : CompiledGraph α := { u with program := u.program.after (u.program.run e.store.arena) }
    have unit : Keeps recompiled e (e.withCompiled u') :=
      keeps_withCompiled retained ⟨rfl, rfl, rfl, covers.1⟩
    have weights : Keeps recompiled (e.withCompiled u')
        ((e.withCompiled u').withArena (u.program.run e.store.arena).memory.weights) :=
      keeps_withArena (by rw [withCompiled_store]; exact covers.2)
    have both := trans_of (Keeps recompiled) unit weights
    dsimp only
    split
    · exact both
    · exact both

theorem keeps_runIterations (bindings : List (Binding α)) (count iteration : Nat) :
    Leads (Keeps recompiled) (runIterations bindings count iteration) := by
  induction count generalizing iteration with
  | zero => exact leads_pure ()
  | succ count ih =>
    exact leads_bind (keeps_bindRows iteration bindings) fun _ =>
      leads_bind keeps_executeActive fun _ => ih (iteration + 1)

theorem keeps_run (bindings : List (Binding α)) : Leads (Keeps recompiled) (run bindings) :=
  leads_bind (keeps_ask _) fun _ => leads_bind (keeps_bindAll bindings) fun _ => keeps_executeActive

theorem keeps_runBatches (iterations : Nat) (bindings : List (Binding α)) :
    Leads (Keeps recompiled) (runBatches iterations bindings) :=
  leads_bind (keeps_ask _) fun _ => keeps_runIterations bindings iterations 0

theorem keeps_write (name : String) (t : Tensor α) : Leads (Keeps recompiled) (write name t) := by
  refine keeps_attempt fun e e' _ h => ?_
  simp only [bind, Except.bind] at h
  split at h
  · cases h
  · split at h
    · split at h
      · cases h
      · next e₁ done =>
        cases h
        exact keeps_overwrite (fun old t => Tensor.assign_type) done
    · cases h

theorem keeps_activate (mode : Mode) : Leads (Keeps recompiled) (activate mode : Operate α Unit) := by
  refine keeps_attempt fun e e' _ h => ?_
  split at h
  · next u retained =>
    cases h
    refine ⟨fun valid => ⟨valid.made, valid.sound, valid.labelled, valid.modes, ?_⟩,
      fun valid => ⟨.refl _, .refl _, fun mode' _ => continues_refl (e.compiled? mode')⟩⟩
    intro mode' active
    cases active
    exact ⟨u, retained⟩
  · cases h

/-! ## Compiling -/

/-- A new unit takes the place of the unit of its mode and becomes active. -/
theorem keeps_install (u : CompiledGraph α) :
    Keeps (some u.mode) e { e.withCompiled u with active := some u.mode } := by
  have units : ∀ mode, Engine.compiled? { e.withCompiled u with active := some u.mode } mode =
      if mode = u.mode then some u else e.compiled? mode := compiled?_withCompiled e u
  refine ⟨fun valid => ⟨?_, ?_, ?_, ?_, ?_⟩, fun valid => ⟨?_, ?_, ?_⟩⟩
  · show (e.withCompiled u).module.AllMade
    rw [withCompiled_module]
    exact valid.made
  · show (e.withCompiled u).store.Sound
    rw [withCompiled_store]
    exact valid.sound
  · show (e.withCompiled u).store.Labelled (e.withCompiled u).module
    rw [withCompiled_store, withCompiled_module]
    exact valid.labelled
  · intro mode v hv
    rw [units] at hv
    split at hv
    · next same =>
      cases hv
      exact same.symm
    · exact valid.modes mode v hv
  · intro mode active
    cases active
    exact ⟨u, by rw [units, if_pos rfl]⟩
  · show (e.withCompiled u).module.Covers e.module
    rw [withCompiled_module]
    exact .refl _
  · show e.store.Grows (e.withCompiled u).store
    rw [withCompiled_store]
    exact .refl _
  · intro mode other
    rw [units, if_neg fun same => other (congrArg some same.symm)]
    exact continues_refl (e.compiled? mode)

theorem keeps_compile (mode : Mode) (f : GraphId) :
    Leads (Keeps (some mode)) (compile mode f : Operate α Unit) := by
  refine leads_bind (keeps_graphFor mode f) fun g => leads_bind (keeps_lowerGraph g) fun p =>
    keeps_attempt fun e e' _ h => ?_
  cases h
  exact keeps_install ⟨mode, f, p⟩

/-- A refused compilation does no more than to ask for the graph and to lower it. -/
theorem related_of_compile_error {R : Engine α → Engine α → Prop} [IsPreorder (Engine α) R] {mode : Mode}
    {f : GraphId} (asks : Leads R (graphFor mode f : Operate α (Graph α)))
    (lowers : ∀ g, Leads R (lowerGraph g)) {error : Error α}
    (h : (compile mode f).run.run e = (.error error, e')) : R e e' := by
  have asked := asks e
  rw [compile, run_bind] at h
  generalize (graphFor mode f).run.run e = r at asked h
  obtain ⟨g | g, e₁⟩ := r
  · cases h
    exact asked
  · have lowered := lowers g e₁
    dsimp only at h
    rw [run_bind] at h
    generalize (lowerGraph g).run.run e₁ = r at lowered h
    obtain ⟨p | p, e₂⟩ := r
    · cases h
      exact trans_of R asked lowered
    · cases h

/-- A refused compilation leaves all units as they are. -/
theorem keeps_of_compile_error {mode : Mode} {f : GraphId} {error : Error α}
    (h : (compile mode f).run.run e = (.error error, e')) : Keeps none e e' :=
  related_of_compile_error (keeps_graphFor mode f) keeps_lowerGraph h

theorem yields_compile {mode : Mode} {f : GraphId} (h : Yields (compile mode f) e () e') :
    ∃ g e₁ p store, Yields (graphFor mode f) e g e₁ ∧
      g.lower e₁.module e₁.store = (.ok p, store) ∧ e'.module = e₁.module ∧ e'.store = store ∧
      e'.compiled? mode = some ⟨mode, f, p⟩ ∧ e'.active = some mode := by
  obtain ⟨g, e₁, graph, rest⟩ := yields_bind.mp h
  obtain ⟨p, e₂, lowered, installed⟩ := yields_bind.mp rest
  rw [Yields, lowerGraph, run_carry] at lowered
  obtain ⟨result, rfl⟩ := Prod.mk.inj lowered
  cases installed
  refine ⟨g, e₁, p, (g.lower e₁.module e₁.store).2, graph, Prod.ext result rfl, ?_, ?_, ?_, rfl⟩
  · exact withCompiled_module _ _
  · exact withCompiled_store _ _
  · exact (compiled?_withCompiled _ _ mode).trans (if_pos rfl)

/-! ## Whole operations -/

theorem Operation.keeps {x : Operate α β} (operation : Operation recompiled x) :
    Leads (Keeps recompiled) x := by
  cases operation with
  | edit edits => exact keeps_build edits.evolves
  | configure rule =>
    refine keeps_attempt fun e e' _ h => ?_
    cases h
    exact ⟨fun valid => ⟨valid.made, valid.sound, valid.labelled, valid.modes, valid.active⟩,
      fun valid => ⟨.refl _, .refl _, fun mode _ => continues_refl (e.compiled? mode)⟩⟩
  | compile mode f => exact keeps_compile mode f
  | activate mode => exact keeps_activate mode
  | run bindings => exact keeps_run bindings
  | runBatches iterations bindings => exact keeps_runBatches iterations bindings
  | read name => exact keeps_ask _
  | write name t => exact keeps_write name t
  | @touch id change alike =>
    refine keeps_attempt fun e e' _ h => ?_
    simp only [bind, Except.bind] at h
    split at h
    · cases h
    · next a updated =>
      cases h
      refine keeps_withArena (Arena.update_covers (fun l k hk => ?_) updated)
      cases hk
      exact alike l
  | locate name type mutability visibility =>
    refine keeps_attempt fun e e' _ h => ?_
    simp only [bind, Except.bind] at h
    split at h
    · cases h
    · next r created =>
      cases h
      obtain ⟨-, same, -⟩ := Arena.insert_eq_ok_iff.mp created
      exact keeps_withArena (same ▸ Arena.covers_push _ _)

theorem Operation.keeps_of_error {x : Operate α β} (operation : Operation recompiled x)
    {error : Error α} (h : (x.run.run e).1 = .error error) : Keeps none e (x.run.run e).2 := by
  cases recompiled with
  | none => exact operation.keeps e
  | some mode =>
    cases operation with
    | compile mode f => exact keeps_of_compile_error (Prod.ext h rfl)

end Engine
end NeuralGraph
