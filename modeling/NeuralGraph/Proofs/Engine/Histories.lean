import NeuralGraph.Proofs.Engine.Operations
import NeuralGraph.Proofs.Gradient.Pushes
import NeuralGraph.Proofs.Lowering.Realization

/-!
# Histories of an engine

`Engine.Reaches`: one engine becomes the other by operations, in any number and order.
`Engine.Retains`: the unit of a mode is one that was compiled in an earlier state, and operations since
then have not replaced it.  Every unit of an engine that was reached has such a history, and keeps what
it had when it was compiled.
-/

namespace NeuralGraph
set_option autoImplicit false
variable {α β : Type} [Scalar α]

namespace Engine

/-- The engine after a computation, whether that succeeds or not. -/
abbrev after (e : Engine α) (x : Operate α β) : Engine α := (x.run.run e).2

omit [Scalar α] in
theorem yields_after {e : Engine α} {x : Operate α Unit} (h : (x.run.run e).1.isOk = true) :
    Yields x e () (e.after x) := Prod.ext (eq_ok_of_isOk h) rfl

/-- A graph that is made by layers goes on to be, whatever comes out of a layer. -/
theorem built_create {f : GraphId} {e : Engine α} {x : Build α β} (creates : Build.Creates f x)
    (built : e.module.Built f) : (e.after (build x)).module.Built f := built.create creates

theorem built_declare {f : GraphId} {e : Engine α} {name : String} {type : TensorType α}
    {visibility : Visibility} {training : Training α} (built : e.module.Built f) :
    (e.after (build (Build.newVariable name type visibility training))).module.Built f :=
  built.newVariable name type visibility training

/-- Operations lead from one engine to the other. -/
inductive Reaches (e : Engine α) : Engine α → Prop
  | refl : Reaches e e
  | step {e' : Engine α} {recompiled : Option Mode} {β : Type} {x : Operate α β} :
    Reaches e e' → Operation recompiled x → Reaches e (e'.after x)

/-- Graph `f` was compiled for the mode in the state `c`, and its unit has not been replaced since:
no compilation for this mode has succeeded. -/
inductive Retains (mode : Mode) (f : GraphId) (c : Engine α) : Engine α → Prop
  | compile {e : Engine α} : Yields (compile mode f) c () e → Retains mode f c e
  | step {e : Engine α} {recompiled : Option Mode} {β : Type} {x : Operate α β} :
    Retains mode f c e → Operation recompiled x →
    (recompiled = some mode → ∃ error, (x.run.run e).1 = .error error) →
    Retains mode f c (e.after x)

/-- Gives the location another mutability tag. -/
def retag (id : LocationId) (mutability : Mutability) : Operate α Unit :=
  attempt fun (e : Engine α) => do
    let arena ← e.store.arena.update id fun (l : Location α) => .ok (l.withMutability mutability)
    .ok (e.withArena arena, ())

/-- An engine that operations and changes of mutability tags have made out of an empty one. -/
inductive Arises : Engine α → Prop
  | start (seed : UInt64) : Arises (ofModule (.ofSeed seed))
  | operate {e : Engine α} {recompiled : Option Mode} {β : Type} {x : Operate α β} :
    Arises e → Operation recompiled x → Arises (e.after x)
  | retag {e : Engine α} (id : LocationId) (mutability : Mutability) :
    Arises e → Arises (e.after (retag id mutability))

variable {c e e' : Engine α} {mode : Mode} {f : GraphId}

/-! ## What was reached -/

theorem Valid.ofSeed (seed : UInt64) : (ofModule (.ofSeed seed) : Engine α).Valid where
  made := .ofSeed seed
  sound := .empty
  labelled _ _ home := absurd home (by simp [ofModule, WeightStorage.empty, WeightStorage.home?])
  modes mode _ h := by cases mode <;> cases h
  active _ h := by cases h

theorem Reaches.valid (h : e.Reaches e') (valid : e.Valid) : e'.Valid := by
  induction h with
  | refl => exact valid
  | step _ operation ih => exact (operation.keeps _).valid ih

theorem Valid.retag (valid : e.Valid) (id : LocationId) (mutability : Mutability) :
    (e.after (retag id mutability)).Valid := by
  simp only [after, Engine.retag, attempt, run_carry, Arena.update, Arena.get, bind, Except.bind]
  cases hk : e.store.arena.get? id with
  | none => exact valid
  | some k =>
    have found : ∀ l p, e.store.arena.get? l = some p → ∃ q,
        (e.store.arena.put id (k.withMutability mutability)).get? l = some q ∧
          q.name = p.name ∧ q.type = p.type := by
      intro l p hp
      by_cases own : id = l
      · subst own
        obtain rfl := Option.some.inj (hk.symm.trans hp)
        exact ⟨_, Arena.get?_put_self _ _ (Arena.lt_size_of_get? hk), rfl, rfl⟩
      · exact ⟨p, (Arena.get?_put_ne _ _ own).trans hp, rfl, rfl⟩
    refine ⟨valid.made, ⟨fun v l home => ?_, valid.sound.separate⟩, fun v l home => ?_, valid.modes,
      valid.active⟩
    · obtain ⟨p, hp⟩ := valid.sound.located v l home
      obtain ⟨q, hq, -⟩ := found l p hp
      exact ⟨q, hq⟩
    · obtain ⟨u, p, hu, hp, name, type⟩ := valid.labelled v l home
      obtain ⟨q, hq, name', type'⟩ := found l p hp
      exact ⟨u, q, hu, hq, name'.trans name, by rw [type']; exact type⟩

theorem Arises.valid (h : e.Arises) : e.Valid := by
  induction h with
  | start seed => exact .ofSeed seed
  | operate _ operation valid => exact (operation.keeps _).valid valid
  | retag id mutability _ valid => exact valid.retag id mutability

theorem Reaches.edit {x : Build α β} (h : e.Reaches e') (edits : x.Edits) :
    e.Reaches (e'.after (build x)) := .step h (.edit edits)

theorem Reaches.lasts (h : e.Reaches e') (valid : e.Valid) :
    e'.module.Covers e.module ∧ e.store.Grows e'.store := by
  induction h with
  | refl => exact ⟨.refl _, .refl _⟩
  | step earlier operation ih =>
    have kept := (operation.keeps _).persists (earlier.valid valid)
    exact ⟨kept.covers.trans ih.1, ih.2.trans kept.grows⟩

theorem Retains.reaches (h : Retains mode f c e) : c.Reaches e := by
  induction h with
  | @compile e compiled =>
    have done : ((Engine.compile mode f).run.run c).2 = e := congrArg Prod.snd compiled
    exact done ▸ .step .refl (.compile mode f)
  | step _ operation _ ih => exact .step ih operation

/-- What the operation keeps, in a history that retains the unit. -/
theorem Operation.persists_of_retained {recompiled : Option Mode} {x : Operate α β}
    (operation : Operation recompiled x) (valid : e.Valid)
    (kept : recompiled = some mode → ∃ error, (x.run.run e).1 = .error error) :
    Option.Rel CompiledGraph.Continues (e.compiled? mode) ((e.after x).compiled? mode) := by
  by_cases own : recompiled = some mode
  · obtain ⟨error, failed⟩ := kept own
    exact ((operation.keeps_of_error failed).persists valid).units mode (by simp)
  · exact ((operation.keeps e).persists valid).units mode own

/-- An operation compiles a new unit for the mode, or it is none that replaces the unit. -/
theorem Operation.refused_or_compiles {recompiled : Option Mode} {x : Operate α β}
    (operation : Operation recompiled x) (e : Engine α) (mode : Mode) :
    (recompiled = some mode → ∃ error, (x.run.run e).1 = .error error) ∨
      ∃ f, Yields (Engine.compile mode f) e () (e.after x) := by
  by_cases kept : recompiled = some mode → ∃ error, (x.run.run e).1 = .error error
  · exact .inl kept
  · obtain ⟨rfl, succeeded⟩ := Classical.not_imp.mp kept
    cases operation with
    | compile mode f =>
      refine .inr ⟨f, Prod.ext ?_ rfl⟩
      cases done : ((Engine.compile mode f).run.run e).1 with
      | error error => exact absurd ⟨error, done⟩ succeeded
      | ok _ => rfl

/-- Every unit that was not there at first has been compiled, and retained since. -/
theorem Reaches.retains {u : CompiledGraph α} (h : e.Reaches e') (valid : e.Valid)
    (absent : e.compiled? mode = none) (found : e'.compiled? mode = some u) :
    ∃ c, e.Reaches c ∧ Retains mode u.source c e' := by
  induction h generalizing u with
  | refl =>
    rw [absent] at found
    cases found
  | @step e' recompiled β x earlier operation ih =>
    rcases operation.refused_or_compiles e' mode with kept | ⟨f, done⟩
    · have continues := operation.persists_of_retained (earlier.valid valid) kept
      rw [found] at continues
      generalize was : e'.compiled? mode = r at continues
      cases continues with
      | some continues =>
        obtain ⟨c, reached, retained⟩ := ih was
        exact ⟨c, reached, continues.source ▸ .step retained operation kept⟩
    · obtain ⟨_, _, _, _, -, -, -, -, unit, -⟩ := yields_compile done
      rw [unit] at found
      cases found
      exact ⟨e', earlier, .compile done⟩

/-! ## Retained units -/

/-- The graph that is lowered is made by adding nodes, like all graphs. -/
theorem graphFor_made {g : Graph α} (valid : c.Valid) (h : Yields (graphFor mode f) c g e) :
    g.Made := by
  cases mode with
  | infer =>
    have found : c.module.graph f = .ok g := congrArg Prod.fst h
    exact valid.made.graph (Module.graph_eq_ok_iff.mp found)
  | train =>
    rw [Yields, graphFor, run_carry, run_build] at h
    obtain ⟨result, -⟩ := Prod.mk.inj h
    have trained : Yields (Build.trainingGraph f c.rule) c.module g
        ((Build.trainingGraph f c.rule).run.run c.module).2 := Prod.ext result rfl
    obtain ⟨forward, _, _, found, -, -⟩ := Build.trainingGraph_parts trained
    exact (valid.made.graph found).trainingGraph found trained

/-- What a unit of graph `f` has whose program was lowered from `g`. -/
structure Holds (e : Engine α) (mode : Mode) (f : GraphId) (g : Graph α) (u : CompiledGraph α) :
    Prop where
  compiled : e.compiled? mode = some u
  mode : u.mode = mode
  source : u.source = f
  verified : u.program.verify e.store.arena = .ok ()
  realizes : u.program.Realizes g e.store
  computes : g.KeepsTypes → u.program.Computes g e.store

theorem Holds.keep {g : Graph α} {u : CompiledGraph α} (holds : e.Holds mode f g u)
    (valid : e'.Valid) (grows : e.store.Grows e'.store)
    (continues : Option.Rel CompiledGraph.Continues (e.compiled? mode) (e'.compiled? mode)) :
    ∃ u', u.Continues u' ∧ e'.Holds mode f g u' := by
  rw [holds.compiled] at continues
  generalize found : e'.compiled? mode = r at continues
  cases continues with
  | @some _ u' continues =>
    refine ⟨u', continues, found, continues.mode.trans holds.mode,
      continues.source.trans holds.source, ?_, ?_, ?_⟩
    · exact Program.verify_mono holds.verified continues.instructions
        (Memory.covers_iff.mpr ⟨continues.activations, grows.arena⟩)
    · exact holds.realizes.mono grows valid.sound continues.instructions continues.activations
    · exact fun keeps =>
        (holds.computes keeps).mono grows valid.sound continues.instructions continues.activations

/-- A unit is what it was when it was compiled. -/
theorem Retains.holds {g : Graph α} (h : Retains mode f c e) (valid : c.Valid) {c' : Engine α}
    (graph : Yields (graphFor mode f) c g c') : ∃ u, e.Holds mode f g u := by
  induction h with
  | @compile e compiled =>
    obtain ⟨g', c₁, p, store, graph', lowered, -, rfl, unit, -⟩ := yields_compile compiled
    obtain ⟨⟨⟩, rfl⟩ := Prod.mk.inj (graph.symm.trans graph')
    have found : c'.Valid := by
      have leads : Leads (Keeps none) (graphFor mode f : Operate α (Graph α)) := keeps_graphFor mode f
      exact (leads.of_yields graph).valid valid
    have made := graphFor_made valid graph
    exact ⟨_, unit, rfl, rfl, (Graph.lower_grown lowered).verify,
      .of_lower made.formed found.sound lowered, fun keeps => .of_lower made keeps found.sound lowered⟩
  | @step e recompiled β x earlier operation kept ih =>
    obtain ⟨u, holds⟩ := ih
    have before := earlier.reaches.valid valid
    obtain ⟨u', -, holds'⟩ := holds.keep ((operation.keeps e).valid before)
      ((operation.keeps e).persists before).grows (operation.persists_of_retained before kept)
    exact ⟨u', holds'⟩

end Engine
end NeuralGraph
