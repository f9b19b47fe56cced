import Mathlib
import NeuralGraph.Proofs.Engine.Histories
import NeuralGraph.Proofs.Integers
import NeuralGraph.Proofs.Lowering.Relocation

/-!
# Compiling again

A compilation in an engine that has been compiled before finds homes that variables were given then.
It succeeds like one in an engine without homes, unless a variable that the graph stores into was given
a constant home: at a time when it was neither trained nor stored into by any graph.
-/

namespace NeuralGraph
set_option autoImplicit false
variable {α : Type}

/-! ## Homes that suit their variables -/

namespace WeightStorage
variable [Scalar α] {s t : WeightStorage α} {m m' : Module α} {stored : List VarId}

/-- The variable has a home that may not be written. -/
def HoldsConstant (s : WeightStorage α) (v : VarId) : Prop :=
  ∃ l k, s.home? v = some l ∧ s.arena.get? l = some k ∧ k.isConstant = true

theorem Serves.covers (serves : s.Serves m stored) (covers : m'.Covers m) : s.Serves m' stored := by
  refine ⟨fun v l home => ?_, serves.owned⟩
  obtain ⟨u, p, hu, hp, name, type, mutable⟩ := serves.homes v l home
  obtain ⟨u', hu', alike⟩ := covers v u hu
  refine ⟨u', p, hu', hp, name.trans alike.name.symm, by rw [alike.type]; exact type, ?_⟩
  rw [Variable.isTrained, alike.training]
  exact mutable

/-- Homes serve those who store into variables without constant homes. -/
theorem Serves.of_free (serves : s.Serves m []) (free : ∀ v ∈ stored, ¬s.HoldsConstant v) :
    s.Serves m stored := by
  refine ⟨fun v l home => ?_, serves.owned⟩
  obtain ⟨u, p, hu, hp, name, type, mutable⟩ := serves.homes v l home
  refine ⟨u, p, hu, hp, name, type, fun written => ?_⟩
  rcases written with trained | written
  · exact mutable (.inl trained)
  · exact Bool.eq_false_iff.mpr fun constant => free v written ⟨l, p, home, hp, constant⟩

theorem Allocates.serves (h : Allocates m stored s t) (serves : s.Serves m []) : t.Serves m [] :=
  h.keeps (P := fun (s : WeightStorage α) => s.Serves m []) serves
    fun serves known given => serves.keep nofun known given

omit [Scalar α] in
theorem Grows.holdsConstant_iff (grows : s.Grows t) (sound : s.Sound) {v : VarId} {l : LocationId}
    (home : s.home? v = some l) : t.HoldsConstant v ↔ s.HoldsConstant v := by
  obtain ⟨k, hk⟩ := sound.located v l home
  obtain ⟨k', hk', alike⟩ := grows.arena l k hk
  have home' := grows.homes v l home
  constructor
  · rintro ⟨l', p, hl', hp, constant⟩
    obtain rfl := Option.some.inj (home'.symm.trans hl')
    obtain rfl := Option.some.inj (hk'.symm.trans hp)
    exact ⟨_, k, home, hk, alike.isConstant ▸ constant⟩
  · rintro ⟨l', p, hl', hp, constant⟩
    obtain rfl := Option.some.inj (home.symm.trans hl')
    obtain rfl := Option.some.inj (hk.symm.trans hp)
    exact ⟨_, k', home', hk', alike.isConstant.trans constant⟩

theorem allocate_home?_ne {id v : VarId} {w : Variable α} {mutability : Mutability} {l : LocationId}
    (h : s.allocate id w mutability = .ok (t, l)) (other : v ≠ id) : t.home? v = s.home? v := by
  rcases allocate_eq_ok_iff.mp h with ⟨-, rfl⟩ | ⟨-, -, a, -, rfl⟩
  · rfl
  · rw [home?_append, if_neg other, Option.or_none, home?]

theorem allocate_holdsConstant_iff {id : VarId} {w : Variable α} {mutability : Mutability}
    {l : LocationId} (new : s.home? id = none) (h : s.allocate id w mutability = .ok (t, l)) :
    t.HoldsConstant id ↔ mutability = .constant := by
  have home := allocate_home h
  rcases allocate_eq_ok_iff.mp h with ⟨old, -⟩ | ⟨-, -, a, ha, rfl⟩
  · rw [new] at old
    cases old
  · obtain ⟨-, rfl, rfl⟩ := Arena.insert_eq_ok_iff.mp ha
    have located := Arena.get?_push_self s.arena ⟨w.name, mutability, w.visibility, w.initial⟩
    constructor
    · rintro ⟨l, k, hl, hk, constant⟩
      obtain rfl := Option.some.inj (home.symm.trans hl)
      obtain rfl := Option.some.inj (located.symm.trans hk)
      exact of_decide_eq_true constant
    · rintro rfl
      exact ⟨_, _, home, located, rfl⟩

/-- The tag of a new home tells whether the variable was trained or stored into at that time. -/
theorem Allocates.holdsConstant_iff (h : Allocates m stored s t) (sound : s.Sound) {v : VarId}
    (new : s.home? v = none) {l : LocationId} (home : t.home? v = some l) :
    t.HoldsConstant v ↔ m.isTrained v = false ∧ v ∉ stored := by
  induction h generalizing l with
  | refl =>
    rw [new] at home
    cases home
  | @step t u id w k earlier known given ih =>
    cases old : t.home? v with
    | some l' => rw [(allocate_grows given).holdsConstant_iff (earlier.sound sound) old, ih old]
    | none =>
      by_cases own : v = id
      · subst own
        rw [allocate_holdsConstant_iff old given, Module.isTrained, known, Option.any_some]
        cases w.isTrained <;> simp
      · rw [allocate_home?_ne given own, old] at home
        cases home

end WeightStorage

/-! ## Histories of building and compiling -/

theorem Build.Edits.sound [Scalar α] {β : Type} {x : Build α β} (edits : x.Edits) :
    Leads Build.StaysSound x := by
  cases edits with
  | declare name type visibility training =>
    exact Build.leads_sound_newVariable name type visibility training
  | findOrDeclare name type visibility training =>
    exact Build.leads_sound_findOrDeclare name type visibility training
  | setInitial id t =>
    refine Build.leads_attempt fun m m' _ h sound => ?_
    obtain ⟨r, hm, same⟩ := exists_of_map_eq_ok h
    cases same
    exact sound.setInitial hm
  | fillInitial id value =>
    refine Build.leads_attempt fun m m' _ h sound => ?_
    obtain ⟨r, hm, same⟩ := exists_of_map_eq_ok h
    cases same
    exact sound.fillInitial hm
  | insertGraph made =>
    refine Build.leads_attempt fun m m' _ h sound => ?_
    obtain ⟨rfl, -⟩ := Module.insertGraph_eq_ok h
    exact ⟨sound.distinct, sound.initial⟩
  | putGraph f made =>
    refine Build.leads_attempt fun m m' _ h sound => ?_
    cases h
    exact ⟨sound.distinct, sound.initial⟩
  | node f name kind inputs type => exact Build.leads_sound_node f name kind inputs type
  | layer creates => exact creates.sound
  | differentiate f rule => exact Build.leads_sound_trainingGraph f rule

namespace Engine
variable [Scalar α] {e e' c : Engine α} {mode : Mode} {f : GraphId} {g : Graph α}

/-- An engine over a module in which nothing has been compiled. -/
def fresh (m : Module α) (rule : UpdateRule α) : Engine α := { ofModule m with rule := rule }

/-- Changes of the module and compilations, whether they succeed or not, lead from one engine to the
other. -/
inductive Develops (e : Engine α) : Engine α → Prop
  | refl : Develops e e
  | edit {e' : Engine α} {β : Type} {x : Build α β} : Develops e e' → x.Edits →
    Develops e (e'.after (build x))
  | compile {e' : Engine α} (mode : Mode) (f : GraphId) : Develops e e' →
    Develops e (e'.after (compile mode f))

/-- The compilation gives the variable its location, while it is neither trained nor stored into: not by
a graph of the module, and not by the graph that is lowered. -/
structure Fixes (mode : Mode) (f : GraphId) (e : Engine α) (v : VarId) : Prop where
  new : e.store.home? v = none
  placed : ∃ l, (e.after (compile mode f)).store.home? v = some l
  unwritten : ∃ g c, Yields (graphFor mode f) e g c ∧ c.module.isTrained v = false ∧
    v ∉ c.module.storedWith g

/-- A compilation between the two engines has made the variable a constant. -/
def Fixed (e e' : Engine α) (v : VarId) : Prop :=
  ∃ c mode f, e.Develops c ∧ Fixes mode f c v ∧ (c.after (compile mode f)).Develops e'

/-- The graph is compiled. -/
def Compiles (mode : Mode) (f : GraphId) (e : Engine α) : Prop :=
  ∃ e', Yields (compile mode f) e () e'

/-! ## One compilation -/

/-- The graph that is lowered depends on the module and the update rule. -/
theorem graphFor_eq_build (mode : Mode) (f : GraphId) (rule : UpdateRule α) :
    ∃ x : Build α (Graph α), Leads Module.Evolves x ∧ Leads Build.StaysSound x ∧
      ∀ e : Engine α, e.rule = rule → (graphFor mode f).run.run e = (build x).run.run e := by
  cases mode with
  | infer =>
    exact ⟨Build.ask fun (m : Module α) => m.graph f, Build.leads_ask _, Build.leads_ask _,
      fun e _ => rfl⟩
  | train =>
    refine ⟨Build.trainingGraph f rule, Build.leads_trainingGraph f rule,
      Build.leads_sound_trainingGraph f rule, ?_⟩
    rintro e rfl
    rw [graphFor, run_carry]

theorem compiles_iff_lowers : Compiles mode f e ↔
    ∃ g c, Yields (graphFor mode f) e g c ∧ (g.lower c.module c.store).1.isOk = true := by
  constructor
  · rintro ⟨e', compiled⟩
    obtain ⟨g, c, p, store, graph, lowered, -⟩ := yields_compile compiled
    exact ⟨g, c, graph, by rw [lowered]; rfl⟩
  · rintro ⟨g, c, graph, lowered⟩
    generalize result : g.lower c.module c.store = r at lowered
    obtain ⟨r, store⟩ := r
    cases r with
    | error error => cases lowered
    | ok p =>
      have lower : Yields (lowerGraph g) c p { c with store := store } := by
        rw [Yields, lowerGraph, run_carry, result]
      exact ⟨_, yields_bind.mpr ⟨g, c, graph, yields_bind.mpr ⟨p, _, lower, rfl⟩⟩⟩

/-- Asking for the graph leaves the weights alone and does not depend on them. -/
theorem yields_graphFor (graph : Yields (graphFor mode f) e g c) :
    c = { e with module := c.module } ∧ c.module.Covers e.module ∧
      (e.module.Sound → c.module.Sound) ∧
      ∀ e' : Engine α, e'.module = e.module → e'.rule = e.rule →
        Yields (graphFor mode f) e' g { e' with module := c.module } := by
  obtain ⟨x, evolves, sound, same⟩ := graphFor_eq_build (α := α) mode f e.rule
  rw [Yields, same e rfl, run_build] at graph
  obtain ⟨result, rfl⟩ := Prod.mk.inj graph
  refine ⟨rfl, (evolves e.module).covers, sound e.module, fun e' module rule => ?_⟩
  rw [Yields, same e' rule, run_build, module]
  exact Prod.ext result rfl

theorem after_compile (mode : Mode) (f : GraphId) (e : Engine α) :
    (∃ g c, Yields (graphFor mode f) e g c ∧ (e.after (compile mode f)).module = c.module ∧
      (e.after (compile mode f)).store = (g.lower c.module c.store).2) ∨
    (e.after (compile mode f)).store = e.store ∧
      (e.after (compile mode f)).module.Covers e.module ∧
        (e.module.Sound → (e.after (compile mode f)).module.Sound) := by
  obtain ⟨x, evolves, sound, same⟩ := graphFor_eq_build (α := α) mode f e.rule
  have asked := (same e rfl).trans (run_build x e)
  rw [after, compile, run_bind]
  cases result : (x.run.run e.module).1 with
  | error error =>
    rw [result] at asked
    rw [asked]
    exact .inr ⟨rfl, (evolves e.module).covers, sound e.module⟩
  | ok g =>
    rw [result] at asked
    rw [asked]
    refine .inl ⟨g, _, asked, ?_⟩
    dsimp only
    rw [run_bind, lowerGraph, run_carry]
    generalize lowered : g.lower _ _ = r
    obtain ⟨r, store⟩ := r
    cases r with
    | error error => exact ⟨rfl, rfl⟩
    | ok p => exact ⟨withCompiled_module _ _, withCompiled_store _ _⟩

/-! ## What a history keeps -/

/-- The variables have names of their own, and all locations are homes of variables that suit them. -/
structure Orderly (e : Engine α) : Prop where
  valid : e.Valid
  sound : e.module.Sound
  serves : e.store.Serves e.module []

theorem Orderly.fresh (seed : UInt64) (rule : UpdateRule α) : (fresh (.ofSeed seed) rule).Orderly where
  valid :=
    have valid := Valid.ofSeed (α := α) seed
    ⟨valid.made, valid.sound, valid.labelled, valid.modes, valid.active⟩
  sound := .ofSeed seed
  serves := .empty _ _

theorem Develops.orderly (h : e.Develops e') (orderly : e.Orderly) : e'.Orderly := by
  induction h with
  | refl => exact orderly
  | @edit e' β x _ edits ih =>
    have kept : Keeps none e' (e'.after (build x)) := keeps_build edits.evolves e'
    exact ⟨kept.valid ih.valid, edits.sound e'.module ih.sound,
      ih.serves.covers (edits.evolves e'.module).covers⟩
  | @compile e' mode f _ ih =>
    refine ⟨(keeps_compile mode f e').valid ih.valid, ?_, ?_⟩
    all_goals rcases after_compile mode f e' with ⟨g, c, graph, module, store⟩ | ⟨store, covers, sound⟩
    · rw [module]
      exact (yields_graphFor graph).2.2.1 ih.sound
    · exact sound ih.sound
    · obtain ⟨same, covers, -⟩ := yields_graphFor graph
      rw [module, store]
      have kept : c.store = e'.store := by rw [same]
      exact (g.lower_allocates c.module c.store).serves (kept ▸ ih.serves.covers covers)
    · rw [store]
      exact ih.serves.covers covers

theorem Develops.reaches (h : e.Develops e') : e.Reaches e' := by
  induction h with
  | refl => exact .refl
  | edit _ edits ih => exact ih.edit edits
  | compile mode f _ ih => exact .step ih (.compile mode f)

/-! ## Where constants come from -/

/-- Compilations have made constant exactly the variables that are constant in the end. -/
theorem Develops.holdsConstant_iff (h : e.Develops e') (orderly : e.Orderly)
    (bare : e.store = .empty) (v : VarId) : e'.store.HoldsConstant v ↔ Fixed e e' v := by
  constructor
  · intro constant
    induction h with
    | refl =>
      obtain ⟨l, -, home, -⟩ := constant
      rw [bare] at home
      cases home
    | edit _ edits ih =>
      obtain ⟨c, mode, f, first, fixes, rest⟩ := ih constant
      exact ⟨c, mode, f, first, fixes, .edit rest edits⟩
    | @compile e' mode f earlier ih =>
      have orderly' := earlier.orderly orderly
      have grows := ((Operation.compile mode f).keeps e').persists orderly'.valid |>.grows
      cases home : e'.store.home? v with
      | some l =>
        obtain ⟨c, mode', f', first, fixes, rest⟩ :=
          ih ((grows.holdsConstant_iff orderly'.valid.sound home).mp constant)
        exact ⟨c, mode', f', first, fixes, .compile mode f rest⟩
      | none =>
        obtain ⟨l, -, placed, -⟩ := id constant
        rcases after_compile mode f e' with ⟨g, c, graph, -, store⟩ | ⟨store, -⟩
        · have kept : c.store = e'.store := by rw [(yields_graphFor graph).1]
          rw [store, kept] at constant
          have allocates := g.lower_allocates c.module e'.store
          have plain := (allocates.holdsConstant_iff orderly'.valid.sound home
            (by rw [← kept, ← store]; exact placed)).mp constant
          exact ⟨e', mode, f, earlier, ⟨home, ⟨l, placed⟩, g, c, graph, plain⟩, .refl⟩
        · rw [store, home] at placed
          cases placed
  · rintro ⟨c, mode, f, first, ⟨new, ⟨l, placed⟩, g, d, graph, plain⟩, rest⟩
    have orderly' := first.orderly orderly
    have orderly₁ := (Develops.compile mode f first).orderly orderly
    have grows := (rest.reaches.lasts orderly₁.valid).2
    rw [grows.holdsConstant_iff orderly₁.valid.sound placed]
    rcases after_compile mode f c with ⟨g', d', graph', -, store⟩ | ⟨store, -⟩
    · obtain ⟨⟨⟩, rfl⟩ := Prod.mk.inj (graph.symm.trans graph')
      have kept : d.store = c.store := by rw [(yields_graphFor graph).1]
      rw [kept] at store
      rw [store] at placed ⊢
      exact ((g.lower_allocates d.module c.store).holdsConstant_iff orderly'.valid.sound new
        placed).mpr plain
    · rw [store, new] at placed
      cases placed

/-- If no variable that the graph stores into is constant, it is lowered into the weights if it is
lowered into none. -/
theorem Orderly.lower_isOk_eq [PartialEquivBEq α] (orderly : e.Orderly)
    (graph : Yields (graphFor mode f) e g c) (free : ∀ v ∈ g.storesInto, ¬e.store.HoldsConstant v) :
    (g.lower c.module e.store).1.isOk = (g.lower c.module .empty).1.isOk := by
  obtain ⟨-, covers, sound, -⟩ := yields_graphFor graph
  exact Graph.lower_isOk_eq (graphFor_made orderly.valid graph).formed (sound orderly.sound)
    ((orderly.serves.covers covers).of_free free) (.empty _ _)

/-- A variable that a lowered graph stores into is not constant. -/
theorem Orderly.not_holdsConstant (orderly : e.Orderly) (graph : Yields (graphFor mode f) e g c)
    (lowered : (g.lower c.module e.store).1.isOk = true) {v : VarId} (stored : v ∈ g.storesInto) :
    ¬e.store.HoldsConstant v := by
  have grows := (g.lower_allocates c.module e.store).grows
  generalize result : g.lower c.module e.store = r at lowered grows
  obtain ⟨r, store⟩ := r
  cases r with
  | error error => cases lowered
  | ok p =>
    have realizes := Program.Realizes.of_lower (graphFor_made orderly.valid graph).formed
      orderly.valid.sound result
    obtain ⟨l, k, home, located, free⟩ := realizes.writable stored
    intro constant
    obtain ⟨l', -, home', -⟩ := id constant
    obtain ⟨l'', k', home'', located', constant'⟩ :=
      (grows.holdsConstant_iff orderly.valid.sound home').mpr constant
    obtain rfl := Option.some.inj (home.symm.trans home'')
    obtain rfl := Option.some.inj (located.symm.trans located')
    rw [free] at constant'
    cases constant'

/-- A compilation succeeds exactly if it does in an engine without weights and no variable that the
graph stores into was made constant before. -/
theorem Develops.compiles_iff [PartialEquivBEq α] {seed : UInt64} {rule : UpdateRule α}
    (h : (fresh (.ofSeed seed) rule).Develops e) (mode : Mode) (f : GraphId) :
    Compiles mode f e ↔ Compiles mode f (fresh e.module e.rule) ∧
      ∀ g c, Yields (graphFor mode f) e g c → ∀ v ∈ g.storesInto,
        ¬Fixed (fresh (.ofSeed seed) rule) e v := by
  have orderly := h.orderly (.fresh seed rule)
  have fixed := h.holdsConstant_iff (.fresh seed rule) rfl
  constructor
  · intro compiled
    obtain ⟨g, c, graph, lowered⟩ := compiles_iff_lowers.mp compiled
    obtain ⟨same, -, -, asks⟩ := yields_graphFor graph
    rw [same] at lowered
    have free : ∀ v ∈ g.storesInto, ¬e.store.HoldsConstant v := fun v stored =>
      orderly.not_holdsConstant graph lowered stored
    refine ⟨compiles_iff_lowers.mpr ⟨g, _, asks (fresh e.module e.rule) rfl rfl, ?_⟩,
      fun g' c' asked v stored => ?_⟩
    · exact (orderly.lower_isOk_eq graph free).symm.trans lowered
    · obtain ⟨⟨⟩, -⟩ := Prod.mk.inj (graph.symm.trans asked)
      exact fun made => free v stored ((fixed v).mpr made)
  · rintro ⟨compiled, free⟩
    obtain ⟨g, c, graph, lowered⟩ := compiles_iff_lowers.mp compiled
    obtain ⟨same, -, -, asks⟩ := yields_graphFor graph
    rw [same] at lowered
    have graph' := asks e rfl rfl
    refine compiles_iff_lowers.mpr ⟨g, _, graph', ?_⟩
    have agrees := orderly.lower_isOk_eq graph' fun v stored constant =>
      free g _ graph' v stored ((fixed v).mp constant)
    exact agrees.trans lowered

end Engine

/-! ## A graph that stores into what another one reads -/

section
open Engine

/-- The first graph rectifies `x`, the second one has no nodes yet. -/
def readerEngine : Engine Int :=
  let graph (name : String) : Operate Int GraphId :=
    build (Build.attempt fun (m : Module Int) => m.addGraph name)
  let declare (name : String) : Operate Int VarId :=
    build (Build.newVariable name (.float [1]) .exposed .untrained)
  (fresh (.ofSeed 0) ⟨1, 0, 0⟩).after (graph "reader")
    |>.after (graph "writer")
    |>.after (declare "x")
    |>.after (declare "y")
    |>.after (build (Build.unary ⟨0⟩ "positive" .relu (.var ⟨0⟩)))
    |>.after (build (Build.save ⟨0⟩ "result" (.node ⟨0⟩)))

/-- The second graph stores `y` into `x`. -/
def writer : Build Int NodeId := Build.saveTo ⟨1⟩ "store" (.var ⟨1⟩) ⟨0⟩

/-- The second graph is made before the first one is compiled. -/
def earlyWriter : Engine Int :=
  (readerEngine.after (build writer)).after (compile .infer ⟨0⟩)

/-- The second graph is made after the first one was compiled. -/
def lateWriter : Engine Int :=
  (readerEngine.after (compile .infer ⟨0⟩)).after (build writer)

theorem readerEngine_develops : (fresh (.ofSeed 0) ⟨1, 0, 0⟩).Develops readerEngine :=
  Develops.refl
    |>.edit (.insertGraph (.empty "reader"))
    |>.edit (.insertGraph (.empty "writer"))
    |>.edit (.declare "x" _ _ _)
    |>.edit (.declare "y" _ _ _)
    |>.edit (.layer (.unary _ _ _))
    |>.edit (.layer (.save _ _))

theorem writer_edits : writer.Edits := .layer (.saveTo _ _ _)

theorem earlyWriter_develops : (fresh (.ofSeed 0) ⟨1, 0, 0⟩).Develops earlyWriter :=
  .compile .infer ⟨0⟩ (readerEngine_develops.edit writer_edits)

theorem lateWriter_develops : (fresh (.ofSeed 0) ⟨1, 0, 0⟩).Develops lateWriter :=
  (Develops.compile .infer ⟨0⟩ readerEngine_develops).edit writer_edits

theorem compiles_of_isOk {e : Engine Int} {mode : Mode} {f : GraphId}
    (h : ((compile mode f).run.run e).1.isOk = true) : Compiles mode f e :=
  ⟨_, yields_after h⟩

theorem lateWriter_renewed : Compiles .infer ⟨1⟩ (fresh lateWriter.module lateWriter.rule) :=
  compiles_of_isOk (by decide +kernel)

theorem lateWriter_refused : ¬Compiles .infer ⟨1⟩ lateWriter := by
  rintro ⟨e', compiled⟩
  have ok : ((compile .infer ⟨1⟩).run.run lateWriter).1.isOk = true := by
    rw [Yields] at compiled
    rw [compiled]
    rfl
  revert ok
  decide +kernel

/-- Nothing that the early writer stores into was made constant, as it can be compiled.  Something that
the late one stores into was, as it cannot. -/
theorem writer_compiles_iff :
    (∀ g c, Yields (graphFor .infer ⟨1⟩) earlyWriter g c → ∀ v ∈ g.storesInto,
      ¬Fixed (fresh (.ofSeed 0) ⟨1, 0, 0⟩) earlyWriter v) ∧
    ∃ g c v, Yields (graphFor .infer ⟨1⟩) lateWriter g c ∧ v ∈ g.storesInto ∧
      Fixed (fresh (.ofSeed 0) ⟨1, 0, 0⟩) lateWriter v := by
  have compiled : Compiles .infer ⟨1⟩ earlyWriter := compiles_of_isOk (by decide +kernel)
  refine ⟨((earlyWriter_develops.compiles_iff .infer ⟨1⟩).mp compiled).2, ?_⟩
  by_contra none
  refine lateWriter_refused ((lateWriter_develops.compiles_iff .infer ⟨1⟩).mpr
    ⟨lateWriter_renewed, fun g c graph v stored fixed => ?_⟩)
  exact none ⟨g, c, v, graph, stored, fixed⟩

/-- A compilation that succeeds in an engine without weights is refused in one that has been compiled
before. -/
theorem lateWriter_depends_on_history : ∃ (e : Engine Int) (mode : Mode) (f : GraphId),
    (fresh (.ofSeed 0) ⟨1, 0, 0⟩).Develops e ∧ Compiles mode f (fresh e.module e.rule) ∧
      ¬Compiles mode f e :=
  ⟨lateWriter, .infer, ⟨1⟩, lateWriter_develops, lateWriter_renewed, lateWriter_refused⟩

end
end NeuralGraph
