import Mathlib
import NeuralGraph.Proofs.Engine.Batches

/-!
# Constant weights

Whether an instruction may write a weight is asked again when it stores.  So no execution changes what a
location holds that is tagged as constant by then, whatever its tags were when the program was accepted.
Callers change it only by name, and only if it is exposed.
-/

namespace NeuralGraph
set_option autoImplicit false
variable {α : Type} [Scalar α]

/-! ## Execution -/

namespace Instruction
variable {i : Instruction α} {id : LocationId} {l : Location α}

theorem store_constant {m m' : Memory α} {v : Value} {a : PlacedArray α}
    (located : m.weights.get? id = some l) (constant : l.isConstant = true)
    (h : i.store m v a = .ok m') : m'.weights.get? id = some l := by
  by_cases own : v = .weight id
  · subst own
    have found : m.locate (.weight id) = .ok l := Memory.locate_eq_ok_iff.mpr located
    simp [store, found, constant, Value.isActivation, bind, Except.bind] at h
  · exact (store_frame h own).trans located

theorem storeAll_constant {results : List (Value × PlacedArray α)} {m : Memory α}
    (located : m.weights.get? id = some l) (constant : l.isConstant = true) :
    (i.storeAll results m).1.weights.get? id = some l := by
  induction results generalizing m with
  | nil => exact located
  | cons r results ih =>
    rw [storeAll]
    cases h : i.store m r.1 r.2 with
    | error _ => exact located
    | ok m' => exact ih (store_constant located constant h)

theorem step_constant {m : Memory α} (located : m.weights.get? id = some l)
    (constant : l.isConstant = true) : (i.step m).1.weights.get? id = some l := by
  rw [step]
  split
  · exact storeAll_constant located constant
  · exact located

end Instruction

/-- A run that succeeds or fails leaves constant weights as they were. -/
theorem execute_constant {is : List (Instruction α)} {m : Memory α} {id : LocationId} {l : Location α}
    (located : m.weights.get? id = some l) (constant : l.isConstant = true) :
    (execute is m).memory.weights.get? id = some l := by
  induction is generalizing m with
  | nil => exact located
  | cons i is ih =>
    have step := i.step_constant located constant
    rw [execute]
    generalize i.step m = r at step
    obtain ⟨m', e⟩ := r
    cases e with
    | none => exact ih step
    | some _ => exact step

/-! ## Copying -/

/-- Locations keep all but their contents, and a constant keeps its contents as well, unless it is called by
one of the names and is exposed.  It is assumed that what is called by these names is exposed. -/
structure Arena.Guards (names : List String) (a b : Arena α) : Prop where
  peers : b.Peers a
  kept : (∀ name ∈ names, ∀ l, a.named? name = some l → l.isExposed = true) →
    ∀ id l, a.get? id = some l → l.isConstant = true →
      b.get? id = some l ∨ l.isExposed = true ∧ l.name ∈ names

namespace Arena
variable {names : List String} {a b c : Arena α}

omit [Scalar α] in
theorem Guards.refl (a : Arena α) : a.Guards names a := ⟨.refl a, fun _ _ _ h _ => .inl h⟩

omit [Scalar α] in
theorem Guards.trans (h : a.Guards names b) (h' : b.Guards names c) : a.Guards names c := by
  refine ⟨h'.peers.trans h.peers, fun exposed id l located constant => ?_⟩
  -- the names still find what they found, and its tags are the same
  have exposed' : ∀ name ∈ names, ∀ l, b.named? name = some l → l.isExposed = true := by
    intro name hn l hl
    have rel := h.peers.named? name
    rw [hl] at rel
    generalize found : a.named? name = k at rel
    cases rel with
    | some same => exact same.isExposed.trans (exposed name hn _ found)
  exact (h.kept exposed id l located constant).elim
    (fun kept => h'.kept exposed' id l kept constant) .inr

omit [Scalar α] in
theorem overwrite_guards {name : String} {f : Tensor α → Except (TensorFault α) (Tensor α)}
    (keeps : KeepsType f) (is : name ∈ names) (h : a.overwrite name f = .ok b) : a.Guards names b := by
  refine ⟨overwrite_peers keeps h, fun exposed id l located _ => ?_⟩
  cases found : a.find? name with
  | none => simp [overwrite, found] at h
  | some j =>
    obtain ⟨k, hk⟩ := find?_located found
    rw [overwrite_eq found hk] at h
    obtain ⟨k', -, rfl⟩ := exists_of_map_eq_ok h
    by_cases own : j = id
    · subst own
      obtain rfl := Option.some.inj (hk.symm.trans located)
      exact .inr ⟨exposed name is k (by rw [named?, found]; exact hk), find?_named found hk ▸ is⟩
    · exact .inl ((get?_put_ne a k' own).trans located)

omit [Scalar α] in
theorem overwriteEach_guards {f : Binding α → Tensor α → Except (TensorFault α) (Tensor α)}
    (keeps : ∀ b, KeepsType (f b)) {bindings : List (Binding α)} (are : ∀ b ∈ bindings, b.name ∈ names)
    (a : Arena α) : a.Guards names (a.overwriteEach f bindings).2 := by
  induction bindings generalizing a with
  | nil => exact .refl a
  | cons b rest ih =>
    rw [overwriteEach]
    cases done : a.overwrite b.name (f b) with
    | error _ => exact .refl a
    | ok a' =>
      exact (overwrite_guards (keeps b) (are b List.mem_cons_self) done).trans
        (ih (fun c hc => are c (List.mem_cons_of_mem _ hc)) a')

end Arena

/-! ## Runs -/

namespace Engine
variable {names : List String} {e e' : Engine α}

def Guards (names : List String) (e e' : Engine α) : Prop :=
  e.store.arena.Guards names e'.store.arena

instance guards_isPreorder : IsPreorder (Engine α) (Guards names) where
  refl e := Arena.Guards.refl e.store.arena
  trans _ _ _ := Arena.Guards.trans

/-- All locations last with their tags and types.  Constants keep what they hold, but for exposed ones that
are called by one of the names. -/
def Spares (names : List String) (e e' : Engine α) : Prop :=
  ∀ id l, e.store.arena.get? id = some l → ∃ l', e'.store.arena.get? id = some l' ∧ l'.Peers l ∧
    (l.isConstant = true → l' = l ∨ l.isExposed = true ∧ l.name ∈ names)

instance spares_isPreorder : IsPreorder (Engine α) (Spares names) where
  refl e id l located := ⟨l, located, .refl l, fun _ => .inl rfl⟩
  trans e e' e'' h h' id l located := by
    obtain ⟨l', located', peers, kept⟩ := h id l located
    obtain ⟨l'', located'', peers', kept'⟩ := h' id l' located'
    refine ⟨l'', located'', peers'.trans peers, fun constant => ?_⟩
    rcases kept' (peers.isConstant.trans constant) with rfl | ⟨exposed, named⟩
    · exact kept constant
    · exact .inr ⟨peers.isExposed.symm.trans exposed, peers.name ▸ named⟩

theorem guards_bindAll (bindings : List (Binding α)) :
    Leads (Guards (bindings.map Binding.name)) (bindAll bindings) := by
  intro e
  rw [run_bindAll]
  exact Arena.overwriteEach_guards (fun _ _ _ => Tensor.assign_type)
    (fun b hb => List.mem_map_of_mem hb) e.store.arena

theorem guards_bindRows (i : Nat) (bindings : List (Binding α)) :
    Leads (Guards (bindings.map Binding.name)) (bindRows i bindings) := by
  intro e
  rw [run_bindRows]
  exact Arena.overwriteEach_guards (fun _ _ _ => Tensor.assignRows_type)
    (fun b hb => List.mem_map_of_mem hb) e.store.arena

theorem guards_executeActive : Leads (Guards names) (executeActive : Operate α Unit) := by
  intro e
  rcases after_executeActive e with same | ⟨u, ran⟩
  · rw [same]
    exact refl_of (Guards names) e
  · rw [ran, Guards, store_ran]
    exact ⟨(execute_peers u.program.instructions.toList (u.program.memory e.store.arena)).weights,
      fun _ _ _ located constant => .inl (execute_constant located constant)⟩

theorem guards_runIterations (bindings : List (Binding α)) (count i : Nat) :
    Leads (Guards (bindings.map Binding.name)) (runIterations bindings count i) := by
  induction count generalizing i with
  | zero => exact leads_pure ()
  | succ count ih =>
    exact leads_bind (guards_bindRows i bindings) fun _ =>
      leads_bind guards_executeActive fun _ => ih (i + 1)

omit [Scalar α] in
theorem Guards.spares (h : Guards names e e')
    (exposed : ∀ name ∈ names, ∀ l, e.store.arena.named? name = some l → l.isExposed = true) :
    Spares names e e' := by
  intro id l located
  obtain ⟨l', located', peers⟩ := h.peers.symm.get? located
  exact ⟨l', located', peers.symm, fun constant => (h.kept exposed id l located constant).imp_left
    fun same => Option.some.inj (located'.symm.trans same)⟩

omit [Scalar α] in
/-- What follows accepted bindings spares all but what they name. -/
theorem spares_of_accepted {accepts : TensorType α → TensorType α → Bool} {bindings : List (Binding α)}
    {x : Operate α Unit} (guards : Leads (Guards (bindings.map Binding.name)) x) :
    Leads (Spares (bindings.map Binding.name)) (do
      ask fun (e : Engine α) =>
        if e.active.isNone then .error .notCompiled else e.checkBindings accepts bindings
      x) := by
  intro e
  have kept : Spares (bindings.map Binding.name) e e := refl_of (Spares _) e
  rw [run_bind, ask, run_carry]
  by_cases inactive : e.active.isNone = true
  · rw [if_pos inactive]
    exact kept
  · rw [if_neg inactive]
    cases checked : e.checkBindings accepts bindings with
    | error _ => exact kept
    | ok _ =>
      refine Guards.spares (guards e) fun name named l hl => ?_
      obtain ⟨b, hb, rfl⟩ := List.mem_map.mp named
      obtain ⟨k, hk, exposed, -⟩ := checkBindings_iff.mp checked b hb
      exact Option.some.inj (hk.symm.trans hl) ▸ exposed

theorem spares_run (bindings : List (Binding α)) :
    Leads (Spares (bindings.map Binding.name)) (run bindings) :=
  spares_of_accepted (leads_bind (guards_bindAll bindings) fun _ => guards_executeActive)

theorem spares_runBatches (iterations : Nat) (bindings : List (Binding α)) :
    Leads (Spares (bindings.map Binding.name)) (runBatches iterations bindings) :=
  spares_of_accepted (guards_runIterations bindings iterations 0)

/-! ## Other operations -/

theorem spares_write (name : String) (t : Tensor α) : Leads (Spares [name]) (write name t) := by
  intro e
  have kept : Spares [name] e e := refl_of (Spares _) e
  rw [write, attempt, run_carry]
  cases found : e.exposed name .write with
  | error _ => exact kept
  | ok l =>
    by_cases same : (t.type == l.type) = true
    · obtain ⟨named, exposed⟩ := exposed_eq_ok_iff.mp found
      simp only [bind, Except.bind, same, if_true, overwrite_eq_map]
      cases done : e.store.arena.overwrite name fun (old : Tensor α) => old.assign t with
      | error _ => exact kept
      | ok a =>
        have guards : Guards [name] e (e.withArena a) :=
          Arena.overwrite_guards (fun _ _ => Tensor.assign_type) List.mem_cons_self done
        refine guards.spares fun name' is k hk => ?_
        rw [List.mem_singleton.mp is, named] at hk
        exact Option.some.inj hk ▸ exposed
    · simp only [bind, Except.bind, same]
      exact kept

omit [Scalar α] in
theorem spares_of_get? (h : ∀ id l, e.store.arena.get? id = some l → e'.store.arena.get? id = some l) :
    Spares names e e' :=
  fun id l located => ⟨l, h id l located, .refl l, fun _ => .inl rfl⟩

omit [Scalar α] in
theorem spares_of_store (same : e'.store = e.store) : Spares names e e' :=
  spares_of_get? fun _ _ located => same ▸ located

omit [Scalar α] in
theorem spares_locate (l : Location α) : Leads (Spares names) (attempt fun (e : Engine α) => do
    let (arena, id) ← e.store.arena.insert l
    .ok (e.withArena arena, id)) := by
  intro e
  rw [attempt, run_carry]
  cases inserted : e.store.arena.insert l with
  | error _ => exact refl_of (Spares names) e
  | ok r =>
    obtain ⟨-, same, -⟩ := Arena.insert_eq_ok_iff.mp inserted
    refine spares_of_get? fun _ _ located => ?_
    show r.1.get? _ = _
    rw [same]
    exact Arena.get?_push_of_some located

theorem spares_lowerGraph (g : Graph α) : Leads (Spares names) (lowerGraph g) := by
  intro e
  refine spares_of_get? fun id l located => ?_
  have allocates := g.lower_allocates e.module e.store
  refine allocates.keeps (P := fun (s : WeightStorage α) => s.arena.get? id = some l) located
    fun {s t v _ home} kept _ given => ?_
  rcases WeightStorage.allocate_eq_ok_iff.mp given with ⟨-, rfl⟩ | ⟨-, -, a, inserted, rfl⟩
  · exact kept
  · obtain ⟨-, rfl, -⟩ := Arena.insert_eq_ok_iff.mp inserted
    exact Arena.get?_push_of_some kept

theorem spares_compile (mode : Mode) (f : GraphId) :
    Leads (Spares names) (compile mode f : Operate α Unit) := by
  refine leads_bind (fun e => spares_of_store ?_) fun g => leads_bind (spares_lowerGraph g) fun p =>
    fun e => spares_of_store (withCompiled_store e ⟨mode, f, p⟩)
  cases mode <;> rfl

/-- Gives the location another visibility. -/
def reveal (id : LocationId) (visibility : Visibility) : Operate α Unit :=
  attempt fun (e : Engine α) => do
    let arena ← e.store.arena.update id fun (l : Location α) => .ok (l.withVisibility visibility)
    .ok (e.withArena arena, ())

omit [Scalar α] in
theorem get?_after_update {j id : LocationId} {f : Location α → Except (Error α) (Location α)}
    (ne : j ≠ id) (e : Engine α) : (e.after (attempt fun (e : Engine α) => do
      let arena ← e.store.arena.update j f
      .ok (e.withArena arena, ()))).store.arena.get? id = e.store.arena.get? id := by
  simp only [after, attempt, run_carry, Arena.update, Arena.get, bind, Except.bind]
  cases e.store.arena.get? j with
  | none => rfl
  | some l =>
    dsimp only
    cases f l with
    | error _ => rfl
    | ok k => exact Arena.get?_put_ne _ k ne

/-! ## Histories -/

/-- What callers do to an engine without reaching into the contents of its locations. -/
inductive Action (α : Type) : Type 1
  /-- A change of the module. -/
  | edit {β : Type} (x : Build α β)
  | configure (rule : UpdateRule α)
  | compile (mode : Mode) (f : GraphId)
  | activate (mode : Mode)
  | run (bindings : List (Binding α))
  | runBatches (iterations : Nat) (bindings : List (Binding α))
  | write (name : String) (t : Tensor α)
  /-- A new location that is the home of no variable. -/
  | locate (l : Location α)
  | retag (id : LocationId) (mutability : Mutability)
  | reveal (id : LocationId) (visibility : Visibility)

namespace Action

/-- The names that the action binds or writes. -/
def targets : Action α → List String
  | .run bindings | .runBatches _ bindings => bindings.map Binding.name
  | .write name _ => [name]
  | _ => []

/-- The action changes a tag of the location. -/
def Tags (id : LocationId) : Action α → Prop
  | .retag j _ | .reveal j _ => j = id
  | _ => False

/-- The engine after the action, whether it succeeds or fails. -/
def perform (e : Engine α) : Action α → Engine α
  | .edit x => e.after (build x)
  | .configure rule => { e with rule := rule }
  | .compile mode f => e.after (Engine.compile mode f)
  | .activate mode => e.after (Engine.activate mode)
  | .run bindings => e.after (Engine.run bindings)
  | .runBatches iterations bindings => e.after (Engine.runBatches iterations bindings)
  | .write name t => e.after (Engine.write name t)
  | .locate l => e.after (attempt fun (e : Engine α) => do
      let (arena, id) ← e.store.arena.insert l
      .ok (e.withArena arena, id))
  | .retag id mutability => e.after (Engine.retag id mutability)
  | .reveal id visibility => e.after (Engine.reveal id visibility)

end Action

/-- The engine after actions, one after the other. -/
def play (e : Engine α) (history : List (Action α)) : Engine α := history.foldl Action.perform e

variable {id : LocationId} {l : Location α}

/-- What one action does to a location whose tags it does not change. -/
theorem perform_spares (action : Action α) (untagged : ¬action.Tags id)
    (located : e.store.arena.get? id = some l) :
    ∃ l', (action.perform e).store.arena.get? id = some l' ∧ l'.Peers l ∧
      (l.isConstant = true → l' = l ∨ l.isExposed = true ∧ l.name ∈ action.targets) := by
  have spared : Spares action.targets e (action.perform e) →
      ∃ l', (action.perform e).store.arena.get? id = some l' ∧ l'.Peers l ∧
        (l.isConstant = true → l' = l ∨ l.isExposed = true ∧ l.name ∈ action.targets) :=
    fun spares => spares id l located
  -- all but the last two actions change no tags at all
  cases action with
  | edit x => exact spared (spares_of_store rfl)
  | configure rule => exact spared (spares_of_store rfl)
  | compile mode f => exact spared (spares_compile mode f e)
  | activate mode =>
    refine spared (spares_of_store ?_)
    cases found : e.compiled? mode with
    | none => exact congrArg (fun r => r.2.store) (run_activate_error found)
    | some u => exact congrArg (fun r => r.2.store) (run_activate found)
  | run bindings => exact spared (spares_run bindings e)
  | runBatches iterations bindings => exact spared (spares_runBatches iterations bindings e)
  | write name t => exact spared (spares_write name t e)
  | locate l => exact spared (spares_locate l e)
  | retag j mutability =>
    exact ⟨l, (get?_after_update untagged e).trans located, .refl l, fun _ => .inl rfl⟩
  | reveal j visibility =>
    exact ⟨l, (get?_after_update untagged e).trans located, .refl l, fun _ => .inl rfl⟩

/-- A location keeps its tags as long as nobody changes them. -/
theorem play_peers (segment : List (Action α)) (untagged : ∀ action ∈ segment, ¬action.Tags id)
    (located : e.store.arena.get? id = some l) :
    ∃ k, (e.play segment).store.arena.get? id = some k ∧ k.Peers l := by
  induction segment generalizing e l with
  | nil => exact ⟨l, located, .refl l⟩
  | cons action rest ih =>
    obtain ⟨k, hk, peers, -⟩ := perform_spares action (untagged action List.mem_cons_self) located
    obtain ⟨k', hk', peers'⟩ := ih (fun b hb => untagged b (List.mem_cons_of_mem _ hb)) hk
    exact ⟨k', hk', peers'.trans peers⟩

/-- A weight that is constant after a history of actions is changed by no execution of a program, whether
that succeeds or fails.  Until its tags change, an action that changes it binds or writes it by its name,
and it is exposed. -/
theorem constants_kept (e : Engine α) (history : List (Action α))
    (located : (e.play history).store.arena.get? id = some l) (constant : l.isConstant = true) :
    (∀ (p : Program α) (a : Arena α), a.Peers (e.play history).store.arena →
      (p.run a).memory.weights.get? id = a.get? id) ∧
    ∀ (segment : List (Action α)) (action : Action α),
      (∀ b ∈ segment ++ [action], ¬b.Tags id) →
      ∃ k k', (e.play (history ++ segment)).store.arena.get? id = some k ∧
        (e.play (history ++ segment ++ [action])).store.arena.get? id = some k' ∧
        k.Peers l ∧ k'.Peers l ∧ (k' = k ∨ l.isExposed = true ∧ l.name ∈ action.targets) := by
  constructor
  · intro p a peers
    obtain ⟨k, hk, same⟩ := peers.symm.get? located
    rw [hk]
    exact execute_constant hk (same.isConstant.symm.trans constant)
  · intro segment action untagged
    obtain ⟨k, hk, peers⟩ := play_peers segment
      (fun b hb => untagged b (List.mem_append_left _ hb)) located
    obtain ⟨k', hk', peers', kept⟩ := perform_spares action
      (untagged action (List.mem_append_right _ List.mem_cons_self)) hk
    refine ⟨k, k', ?_, ?_, peers, peers'.trans peers, ?_⟩
    · rw [play, List.foldl_append]
      exact hk
    · rw [play, List.foldl_append, List.foldl_append]
      exact hk'
    · rw [← peers.isExposed, ← peers.name]
      exact kept (peers.isConstant.trans constant)

end Engine

/-! ## A total that is frozen -/

section
open Engine

/-- Rows are added to the total, then it is frozen: the unit that writes it stays in its place. -/
def frozenTally : List (Action Int) :=
  [.run [⟨"x", .ofFn (.float [2, 1]) fun (i : Nat) => (i : Int) + 1⟩], .retag ⟨1⟩ .constant]

/-- Another run fails after its first instruction and leaves the frozen total as it is; a write by name
changes it. -/
theorem frozenTally_constants_kept :
    tallied (tallyEngine.play frozenTally) = some #[1, 2] ∧
      ((Engine.run []).run.run (tallyEngine.play frozenTally)).1.isOk = false ∧
      (∃ l, (tallyEngine.play frozenTally).store.arena.get? ⟨1⟩ = some l ∧ l.isConstant = true ∧
        (∀ p : Program Int, (p.run (tallyEngine.play frozenTally).store.arena).memory.weights.get? ⟨1⟩ =
          some l) ∧
        ∃ k, (tallyEngine.play (frozenTally ++ [.run []])).store.arena.get? ⟨1⟩ = some k ∧
          k.payload = l.payload) ∧
      tallied (tallyEngine.play (frozenTally ++ [.write "total" (.full (.float [2, 1]) 7)])) =
        some #[7, 7] := by
  have frozen : ((tallyEngine.play frozenTally).store.arena.get? ⟨1⟩).any
    (fun (l : Location Int) => l.isConstant) = true := by decide +kernel
  simp only [Option.any_eq_true] at frozen
  obtain ⟨l, located, constant⟩ := frozen
  obtain ⟨executions, actions⟩ := constants_kept tallyEngine frozenTally located constant
  refine ⟨by decide +kernel, by decide +kernel, ⟨l, located, constant, fun p => ?_, ?_⟩,
    by decide +kernel⟩
  · exact (executions p _ (.refl _)).trans located
  · obtain ⟨k, k', before, after, -, -, kept⟩ := actions [] (.run []) fun b hb tags => by
      rw [List.nil_append, List.mem_singleton] at hb
      subst hb
      exact tags
    rw [List.append_nil] at before after
    rcases kept with rfl | ⟨-, named⟩
    · obtain rfl := Option.some.inj (located.symm.trans before)
      exact ⟨_, after, rfl⟩
    · exact absurd named List.not_mem_nil

end
end NeuralGraph
