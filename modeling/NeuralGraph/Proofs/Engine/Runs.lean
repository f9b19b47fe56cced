import NeuralGraph.Proofs.Engine.Bindings
import NeuralGraph.Proofs.Engine.Operations

/-!
# Runs of a unit

`Engine.step` makes the unit of a mode active and runs it.  What bindings do depends on the weights
only, so a run comes down to the arena that the bindings leave and the run of the program from there.
-/

namespace NeuralGraph
set_option autoImplicit false
variable {α : Type}

/-- What a run is refused with before it starts. -/
inductive Error.IsRefusal : Error α → Prop
  | notCompiled : IsRefusal .notCompiled
  | unknownLocation (location : LocationRef) : IsRefusal (.unknownLocation location)
  | hiddenLocation (name : String) (access : Access) : IsRefusal (.hiddenLocation name access)
  | binding (name : String) (expected got : TensorType α) : IsRefusal (.binding name expected got)

variable [Scalar α]

namespace Engine

/-- Makes the unit of a mode active and copies the bindings: where its run starts from. -/
def prepare (mode : Mode) (bindings : List (Binding α)) : Operate α Unit := do
  activate mode
  bindAll bindings

/-- Makes the unit of a mode active, binds tensors and runs it once. -/
def step (mode : Mode) (bindings : List (Binding α)) : Operate α Unit := do
  activate mode
  run bindings

/-- What is reported of a run. -/
def outcome (r : Run α) : Except (Error α) Unit :=
  match r.failure with
  | none => .ok ()
  | some error => .error error

/-- The engine with another active mode. -/
def withActive (e : Engine α) (mode : Mode) : Engine α := { e with active := some mode }

/-- The engine after a run of a unit. -/
def ran (e : Engine α) (u : CompiledGraph α) (r : Run α) : Engine α :=
  (e.withCompiled { u with program := u.program.after r }).withArena r.memory.weights

variable {e e' : Engine α} {bindings : List (Binding α)} {mode : Mode} {u : CompiledGraph α}
  {a : Arena α}

omit [Scalar α] in
theorem store_ran (e : Engine α) (u : CompiledGraph α) (r : Run α) :
    (e.ran u r).store = e.store.withArena r.memory.weights :=
  congrArg (fun (s : WeightStorage α) => s.withArena r.memory.weights)
    (withCompiled_store e { u with program := u.program.after r })

omit [Scalar α] in
theorem active_ran (e : Engine α) (u : CompiledGraph α) (r : Run α) :
    (e.ran u r).active = e.active :=
  withCompiled_active e { u with program := u.program.after r }

omit [Scalar α] in
theorem compiled?_withArena (e : Engine α) (a : Arena α) (mode : Mode) :
    (e.withArena a).compiled? mode = e.compiled? mode := by
  cases mode <;> rfl

omit [Scalar α] in
theorem compiled?_withActive (e : Engine α) (mode mode' : Mode) :
    (e.withActive mode).compiled? mode' = e.compiled? mode' := by
  cases mode' <;> rfl

omit [Scalar α] in
theorem compiled?_ran (e : Engine α) (u : CompiledGraph α) (r : Run α) :
    (e.ran u r).compiled? u.mode = some { u with program := u.program.after r } := by
  rw [ran, compiled?_withArena, compiled?_withCompiled, if_pos rfl]

/-! ## Bindings -/

/-- The bindings are accepted, and leave the arena `a`. -/
structure Binds (e : Engine α) (bindings : List (Binding α)) (a : Arena α) : Prop where
  accepted : e.checkBindings (fun (target source : TensorType α) => source == target) bindings = .ok ()
  copied : Yields (bindAll bindings) e () (e.withArena a)

theorem binds_iff : e.Binds bindings a ↔
    e.checkBindings (fun (target source : TensorType α) => source == target) bindings = .ok () ∧
      e.store.arena.assignEach bindings = (.ok (), a) := by
  refine ⟨fun h => ⟨h.accepted, ?_⟩, fun h => ⟨h.1, ?_⟩⟩
  · have copied := h.copied
    rw [Yields, run_bindAll] at copied
    obtain ⟨result, left⟩ := Prod.mk.inj copied
    exact Prod.ext result (congrArg (fun (e : Engine α) => e.store.arena) left)
  · rw [Yields, run_bindAll, h.2]

theorem exists_binds [PartialEquivBEq α] (accepted : e.checkBindings
    (fun (target source : TensorType α) => source == target) bindings = .ok ()) :
    ∃ a, e.Binds bindings a := by
  obtain ⟨a, copied⟩ := Arena.assignEach_succeeds fun b hb => by
    obtain ⟨l, named, -, same⟩ := checkBindings_iff.mp accepted b hb
    exact ⟨l, named, same⟩
  exact ⟨a, binds_iff.mpr ⟨accepted, copied⟩⟩

theorem Binds.keeps (h : e.Binds bindings a) : Keeps none e (e.withArena a) := by
  have leads : Leads (Keeps none) (bindAll bindings) := keeps_bindAll bindings
  exact leads.of_yields h.copied

theorem Binds.congr (h : e.Binds bindings a) (same : e'.store = e.store) : e'.Binds bindings a := by
  have peers : e'.store.arena.Peers e.store.arena := same ▸ Arena.Peers.refl _
  rw [binds_iff] at h ⊢
  rw [checkBindings_peers bindings peers, same]
  exact h

/-! ## Refusals -/

omit [Scalar α] in
theorem isRefusal_of_exposed {name : String} {access : Access} {error : Error α}
    (h : e.exposed name access = .error error) : error.IsRefusal := by
  rw [exposed] at h
  split at h
  · cases h
    exact .unknownLocation _
  · split at h
    · cases h
    · cases h
      exact .hiddenLocation _ _

omit [Scalar α] in
theorem isRefusal_of_checkBindings {accepts : TensorType α → TensorType α → Bool} {error : Error α}
    (h : e.checkBindings accepts bindings = .error error) : error.IsRefusal := by
  induction bindings with
  | nil => cases h
  | cons b rest ih =>
    rw [checkBindings] at h
    cases found : e.exposed b.name .bind with
    | error error' =>
      rw [found] at h
      cases h
      exact isRefusal_of_exposed found
    | ok l =>
      simp only [found, bind, Except.bind] at h
      split at h
      · exact ih h
      · cases h
        exact .binding _ _ _

/-! ## Errors that are not of a kernel -/

/-- If the computation fails, no kernel has. -/
def KernelFree {β : Type} (r : Except (Error α) β) : Prop :=
  ∀ error, r = .error error → ∀ name fault, error ≠ .kernel name fault

omit [Scalar α] in
theorem checkBindings_kernelFree (e : Engine α) (accepts : TensorType α → TensorType α → Bool)
    (bindings : List (Binding α)) : KernelFree (e.checkBindings accepts bindings) := by
  intro error h name fault
  rintro rfl
  cases isRefusal_of_checkBindings h

omit [Scalar α] in
theorem overwrite_kernelFree (a : Arena α) (name : String)
    (f : Tensor α → Except (TensorFault α) (Tensor α)) : KernelFree (a.overwrite name f) := by
  intro error h name' fault
  rintro rfl
  rw [Arena.overwrite] at h
  split at h
  · cases h
  · next id found =>
    obtain ⟨l, hl⟩ := Arena.find?_located found
    cases changed : f l.payload <;>
      simp [Arena.update, Arena.get, hl, Location.overwrite, changed, bind, Except.bind] at h

theorem assignEach_kernelFree (a : Arena α) (bindings : List (Binding α)) :
    KernelFree (a.assignEach bindings).1 := by
  induction bindings generalizing a with
  | nil => exact fun _ h => by cases h
  | cons b rest ih =>
    have free := overwrite_kernelFree a b.name fun (old : Tensor α) => old.assign b.tensor
    rw [Arena.assignEach, Arena.overwriteEach]
    generalize a.overwrite b.name (fun (old : Tensor α) => old.assign b.tensor) = r at free ⊢
    cases r with
    | error error =>
      intro error' h
      cases h
      exact free error rfl
    | ok a' => exact ih a'

/-! ## Steps -/

omit [Scalar α] in
theorem run_activate (found : e.compiled? mode = some u) :
    (activate mode).run.run e = (.ok (), e.withActive mode) := by
  simp only [activate, attempt, run_carry, found]
  rfl

omit [Scalar α] in
theorem run_activate_error (absent : e.compiled? mode = none) :
    (activate mode).run.run e = (.error .notCompiled, e) := by
  simp only [activate, attempt, run_carry, absent]

theorem run_executeActive (active : e.active = some mode) (found : e.compiled? mode = some u) :
    executeActive.run.run e =
      (outcome (u.program.run e.store.arena), e.ran u (u.program.run e.store.arena)) := by
  cases failed : (u.program.run e.store.arena).failure <;>
    simp only [executeActive, run_carry, active, Option.bind_some, found, outcome, ran, failed]

theorem after_executeActive (e : Engine α) : (executeActive.run.run e).2 = e ∨
    ∃ u : CompiledGraph α, (executeActive.run.run e).2 = e.ran u (u.program.run e.store.arena) := by
  rw [executeActive, run_carry]
  split
  · exact .inl rfl
  · next u _ =>
    refine .inr ⟨u, ?_⟩
    dsimp only
    split <;> rfl

theorem run_check (active : e.active = some mode) :
    (ask fun (e : Engine α) => if e.active.isNone then .error .notCompiled
      else e.checkBindings (fun (target source : TensorType α) => source == target)
        bindings).run.run e =
      (e.checkBindings (fun (target source : TensorType α) => source == target) bindings, e) := by
  simp only [ask, run_carry, active, Option.isNone_some, Bool.false_eq_true, if_false]

/-- A run: nothing happens if a binding is refused, and the program starts if all are copied. -/
theorem run_run (active : e.active = some mode) (found : e.compiled? mode = some u)
    (bindings : List (Binding α)) :
    (run bindings).run.run e =
      match e.checkBindings (fun (target source : TensorType α) => source == target) bindings,
        e.store.arena.assignEach bindings with
      | .error error, _ => (.error error, e)
      | .ok (), (.error error, a) => (.error error, e.withArena a)
      | .ok (), (.ok (), a) => (outcome (u.program.run a), (e.withArena a).ran u (u.program.run a)) := by
  rw [run, run_bind, run_check active]
  cases e.checkBindings (fun (target source : TensorType α) => source == target) bindings with
  | error error => rfl
  | ok _ =>
    dsimp only
    rw [run_bind, run_bindAll]
    obtain ⟨result, a⟩ := e.store.arena.assignEach bindings
    cases result with
    | error error => rfl
    | ok _ =>
      exact run_executeActive active ((compiled?_withArena e a mode).trans found)

/-- A step whose bindings are accepted does what the program of the unit does. -/
theorem run_step (found : e.compiled? mode = some u) (binds : e.Binds bindings a) :
    (step mode bindings).run.run e = (outcome (u.program.run a),
      ((e.withActive mode).withArena a).ran u (u.program.run a)) := by
  obtain ⟨accepted, copied⟩ := binds_iff.mp (binds.congr rfl : (e.withActive mode).Binds bindings a)
  rw [step, run_bind, run_activate found]
  dsimp only
  rw [run_run rfl ((compiled?_withActive e mode mode).trans found), accepted, copied]

theorem prepare_of_binds (found : e.compiled? mode = some u) (binds : e.Binds bindings a) :
    Yields (prepare mode bindings) e () ((e.withActive mode).withArena a) := by
  have binds : (e.withActive mode).Binds bindings a := binds.congr rfl
  exact yields_bind.mpr ⟨(), _, run_activate found, binds.copied⟩

/-- A step that succeeds, or in which a kernel fails, has come to the program. -/
theorem binds_of_step {r : Except (Error α) Unit} (h : (step mode bindings).run.run e = (r, e'))
    (late : r = .ok () ∨ ∃ name fault, r = .error (.kernel name fault)) :
    ∃ u a, e.compiled? mode = some u ∧ e.Binds bindings a := by
  have kernel : ∀ error, r = .error error → ∃ name fault, error = .kernel name fault := by
    rintro error rfl
    rcases late with succeeded | ⟨name, fault, failed⟩
    · cases succeeded
    · exact ⟨name, fault, Except.error.inj failed⟩
  rw [step, run_bind] at h
  cases found : e.compiled? mode with
  | none =>
    rw [run_activate_error found] at h
    cases h
    obtain ⟨name, fault, same⟩ := kernel _ rfl
    cases same
  | some u =>
    rw [run_activate found] at h
    dsimp only at h
    rw [run_run rfl ((compiled?_withActive e mode mode).trans found)] at h
    have free := checkBindings_kernelFree (e.withActive mode)
      (fun (target source : TensorType α) => source == target) bindings
    have copying := assignEach_kernelFree e.store.arena bindings
    have same : ∀ a, (e.withActive mode).Binds bindings a → e.Binds bindings a :=
      fun a binds => binds.congr rfl
    simp only [binds_iff (e := e.withActive mode)] at same
    have store : (e.withActive mode).store = e.store := rfl
    rw [store] at h same
    generalize (e.withActive mode).checkBindings
      (fun (target source : TensorType α) => source == target) bindings = checked at h free same
    generalize e.store.arena.assignEach bindings = copied at h copying same
    obtain ⟨result, a⟩ := copied
    cases checked with
    | error error =>
      cases h
      obtain ⟨name, fault, same⟩ := kernel _ rfl
      exact absurd same (free _ rfl name fault)
    | ok _ =>
      cases result with
      | error error =>
        cases h
        obtain ⟨name, fault, same⟩ := kernel _ rfl
        exact absurd same (copying _ rfl name fault)
      | ok _ => exact ⟨u, a, rfl, same a ⟨rfl, rfl⟩⟩

end Engine
end NeuralGraph
