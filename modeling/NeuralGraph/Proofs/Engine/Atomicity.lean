import Mathlib
import NeuralGraph.Proofs.Engine.Batches
import NeuralGraph.Proofs.Integers
import NeuralGraph.Proofs.Program.Atomicity

/-!
# Bindings are all or nothing

A run whose bindings are refused has changed nothing.  If they are accepted then nothing can go wrong
while they are copied, and the run fails in an instruction of the active unit or not at all.
-/

namespace NeuralGraph
set_option autoImplicit false
variable {α β : Type}

theorem Instruction.Raises.not_isRefusal {i : Instruction α} {error : Error α}
    (raises : i.Raises error) : ¬error.IsRefusal := by
  intro refusal
  rcases raises with ⟨fault, rfl⟩ | ⟨location, rfl⟩
  · cases refusal
  · cases refusal

variable [Scalar α]

/-- Rows of the tensor can be copied into a location of this type, from any row on: no divisor is zero
and no position lies outside of the tensor. -/
structure Tensor.Wraps (source : Tensor α) (type : TensorType α) : Prop where
  dims : type.dims ≠ []
  rows : source.type.rows ≠ 0
  inside : ∀ start, ∀ i < volume type.dims, type.rowSize ≠ 0 ∧
    (start + i / type.rowSize) % source.type.rows < source.type.rows ∧
    (start + i / type.rowSize) % source.type.rows * type.rowSize + i % type.rowSize <
      source.data.size

theorem Tensor.wraps_of_acceptsBatch {source : Tensor α} {type : TensorType α}
    (accepts : Engine.acceptsBatch type source.type = true) : source.Wraps type := by
  simp only [Engine.acceptsBatch, Bool.and_eq_true, Nat.blt_eq] at accepts
  obtain ⟨accepts, positive⟩ := accepts
  obtain ⟨dims, rank, tail, -⟩ := TensorType.acceptsRows_iff.mp accepts
  have sourceDims : source.type.dims ≠ [] := by
    intro none
    rw [TensorType.rows, none] at positive
    cases positive
  have size : source.data.size = source.type.rows * type.rowSize := by
    rw [Tensor.data, source.array.size_eq, source.fits, TensorType.volume_dims sourceDims,
      TensorType.rowSize, TensorType.rowSize, tail]
  refine ⟨dims, positive.ne', fun start i hi => ?_⟩
  rw [TensorType.volume_dims dims] at hi
  have row : 0 < type.rowSize := Nat.pos_of_mul_pos_left (Nat.zero_lt_of_lt hi)
  have wrapped := Nat.mod_lt (start + i / type.rowSize) positive
  refine ⟨row.ne', wrapped, ?_⟩
  rw [size]
  calc (start + i / type.rowSize) % source.type.rows * type.rowSize + i % type.rowSize
      < ((start + i / type.rowSize) % source.type.rows + 1) * type.rowSize := by
        rw [Nat.succ_mul]
        exact Nat.add_lt_add_left (Nat.mod_lt i row) _
    _ ≤ source.type.rows * type.rowSize := Nat.mul_le_mul_right _ wrapped

namespace Engine
variable {e e' : Engine α} {bindings : List (Binding α)} {mode : Mode} {i : Nat}
  {accepts : TensorType α → TensorType α → Bool} {starts : Engine α → Prop}

/-! ## Units whose operands are there -/

/-- The instructions of units find operands of the types that they ask for. -/
def IsTyped (e : Engine α) : Prop :=
  ∀ mode u, e.compiled? mode = some u → ∀ i ∈ u.program.instructions,
    ∃ ls, i.Typed (u.program.memory e.store.arena) ls

theorem typed_of_program {p q : Program α} {a b : Arena α}
    (typed : ∀ i ∈ p.instructions, ∃ ls, i.Typed (p.memory a) ls)
    (same : q.instructions = p.instructions) (fits : (q.memory b).Fits (p.memory a)) :
    ∀ i ∈ q.instructions, ∃ ls, i.Typed (q.memory b) ls := by
  intro i hi
  obtain ⟨ls, typed⟩ := typed i (same ▸ hi)
  exact typed.mono fits

theorem typed_of_continues {u : CompiledGraph α}
    (typed : e.IsTyped) (grows : e.store.Grows e'.store)
    (continues : Option.Rel CompiledGraph.Continues (e.compiled? mode) (e'.compiled? mode))
    (found : e'.compiled? mode = some u) :
    ∀ i ∈ u.program.instructions, ∃ ls, i.Typed (u.program.memory e'.store.arena) ls := by
  rw [found] at continues
  generalize was : e.compiled? mode = r at continues
  cases continues with
  | some continues =>
    exact typed_of_program (typed mode _ was) continues.instructions
      (Memory.covers_iff.mpr ⟨continues.activations, grows.arena⟩).fits

theorem IsTyped.keep (typed : e.IsTyped) (valid : e.Valid) (keeps : Keeps none e e') :
    e'.IsTyped := by
  have persists := keeps.persists valid
  intro mode u found
  exact typed_of_continues typed persists.grows (persists.units mode (by simp)) found

theorem IsTyped.retag (typed : e.IsTyped) (id : LocationId) (mutability : Mutability) :
    (e.after (retag id mutability)).IsTyped := by
  simp only [after, Engine.retag, attempt, run_carry, Arena.update, Arena.get, bind, Except.bind]
  cases hk : e.store.arena.get? id with
  | none => exact typed
  | some k =>
    intro mode u found
    refine typed_of_program (typed mode u ((compiled?_withArena e _ mode).symm.trans found)) rfl ?_
    intro v l hl
    by_cases own : v = .weight id
    · subst own
      obtain rfl := Option.some.inj (hk.symm.trans hl)
      exact ⟨_, Arena.get?_put_self _ _ (Arena.lt_size_of_get? hk), rfl⟩
    · exact ⟨l, (Memory.locate?_put_ne _ _ (Ne.symm own)).trans hl, rfl⟩

theorem Arises.isTyped (h : e.Arises) : e.IsTyped := by
  induction h with
  | start seed => exact fun mode u found => by cases mode <;> cases found
  | @operate e recompiled β x earlier operation ih =>
    intro mode u found
    rcases operation.refused_or_compiles e mode with kept | ⟨f, compiled⟩
    · exact typed_of_continues ih ((operation.keeps e).persists earlier.valid).grows
        (operation.persists_of_retained earlier.valid kept) found
    · obtain ⟨g, e₁, p, store, -, lowered, -, rfl, unit, -⟩ := yields_compile compiled
      obtain rfl := Option.some.inj (unit.symm.trans found)
      intro i hi
      obtain ⟨defined, ls, accepted⟩ := (Graph.lower_grown lowered).suits i hi
      exact ⟨ls, accepted.typed⟩
  | retag id mutability earlier ih => exact ih.retag id mutability

/-! ## Failures of instructions -/

/-- The active unit of `e` is executed and fails in an instruction, in the memory that the instructions
before leave.  The engine is then `e'`. -/
def FailsIn (e : Engine α) (error : Error α) (e' : Engine α) : Prop :=
  ∃ mode u i, e.active = some mode ∧ e.compiled? mode = some u ∧
    let r := u.program.run e.store.arena
    u.program.instructions[r.executed]? = some i ∧ i.Raises error ∧
    i.step (execute (u.program.instructions.toList.take r.executed)
      (u.program.memory e.store.arena)).memory = (r.memory, some error) ∧
    e' = e.ran u r

theorem FailsIn.not_isRefusal {error : Error α} (fails : e.FailsIn error e') : ¬error.IsRefusal := by
  obtain ⟨mode, u, i, -, -, -, raises, -⟩ := fails
  exact raises.not_isRefusal

theorem failsIn_of_executeActive {error : Error α} (valid : e.Valid) (typed : e.IsTyped)
    (active : e.active ≠ none) (h : executeActive.run.run e = (.error error, e')) :
    e.FailsIn error e' := by
  obtain ⟨mode, active⟩ := Option.ne_none_iff_exists'.mp active
  obtain ⟨u, found⟩ := valid.active mode active
  rw [run_executeActive active found, outcome] at h
  cases failed : (u.program.run e.store.arena).failure with
  | none =>
    rw [failed] at h
    cases h
  | some error' =>
    rw [failed] at h
    cases h
    obtain ⟨i, hi, -, last⟩ := execute_before_failure failed
    rw [Array.getElem?_toList] at hi
    obtain ⟨ls, suits⟩ := typed mode u found i (Array.mem_of_getElem? hi)
    obtain ⟨ks, suits⟩ := suits.mono (execute_covers (u.program.instructions.toList.take
      (u.program.run e.store.arena).executed) (u.program.memory e.store.arena)).fits
    exact ⟨mode, u, i, active, found, hi, suits.located.raises (by rw [Program.run, last]), last, rfl⟩

/-! ## Checks before everything -/

/-- There is a unit to run, and every binding is accepted. -/
structure Admits (e : Engine α) (accepts : TensorType α → TensorType α → Bool)
    (bindings : List (Binding α)) : Prop where
  active : e.active ≠ none
  accepted : e.checkBindings accepts bindings = .ok ()

/-- What cannot be admitted is refused, and then nothing has changed.  What is admitted fails in an
instruction if it fails, of the active unit as executed in an engine of `starts`. -/
structure AllOrNothing (e : Engine α) (accepts : TensorType α → TensorType α → Bool)
    (bindings : List (Binding α)) (x : Operate α Unit) (starts : Engine α → Prop) : Prop where
  unchanged : ∀ error e', x.run.run e = (.error error, e') → error.IsRefusal →
    e' = e ∧ ¬e.Admits accepts bindings
  refused : ¬e.Admits accepts bindings → ∃ error, error.IsRefusal ∧ x.run.run e = (.error error, e)
  failed : e.Admits accepts bindings → ∀ error e', x.run.run e = (.error error, e') →
    ∃ e₁, starts e₁ ∧ e₁.FailsIn error e'

def runCheck (accepts : TensorType α → TensorType α → Bool) (bindings : List (Binding α)) :
    Operate α Unit :=
  ask fun (e : Engine α) =>
    if e.active.isNone then .error .notCompiled else e.checkBindings accepts bindings

omit [Scalar α] in
theorem yields_runCheck (admits : e.Admits accepts bindings) :
    Yields (runCheck accepts bindings) e () e := by
  rw [Yields, runCheck, ask, run_carry, if_neg (by simpa using admits.active), admits.accepted]

omit [Scalar α] in
theorem refuses_of_not_admits (not : ¬e.Admits accepts bindings) :
    ∃ error, error.IsRefusal ∧ (runCheck accepts bindings).run.run e = (.error error, e) := by
  rw [runCheck, ask, run_carry]
  by_cases active : e.active = none
  · refine ⟨.notCompiled, .notCompiled, ?_⟩
    rw [if_pos (by simpa using active)]
  · rw [if_neg (by simpa using active)]
    cases checked : e.checkBindings accepts bindings with
    | ok _ => exact absurd ⟨active, checked⟩ not
    | error error => exact ⟨error, isRefusal_of_checkBindings checked, rfl⟩

theorem allOrNothing_of_failed {x : Operate α Unit}
    (failed : e.Admits accepts bindings → ∀ error e', x.run.run e = (.error error, e') →
      ∃ e₁, starts e₁ ∧ e₁.FailsIn error e') :
    e.AllOrNothing accepts bindings (runCheck accepts bindings >>= fun _ => x) starts := by
  have admitted : e.Admits accepts bindings → ∀ error e',
      (runCheck accepts bindings >>= fun _ => x).run.run e = (.error error, e') →
        ∃ e₁, starts e₁ ∧ e₁.FailsIn error e' := by
    intro admits error e' h
    rw [(yields_runCheck admits).run_bind] at h
    exact failed admits error e' h
  have refused : ¬e.Admits accepts bindings → ∃ error, error.IsRefusal ∧
      (runCheck accepts bindings >>= fun _ => x).run.run e = (.error error, e) := by
    intro not
    obtain ⟨error, refusal, done⟩ := refuses_of_not_admits not
    exact ⟨error, refusal, by rw [run_bind, done]⟩
  refine ⟨fun error e' h refusal => ?_, refused, admitted⟩
  by_cases admits : e.Admits accepts bindings
  · obtain ⟨e₁, -, fails⟩ := admitted admits error e' h
    exact absurd refusal fails.not_isRefusal
  · obtain ⟨error', -, done⟩ := refused admits
    rw [done] at h
    cases h
    exact ⟨rfl, admits⟩

/-! ## Copies -/

variable [PartialEquivBEq α]

theorem exists_bindRows (accepted : e.checkBindings acceptsBatch bindings = .ok ())
    (peers : e'.store.arena.Peers e.store.arena) (i : Nat) :
    ∃ a, Yields (bindRows i bindings) e' () (e'.withArena a) := by
  obtain ⟨slices, are⟩ := exists_slices accepted i
  obtain ⟨a, binds⟩ := exists_binds
    ((checkBindings_peers slices peers).trans (checkBindings_slices accepted are))
  refine ⟨a, ?_⟩
  rw [Yields, run_bindRows]
  dsimp only
  rw [assignEach_slices accepted are peers, (binds_iff.mp binds).2]

omit [PartialEquivBEq α] in
theorem wraps_of_accepted (accepted : e.checkBindings acceptsBatch bindings = .ok ()) :
    ∀ b ∈ bindings, ∃ l, e.store.arena.named? b.name = some l ∧ b.tensor.Wraps l.type := by
  intro b hb
  obtain ⟨l, named, -, accepts⟩ := checkBindings_iff.mp accepted b hb
  exact ⟨l, named, Tensor.wraps_of_acceptsBatch accepts⟩

/-! ## Runs that fail -/

theorem failed_run (valid : e.Valid) (typed : e.IsTyped)
    (admits : e.Admits (fun (target source : TensorType α) => source == target) bindings)
    {error : Error α}
    (h : (bindAll bindings >>= fun _ => executeActive).run.run e = (.error error, e')) :
    ∃ e₁, Yields (bindAll bindings) e () e₁ ∧ e₁.FailsIn error e' := by
  obtain ⟨a, binds⟩ := exists_binds admits.accepted
  rw [binds.copied.run_bind] at h
  exact ⟨_, binds.copied, failsIn_of_executeActive (binds.keeps.valid valid)
    (typed.keep valid binds.keeps) admits.active h⟩

/-- Iterations from `i` on in an engine that has the locations of `e`. -/
theorem failed_runIterations (admits : e.Admits acceptsBatch bindings) {count : Nat}
    {e₀ : Engine α} (valid : e₀.Valid) (typed : e₀.IsTyped) (steady : e.Steady e₀) {error : Error α}
    (h : (runIterations bindings count i).run.run e₀ = (.error error, e')) :
    ∃ j < count, ∃ e₁ e₂, Yields (runIterations bindings j i) e₀ () e₁ ∧
      Yields (bindRows (i + j) bindings) e₁ () e₂ ∧ e₂.FailsIn error e' := by
  -- Both steps of an iteration keep the engine valid, its operands typed and its locations those of `e`.
  induction count generalizing e₀ i with
  | zero => cases h
  | succ count ih =>
    obtain ⟨a, copied⟩ := exists_bindRows admits.accepted steady.peers i
    have leads : Leads (Keeps none) (bindRows i bindings) := keeps_bindRows i bindings
    have keeps := leads.of_yields copied
    have bound := trans_of Steady steady ((steady_bindRows i bindings).of_yields copied)
    have valid' := keeps.valid valid
    have typed' := typed.keep valid keeps
    have active : (e₀.withArena a).active ≠ none := by
      rw [bound.active]
      exact admits.active
    rw [runIterations, copied.run_bind, run_bind] at h
    have executed : Keeps none (e₀.withArena a) (executeActive.run.run (e₀.withArena a)).2 :=
      keeps_executeActive (e₀.withArena a)
    have left := trans_of Steady bound (steady_executeActive (e₀.withArena a))
    cases done : executeActive.run.run (e₀.withArena a) with
    | mk result e₁ =>
      rw [done] at h executed left
      cases result with
      | error error' =>
        cases h
        exact ⟨0, Nat.succ_pos count, e₀, _, rfl, copied,
          failsIn_of_executeActive valid' typed' active done⟩
      | ok _ =>
        obtain ⟨j, low, e₂, e₃, before, rows, fails⟩ :=
          ih (executed.valid valid') (typed'.keep valid' executed) left h
        refine ⟨j + 1, Nat.succ_lt_succ low, e₂, e₃, ?_, ?_, fails⟩
        · exact yields_bind.mpr ⟨(), _, copied, yields_bind.mpr ⟨(), e₁, done, before⟩⟩
        · rwa [Nat.add_right_comm] at rows

/-- Bindings are all or nothing: a run that is refused has changed nothing.  If it is admitted then no
copy fails, in no iteration, no row is out of range, and what fails is an instruction. -/
theorem Arises.bindings_atomic (arises : e.Arises) (bindings : List (Binding α)) :
    e.AllOrNothing (fun (target source : TensorType α) => source == target) bindings (run bindings)
      (fun (e₁ : Engine α) => Yields (bindAll bindings) e () e₁) ∧
    (∀ count, e.AllOrNothing acceptsBatch bindings (runBatches count bindings) fun (e₁ : Engine α) =>
      ∃ j < count, ∃ e₀, Yields (runIterations bindings j 0) e () e₀ ∧
        Yields (bindRows j bindings) e₀ () e₁) ∧
    (e.checkBindings (fun (target source : TensorType α) => source == target) bindings = .ok () →
      ∃ a, Yields (bindAll bindings) e () (e.withArena a)) ∧
    (e.checkBindings acceptsBatch bindings = .ok () →
      (∀ j e', e.Steady e' → ∃ a, Yields (bindRows j bindings) e' () (e'.withArena a)) ∧
      ∀ b ∈ bindings, ∃ l, e.store.arena.named? b.name = some l ∧ b.tensor.Wraps l.type) := by
  refine ⟨?_, fun count => ?_, fun accepted => ?_, fun accepted => ⟨fun j e' steady => ?_, ?_⟩⟩
  · refine allOrNothing_of_failed fun admits error e' h => ?_
    exact failed_run arises.valid arises.isTyped admits h
  · refine allOrNothing_of_failed fun admits error e' h => ?_
    obtain ⟨j, low, e₀, e₁, before, rows, fails⟩ := failed_runIterations admits arises.valid
      arises.isTyped (refl_of Steady e) h
    rw [Nat.zero_add] at rows
    exact ⟨e₁, ⟨j, low, e₀, before, rows⟩, fails⟩
  · obtain ⟨a, binds⟩ := exists_binds accepted
    exact ⟨a, binds.copied⟩
  · exact exists_bindRows accepted steady.peers j
  · exact wraps_of_accepted accepted

end Engine

section
open Engine

theorem tallyEngine_arises : tallyEngine.Arises :=
  Arises.start 0
    |>.operate (.edit (.insertGraph (.empty "tally")))
    |>.operate (.edit (.declare "x" _ _ _))
    |>.operate (.edit (.declare "total" _ _ _))
    |>.operate (.edit (.layer (.binary _ _ _ _)))
    |>.operate (.edit (.layer (.saveTo _ _ _)))
    |>.operate (.compile .infer ⟨0⟩)

def tallyRows : Binding Int := ⟨"x", .full (.float [2, 1]) 5⟩

/-- Of these bindings the last one is refused. -/
def misfitRows : List (Binding Int) := [tallyRows, tallyRows, ⟨"total", .full (.float [3]) 0⟩]

/-- The tally refuses rows that do not fit, takes rows in every iteration, and fails in its instruction
once the total is a constant. -/
theorem tallyEngine_bindings_atomic :
    (∃ error : Error Int, error.IsRefusal ∧
        (run misfitRows).run.run tallyEngine = (.error error, tallyEngine)) ∧
      (∀ j, ∃ a, Yields (bindRows j tallyBindings) tallyEngine () (tallyEngine.withArena a)) ∧
      ∃ (error : Error Int) (e₁ : Engine Int), ¬error.IsRefusal ∧
        e₁.FailsIn error ((tallyEngine.after (retag ⟨1⟩ .constant)).after (run [tallyRows])) := by
  refine ⟨?_, fun j => ?_, ?_⟩
  · refine (tallyEngine_arises.bindings_atomic misfitRows).1.refused fun admits => ?_
    have refused : (tallyEngine.checkBindings (fun (target source : TensorType Int) =>
      source == target) misfitRows).isOk = false := by decide +kernel
    rw [admits.accepted] at refused
    cases refused
  · exact ((tallyEngine_arises.bindings_atomic tallyBindings).2.2.2
      (eq_ok_of_isOk (by decide +kernel))).1 j tallyEngine (refl_of Steady tallyEngine)
  · have admits : (tallyEngine.after (retag ⟨1⟩ .constant)).Admits
        (fun (target source : TensorType Int) => source == target) [tallyRows] :=
      ⟨by decide +kernel, eq_ok_of_isOk (by decide +kernel)⟩
    have failed : ((run [tallyRows]).run.run
      (tallyEngine.after (retag ⟨1⟩ .constant))).1.isOk = false := by decide +kernel
    cases result : ((run [tallyRows]).run.run (tallyEngine.after (retag ⟨1⟩ .constant))).1 with
    | ok _ =>
      rw [result] at failed
      cases failed
    | error error =>
      obtain ⟨e₁, -, fails⟩ := ((tallyEngine_arises.retag ⟨1⟩ .constant).bindings_atomic
        [tallyRows]).1.failed admits error _ (Prod.ext result rfl)
      exact ⟨error, e₁, fails.not_isRefusal, fails⟩

end
end NeuralGraph
