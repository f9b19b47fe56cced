import Mathlib
import NeuralGraph.Proofs.Engine.Compilation
import NeuralGraph.Proofs.Engine.Runs
import NeuralGraph.Proofs.Program.Independence

/-!
# Runs that are repeated

What activations hold when a run starts has no influence on it.  So a unit that neither updates weights
nor reads what it saves leaves the same weights when it is run once more with the same bindings.
-/

namespace NeuralGraph
set_option autoImplicit false
variable {α : Type} [Scalar α]

/-! ## Bindings that are copied again -/

theorem Tensor.assign_congr {t u : Tensor α} (type : t.type = u.type) (layout : t.layout = u.layout)
    (source : Tensor α) : t.assign source = u.assign source := by
  obtain ⟨type', array, layout', fits⟩ := t
  obtain ⟨type'', array', layout'', fits'⟩ := u
  cases type
  cases layout
  rfl

theorem Tensor.assign_layout {t source u : Tensor α} (h : t.assign source = .ok u) :
    u.layout = t.layout := by
  simp only [assign] at h
  split at h
  · cases h
    rfl
  · cases h

namespace Location
variable {l k : Location α}

/-- Copying a tensor does not depend on the contents that it replaces, but for their layout. -/
theorem overwrite_assign_congr (peers : l.Peers k) (layout : l.payload.layout = k.payload.layout)
    (t : Tensor α) : (l.overwrite fun (old : Tensor α) => old.assign t) =
      k.overwrite fun (old : Tensor α) => old.assign t := by
  obtain ⟨name, mutability, visibility, payload⟩ := l
  obtain ⟨rfl, rfl, rfl, type⟩ := peers
  simp only [overwrite, Tensor.assign_congr type layout t]

theorem overwrite_assign_layout {t : Tensor α}
    (h : (l.overwrite fun (old : Tensor α) => old.assign t) = .ok k) :
    k.payload.layout = l.payload.layout := by
  rw [overwrite] at h
  split at h
  · next t ht =>
    cases h
    exact Tensor.assign_layout ht
  · cases h

theorem overwrite_assign_parallel (peers : l.Peers k) (t : Tensor α) :
    Parallel Location.Peers (l.overwrite fun (old : Tensor α) => old.assign t)
      (k.overwrite fun (old : Tensor α) => old.assign t) := by
  have type : l.payload.type = k.payload.type := peers.type
  by_cases same : (k.payload.type == t.type) = true
  · have same' : (l.payload.type == t.type) = true := type ▸ same
    simp only [overwrite, Tensor.assign, dif_pos same, dif_pos same']
    exact .ok ⟨peers.name, peers.mutability, peers.visibility, peers.type⟩
  · simp only [overwrite, Tensor.assign, dif_neg same, type]
    exact .error _

end Location

namespace Arena
variable {a b : Arena α}

theorem assignEach_layout (bindings : List (Binding α)) (a : Arena α) (id : LocationId) :
    ((a.assignEach bindings).2.get? id).map (fun (l : Location α) => l.payload.layout) =
      (a.get? id).map fun (l : Location α) => l.payload.layout := by
  induction bindings generalizing a with
  | nil => rfl
  | cons b rest ih =>
    rw [assignEach, overwriteEach]
    cases done : a.overwrite b.name fun (old : Tensor α) => old.assign b.tensor with
    | error _ => rfl
    | ok a' =>
      refine (ih a').trans ?_
      cases found : a.find? b.name with
      | none => simp [overwrite, found] at done
      | some i =>
        obtain ⟨l, hl⟩ := find?_located found
        rw [overwrite_eq found hl] at done
        obtain ⟨k, copied, rfl⟩ := exists_of_map_eq_ok done
        by_cases own : i = id
        · subst own
          rw [get?_put_self a k (lt_size_of_get? hl), hl]
          exact congrArg some (Location.overwrite_assign_layout copied)
        · rw [get?_put_ne a k own]

/-- Bindings that are copied into peers have the same outcome, and where the peers hold what was there
before or what was copied, they hold what was copied. -/
theorem assignEach_again (bindings : List (Binding α)) {kept : LocationId → Prop} (peers : b.Peers a)
    (h : ∀ l, kept l → b.get? l = a.get? l ∨ b.get? l = (a.assignEach bindings).2.get? l) :
    (b.assignEach bindings).1 = (a.assignEach bindings).1 ∧
      ∀ l, kept l → (b.assignEach bindings).2.get? l = (a.assignEach bindings).2.get? l := by
  induction bindings generalizing a b with
  | nil => exact ⟨rfl, fun l is => (h l is).elim id id⟩
  | cons c rest ih =>
    have layouts := assignEach_layout (c :: rest) a
    simp only [assignEach, overwriteEach] at h layouts ⊢
    cases found : a.find? c.name with
    | none =>
      have missing := (peers.find? c.name).trans found
      simp only [overwrite, found, missing] at h ⊢
      exact ⟨trivial, fun l is => (h l is).elim id id⟩
    | some i =>
      have found' := (peers.find? c.name).trans found
      obtain ⟨l, hl⟩ := find?_located found
      obtain ⟨k, hk, same⟩ := peers.symm.get? hl
      have both := Location.overwrite_assign_parallel same.symm c.tensor
      -- where nothing else has been stored, both copies are the same
      have equal : kept i → (k.overwrite fun (old : Tensor α) => old.assign c.tensor) =
          l.overwrite fun (old : Tensor α) => old.assign c.tensor := by
        intro is
        refine Location.overwrite_assign_congr same.symm ?_ c.tensor
        rcases h i is with before | after
        · rw [hk, hl, Option.some.injEq] at before
          rw [before]
        · have layout := layouts i
          rw [← after, hk, hl] at layout
          exact Option.some.inj layout
      rw [overwrite_eq found hl] at h ⊢
      rw [overwrite_eq found' hk]
      cases copied : l.overwrite fun (old : Tensor α) => old.assign c.tensor with
      | error e =>
        rw [copied] at both h
        generalize (k.overwrite fun (old : Tensor α) => old.assign c.tensor) = r at both
        cases both
        exact ⟨rfl, fun j is => (h j is).elim id id⟩
      | ok l' =>
        rw [copied] at both h equal
        cases copied' : k.overwrite fun (old : Tensor α) => old.assign c.tensor with
        | error e =>
          rw [copied'] at both
          cases both
        | ok k' =>
          rw [copied'] at equal
          have left := Location.overwrite_peers (fun _ _ => Tensor.assign_type) copied
          have right := Location.overwrite_peers (fun _ _ => Tensor.assign_type) copied'
          refine ih (((Peers.refl b).put hk right).trans
            (peers.trans ((Peers.refl a).put hl left).symm)) fun j is => ?_
          by_cases own : i = j
          · subst own
            rw [get?_put_self b k' (lt_size_of_get? hk), get?_put_self a l' (lt_size_of_get? hl)]
            exact .inl (congrArg some (Except.ok.inj (equal is)))
          · have kept := h j is
            rw [get?_put_ne b k' own, get?_put_ne a l' own]
            exact kept

/-- What was copied is copied again, also where something else has been stored since. -/
theorem assignEach_twice (bindings : List (Binding α)) (kept : LocationId → Prop) (peers : b.Peers a)
    (same : ∀ l, kept l → b.get? l = (a.assignEach bindings).2.get? l) :
    (b.assignEach bindings).1 = (a.assignEach bindings).1 ∧
      ∀ l, kept l → (b.assignEach bindings).2.get? l = (a.assignEach bindings).2.get? l :=
  assignEach_again bindings peers fun l is => .inr (same l is)

end Arena

/-! ## Units that are run again -/

namespace Engine
variable {e : Engine α} {u : CompiledGraph α} {w : Arena α} {bindings : List (Binding α)}

/-- After a run that has come to its program, the same run has the same outcome and leaves the same. -/
theorem run_ran {a : Arena α} (active : e.active = some u.mode) (verified : u.program.verify w = .ok ())
    (inferential : u.program.Inferential)
    (checked : e.checkBindings (fun (target source : TensorType α) => source == target) bindings = .ok ())
    (copied : e.store.arena.assignEach bindings = (.ok (), a)) :
    ((run bindings).run.run ((e.withArena a).ran u (u.program.run a))).1 = outcome (u.program.run a) ∧
      (((e.withArena a).ran u (u.program.run a)).after (run bindings)).store =
        ((e.withArena a).ran u (u.program.run a)).store := by
  have peers : a.Peers e.store.arena := by
    have copying := Arena.assignEach_peers bindings e.store.arena
    rwa [copied] at copying
  have ran : (u.program.run a).memory.Peers (u.program.memory a) := execute_peers _ _
  have left := store_ran (e.withArena a) u (u.program.run a)
  have arena : ((e.withArena a).ran u (u.program.run a)).store.arena =
    (u.program.run a).memory.weights := congrArg WeightStorage.arena left
  have again := run_run (e := (e.withArena a).ran u (u.program.run a))
    ((active_ran _ u _).trans active) (compiled?_ran _ u _) bindings
  rw [checkBindings_peers bindings (e := e) (arena ▸ ran.weights.trans peers), checked, arena] at again
  -- the bindings are copied over what the program has left, the rest of which it has not stored in
  obtain ⟨result, same⟩ := Arena.assignEach_twice bindings (fun l => .weight l ∉
    writtenBy (u.program.instructions.toList.take (u.program.run a).executed)) (ran.weights.trans peers)
    fun l unwritten => copied ▸ Program.run_frame inferential verified unwritten
  have peers' := Arena.assignEach_peers bindings (u.program.run a).memory.weights
  rw [copied] at result same
  generalize (u.program.run a).memory.weights.assignEach bindings = copied' at again result same peers'
  obtain ⟨result', b⟩ := copied'
  obtain rfl : result' = .ok () := result
  obtain ⟨failure, weights⟩ :=
    Program.run_again (a := a) (b := b) inferential verified (peers'.trans ran.weights) same
  rw [after, again]
  dsimp only
  refine ⟨by rw [outcome, outcome, failure], ?_⟩
  rw [store_ran, weights]
  exact congrArg (fun (s : WeightStorage α) => s.withArena (u.program.run a).memory.weights) left
    |>.trans left.symm

/-- A unit that updates nothing and reads no weight that it writes does the same when it is run again with
the same bindings, also after a run that failed. -/
theorem run_again (active : e.active = some u.mode) (found : e.compiled? u.mode = some u)
    (verified : u.program.verify w = .ok ()) (inferential : u.program.Inferential)
    (bindings : List (Binding α)) :
    ((run bindings).run.run (e.after (run bindings))).1 = ((run bindings).run.run e).1 ∧
      ((e.after (run bindings)).after (run bindings)).store = (e.after (run bindings)).store := by
  have first := run_run active found bindings
  rw [after, after]
  cases checked : e.checkBindings (fun (target source : TensorType α) => source == target) bindings with
  | error error =>
    rw [checked] at first
    rw [first]
    dsimp only
    rw [first]
    exact ⟨rfl, rfl⟩
  | ok _ =>
    cases copied : e.store.arena.assignEach bindings with
    | mk result a =>
      rw [checked, copied] at first
      rw [first]
      cases result with
      | ok _ => exact run_ran active verified inferential checked copied
      | error error =>
        have peers := Arena.assignEach_peers bindings e.store.arena
        rw [copied] at peers
        obtain ⟨result, same⟩ := Arena.assignEach_twice bindings (fun _ => True) peers
          fun _ _ => by rw [copied]
        rw [copied] at result same
        have copied' : (e.withArena a).store.arena.assignEach bindings = (.error error, a) :=
          Prod.ext result (Arena.ext_get? fun id => same id trivial)
        dsimp only
        rw [run_run (e := e.withArena a) active ((compiled?_withArena e a u.mode).trans found), copied',
          checkBindings_peers bindings peers, checked]
        exact ⟨rfl, rfl⟩

end Engine

/-- A verified program does not depend on what its activations hold when it starts.  Hence, if it updates
nothing and reads no weight that it writes, a unit of it may run twice with the same bindings and leaves
what it left at first. -/
theorem Program.run_forgets {p : Program α} {w : Arena α} (verified : p.verify w = .ok ()) :
    (∀ weights a b : Arena α, a.Peers b →
      RunsSame p.instructions.toList (⟨a, weights⟩ : Memory α) ⟨b, weights⟩) ∧
    (p.Inferential → ∀ (e : Engine α) (u : CompiledGraph α), u.program = p → e.active = some u.mode →
      e.compiled? u.mode = some u → ∀ bindings : List (Binding α),
        ((Engine.run bindings).run.run (e.after (Engine.run bindings))).1 =
            ((Engine.run bindings).run.run e).1 ∧
          ((e.after (Engine.run bindings)).after (Engine.run bindings)).store =
            (e.after (Engine.run bindings)).store) := by
  refine ⟨fun weights a b peers => Program.runsSame verified peers weights, ?_⟩
  rintro inferential e u rfl active found bindings
  exact Engine.run_again active found verified inferential bindings

/-! ## A product that is saved -/

section
open Engine

/-- The unit that saves the product has been compiled. -/
def scaleEngine : Engine Int := relayEngine.after (compile .infer ⟨0⟩)

def scaleBindings : List (Binding Int) := [⟨"x", .full (.float [1, 1]) 2⟩]

/-- What an engine has in the variable that the product is saved in. -/
def savedProduct (e : Engine Int) : Option Int :=
  (e.read "scaled").toOption.map fun (t : Tensor Int) => t.array.get 0

/-- What activations hold at first. -/
def leadingValue (a : Arena Int) : Option Int :=
  (a.get? ⟨0⟩).map fun (l : Location Int) => l.payload.array.get 0

/-- What can be checked of the unit by running it: it is verified and inferential, and its run from other
weights changes its activation. -/
def scaleChecks (u : CompiledGraph Int) (weights : Arena Int) : Bool :=
  u.mode == .infer && (u.program.verify scaleEngine.store.arena).isOk &&
    (u.program.instructions.toList.all fun (i : Instruction Int) => i.kind.name != "sgd" &&
      u.program.instructions.toList.all fun (j : Instruction Int) =>
        i.written.all fun (v : Value) => v.isActivation || !j.reads v) &&
    leadingValue u.program.activations == some 0 &&
    leadingValue (u.program.run weights).memory.activations == some 6

/-- The unit runs in the same way from the activations that an earlier run has left.  The first run saves
the product, and the second one changes nothing. -/
theorem scaleEngine_run_forgets : ∃ (u : CompiledGraph Int) (b : Arena Int),
    scaleEngine.compiled? .infer = some u ∧ b ≠ u.program.activations ∧
      RunsSame u.program.instructions.toList (u.program.memory scaleEngine.store.arena)
        ⟨b, scaleEngine.store.arena⟩ ∧
      savedProduct scaleEngine = some 0 ∧
      savedProduct (scaleEngine.after (run scaleBindings)) = some 6 ∧
      ((scaleEngine.after (run scaleBindings)).after (run scaleBindings)).store =
        (scaleEngine.after (run scaleBindings)).store := by
  have checks : (scaleEngine.infer.any fun (u : CompiledGraph Int) =>
      scaleChecks u (scaleEngine.store.arena.assignEach scaleBindings).2) = true := by decide +kernel
  simp only [Option.any_eq_true, scaleChecks, Bool.and_eq_true, List.all_eq_true, beq_iff_eq, bne_iff_ne,
    Bool.or_eq_true, Bool.not_eq_true'] at checks
  obtain ⟨u, found, ⟨⟨⟨mode, accepted⟩, instructions⟩, zero⟩, six⟩ := checks
  have inferential : u.program.Inferential := by
    refine ⟨fun i hi rule same => (instructions i hi).1 (by rw [same]; rfl), fun i hi j hj l written => ?_⟩
    exact ((instructions i hi).2 j hj _ written).resolve_left (by simp [Value.isActivation])
  obtain ⟨same, again⟩ := Program.run_forgets (eq_ok_of_isOk accepted)
  refine ⟨u, _, found, fun equal => ?_, same _ _ _ (execute_peers u.program.instructions.toList
    (u.program.memory (scaleEngine.store.arena.assignEach scaleBindings).2)).activations.symm,
    by decide +kernel, by decide +kernel, ?_⟩
  · have differ := congrArg leadingValue equal
    rw [zero] at differ
    cases six.symm.trans differ
  · have active : scaleEngine.active = some .infer := by decide +kernel
    exact (again inferential scaleEngine u rfl (mode ▸ active) (mode ▸ found) scaleBindings).2

end
end NeuralGraph
