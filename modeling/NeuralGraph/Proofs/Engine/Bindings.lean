import NeuralGraph.Engine
import NeuralGraph.Proofs.Module.Typing
import NeuralGraph.Proofs.Storage.Contents
import NeuralGraph.Proofs.Yields

/-!
# What bindings do

Whether bindings are accepted depends on the names, tags and types of locations, and copying them changes
contents only.  `Arena.overwriteEach` is what copying does to the weights; nothing else of an engine
matters to it.
-/

namespace NeuralGraph
set_option autoImplicit false
variable {α : Type}

/-! ## Copying into an arena -/

namespace Arena
variable {a b : Arena α}

theorem find?_named {name : String} {id : LocationId} {l : Location α} (h : a.find? name = some id)
    (located : a.get? id = some l) : l.name = name := by
  obtain ⟨i, hi, rfl⟩ := Option.map_eq_some_iff.mp h
  obtain ⟨bound, same, -⟩ := Array.findIdx?_eq_some_iff_getElem.mp hi
  rw [Arena.get?, Array.getElem?_eq_getElem bound, Option.some.injEq] at located
  exact located ▸ beq_iff_eq.mp same

theorem find?_located {name : String} {id : LocationId} (h : a.find? name = some id) :
    ∃ l, a.get? id = some l := by
  obtain ⟨i, hi, rfl⟩ := Option.map_eq_some_iff.mp h
  obtain ⟨bound, -⟩ := Array.findIdx?_eq_some_iff_getElem.mp hi
  exact ⟨_, Array.getElem?_eq_getElem bound⟩

/-- The arena with other contents for the location called `name`. -/
def overwrite (a : Arena α) (name : String)
    (f : Tensor α → Except (TensorFault α) (Tensor α)) : Except (Error α) (Arena α) :=
  match a.find? name with
  | none => .error (.unknownLocation (.name name))
  | some id => a.update id fun (l : Location α) => l.overwrite f

theorem overwrite_eq {name : String} {id : LocationId} {l : Location α}
    (found : a.find? name = some id) (hl : a.get? id = some l)
    (f : Tensor α → Except (TensorFault α) (Tensor α)) :
    a.overwrite name f = (l.overwrite f).map (a.put id) := by
  rw [overwrite, found]
  simp only [update, get, hl, bind, Except.bind]
  cases l.overwrite f <;> rfl

/-- Changes what the location of each binding holds, up to the first change that is refused. -/
def overwriteEach (f : Binding α → Tensor α → Except (TensorFault α) (Tensor α)) :
    List (Binding α) → Arena α → Except (Error α) Unit × Arena α
  | [], a => (.ok (), a)
  | b :: rest, a =>
    match a.overwrite b.name (f b) with
    | .ok a' => overwriteEach f rest a'
    | .error error => (.error error, a)

end Arena

/-- New contents of the type of the old ones. -/
def KeepsType (f : Tensor α → Except (TensorFault α) (Tensor α)) : Prop :=
  ∀ old t, f old = .ok t → t.type = old.type

theorem Location.overwrite_peers {f : Tensor α → Except (TensorFault α) (Tensor α)}
    (keeps : KeepsType f) {l k : Location α} (h : l.overwrite f = .ok k) : k.Peers l := by
  rw [Location.overwrite] at h
  split at h
  · next t ht =>
    cases h
    exact .withPayload l (keeps _ t ht)
  · cases h

namespace Arena
variable {a b : Arena α} {name : String} {f : Binding α → Tensor α → Except (TensorFault α) (Tensor α)}

theorem overwrite_peers {g : Tensor α → Except (TensorFault α) (Tensor α)} (keeps : KeepsType g)
    (h : a.overwrite name g = .ok b) : b.Peers a := by
  rw [overwrite] at h
  split at h
  · cases h
  · exact update_peers (fun _ _ => Location.overwrite_peers keeps) h

theorem overwriteEach_peers (keeps : ∀ b, KeepsType (f b)) (bindings : List (Binding α)) (a : Arena α) :
    (a.overwriteEach f bindings).2.Peers a := by
  induction bindings generalizing a with
  | nil => exact .refl a
  | cons b rest ih =>
    rw [overwriteEach]
    cases done : a.overwrite b.name (f b) with
    | error _ => exact .refl a
    | ok a' => exact (ih a').trans (overwrite_peers (keeps b) done)

variable [Scalar α]

/-- What copying bindings does. -/
def assignEach (bindings : List (Binding α)) (a : Arena α) : Except (Error α) Unit × Arena α :=
  a.overwriteEach (fun b old => old.assign b.tensor) bindings

theorem assignEach_peers (bindings : List (Binding α)) (a : Arena α) :
    (a.assignEach bindings).2.Peers a :=
  overwriteEach_peers (fun _ _ _ => Tensor.assign_type) bindings a

theorem assignEach_succeeds [PartialEquivBEq α] {bindings : List (Binding α)}
    (accepted : ∀ b ∈ bindings, ∃ l, a.named? b.name = some l ∧ (b.tensor.type == l.type) = true) :
    ∃ a', a.assignEach bindings = (.ok (), a') := by
  induction bindings generalizing a with
  | nil => exact ⟨a, rfl⟩
  | cons b rest ih =>
    obtain ⟨l, named, same⟩ := accepted b List.mem_cons_self
    obtain ⟨id, found, located⟩ := Option.bind_eq_some_iff.mp named
    obtain ⟨t, assigned⟩ : ∃ t, l.payload.assign b.tensor = .ok t :=
      ⟨_, dif_pos (PartialEquivBEq.symm same)⟩
    have copied : a.overwrite b.name (fun (old : Tensor α) => old.assign b.tensor) =
        .ok (a.put id { l with payload := t }) := by
      rw [overwrite_eq found located, Location.overwrite, assigned]
      rfl
    have peers := overwrite_peers (fun _ _ => Tensor.assign_type) copied
    have later : ∀ b' ∈ rest, ∃ k, (a.put id { l with payload := t }).named? b'.name = some k ∧
        (b'.tensor.type == k.type) = true := by
      intro b' hb'
      obtain ⟨l', named', same'⟩ := accepted b' (List.mem_cons_of_mem _ hb')
      have related := peers.named? b'.name
      rw [named'] at related
      generalize (a.put id { l with payload := t }).named? b'.name = found' at related
      cases related with
      | some alike => exact ⟨_, rfl, by rw [alike.type]; exact same'⟩
    obtain ⟨a', done⟩ := ih later
    exact ⟨a', by rw [assignEach, overwriteEach, copied]; exact done⟩

end Arena

/-! ## Copying into an engine -/

namespace Engine
variable {e e' : Engine α} {name : String} {bindings : List (Binding α)}

theorem overwrite_eq_map (e : Engine α) (name : String)
    (f : Tensor α → Except (TensorFault α) (Tensor α)) :
    e.overwrite name f = (e.store.arena.overwrite name f).map e.withArena := by
  rw [overwrite, Arena.overwrite]
  cases e.store.arena.find? name with
  | none => rfl
  | some id =>
    cases h : e.store.arena.update id fun (l : Location α) => l.overwrite f <;>
      simp only [h, Except.map, bind, Except.bind]

theorem run_overwrite (e : Engine α) (name : String)
    (f : Tensor α → Except (TensorFault α) (Tensor α)) :
    (attempt fun (e : Engine α) => do
      let e' ← e.overwrite name f
      .ok (e', ())).run.run e =
      match e.store.arena.overwrite name f with
      | .ok a => (.ok (), e.withArena a)
      | .error error => (.error error, e) := by
  simp only [attempt, carry, ExceptT.run_mk, StateT.run, overwrite_eq_map]
  cases e.store.arena.overwrite name f <;> rfl

variable [Scalar α]

/-- Bindings change nothing but the arena, and depend on nothing else. -/
theorem run_bindAll (bindings : List (Binding α)) (e : Engine α) :
    (bindAll bindings).run.run e =
      ((e.store.arena.assignEach bindings).1, e.withArena (e.store.arena.assignEach bindings).2) := by
  induction bindings generalizing e with
  | nil => rfl
  | cons b rest ih =>
    rw [bindAll, run_bind, run_overwrite, Arena.assignEach, Arena.overwriteEach]
    cases e.store.arena.overwrite b.name fun (old : Tensor α) => old.assign b.tensor with
    | error _ => rfl
    | ok a => exact ih (e.withArena a)

theorem run_bindRows (iteration : Nat) (bindings : List (Binding α)) (e : Engine α) :
    (bindRows iteration bindings).run.run e =
      let r := e.store.arena.overwriteEach (fun b old =>
        old.assignRows b.tensor (iteration * old.type.rows % b.tensor.type.rows)) bindings
      (r.1, e.withArena r.2) := by
  induction bindings generalizing e with
  | nil => rfl
  | cons b rest ih =>
    rw [bindRows, run_bind, run_overwrite, Arena.overwriteEach]
    cases e.store.arena.overwrite b.name fun (old : Tensor α) =>
      old.assignRows b.tensor (iteration * old.type.rows % b.tensor.type.rows) with
    | error _ => rfl
    | ok a => exact ih (e.withArena a)

omit [Scalar α] in
theorem exposed_eq_ok_iff {access : Access} {l : Location α} : e.exposed name access = .ok l ↔
    e.store.arena.named? name = some l ∧ l.isExposed = true := by
  rw [exposed]
  cases e.store.arena.named? name with
  | none => simp
  | some k =>
    cases exposed : k.isExposed with
    | false =>
      simp only [exposed, Bool.false_eq_true, if_false, reduceCtorEq, Option.some.injEq, false_iff]
      rintro ⟨rfl, is⟩
      cases exposed.symm.trans is
    | true =>
      simp only [exposed, if_true, Except.ok.injEq, Option.some.injEq]
      exact ⟨fun same => ⟨same, same ▸ exposed⟩, And.left⟩

omit [Scalar α] in
theorem checkBindings_iff {accepts : TensorType α → TensorType α → Bool} :
    e.checkBindings accepts bindings = .ok () ↔ ∀ b ∈ bindings, ∃ l,
      e.store.arena.named? b.name = some l ∧ l.isExposed = true ∧
        accepts l.type b.tensor.type = true := by
  induction bindings with
  | nil => simp [checkBindings]
  | cons b rest ih =>
    rw [checkBindings, List.forall_mem_cons, ← ih, exposed]
    cases e.store.arena.named? b.name with
    | none => simp [bind, Except.bind]
    | some l =>
      cases exposed : l.isExposed <;> cases h : accepts l.type b.tensor.type <;>
        simp [bind, Except.bind, h, exposed]

omit [Scalar α] in
/-- Whether bindings are accepted does not depend on contents. -/
theorem checkBindings_peers {accepts : TensorType α → TensorType α → Bool}
    (bindings : List (Binding α)) (peers : e'.store.arena.Peers e.store.arena) :
    e'.checkBindings accepts bindings = e.checkBindings accepts bindings := by
  induction bindings with
  | nil => rfl
  | cons b rest ih =>
    have named := peers.named? b.name
    rw [checkBindings, checkBindings, exposed, exposed]
    generalize e'.store.arena.named? b.name = l, e.store.arena.named? b.name = k at named
    cases named with
    | none => rfl
    | @some l k same =>
      simp only [same.isExposed]
      cases k.isExposed with
      | false => rfl
      | true => simp only [if_true, bind, Except.bind, same.type, ih]

end Engine
end NeuralGraph
