import NeuralGraph.Proofs.Storage.Covering

/-!
# Storage that differs in contents

`Peers` are locations and arenas that are equal but for contents: programs and bindings change nothing
else.  `Memory.Agrees` says of two memories of this kind that some of their values hold the same.
-/

namespace NeuralGraph
set_option autoImplicit false
variable {α : Type}

/-! ## Locations -/

/-- Equal but for contents. -/
structure Location.Peers (l k : Location α) : Prop where
  name : l.name = k.name
  mutability : l.mutability = k.mutability
  visibility : l.visibility = k.visibility
  type : l.type = k.type

namespace Location.Peers
variable {l k j : Location α}

theorem refl (l : Location α) : l.Peers l := ⟨rfl, rfl, rfl, rfl⟩

theorem symm (h : l.Peers k) : k.Peers l :=
  ⟨h.name.symm, h.mutability.symm, h.visibility.symm, h.type.symm⟩

theorem trans (h : l.Peers k) (h' : k.Peers j) : l.Peers j :=
  ⟨h.name.trans h'.name, h.mutability.trans h'.mutability, h.visibility.trans h'.visibility,
    h.type.trans h'.type⟩

theorem isConstant (h : l.Peers k) : l.isConstant = k.isConstant := by
  rw [Location.isConstant, Location.isConstant, h.mutability]

theorem isExposed (h : l.Peers k) : l.isExposed = k.isExposed := by
  rw [Location.isExposed, Location.isExposed, h.visibility]

theorem alike (h : l.Peers k) : l.Alike k := ⟨h.name, h.mutability, h.type⟩

theorem eq_of_payload (h : l.Peers k) (same : l.payload = k.payload) : l = k := by
  obtain ⟨name, mutability, visibility, payload⟩ := l
  obtain ⟨rfl, rfl, rfl, -⟩ := h
  cases same
  rfl

theorem withPayload (l : Location α) {t : Tensor α} (h : t.type = l.type) :
    Location.Peers { l with payload := t } l := ⟨rfl, rfl, rfl, h⟩

end Location.Peers

/-! ## Arenas -/

/-- The same locations, with contents of their own. -/
def Arena.Peers (a b : Arena α) : Prop := ∀ id, Option.Rel Location.Peers (a.get? id) (b.get? id)

namespace Arena
variable {a b c : Arena α}

theorem Peers.refl (a : Arena α) : a.Peers a := by
  intro id
  cases a.get? id with
  | none => exact .none
  | some l => exact .some (.refl l)

theorem Peers.symm (h : a.Peers b) : b.Peers a := by
  intro id
  have rel := h id
  generalize a.get? id = l, b.get? id = k at rel
  cases rel with
  | none => exact .none
  | some peers => exact .some peers.symm

theorem Peers.trans (h : a.Peers b) (h' : b.Peers c) : a.Peers c := by
  intro id
  have first := h id
  have second := h' id
  generalize a.get? id = l, b.get? id = k, c.get? id = j at first second
  cases first with
  | none => exact second
  | some peers =>
    cases second with
    | some peers' => exact .some (peers.trans peers')

theorem Peers.get? (h : a.Peers b) {id : LocationId} {l : Location α} (hl : a.get? id = some l) :
    ∃ k, b.get? id = some k ∧ l.Peers k := by
  have rel := h id
  rw [hl] at rel
  generalize b.get? id = k at rel
  cases rel with
  | some peers => exact ⟨_, rfl, peers⟩

theorem Peers.covers (h : a.Peers b) : a.Covers b := by
  intro id l hl
  obtain ⟨k, hk, peers⟩ := h.symm.get? hl
  exact ⟨k, hk, peers.symm.alike⟩

theorem Peers.put {id : LocationId} {l k : Location α} (h : a.Peers b) (hl : a.get? id = some l)
    (peers : k.Peers l) : (a.put id k).Peers b := by
  intro j
  by_cases own : id = j
  · subst own
    obtain ⟨q, hq, peers'⟩ := h.get? hl
    rw [get?_put_self a k (lt_size_of_get? hl), hq]
    exact .some (peers.trans peers')
  · rw [get?_put_ne a k own]
    exact h j

theorem ext_get? (h : ∀ id, a.get? id = b.get? id) : a = b := by
  obtain ⟨xs⟩ := a
  obtain ⟨ys⟩ := b
  refine congrArg Arena.mk (Array.ext_getElem? fun i => h ⟨i⟩)

/-- Names are found at the same places. -/
theorem Peers.find? (h : a.Peers b) (name : String) : a.find? name = b.find? name := by
  have named : ∀ (i : Nat), (a.locations[i]?.map fun (l : Location α) => l.name == name) =
      b.locations[i]?.map fun (l : Location α) => l.name == name := by
    intro i
    have rel := h ⟨i⟩
    rw [Arena.get?, Arena.get?] at rel
    generalize a.locations[i]? = l, b.locations[i]? = k at rel ⊢
    cases rel with
    | none => rfl
    | some peers => simp only [Option.map_some, peers.name]
  have maps : a.locations.map (fun (l : Location α) => l.name == name) =
      b.locations.map fun (l : Location α) => l.name == name :=
    Array.ext_getElem? fun i => by simpa using named i
  have whole := congrArg (Array.findIdx? id) maps
  rw [Array.findIdx?_map, Array.findIdx?_map] at whole
  exact congrArg (Option.map LocationId.mk) whole

theorem Peers.named? (h : a.Peers b) (name : String) :
    Option.Rel Location.Peers (a.named? name) (b.named? name) := by
  rw [Arena.named?, Arena.named?, h.find? name]
  cases b.find? name with
  | none => exact .none
  | some id => exact h id

/-- A change that keeps all but the contents. -/
theorem update_peers {id : LocationId} {f : Location α → Except (Error α) (Location α)}
    (peers : ∀ l k, f l = .ok k → k.Peers l) (h : a.update id f = .ok b) : b.Peers a := by
  simp only [Arena.update, Arena.get, bind, Except.bind] at h
  cases hl : a.get? id with
  | none => simp [hl] at h
  | some l =>
    simp only [hl] at h
    cases hk : f l with
    | error error => simp [hk] at h
    | ok k =>
      simp only [hk, Except.ok.injEq] at h
      subst h
      exact (Peers.refl a).put hl (peers l k hk)

end Arena

/-! ## Memories -/

/-- The same locations in both arenas, with contents of their own. -/
structure Memory.Peers (m n : Memory α) : Prop where
  activations : m.activations.Peers n.activations
  weights : m.weights.Peers n.weights

namespace Memory.Peers
variable {m n o : Memory α}

theorem refl (m : Memory α) : m.Peers m := ⟨.refl _, .refl _⟩

theorem trans (h : m.Peers n) (h' : n.Peers o) : m.Peers o :=
  ⟨h.activations.trans h'.activations, h.weights.trans h'.weights⟩

theorem covers (h : m.Peers n) : m.Covers n := covers_iff.mpr ⟨h.activations.covers, h.weights.covers⟩

theorem put {v : Value} {l k : Location α} (h : m.Peers n) (hl : m.locate? v = some l)
    (peers : k.Peers l) : (m.put v k).Peers n := by
  cases v with
  | weight id => exact ⟨h.activations, h.weights.put hl peers⟩
  | activation id => exact ⟨h.activations.put hl peers, h.weights⟩

end Memory.Peers

/-- The same locations, where those in `known` hold the same. -/
def Memory.Agrees (known : Value → Prop) (m n : Memory α) : Prop :=
  ∀ v, Option.Rel (fun l k => l.Peers k ∧ (known v → l.payload = k.payload)) (m.locate? v)
    (n.locate? v)

namespace Memory
variable {known known' : Value → Prop} {m n : Memory α} {v : Value} {l k : Location α}

theorem Agrees.refl (m : Memory α) : m.Agrees known m := by
  intro v
  cases m.locate? v with
  | none => exact .none
  | some l => exact .some ⟨.refl l, fun _ => rfl⟩

theorem Agrees.mono (agrees : m.Agrees known n) (fewer : ∀ v, known' v → known v) :
    m.Agrees known' n := by
  intro v
  have rel := agrees v
  generalize m.locate? v = l, n.locate? v = k at rel
  cases rel with
  | none => exact .none
  | some h => exact .some ⟨h.1, fun is => h.2 (fewer v is)⟩

theorem Agrees.locate? (agrees : m.Agrees known n) (hl : m.locate? v = some l) :
    ∃ k, n.locate? v = some k ∧ l.Peers k ∧ (known v → l.payload = k.payload) := by
  have rel := agrees v
  rw [hl] at rel
  generalize n.locate? v = k at rel
  cases rel with
  | some h => exact ⟨_, rfl, h⟩

theorem Agrees.locate?_eq_none (agrees : m.Agrees known n) (hl : m.locate? v = none) :
    n.locate? v = none := by
  have rel := agrees v
  rw [hl] at rel
  generalize n.locate? v = k at rel
  cases rel with
  | none => rfl

/-- What known values hold is the same. -/
theorem Agrees.locate?_eq (agrees : m.Agrees known n) (is : known v) : m.locate? v = n.locate? v := by
  cases hl : m.locate? v with
  | none => exact (agrees.locate?_eq_none hl).symm
  | some l =>
    obtain ⟨k, hk, peers, same⟩ := agrees.locate? hl
    rw [hk, peers.eq_of_payload (same is)]

/-- Storing the same in a value makes it known. -/
theorem Agrees.put (agrees : m.Agrees known n) (hl : m.locate? v = some l)
    (hk : n.locate? v = some k) (t : Tensor α) :
    (m.put v { l with payload := t }).Agrees (fun w => known w ∨ w = v)
      (n.put v { k with payload := t }) := by
  obtain ⟨k', hk', peers, -⟩ := agrees.locate? hl
  obtain rfl := Option.some.inj (hk.symm.trans hk')
  intro w
  by_cases own : v = w
  · subst own
    rw [locate?_put_self m hl, locate?_put_self n hk]
    exact .some ⟨⟨peers.name, peers.mutability, peers.visibility, rfl⟩, fun _ => rfl⟩
  · rw [locate?_put_ne m _ own, locate?_put_ne n _ own]
    have rel := agrees w
    generalize m.locate? w = p, n.locate? w = q at rel ⊢
    cases rel with
    | none => exact .none
    | some h => exact .some ⟨h.1, fun is => h.2 (is.resolve_right fun same => own same.symm)⟩

end Memory
end NeuralGraph
