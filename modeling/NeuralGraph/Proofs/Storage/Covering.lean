import NeuralGraph.Storage.Arena

/-!
# Covering

A memory covers another if it has every location of it under the same name, with the same mutability
and the same type; what the locations hold does not matter.  Memories that programs run in cover the
memory they were made for: nothing that runs changes more than contents.
-/

namespace NeuralGraph
set_option autoImplicit false
variable {α : Type}

/-- Equal but for visibility and contents. -/
structure Location.Alike (l k : Location α) : Prop where
  name : l.name = k.name
  mutability : l.mutability = k.mutability
  type : l.type = k.type

namespace Location.Alike

@[simp] theorem refl (l : Location α) : l.Alike l := ⟨rfl, rfl, rfl⟩

theorem trans {l k j : Location α} (h : l.Alike k) (h' : k.Alike j) : l.Alike j :=
  ⟨h.name.trans h'.name, h.mutability.trans h'.mutability, h.type.trans h'.type⟩

theorem isConstant {l k : Location α} (h : l.Alike k) : l.isConstant = k.isConstant := by
  simp only [Location.isConstant, h.mutability]

theorem withPayload (l : Location α) {t : Tensor α} (h : t.type = l.type) :
    Location.Alike { l with payload := t } l := ⟨rfl, rfl, h⟩

end Location.Alike

/-- Every location of `b` is one of `a`. -/
def Arena.Covers (a b : Arena α) : Prop :=
  ∀ (id : LocationId) (l : Location α), b.get? id = some l → ∃ k, a.get? id = some k ∧ k.Alike l

namespace Arena

@[simp] theorem Covers.refl (a : Arena α) : a.Covers a := fun _ l h => ⟨l, h, .refl l⟩

theorem Covers.trans {a b c : Arena α} (h : a.Covers b) (h' : b.Covers c) : a.Covers c := by
  intro id l hl
  obtain ⟨k, hk, hkl⟩ := h' id l hl
  obtain ⟨j, hj, hjk⟩ := h id k hk
  exact ⟨j, hj, hjk.trans hkl⟩

/-- What `insert` does: the location is put at the end, and its name was free. -/
theorem insert_eq_ok_iff {a b : Arena α} {l : Location α} {id : LocationId} :
    a.insert l = .ok (b, id) ↔
      a.find? l.name = none ∧ b = ⟨a.locations.push l⟩ ∧ id = ⟨a.size⟩ := by
  simp only [insert]
  cases a.find? l.name with
  | none => simp [eq_comm]
  | some _ => simp

theorem exists_of_update_eq_ok {a b : Arena α} {id : LocationId}
    {f : Location α → Except (Error α) (Location α)} (h : a.update id f = .ok b) :
    ∃ l k, a.get? id = some l ∧ f l = .ok k ∧ b = a.put id k := by
  simp only [update, get, bind, Except.bind] at h
  cases hl : a.get? id with
  | none => simp [hl] at h
  | some l =>
    simp only [hl] at h
    cases hk : f l with
    | error e => simp [hk] at h
    | ok k =>
      simp only [hk, Except.ok.injEq] at h
      exact ⟨l, k, rfl, hk, h.symm⟩

theorem get?_push (a : Arena α) (l : Location α) (id : LocationId) :
    (⟨a.locations.push l⟩ : Arena α).get? id = if id.index = a.size then some l else a.get? id := by
  simp only [get?, Array.getElem?_push]
  rfl

theorem get?_push_self (a : Arena α) (l : Location α) :
    (⟨a.locations.push l⟩ : Arena α).get? ⟨a.size⟩ = some l := by
  rw [get?_push, if_pos rfl]

theorem get?_push_of_some {a : Arena α} {l k : Location α} {id : LocationId}
    (h : a.get? id = some k) : (⟨a.locations.push l⟩ : Arena α).get? id = some k := by
  rw [get?_push, if_neg (Nat.ne_of_lt (lt_size_of_get? h)), h]

theorem covers_push (a : Arena α) (l : Location α) :
    (⟨a.locations.push l⟩ : Arena α).Covers a :=
  fun _ k hk => ⟨k, get?_push_of_some hk, .refl k⟩

/-- Whether a location of this name exists. -/
theorem find?_eq_none_iff {a : Arena α} {name : String} :
    a.find? name = none ↔ ∀ id l, a.get? id = some l → l.name ≠ name := by
  simp only [find?, Option.map_eq_none_iff, Array.findIdx?_eq_none_iff, beq_eq_false_iff_ne]
  constructor
  · intro h id l hl
    exact h l (Array.mem_of_getElem? hl)
  · intro h l hl
    obtain ⟨i, hi⟩ := Array.getElem?_of_mem hl
    exact h ⟨i⟩ l hi

/-- No two locations share a name. -/
def Distinct (a : Arena α) : Prop :=
  ∀ (i j : LocationId) (l k : Location α),
    a.get? i = some l → a.get? j = some k → l.name = k.name → i = j

theorem Distinct.empty : (Arena.empty : Arena α).Distinct := by
  intro i j l k hi
  simp [Arena.empty, get?] at hi

theorem Distinct.insert {a b : Arena α} {l : Location α} {id : LocationId} (distinct : a.Distinct)
    (h : a.insert l = .ok (b, id)) : b.Distinct := by
  obtain ⟨free, rfl, -⟩ := insert_eq_ok_iff.mp h
  have free := find?_eq_none_iff.mp free
  intro i j p q hi hj hpq
  rw [get?_push] at hi hj
  split at hi <;> split at hj
  · next h1 h2 => cases i; cases j; simp_all
  · cases hi
    exact absurd hpq.symm (free j q hj)
  · cases hj
    exact absurd hpq (free i p hi)
  · exact distinct i j p q hi hj hpq

/-- Where names are distinct, a location is found by its name. -/
theorem Distinct.find? {a : Arena α} (distinct : a.Distinct) {id : LocationId} {l : Location α}
    (h : a.get? id = some l) : a.find? l.name = some id := by
  cases hf : a.find? l.name with
  | none => exact absurd rfl (find?_eq_none_iff.mp hf id l h)
  | some j =>
    obtain ⟨i, hi, rfl⟩ := Option.map_eq_some_iff.mp hf
    obtain ⟨hlt, hname, -⟩ := Array.findIdx?_eq_some_iff_getElem.mp hi
    have hj : a.get? ⟨i⟩ = some a.locations[i] := Array.getElem?_eq_getElem hlt
    exact congrArg some (distinct ⟨i⟩ id _ l hj h (by simpa using hname))

/-- Locations that are replaced by similar ones stay covered. -/
theorem Covers.put {a b : Arena α} {id : LocationId} {l k : Location α} (h : a.Covers b)
    (hl : a.get? id = some l) (alike : k.Alike l) : (a.put id k).Covers b := by
  intro j p hp
  obtain ⟨q, hq, hqp⟩ := h j p hp
  by_cases e : id = j
  · subst e
    rw [hl] at hq
    cases hq
    exact ⟨k, get?_put_self a k (lt_size_of_get? hl), alike.trans hqp⟩
  · exact ⟨q, by rw [get?_put_ne a k e, hq], hqp⟩

end Arena

/-- Every location of `n` is one of `m`. -/
def Memory.Covers (m n : Memory α) : Prop :=
  ∀ (value : Value) (l : Location α),
    n.locate? value = some l → ∃ k, m.locate? value = some k ∧ k.Alike l

namespace Memory

theorem covers_iff {m n : Memory α} :
    m.Covers n ↔ m.activations.Covers n.activations ∧ m.weights.Covers n.weights := by
  constructor
  · exact fun h => ⟨fun id => h (.activation id), fun id => h (.weight id)⟩
  · rintro ⟨ha, hw⟩ (id | id) l hl
    · exact hw id l hl
    · exact ha id l hl

@[simp] theorem Covers.refl (m : Memory α) : m.Covers m := fun _ l h => ⟨l, h, .refl l⟩

theorem Covers.trans {m n o : Memory α} (h : m.Covers n) (h' : n.Covers o) : m.Covers o := by
  rw [covers_iff] at *
  exact ⟨h.1.trans h'.1, h.2.trans h'.2⟩

theorem Covers.put {m n : Memory α} {value : Value} {l k : Location α} (h : m.Covers n)
    (hl : m.locate? value = some l) (alike : k.Alike l) : (m.put value k).Covers n := by
  rw [covers_iff] at *
  cases value with
  | weight id => exact ⟨h.1, h.2.put hl alike⟩
  | activation id => exact ⟨h.1.put hl alike, h.2⟩

end Memory
end NeuralGraph
