import NeuralGraph.Proofs.Program.Growth

/-!
# More weights than a program names

The weights that an instruction names have numbers below the size of the arena that it was accepted for.
So a run over weights with more locations at their end does what it does without them, and leaves the
additional ones as they are.
-/

namespace NeuralGraph
set_option autoImplicit false
variable {α : Type}

/-! ## Arenas -/

namespace Arena
variable {a b : Arena α}

/-- The arena with more locations at its end. -/
def append (a : Arena α) (more : Array (Location α)) : Arena α := ⟨a.locations ++ more⟩

theorem get?_append {id : LocationId} (h : id.index < a.size) (more : Array (Location α)) :
    (a.append more).get? id = a.get? id := Array.getElem?_append_left h

theorem get_append {id : LocationId} (h : id.index < a.size) (more : Array (Location α)) :
    (a.append more).get id = a.get id := by
  rw [get, get, get?_append h]

theorem put_append {id : LocationId} (h : id.index < a.size) (l : Location α)
    (more : Array (Location α)) : (a.append more).put id l = (a.put id l).append more :=
  congrArg Arena.mk (Array.setIfInBounds_append_left h)

theorem find?_append {name : String} {id : LocationId} (h : a.find? name = some id)
    (more : Array (Location α)) : (a.append more).find? name = some id := by
  obtain ⟨i, hi, rfl⟩ := Option.map_eq_some_iff.mp h
  rw [find?, append, Array.findIdx?_append, hi, Option.some_or]
  rfl

theorem named?_append {name : String} {l : Location α} (h : a.named? name = some l)
    (more : Array (Location α)) : (a.append more).named? name = some l := by
  obtain ⟨id, found, located⟩ := Option.bind_eq_some_iff.mp h
  rw [named?, find?_append found, Option.bind_some, get?_append (lt_size_of_get? located), located]

theorem Covers.size_le (h : a.Covers b) : b.size ≤ a.size := by
  rcases Nat.eq_zero_or_pos b.size with none | some
  · exact none ▸ Nat.zero_le _
  · have last : b.size - 1 < b.locations.size := Nat.sub_lt some Nat.one_pos
    obtain ⟨k, hk, -⟩ := h ⟨b.size - 1⟩ _ (Array.getElem?_eq_getElem last)
    exact Nat.le_of_pred_lt (lt_size_of_get? hk)

theorem Peers.size_eq (h : a.Peers b) : a.size = b.size :=
  Nat.le_antisymm h.symm.covers.size_le h.covers.size_le

end Arena

/-! ## Values in reach -/

/-- The value is an activation, or one of the first `size` weights. -/
def Value.IsWithin (size : Nat) : Value → Prop
  | .weight id => id.index < size
  | .activation _ => True

theorem Value.IsWithin.mono {v : Value} {size size' : Nat} (h : v.IsWithin size) (le : size ≤ size') :
    v.IsWithin size' := by
  cases v with
  | weight id => exact Nat.lt_of_lt_of_le h le
  | activation id => trivial

theorem Value.IsWithin.of_located {v : Value} {m : Memory α} {l : Location α}
    (h : m.locate? v = some l) : v.IsWithin m.weights.size := by
  cases v with
  | weight id => exact Arena.lt_size_of_get? h
  | activation id => trivial

namespace Memory
variable {m : Memory α} {v : Value}

/-- The memory with more weights. -/
def append (m : Memory α) (more : Array (Location α)) : Memory α :=
  { m with weights := m.weights.append more }

theorem locate_append (h : v.IsWithin m.weights.size) (more : Array (Location α)) :
    (m.append more).locate v = m.locate v := by
  cases v with
  | weight id => exact Arena.get_append h more
  | activation id => rfl

theorem put_append (h : v.IsWithin m.weights.size) (l : Location α) (more : Array (Location α)) :
    (m.append more).put v l = (m.put v l).append more := by
  cases v with
  | weight id => exact congrArg (Memory.mk m.activations) (Arena.put_append h l more)
  | activation id => rfl

end Memory

/-! ## Instructions -/

variable [Scalar α]

namespace Instruction
variable {i : Instruction α} {m : Memory α}

/-- All operands are in reach. -/
def IsWithin (size : Nat) (i : Instruction α) : Prop := ∀ o ∈ i.operands, o.value.IsWithin size

omit [Scalar α] in
theorem IsWithin.mono {size size' : Nat} (h : i.IsWithin size) (le : size ≤ size') :
    i.IsWithin size' := fun o ho => (h o ho).mono le

omit [Scalar α] in
theorem IsWithin.written {size : Nat} (h : i.IsWithin size) {v : Value} (hv : v ∈ i.written) :
    v.IsWithin size := by
  obtain ⟨o, ho, rfl⟩ := List.mem_map.mp hv
  exact h o (List.mem_filter.mp ho).1

omit [Scalar α] in
theorem mapM_locate_append {os : List Operand} (within : ∀ o ∈ os, o.value.IsWithin m.weights.size)
    (more : Array (Location α)) : os.mapM (fun (o : Operand) => (m.append more).locate o.value) =
      os.mapM fun (o : Operand) => m.locate o.value := by
  induction os with
  | nil => rfl
  | cons o os ih =>
    rw [List.mapM_cons, List.mapM_cons, Memory.locate_append (within o List.mem_cons_self),
      ih fun p hp => within p (List.mem_cons_of_mem _ hp)]

theorem evaluate_append (within : i.IsWithin m.weights.size) (more : Array (Location α)) :
    i.evaluate (m.append more) = i.evaluate m := by
  rw [evaluate, evaluate, mapM_locate_append within]

theorem store_append {v : Value} (within : v.IsWithin m.weights.size) (a : PlacedArray α)
    (more : Array (Location α)) :
    i.store (m.append more) v a = (i.store m v a).map fun (m' : Memory α) => m'.append more := by
  rw [store, store, Memory.locate_append within]
  cases m.locate v with
  | error e => rfl
  | ok l =>
    simp only [bind, Except.bind]
    split
    · rfl
    · split
      · rw [Memory.put_append within]
        rfl
      · rfl

theorem storeAll_append {results : List (Value × PlacedArray α)}
    (within : ∀ r ∈ results, r.1.IsWithin m.weights.size) (more : Array (Location α)) :
    i.storeAll results (m.append more) =
      ((i.storeAll results m).1.append more, (i.storeAll results m).2) := by
  induction results generalizing m with
  | nil => rfl
  | cons r results ih =>
    rw [storeAll, storeAll, store_append (within r List.mem_cons_self)]
    cases stored : i.store m r.1 r.2 with
    | error e => rfl
    | ok m' =>
      have size := (store_peers stored).weights.size_eq
      exact ih fun q hq => size ▸ within q (List.mem_cons_of_mem _ hq)

theorem step_append (within : i.IsWithin m.weights.size) (more : Array (Location α)) :
    i.step (m.append more) = ((i.step m).1.append more, (i.step m).2) := by
  rw [step, step, evaluate_append within]
  cases i.evaluate m with
  | error e => rfl
  | ok arrays => exact storeAll_append (fun r hr => within.written (List.of_mem_zip hr).1) more

end Instruction

/-! ## Runs -/

/-- The run over more weights. -/
def Run.append (r : Run α) (more : Array (Location α)) : Run α :=
  { r with memory := r.memory.append more }

theorem execute_over_append {is : List (Instruction α)} {m : Memory α}
    (within : ∀ i ∈ is, i.IsWithin m.weights.size) (more : Array (Location α)) :
    execute is (m.append more) = (execute is m).append more := by
  induction is generalizing m with
  | nil => rfl
  | cons i is ih =>
    have size := (i.step_peers m).weights.size_eq
    rw [execute, execute, Instruction.step_append (within i List.mem_cons_self)]
    generalize i.step m = r at size
    obtain ⟨m', failure⟩ := r
    cases failure with
    | some e => rfl
    | none =>
      dsimp only
      rw [ih fun j hj => size ▸ within j (List.mem_cons_of_mem _ hj)]
      rfl

namespace Program
variable {p : Program α} {a : Arena α}

/-- All instructions are in reach. -/
def IsWithin (size : Nat) (p : Program α) : Prop := ∀ i ∈ p.instructions, i.IsWithin size

theorem run_append (within : p.IsWithin a.size) (more : Array (Location α)) :
    p.run (a.append more) = (p.run a).append more :=
  execute_over_append (m := p.memory a) (fun i hi => within i (Array.mem_toList_iff.mp hi)) more

end Program
end NeuralGraph
