import NeuralGraph.Proofs.Program.Matching

/-!
# Programs that mirror each other

Two programs may compute the same in different activations.  `Program.Mirrors` says that from the same
weights they end with the same weights and with the same success or failing instruction;
`Program.Carried` says of two values that they hold the same tensor after every run that succeeds.  Both
are kept when matching instructions are pushed and activations are added.
-/

namespace NeuralGraph
set_option autoImplicit false
variable {α : Type}

/-- The same weights in the end, and the same success or failing instruction. -/
structure Run.Mirrors (r s : Run α) : Prop where
  weights : r.memory.weights = s.memory.weights
  executed : r.executed = s.executed
  failed : r.failure.isSome = s.failure.isSome

namespace Program

/-- Memories for two programs, with the same weights. -/
structure Shared (p q : Program α) (m n : Memory α) : Prop where
  left : m.activations.Covers p.activations
  right : n.activations.Covers q.activations
  weights : m.weights = n.weights

variable [Scalar α]

/-- The instructions are of the same kinds, and from the same weights the programs run alike. -/
structure Mirrors (p q : Program α) : Prop where
  kinds : p.instructions.toList.map Instruction.kind = q.instructions.toList.map Instruction.kind
  runs : ∀ m n, Shared p q m n →
    (execute p.instructions.toList m).Mirrors (execute q.instructions.toList n)

/-- Both programs have computed the values, and hold the same tensor there after every run. -/
structure Carried (p q : Program α) (v w : Value) : Prop where
  matched : Matched Location.Mates p.activations q.activations v w
  left : Instruction.isDefined p.defined v = true
  right : Instruction.isDefined q.defined w = true
  contents : ∀ m n, Shared p q m n → (execute p.instructions.toList m).failure = none →
    Matched Location.Copies (execute p.instructions.toList m).memory.activations
      (execute q.instructions.toList n).memory.activations v w

variable {p q p' q' : Program α} {m n : Memory α} {v w : Value}

theorem Mirrors.empty (name name' : String) : Mirrors (.empty name : Program α) (.empty name') :=
  ⟨rfl, fun _ _ shared => ⟨shared.weights, rfl, rfl⟩⟩

theorem Mirrors.symm (h : p.Mirrors q) : q.Mirrors p := by
  refine ⟨h.kinds.symm, fun m n shared => ?_⟩
  obtain ⟨weights, executed, failed⟩ := h.runs n m ⟨shared.right, shared.left, shared.weights.symm⟩
  exact ⟨weights.symm, executed.symm, failed.symm⟩

theorem Mirrors.trans {r : Program α} (h : p.Mirrors q) (h' : q.Mirrors r) : p.Mirrors r := by
  refine ⟨h.kinds.trans h'.kinds, fun m n shared => ?_⟩
  -- the run of the program between them starts with its own activations
  obtain ⟨weights, executed, failed⟩ := h.runs m ⟨q.activations, m.weights⟩
    ⟨shared.left, .refl _, rfl⟩
  obtain ⟨weights', executed', failed'⟩ := h'.runs ⟨q.activations, m.weights⟩ n
    ⟨.refl _, shared.right, shared.weights⟩
  exact ⟨weights.trans weights', executed.trans executed', failed.trans failed'⟩

omit [Scalar α] in
theorem Shared.mono (shared : Shared p' q' m n) (left : p'.activations.Covers p.activations)
    (right : q'.activations.Covers q.activations) : Shared p q m n :=
  ⟨shared.left.trans left, shared.right.trans right, shared.weights⟩

/-- Activations that are added do not matter. -/
theorem Mirrors.widen (h : p.Mirrors q) (left : p'.activations.Covers p.activations)
    (right : q'.activations.Covers q.activations) (same : p'.instructions = p.instructions)
    (same' : q'.instructions = q.instructions) : p'.Mirrors q' := by
  refine ⟨by rw [same, same', h.kinds], fun m n shared => ?_⟩
  rw [same, same']
  exact h.runs m n (shared.mono left right)

theorem Carried.widen (h : p.Carried q v w) (left : p'.activations.Covers p.activations)
    (right : q'.activations.Covers q.activations) (same : p'.instructions = p.instructions)
    (same' : q'.instructions = q.instructions) : p'.Carried q' v w := by
  refine ⟨h.matched.mono left right, ?_, ?_, fun m n shared done => ?_⟩
  · rw [defined, same]
    exact h.left
  · rw [defined, same']
    exact h.right
  · rw [same] at done
    rw [same, same']
    exact h.contents m n (shared.mono left right) done

theorem Carried.weight (id : LocationId) : p.Carried q (.weight id) (.weight id) :=
  ⟨.weight id, rfl, rfl, fun _ _ _ _ => .weight id⟩

end Program

/-! ## One more instruction -/

theorem execute_snoc [Scalar α] {is : List (Instruction α)} {m : Memory α}
    (h : (execute is m).failure = none) (i : Instruction α) :
    execute (is ++ [i]) m = ⟨(i.step (execute is m).memory).1,
      (execute is m).executed + if (i.step (execute is m).memory).2.isSome then 0 else 1,
      (i.step (execute is m).memory).2⟩ := by
  rw [execute_append, h]
  simp only [execute]
  generalize i.step (execute is m).memory = r
  obtain ⟨m', e⟩ := r
  cases e <;> rfl

theorem execute_append_of_failure [Scalar α] {is : List (Instruction α)} {m : Memory α}
    {e : Error α} (h : (execute is m).failure = some e) (js : List (Instruction α)) :
    execute (is ++ js) m = execute is m := by
  rw [execute_append, h]

namespace Program

/-- The program with an instruction put at its end. -/
def snoc (p : Program α) (i : Instruction α) : Program α :=
  { p with instructions := p.instructions.push i }

@[simp] theorem snoc_instructions (p : Program α) (i : Instruction α) :
    (p.snoc i).instructions.toList = p.instructions.toList ++ [i] := Array.toList_push

@[simp] theorem snoc_activations (p : Program α) (i : Instruction α) :
    (p.snoc i).activations = p.activations := rfl

theorem defined_snoc (p : Program α) (i : Instruction α) :
    (p.snoc i).defined = p.defined ++ activationsWritten [i] := by
  rw [defined, snoc_instructions, activationsWritten, List.flatMap_append]
  rfl

theorem isDefined_snoc {p : Program α} (i : Instruction α) {v : Value}
    (h : Instruction.isDefined p.defined v = true) :
    Instruction.isDefined (p.snoc i).defined v = true := by
  cases v with
  | weight id => rfl
  | activation id =>
    simp only [Instruction.isDefined, defined_snoc, List.contains_iff_mem, List.mem_append] at h ⊢
    exact .inl h

theorem isDefined_written {p : Program α} {i : Instruction α} {v : Value} (h : v ∈ i.written) :
    Instruction.isDefined (p.snoc i).defined v = true := by
  cases v with
  | weight id => rfl
  | activation id =>
    simp only [Instruction.isDefined, defined_snoc, List.contains_iff_mem, List.mem_append,
      activationsWritten, List.mem_flatMap, List.mem_singleton, List.mem_filterMap]
    exact .inr ⟨i, rfl, .activation id, h, rfl⟩

theorem Shared.of_snoc {p q : Program α} {i j : Instruction α} {m n : Memory α}
    (shared : Shared (p.snoc i) (q.snoc j) m n) : Shared p q m n :=
  ⟨shared.left, shared.right, shared.weights⟩

variable [Scalar α] {p q : Program α} {i j : Instruction α} {v w : Value}

theorem Mirrors.snoc (h : p.Mirrors q) (kind : i.kind = j.kind)
    (steps : ∀ m n, Shared p q m n → (execute p.instructions.toList m).failure = none →
      Instruction.SameOutcome (i.step (execute p.instructions.toList m).memory)
        (j.step (execute q.instructions.toList n).memory)) : (p.snoc i).Mirrors (q.snoc j) := by
  refine ⟨by simp [h.kinds, kind], fun m n shared => ?_⟩
  have shared := shared.of_snoc
  have runs := h.runs m n shared
  rw [snoc_instructions, snoc_instructions]
  cases hp : (execute p.instructions.toList m).failure with
  | some e =>
    obtain ⟨e', hq⟩ := Option.isSome_iff_exists.mp (runs.failed.symm.trans (by rw [hp]; rfl))
    rw [execute_append_of_failure hp, execute_append_of_failure hq]
    exact runs
  | none =>
    have hq : (execute q.instructions.toList n).failure = none := by
      rw [← Option.isSome_eq_false_iff.trans Option.isNone_iff_eq_none, ← runs.failed, hp]
      rfl
    obtain ⟨weights, failed⟩ := steps m n shared hp
    rw [execute_snoc hp, execute_snoc hq]
    exact ⟨weights, by rw [runs.executed, failed], failed⟩

theorem Carried.snoc (h : p.Mirrors q) (matched : Matched Location.Mates p.activations q.activations v w)
    (left : Instruction.isDefined (p.snoc i).defined v = true)
    (right : Instruction.isDefined (q.snoc j).defined w = true)
    (steps : ∀ m n, Shared p q m n → (execute p.instructions.toList m).failure = none →
      (i.step (execute p.instructions.toList m).memory).2 = none →
      Matched Location.Copies (i.step (execute p.instructions.toList m).memory).1.activations
        (j.step (execute q.instructions.toList n).memory).1.activations v w) :
    (p.snoc i).Carried (q.snoc j) v w := by
  refine ⟨matched, left, right, fun m n shared done => ?_⟩
  have shared := shared.of_snoc
  have runs := h.runs m n shared
  rw [snoc_instructions] at done ⊢
  rw [snoc_instructions]
  cases hp : (execute p.instructions.toList m).failure with
  | some e =>
    rw [execute_append_of_failure hp, hp] at done
    cases done
  | none =>
    have hq : (execute q.instructions.toList n).failure = none := by
      rw [← Option.isSome_eq_false_iff.trans Option.isNone_iff_eq_none, ← runs.failed, hp]
      rfl
    rw [execute_snoc hp] at done ⊢
    rw [execute_snoc hq]
    exact steps m n shared hp done

/-- What pushing matching instructions leaves. -/
structure Pushed (p q : Program α) (i j : Instruction α) (p' q' : Program α) : Prop where
  left : p' = p.snoc i
  right : q' = q.snoc j
  mirrors : p'.Mirrors q'

theorem push_together {store : Arena α} {P : Program α → Program α → Prop} (kind : i.kind = j.kind)
    (agree : List.Forall₂ (Instruction.Agrees (p.memory store) (q.memory store) p.defined q.defined)
      i.operands j.operands) (h : P (p.snoc i) (q.snoc j)) :
    Together P (p.push store i) (q.push store j) := by
  have checks := Instruction.check_together kind (m := p.memory store) (n := q.memory store) rfl agree
  simp only [push]
  generalize i.check (p.memory store) p.defined = r, j.check (q.memory store) q.defined = r' at checks
  cases checks with
  | error => exact .error
  | ok _ => exact .ok h

/-- Instructions that write one value into matched locations, computed from values that both programs
have computed. -/
theorem Mirrors.push_first (name name' : String) {kind : Opcode α} {xs ys : List Value}
    (store : Arena α) (h : p.Mirrors q) (other : ∀ rule, kind ≠ .update rule)
    (target : Matched Location.Mates p.activations q.activations v w)
    (sources : List.Forall₂ (p.Carried q) xs ys) :
    let i : Instruction α := .ofValues name kind (v :: xs)
    let j : Instruction α := .ofValues name' kind (w :: ys)
    Together (fun p' q' => Pushed p q i j p' q' ∧ p'.Carried q' v w ∧
        ∀ x y, p.Carried q x y → (x = v ↔ y = w) → p'.Carried q' x y)
      (p.push store i) (q.push store j) := by
  intro i j
  obtain ⟨count, layout⟩ := Instruction.layout_first other
  have matched : ∀ m n, Shared p q m n → (execute p.instructions.toList m).failure = none →
      Instruction.FirstMatched (execute p.instructions.toList m).memory
        (execute q.instructions.toList n).memory v w xs ys := by
    intro m n shared done
    have left := (Memory.covers_iff.mp (execute_covers p.instructions.toList m)).1
    have right := (Memory.covers_iff.mp (execute_covers q.instructions.toList n)).1
    exact ⟨(h.runs m n shared).weights,
      target.mono (left.trans shared.left) (right.trans shared.right),
      sources.imp fun x y carried => carried.contents m n shared done⟩
  refine push_together rfl ?_ ⟨⟨rfl, rfl, h.snoc rfl fun m n shared done =>
    (Instruction.step_first layout (matched m n shared done)).1⟩, ?_, fun x y carried same => ?_⟩
  · show List.Forall₂ _ (Instruction.ofValues name kind (v :: xs)).operands
      (Instruction.ofValues name' kind (w :: ys)).operands
    rw [Instruction.ofValues_first layout, Instruction.ofValues_first layout]
    refine .cons ⟨rfl, target, fun reads => absurd reads (by simp [Direction.reads]),
      fun reads => absurd reads (by simp [Direction.reads])⟩ ?_
    rw [List.forall₂_map_left_iff, List.forall₂_map_right_iff]
    exact sources.imp fun x y carried =>
      ⟨rfl, carried.matched, fun _ => carried.left, fun _ => carried.right⟩
  · refine .snoc h target ?_ ?_ fun m n shared done stepped =>
      ((Instruction.step_first layout (matched m n shared done)).2 stepped).stored
    · exact isDefined_written (by rw [Instruction.written_first layout]; exact List.mem_cons_self)
    · exact isDefined_written (by rw [Instruction.written_first layout]; exact List.mem_cons_self)
  · exact .snoc h carried.matched (isDefined_snoc i carried.left) (isDefined_snoc j carried.right)
      fun m n shared done stepped =>
        ((Instruction.step_first layout (matched m n shared done)).2 stepped).others x y
          (carried.contents m n shared done) same

/-- Updates of values that both programs have computed. -/
theorem Mirrors.push_update (name name' : String) (rule : UpdateRule α) {u g v u' g' v' : Value}
    (store : Arena α) (h : p.Mirrors q)
    (operands : List.Forall₂ (p.Carried q) [u, g, v] [u', g', v']) :
    let i : Instruction α := .ofValues name (.update rule) [u, g, v]
    let j : Instruction α := .ofValues name' (.update rule) [u', g', v']
    Together (fun p' q' => Pushed p q i j p' q' ∧
        ∀ x y, p.Carried q x y → (x = u ↔ y = u') → (x = v ↔ y = v') → p'.Carried q' x y)
      (p.push store i) (q.push store j) := by
  intro i j
  have steps := fun m n (shared : Shared p q m n)
      (done : (execute p.instructions.toList m).failure = none) =>
    Instruction.step_update_matched name name' rule
      (h.runs m n shared).weights
      (operands.imp fun x y carried => carried.contents m n shared done)
  refine push_together rfl ?_ ⟨⟨rfl, rfl, h.snoc rfl fun m n shared done =>
    (steps m n shared done).1⟩, fun x y carried first second => ?_⟩
  · have agree : ∀ (d : Direction) (x y : Value), p.Carried q x y →
        Instruction.Agrees (p.memory store) (q.memory store) p.defined q.defined ⟨x, d⟩ ⟨y, d⟩ :=
      fun d x y carried => ⟨rfl, carried.matched, fun _ => carried.left, fun _ => carried.right⟩
    obtain ⟨hu, hg, hv⟩ : p.Carried q u u' ∧ p.Carried q g g' ∧ p.Carried q v v' := by
      simpa using operands
    exact .cons (agree .both u u' hu) (.cons (agree .input g g' hg) (.cons (agree .both v v' hv) .nil))
  · exact .snoc h carried.matched (isDefined_snoc i carried.left) (isDefined_snoc j carried.right)
      fun m n shared done stepped =>
        (steps m n shared done).2 stepped x y (carried.contents m n shared done) first second

end Program
end NeuralGraph
