import NeuralGraph.Proofs.Program.Growth

/-!
# What a run leaves alone

An instruction changes nothing but what it writes, whether it succeeds or fails, and so does a run.
-/

namespace NeuralGraph
set_option autoImplicit false
variable {α : Type} [Scalar α]

/-- What instructions write. -/
def writtenBy (is : List (Instruction α)) : List Value := is.flatMap Instruction.written

namespace Instruction

theorem store_frame {i : Instruction α} {m m' : Memory α} {value other : Value} {a : PlacedArray α}
    (h : i.store m value a = .ok m') (ne : value ≠ other) : m'.locate? other = m.locate? other := by
  simp only [store, bind, Except.bind] at h
  split at h
  · cases h
  · split at h
    · cases h
    · split at h
      · cases h
        exact Memory.locate?_put_ne m _ ne
      · cases h

theorem storeAll_frame {i : Instruction α} {results : List (Value × PlacedArray α)} {m : Memory α}
    {other : Value} (h : ∀ r ∈ results, r.1 ≠ other) :
    (i.storeAll results m).1.locate? other = m.locate? other := by
  induction results generalizing m with
  | nil => rfl
  | cons r results ih =>
    simp only [storeAll]
    cases hs : i.store m r.1 r.2 with
    | error e => rfl
    | ok m' =>
      rw [← store_frame hs (h r List.mem_cons_self)]
      exact ih fun q hq => h q (List.mem_cons_of_mem _ hq)

theorem step_frame {i : Instruction α} {m : Memory α} {other : Value} (h : other ∉ i.written) :
    (i.step m).1.locate? other = m.locate? other := by
  simp only [step]
  split
  · refine storeAll_frame fun r hr => ?_
    rintro rfl
    exact h (List.of_mem_zip hr).1
  · rfl

end Instruction

theorem execute_frame {is : List (Instruction α)} {m : Memory α} {other : Value}
    (h : ∀ i ∈ is, other ∉ i.written) :
    (execute is m).memory.locate? other = m.locate? other := by
  induction is generalizing m with
  | nil => rfl
  | cons i is ih =>
    have step := Instruction.step_frame (m := m) (h i List.mem_cons_self)
    simp only [execute]
    split
    · next m' hm =>
      rw [hm] at step
      rw [ih fun j hj => h j (List.mem_cons_of_mem _ hj), step]
    · next m' e hm =>
      rw [hm] at step
      exact step

/-! ## Instructions that write one value -/

/-- If an instruction that writes one value fails, it has stored nothing. -/
theorem Instruction.step_of_failure {i : Instruction α} {m : Memory α} (single : i.written.length ≤ 1)
    (failed : (i.step m).2 ≠ none) : (i.step m).1 = m := by
  rw [step] at failed ⊢
  cases done : i.evaluate m with
  | error e => rfl
  | ok arrays =>
    have short : (i.written.zip arrays).length ≤ 1 := by
      rw [List.length_zip]
      exact (Nat.min_le_left _ _).trans single
    simp only [done] at failed ⊢
    generalize i.written.zip arrays = results at failed short ⊢
    rcases results with _ | ⟨q, _ | ⟨q', results⟩⟩
    · exact absurd rfl failed
    · simp only [storeAll] at failed ⊢
      cases stored : i.store m q.1 q.2 with
      | error e => rfl
      | ok m' => simp [stored] at failed
    · simp at short

/-- Where instructions write one value each, only those that succeeded have stored anything. -/
theorem execute_frame_of_single {is : List (Instruction α)} {m : Memory α} {v : Value}
    (single : ∀ i ∈ is, i.written.length ≤ 1)
    (h : v ∉ writtenBy (is.take (execute is m).executed)) :
    (execute is m).memory.locate? v = m.locate? v := by
  induction is generalizing m with
  | nil => rfl
  | cons i is ih =>
    have failing := Instruction.step_of_failure (m := m) (single i List.mem_cons_self)
    have frame : v ∉ i.written → (i.step m).1.locate? v = m.locate? v := Instruction.step_frame
    simp only [execute] at h ⊢
    generalize i.step m = r at failing frame h ⊢
    obtain ⟨m', e⟩ := r
    cases e with
    | some e => exact congrArg (fun (m : Memory α) => m.locate? v) (failing (by simp))
    | none =>
      rw [List.take_succ_cons, writtenBy, List.flatMap_cons, List.mem_append, not_or] at h
      exact (ih (fun j hj => single j (List.mem_cons_of_mem _ hj)) h.2).trans (frame h.1)

end NeuralGraph
