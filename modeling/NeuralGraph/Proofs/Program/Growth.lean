import NeuralGraph.Proofs.Integers
import NeuralGraph.Proofs.Program.Safety
import NeuralGraph.Proofs.Storage.Contents

/-!
# Programs that have grown

A program grows by activations and accepted instructions, over a weight arena that only gains
locations.  All its instructions suit the storage, and running does not change that: whatever the
locations hold, an instruction fails exactly for the operands that its kind refuses.
-/

namespace NeuralGraph
set_option autoImplicit false
variable {α : Type} [Scalar α]

/-- Programs that adding activations and instructions has made. -/
inductive Program.Grown : Arena α → Program α → Prop
  | empty (weights : Arena α) (name : String) : Grown weights (.empty name)
  | widen {weights weights' : Arena α} {p : Program α} :
      Grown weights p → weights'.Covers weights → Grown weights' p
  | newActivation {weights : Arena α} {p p' : Program α} {name : String} {type : TensorType α}
      {value : Value} : Grown weights p → p.newActivation name type = .ok (p', value) →
      Grown weights p'
  | push {weights : Arena α} {p p' : Program α} {i : Instruction α} :
      Grown weights p → p.push weights i = .ok p' → Grown weights p'

/-- Every instruction of a program that has grown suits its storage. -/
theorem Program.Grown.suits {weights : Arena α} {p : Program α} (grown : Grown weights p) :
    ∀ i ∈ p.instructions, i.Suits (p.memory weights) := by
  induction grown with
  | empty weights name => simp
  | widen _ covers ih =>
    exact fun i hi => (ih i hi).mono (Memory.covers_iff.mpr ⟨.refl _, covers⟩)
  | newActivation _ h ih =>
    obtain ⟨a, id, ha, rfl, -⟩ := newActivation_eq_ok_iff.mp h
    obtain ⟨-, rfl, -⟩ := Arena.insert_eq_ok_iff.mp ha
    exact fun i hi => (ih i hi).mono (Memory.covers_iff.mpr ⟨Arena.covers_push _ _, .refl _⟩)
  | push _ h ih =>
    obtain ⟨accepted, rfl⟩ := push_eq_ok_iff.mp h
    intro i hi
    rcases Array.mem_push.mp hi with hi | rfl
    · exact ih i hi
    · exact ⟨_, accepted⟩

/-! ## Programs that pass their verification -/

namespace Program
variable {weights weights' : Arena α} {p q : Program α}

theorem verifyFrom_cons {m : Memory α} {done is : List (Instruction α)} {i : Instruction α} :
    verifyFrom m done (i :: is) = .ok () ↔
      i.check m (activationsWritten done) = .ok () ∧ verifyFrom m (done ++ [i]) is = .ok () := by
  rw [verifyFrom]
  cases i.check m (activationsWritten done) <;> simp [bind, Except.bind]

theorem verifyFrom_eq_ok_iff {m : Memory α} {done is : List (Instruction α)} :
    verifyFrom m done is = .ok () ↔ ∀ first i rest, is = first ++ i :: rest →
      ∃ ls, i.Accepted m (activationsWritten (done ++ first)) ls := by
  induction is generalizing done with
  | nil => simp [verifyFrom]
  | cons i is ih =>
    rw [verifyFrom_cons, Instruction.check_eq_ok_iff, ih]
    constructor
    · rintro ⟨now, later⟩ first j rest split
      cases first with
      | nil =>
        cases split
        rwa [List.append_nil]
      | cons k first =>
        cases split
        have := later first j rest rfl
        rwa [List.append_assoc] at this
    · intro all
      refine ⟨?_, fun first j rest split => ?_⟩
      · have := all [] i is rfl
        rwa [List.append_nil] at this
      · have := all (i :: first) j rest (by rw [split, List.cons_append])
        rwa [List.append_assoc]

/-- A program passes if each instruction is accepted after those before it. -/
theorem verify_eq_ok_iff : p.verify weights = .ok () ↔
    ∀ first i rest, p.instructions.toList = first ++ i :: rest →
      ∃ ls, i.Accepted (p.memory weights) (activationsWritten first) ls := by
  rw [verify, verifyFrom_eq_ok_iff]
  simp only [List.nil_append]

/-- What storage holds does not matter to a verification, and neither does more storage. -/
theorem verify_mono (h : p.verify weights = .ok ()) (same : q.instructions = p.instructions)
    (covers : (q.memory weights').Covers (p.memory weights)) : q.verify weights' = .ok () := by
  rw [verify_eq_ok_iff] at h ⊢
  intro first i rest split
  rw [same] at split
  obtain ⟨ls, accepted⟩ := h first i rest split
  obtain ⟨ks, accepted', -⟩ := accepted.mono covers
  exact ⟨ks, accepted'⟩

theorem verify_push {i : Instruction α} (h : p.verify weights = .ok ())
    (accepted : ∃ ls, i.Accepted (p.memory weights) p.defined ls) :
    Program.verify { p with instructions := p.instructions.push i } weights = .ok () := by
  rw [verify_eq_ok_iff] at h ⊢
  intro first j rest split
  rw [Array.toList_push] at split
  rcases List.eq_nil_or_concat rest with rfl | ⟨rest, k, rfl⟩
  · obtain ⟨rfl, last⟩ := List.append_inj' split rfl
    cases last
    exact accepted
  · rw [List.concat_eq_append, ← List.cons_append, ← List.append_assoc] at split
    exact h first j rest (List.append_inj' split rfl).1

/-- A program that has grown passes. -/
theorem Grown.verify (grown : Grown weights p) : p.verify weights = .ok () := by
  induction grown with
  | empty weights name => rfl
  | widen _ covers ih => exact verify_mono ih rfl (Memory.covers_iff.mpr ⟨.refl _, covers⟩)
  | newActivation _ h ih =>
    obtain ⟨a, id, ha, rfl, -⟩ := newActivation_eq_ok_iff.mp h
    obtain ⟨-, rfl, -⟩ := Arena.insert_eq_ok_iff.mp ha
    exact verify_mono ih rfl (Memory.covers_iff.mpr ⟨Arena.covers_push _ _, .refl _⟩)
  | push _ h ih =>
    obtain ⟨accepted, rfl⟩ := push_eq_ok_iff.mp h
    exact verify_push ih accepted

end Program

/-! ## Running changes contents only -/

namespace Instruction

theorem store_peers {i : Instruction α} {m m' : Memory α} {value : Value} {a : PlacedArray α}
    (h : i.store m value a = .ok m') : m'.Peers m := by
  simp only [store, bind, Except.bind] at h
  split at h
  · cases h
  · next l hl =>
    split at h
    · cases h
    · split at h
      · cases h
        exact (Memory.Peers.refl m).put (Memory.locate_eq_ok_iff.mp hl) (.withPayload l rfl)
      · cases h

theorem store_covers {i : Instruction α} {m m' : Memory α} {value : Value} {a : PlacedArray α}
    (h : i.store m value a = .ok m') : m'.Covers m := (store_peers h).covers

theorem storeAll_peers (i : Instruction α) (results : List (Value × PlacedArray α))
    (m : Memory α) : (i.storeAll results m).1.Peers m := by
  induction results generalizing m with
  | nil => exact .refl m
  | cons r results ih =>
    simp only [storeAll]
    cases h : i.store m r.1 r.2 with
    | error e => exact .refl m
    | ok m' => exact (ih m').trans (store_peers h)

theorem step_peers (i : Instruction α) (m : Memory α) : (i.step m).1.Peers m := by
  simp only [step]
  split
  · exact storeAll_peers i _ m
  · exact .refl m

theorem step_covers (i : Instruction α) (m : Memory α) : (i.step m).1.Covers m :=
  (i.step_peers m).covers

end Instruction

theorem execute_peers (is : List (Instruction α)) (m : Memory α) :
    (execute is m).memory.Peers m := by
  induction is generalizing m with
  | nil => exact .refl m
  | cons i is ih =>
    have step := i.step_peers m
    simp only [execute]
    split
    · next m' h =>
      rw [h] at step
      exact (ih m').trans step
    · next m' e h =>
      rw [h] at step
      exact step

theorem execute_covers (is : List (Instruction α)) (m : Memory α) :
    (execute is m).memory.Covers m := (execute_peers is m).covers

/-- A run that fails has executed the instructions before the one that fails. -/
theorem execute_before_failure {is : List (Instruction α)} {m : Memory α} {e : Error α}
    (h : (execute is m).failure = some e) :
    ∃ i, is[(execute is m).executed]? = some i ∧
      (execute (is.take (execute is m).executed) m).failure = none ∧
      i.step (execute (is.take (execute is m).executed) m).memory =
        ((execute is m).memory, some e) := by
  induction is generalizing m with
  | nil => cases h
  | cons i is ih =>
    obtain ⟨m', r, done⟩ : ∃ m' r, i.step m = (m', r) := ⟨_, _, rfl⟩
    cases r with
    | none =>
      simp only [execute, done] at h ⊢
      obtain ⟨j, hj, before, failed⟩ := ih h
      refine ⟨j, hj, ?_, ?_⟩
      · simp only [List.take_succ_cons, execute, done, before]
      · simp only [List.take_succ_cons, execute, done]
        exact failed
    | some e' =>
      simp only [execute, done] at h ⊢
      cases h
      exact ⟨i, rfl, rfl, done⟩

/-- A run that fails does so in one instruction, in a memory that covers the one it started from. -/
theorem execute_failure {is : List (Instruction α)} {m : Memory α} {e : Error α}
    (h : (execute is m).failure = some e) :
    ∃ i m', is[(execute is m).executed]? = some i ∧ m'.Covers m ∧
      i.step m' = ((execute is m).memory, some e) := by
  obtain ⟨i, hi, -, last⟩ := execute_before_failure h
  exact ⟨i, _, hi, execute_covers _ m, last⟩

/-! ## Safety -/

/-- A run that fails has come to an instruction whose kind refuses what its operands hold by then. -/
theorem Program.Grown.run_refused {weights : Arena α} {p : Program α} (grown : Grown weights p)
    {m : Memory α} (covers : m.Covers (p.memory weights))
    (small : ∀ i ∈ p.instructions, ∀ ls, i.LocatedIn m ls →
      i.kind.Addressable (ls.map Location.type)) {e : Error α}
    (h : (execute p.instructions.toList m).failure = some e) :
    ∃ i ls, p.instructions[(execute p.instructions.toList m).executed]? = some i ∧
      i.LocatedIn (execute p.instructions.toList m).memory ls ∧
      i.kind.Refuses (ls.map Location.payload) := by
  obtain ⟨i, m', hi, covers', failed⟩ := execute_failure h
  rw [Array.getElem?_toList] at hi
  have suits := grown.suits i (Array.mem_of_getElem? hi)
  obtain ⟨defined, ks, accepted⟩ := suits.mono covers
  obtain ⟨ls, located, alikes⟩ := accepted.locatedIn.mono covers'
  have fits := small i (Array.mem_of_getElem? hi) ks accepted.locatedIn
  rw [← Instruction.types_eq_of_alike alikes] at fits
  obtain ⟨refuses, succeeds⟩ := (suits.mono (covers'.trans covers)).step_settles located fits
  by_cases refused : i.kind.Refuses (ls.map Location.payload)
  · obtain ⟨fault, step⟩ := refuses refused
    rw [failed] at step
    have same : (execute p.instructions.toList m).memory = m' := congrArg Prod.fst step
    exact ⟨i, ls, hi, same ▸ located, refused⟩
  · obtain ⟨m₁, results, -, step, -⟩ := succeeds refused
    rw [failed] at step
    cases step

/-- An instruction of a program that has grown, in any memory with the locations of the program: its
operands are located, and it fails exactly for operands that its kind refuses.  Then the kernel is
at fault and the memory stays as it was; otherwise the results have the dimensions of the locations
that they are stored in. -/
theorem Program.Grown.step_fails_iff {weights : Arena α} {p : Program α} (grown : Grown weights p)
    {i : Instruction α} (hi : i ∈ p.instructions) {m : Memory α}
    (covers : m.Covers (p.memory weights)) :
    ∃ ls, i.LocatedIn m ls ∧ (i.kind.Addressable (ls.map Location.type) →
      ((i.step m).2 ≠ none ↔ i.kind.Refuses (ls.map Location.payload)) ∧
      (∀ e, (i.step m).2 = some e → (i.step m).1 = m ∧ ∃ fault, e = .kernel i.name fault) ∧
      ((i.step m).2 = none → ∃ results, i.evaluate m = .ok results ∧
        List.Forall₂ (fun (v : Value) (a : PlacedArray α) =>
          ∃ l, m.locate? v = some l ∧ a.dims = l.type.dims) i.written results)) := by
  have suits := (grown.suits i hi).mono covers
  obtain ⟨defined, ls, accepted⟩ := id suits
  refine ⟨ls, accepted.locatedIn, fun small => ?_⟩
  obtain ⟨refuses, succeeds⟩ := suits.step_settles accepted.locatedIn small
  by_cases refused : i.kind.Refuses (ls.map Location.payload)
  · obtain ⟨fault, step⟩ := refuses refused
    rw [step]
    simp [refused]
  · obtain ⟨m', results, evaluated, step, dims⟩ := succeeds refused
    rw [step]
    simp only [ne_eq, not_true_eq_false, refused, reduceCtorEq, false_implies, implies_true,
      true_and, forall_const]
    exact ⟨results, evaluated, dims⟩

/-- Two rows of a table, at the positions that the second weight holds. -/
def gatherRows : Instruction Int :=
  .ofValues "picked" (.compute .gather) [.activation ⟨0⟩, .weight ⟨0⟩, .weight ⟨1⟩]

/-- A table of three rows and two positions, both of which are `k`. -/
def gatherWeights (k : Int) : Arena Int where
  locations := #[⟨"table", .mutable, .exposed, .full (.float [3, 2]) 1⟩,
    ⟨"positions", .mutable, .exposed, .full (.index [2]) k⟩]

def gatherProgram : Program Int where
  name := "gather"
  instructions := #[gatherRows]
  activations := ⟨#[⟨"picked", .mutable, .hidden, .zeros (.float [2, 2])⟩]⟩

theorem gatherProgram_grown : Program.Grown (gatherWeights 0) gatherProgram := by
  have made : (Program.empty "gather").newActivation "picked" (.float [2, 2]) =
      .ok (⟨"gather", #[], gatherProgram.activations⟩, .activation ⟨0⟩) := by cbv
  have pushed : Program.push ⟨"gather", #[], gatherProgram.activations⟩ (gatherWeights 0)
      gatherRows = .ok gatherProgram := by cbv
  exact .push (.newActivation (.empty _ _) made) pushed

theorem gatherWeights_covers (k : Int) : (gatherWeights k).Covers (gatherWeights 0) := by
  intro id l hl
  match id, hl with
  | ⟨0⟩, hl =>
    cases hl
    exact ⟨_, rfl, ⟨rfl, rfl, rfl⟩⟩
  | ⟨1⟩, hl =>
    cases hl
    exact ⟨_, rfl, ⟨rfl, rfl, rfl⟩⟩

def gatherLocations (k : Int) : List (Location Int) :=
  [⟨"picked", .mutable, .hidden, .zeros (.float [2, 2])⟩,
    ⟨"table", .mutable, .exposed, .full (.float [3, 2]) 1⟩,
    ⟨"positions", .mutable, .exposed, .full (.index [2]) k⟩]

theorem gatherRows_locatedIn (k : Int) :
    gatherRows.LocatedIn (gatherProgram.memory (gatherWeights k)) (gatherLocations k) :=
  .cons rfl (.cons rfl (.cons rfl .nil))

theorem gatherRows_step_fails_iff :
    (gatherRows.step (gatherProgram.memory (gatherWeights 3))).2 ≠ none ∧
      (gatherRows.step (gatherProgram.memory (gatherWeights 2))).2 = none := by
  have mem : gatherRows ∈ gatherProgram.instructions := by simp [gatherProgram]
  have settles (k : Int) : (gatherRows.step (gatherProgram.memory (gatherWeights k))).2 ≠ none ↔
      gatherRows.kind.Refuses ((gatherLocations k).map Location.payload) := by
    obtain ⟨ls, located, settles⟩ := gatherProgram_grown.step_fails_iff mem
      (m := gatherProgram.memory (gatherWeights k)) (Memory.covers_iff.mpr ⟨.refl _, gatherWeights_covers k⟩)
    obtain rfl := located.unique (gatherRows_locatedIn k)
    refine (settles ⟨fun t ht => ?_, trivial⟩).1
    simp only [gatherLocations, List.map_cons, List.map_nil, List.mem_cons, List.not_mem_nil,
      or_false] at ht
    rcases ht with rfl | rfl | rfl <;> rfl
  have positions (k : Int) :
      (Tensor.full (.index [2]) k).decoded.array.data.toList = [k, k] := by cbv
  constructor
  · refine (settles 3).mpr ⟨3, (positions 3).symm ▸ List.mem_cons_self, ?_⟩
    rintro ⟨n, hn, hlt⟩
    cases hn
    exact absurd hlt (by decide)
  · by_contra failed
    obtain ⟨v, hv, bad⟩ := (settles 2).mp failed
    obtain rfl : v = 2 := by simpa using (positions 2 ▸ hv : v ∈ [(2 : Int), 2])
    exact bad ⟨2, rfl, by decide⟩

end NeuralGraph
