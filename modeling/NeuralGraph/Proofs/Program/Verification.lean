import NeuralGraph.Proofs.Program.Growth

/-!
# What a verification says

A program is drafted call by call: each instruction is judged by the activations noted so far, and
what is refused changes nothing.  Programs drafted over weights that only gain locations pass their
verification; a program passes exactly if its instructions can be pushed again in order; and one that
passes defines before it reads, gives a constant its value once, and finds all its operands.
-/

namespace NeuralGraph
set_option autoImplicit false
variable {α : Type}

/-! ## The instructions before a position -/

theorem Instruction.writes_iff {i : Instruction α} {v : Value} :
    i.writes v = true ↔ v ∈ i.written := by
  simp only [writes, written, List.any_eq_true, Bool.and_eq_true, beq_iff_eq, List.mem_map,
    List.mem_filter]
  constructor
  · rintro ⟨o, ho, value, writes⟩
    exact ⟨o, ⟨ho, writes⟩, value⟩
  · rintro ⟨o, ⟨ho, writes⟩, value⟩
    exact ⟨o, ho, value, writes⟩

theorem mem_activationsWritten {is : List (Instruction α)} {id : LocationId} :
    id ∈ activationsWritten is ↔ ∃ i ∈ is, i.writes (.activation id) = true := by
  simp only [activationsWritten, List.mem_flatMap, List.mem_filterMap, Instruction.writes_iff]
  constructor
  · rintro ⟨i, hi, v, hv, found⟩
    refine ⟨i, hi, ?_⟩
    cases v with
    | weight id' => cases found
    | activation id' =>
      cases found
      exact hv
  · rintro ⟨i, hi, hv⟩
    exact ⟨i, hi, _, hv, rfl⟩

theorem activationsWritten_concat (is : List (Instruction α)) (i : Instruction α) :
    activationsWritten (is ++ [i]) = activationsWritten is ++ activationsWritten [i] :=
  List.flatMap_append

theorem isDefined_activation {defined : List LocationId} {id : LocationId} :
    Instruction.isDefined defined (.activation id) = true ↔ id ∈ defined := by
  simp [Instruction.isDefined]

namespace Program
variable {p : Program α}

theorem mem_indicesOf {test : Instruction α → Bool} {k : Nat} :
    k ∈ p.indicesOf test ↔ ∃ i, p.instructions[k]? = some i ∧ test i = true := by
  simp only [indicesOf, List.mem_filterMap, List.mem_zipIdx_iff_getElem?, Array.getElem?_toList]
  constructor
  · rintro ⟨⟨i, n⟩, hi, found⟩
    split at found
    · next passes =>
      cases found
      exact ⟨i, hi, passes⟩
    · cases found
  · rintro ⟨i, hi, passes⟩
    exact ⟨(i, k), hi, by simp [passes]⟩

theorem indicesOf_eq_map (test : Instruction α → Bool) :
    p.indicesOf test =
      (p.instructions.toList.zipIdx.filter fun q => test q.1).map fun q => q.2 := by
  rw [indicesOf]
  induction p.instructions.toList.zipIdx with
  | nil => rfl
  | cons q qs ih => cases h : test q.1 <;> simp [h, ih]

theorem nodup_indicesOf (test : Instruction α → Bool) : (p.indicesOf test).Nodup := by
  have positions : (p.instructions.toList.zipIdx.map fun q => q.2).Nodup := by
    rw [List.zipIdx_map_snd]
    exact List.nodup_range'
  rw [indicesOf_eq_map]
  exact positions.sublist (List.filter_sublist.map _)

theorem mem_activationsWritten_take {id : LocationId} {k : Nat} :
    id ∈ activationsWritten (p.instructions.toList.take k) ↔
      ∃ j ∈ p.writers (.activation id), j < k := by
  simp only [mem_activationsWritten, writers, mem_indicesOf, List.mem_take_iff_getElem,
    Array.getElem_toList]
  constructor
  · rintro ⟨i, ⟨j, hj, rfl⟩, writes⟩
    have before : j < k ∧ j < p.instructions.size := by simpa using hj
    exact ⟨j, ⟨_, Array.getElem?_eq_getElem before.2, writes⟩, before.1⟩
  · rintro ⟨j, ⟨i, hi, writes⟩, before⟩
    obtain ⟨hj, rfl⟩ := Array.getElem?_eq_some_iff.mp hi
    exact ⟨_, ⟨j, by simp [before, hj], rfl⟩, writes⟩

end Program

variable [Scalar α]

/-! ## Programs in the making -/

/-- A program and the activations noted so far as defined. -/
structure Draft (α : Type) where
  program : Program α
  noted : List LocationId

namespace Draft

def start (name : String) : Draft α := ⟨.empty name, []⟩

def newActivation (d : Draft α) (name : String) (type : TensorType α) : Draft α :=
  match d.program.newActivation name type with
  | .ok (p, _) => { d with program := p }
  | .error _ => d

/-- One more instruction, judged by what is noted, unless it is refused. -/
def push (d : Draft α) (weights : Arena α) (i : Instruction α) : Draft α :=
  match i.check (d.program.memory weights) d.noted with
  | .ok () =>
    ⟨{ d.program with instructions := d.program.instructions.push i },
      d.noted ++ activationsWritten [i]⟩
  | .error _ => d

end Draft

/-- Programs that calls have made, refused ones among them. -/
inductive Drafted : Arena α → Draft α → Prop
  | start (weights : Arena α) (name : String) : Drafted weights (.start name)
  | widen {weights weights' : Arena α} {d : Draft α} :
      Drafted weights d → weights'.Covers weights → Drafted weights' d
  | newActivation {weights : Arena α} {d : Draft α} (name : String) (type : TensorType α) :
      Drafted weights d → Drafted weights (d.newActivation name type)
  | push {weights : Arena α} {d : Draft α} (i : Instruction α) :
      Drafted weights d → Drafted weights (d.push weights i)

namespace Draft
variable {weights : Arena α} {d : Draft α}

/-- What is noted as defined is what the instructions write. -/
def Noted (d : Draft α) : Prop := d.noted = d.program.defined

theorem newActivation_cases (d : Draft α) (name : String) (type : TensorType α) :
    d.newActivation name type = d ∨
      ∃ p value, d.program.newActivation name type = .ok (p, value) ∧
        d.newActivation name type = { d with program := p } := by
  rw [newActivation]
  cases made : d.program.newActivation name type with
  | error e => exact .inl rfl
  | ok r => exact .inr ⟨r.1, r.2, rfl, rfl⟩

theorem push_cases (weights : Arena α) (noted : d.Noted) (i : Instruction α) :
    (∃ e, d.program.push weights i = .error e ∧ d.push weights i = d) ∨
      ∃ p, d.program.push weights i = .ok p ∧
        d.push weights i = ⟨p, d.noted ++ activationsWritten [i]⟩ := by
  rw [push, Program.push, ← noted]
  cases i.check (d.program.memory weights) d.noted with
  | error e => exact .inl ⟨e, rfl, rfl⟩
  | ok u => exact .inr ⟨_, rfl, rfl⟩

end Draft

/-- The activations noted call by call are those that a verification finds. -/
theorem Drafted.noted {weights : Arena α} {d : Draft α} (drafted : Drafted weights d) :
    d.Noted := by
  induction drafted with
  | start weights name => rfl
  | widen _ _ ih => exact ih
  | @newActivation weights d name type _ ih =>
    obtain same | ⟨p, value, made, same⟩ := d.newActivation_cases name type
    · rwa [same]
    · obtain ⟨a, id, -, rfl, -⟩ := Program.newActivation_eq_ok_iff.mp made
      rwa [same]
  | @push weights d i _ ih =>
    obtain ⟨e, -, same⟩ | ⟨p, pushed, same⟩ := Draft.push_cases weights ih i
    · rwa [same]
    · obtain ⟨-, rfl⟩ := Program.push_eq_ok_iff.mp pushed
      rw [same, Draft.Noted, Program.defined, Array.toList_push, activationsWritten_concat, ih]
      rfl

theorem Drafted.grown {weights : Arena α} {d : Draft α} (drafted : Drafted weights d) :
    d.program.Grown weights := by
  induction drafted with
  | start weights name => exact .empty weights name
  | widen _ covers ih => exact ih.widen covers
  | @newActivation weights d name type _ ih =>
    obtain same | ⟨p, value, made, same⟩ := d.newActivation_cases name type
    · rwa [same]
    · rw [same]
      exact ih.newActivation made
  | @push weights d i drafted ih =>
    obtain ⟨e, -, same⟩ | ⟨p, pushed, same⟩ := Draft.push_cases weights drafted.noted i
    · rwa [same]
    · rw [same]
      exact ih.push pushed

/-! ## Pushing again -/

namespace Program
variable {weights : Arena α} {p q : Program α}

def bare (p : Program α) : Program α := { p with instructions := #[] }

/-- Instructions can be pushed in order if they pass the verification after those that are there. -/
theorem pushAll_eq_ok_iff {is : List (Instruction α)} :
    is.foldlM (fun q i => q.push weights i) p = .ok q ↔
      verifyFrom (p.memory weights) p.instructions.toList is = .ok () ∧
        q = { p with instructions := p.instructions ++ is.toArray } := by
  induction is generalizing p with
  | nil => simp [verifyFrom, pure, Except.pure, eq_comm]
  | cons i is ih =>
    rw [List.foldlM_cons, verifyFrom_cons]
    have checked : i.check (p.memory weights) (activationsWritten p.instructions.toList) = .ok () ↔
        ∃ r, p.push weights i = .ok r := by
      rw [Instruction.check_eq_ok_iff]
      constructor
      · exact fun accepted => ⟨_, push_eq_ok_iff.mpr ⟨accepted, rfl⟩⟩
      · rintro ⟨r, pushed⟩
        exact (push_eq_ok_iff.mp pushed).1
    rw [checked]
    cases pushed : p.push weights i with
    | error e => simp [bind, Except.bind]
    | ok r =>
      obtain ⟨-, rfl⟩ := push_eq_ok_iff.mp pushed
      have joined : p.instructions.push i ++ is.toArray = p.instructions ++ (i :: is).toArray :=
        Array.toList_inj.mp (by simp)
      simp only [bind, Except.bind, ih, memory, Array.toList_push, joined, Except.ok.injEq,
        exists_eq', true_and]

theorem pushAll_bare_iff :
    p.instructions.toList.foldlM (fun q i => q.push weights i) p.bare = .ok p ↔
      p.verify weights = .ok () := by
  rw [pushAll_eq_ok_iff, verify]
  simp [bare, memory]

/-! ## Programs that pass -/

/-- Every activation is written before it is read, a constant activation once and by an initializer,
a constant weight never, and every operand is there. -/
structure Disciplined (p : Program α) (weights : Arena α) : Prop where
  resolved : ∀ i ∈ p.instructions, ∀ o ∈ i.operands, ∃ l,
    (p.memory weights).locate? o.value = some l
  definedFirst : ∀ id, ∀ k ∈ p.users (.activation id), ∃ j ∈ p.writers (.activation id), j < k
  initializedOnce : ∀ id l, p.activations.get? id = some l → l.isConstant = true →
    (p.writers (.activation id)).length ≤ 1 ∧ ∀ j ∈ p.writers (.activation id),
      (∃ i x, p.instructions[j]? = some i ∧ i.kind = .splat x) ∧
        ∀ k ∈ p.users (.activation id), j < k
  frozen : ∀ id l, weights.get? id = some l → l.isConstant = true → p.writers (.weight id) = []

/-- Each instruction of a program that passes is accepted after those at lower positions. -/
theorem accepted_of_verify (passes : p.verify weights = .ok ()) {k : Nat} {i : Instruction α}
    (hi : p.instructions[k]? = some i) :
    ∃ ls, i.Accepted (p.memory weights) (activationsWritten (p.instructions.toList.take k)) ls := by
  obtain ⟨hk, rfl⟩ := Array.getElem?_eq_some_iff.mp hi
  refine verify_eq_ok_iff.mp passes _ _ (p.instructions.toList.drop (k + 1)) ?_
  have hk' : k < p.instructions.toList.length := by simpa using hk
  rw [← Array.getElem_toList, ← List.drop_eq_getElem_cons hk', List.take_append_drop]

theorem fits_of_verify (passes : p.verify weights = .ok ()) {k : Nat} {i : Instruction α}
    (hi : p.instructions[k]? = some i) {o : Operand} (ho : o ∈ i.operands) {l : Location α}
    (hl : (p.memory weights).locate? o.value = some l) :
    Instruction.OperandFits i.kind (p.memory weights)
      (activationsWritten (p.instructions.toList.take k)) o l := by
  obtain ⟨ls, accepted⟩ := accepted_of_verify passes hi
  obtain ⟨l', fits⟩ := accepted.fits ho
  have same : some l' = some l := fits.located.symm.trans hl
  cases same
  exact fits

/-- A constant that a program which passes writes is an activation that nothing before has written,
and what writes it is an initializer. -/
theorem writer_of_constant (passes : p.verify weights = .ok ()) {v : Value} {l : Location α}
    (hl : (p.memory weights).locate? v = some l) (hc : l.isConstant = true) {k : Nat}
    (hk : k ∈ p.writers v) :
    ∃ i id x, p.instructions[k]? = some i ∧ i.kind = .splat x ∧ v = .activation id ∧
      ∀ j ∈ p.writers v, k ≤ j := by
  obtain ⟨i, hi, writes⟩ := mem_indicesOf.mp hk
  simp only [Instruction.writes, List.any_eq_true, Bool.and_eq_true, beq_iff_eq] at writes
  obtain ⟨o, ho, rfl, writes⟩ := writes
  obtain ⟨initializes, activation, undefined⟩ := (fits_of_verify passes hi ho hl).writable writes hc
  obtain ⟨x, kind⟩ : ∃ x, i.kind = .splat x := by
    cases h : i.kind <;> simp_all [Opcode.initializes]
  obtain ⟨id, value⟩ : ∃ id, o.value = .activation id := by
    cases h : o.value <;> simp_all [Value.isActivation]
  refine ⟨i, id, x, hi, kind, value, fun j hj => ?_⟩
  by_contra earlier
  rw [value] at hj undefined
  have defined := isDefined_activation.mpr
    (mem_activationsWritten_take.mpr ⟨j, hj, Nat.lt_of_not_le earlier⟩)
  rw [undefined] at defined
  cases defined

theorem definedFirst_of_verify (passes : p.verify weights = .ok ()) (id : LocationId) :
    ∀ k ∈ p.users (.activation id), ∃ j ∈ p.writers (.activation id), j < k := by
  intro k hk
  obtain ⟨i, hi, reads⟩ := mem_indicesOf.mp hk
  simp only [Instruction.reads, List.any_eq_true, Bool.and_eq_true, beq_iff_eq] at reads
  obtain ⟨o, ho, value, reads⟩ := reads
  obtain ⟨ls, accepted⟩ := accepted_of_verify passes hi
  obtain ⟨l, fits⟩ := accepted.fits ho
  have defined := fits.readable reads
  rw [value] at defined
  exact mem_activationsWritten_take.mp (isDefined_activation.mp defined)

theorem disciplined_of_verify (passes : p.verify weights = .ok ()) : p.Disciplined weights where
  resolved i hi o ho := by
    obtain ⟨k, hk⟩ := Array.getElem?_of_mem hi
    obtain ⟨ls, accepted⟩ := accepted_of_verify passes hk
    obtain ⟨l, fits⟩ := accepted.fits ho
    exact ⟨l, fits.located⟩
  definedFirst := definedFirst_of_verify passes
  initializedOnce id l hl hc := by
    have constant : (p.memory weights).locate? (.activation id) = some l := hl
    have unique : ∀ j ∈ p.writers (.activation id), ∀ k ∈ p.writers (.activation id), j = k := by
      intro j hj k hk
      obtain ⟨-, -, -, -, -, -, firstj⟩ := writer_of_constant passes constant hc hj
      obtain ⟨-, -, -, -, -, -, firstk⟩ := writer_of_constant passes constant hc hk
      exact Nat.le_antisymm (firstj k hk) (firstk j hj)
    have once : (p.writers (.activation id)).length ≤ 1 := by
      have distinct : (p.writers (.activation id)).Nodup := nodup_indicesOf _
      generalize p.writers (.activation id) = ks at unique distinct
      rcases ks with _ | ⟨j, _ | ⟨k, ks⟩⟩
      · exact Nat.zero_le 1
      · exact Nat.le_refl 1
      · obtain rfl := unique j (by simp) k (by simp)
        simp at distinct
    refine ⟨once, fun j hj => ⟨?_, fun k hk => ?_⟩⟩
    · obtain ⟨i, -, x, hi, kind, -⟩ := writer_of_constant passes constant hc hj
      exact ⟨i, x, hi, kind⟩
    · obtain ⟨j', hj', before⟩ := definedFirst_of_verify passes id k hk
      rwa [unique j hj j' hj']
  frozen id l hl hc := by
    refine List.eq_nil_iff_forall_not_mem.mpr fun k hk => ?_
    have constant : (p.memory weights).locate? (.weight id) = some l := hl
    obtain ⟨-, id', -, -, -, value, -⟩ := writer_of_constant passes constant hc hk
    cases value

/-- Drafted over weights that only gain locations, a program notes what it defines, takes exactly the
instructions that `push` takes, and passes.  A program passes if and only if its instructions can be
pushed in order, and then it is disciplined. -/
theorem verification :
    (∀ (weights : Arena α) (d : Draft α), Drafted weights d →
      d.noted = d.program.defined ∧ d.program.verify weights = .ok () ∧
        ∀ i, (d.push weights i).program = (d.program.push weights i).toOption.getD d.program) ∧
    ∀ (weights : Arena α) (p : Program α),
      (p.verify weights = .ok () ↔
        p.instructions.toList.foldlM (fun q i => q.push weights i) p.bare = .ok p) ∧
      (p.verify weights = .ok () → p.Disciplined weights) := by
  refine ⟨fun weights d drafted => ⟨drafted.noted, drafted.grown.verify, fun i => ?_⟩,
    fun weights p => ⟨pushAll_bare_iff.symm, disciplined_of_verify⟩⟩
  obtain ⟨e, pushed, same⟩ | ⟨q, pushed, same⟩ :=
    Draft.push_cases weights drafted.noted i
  · rw [same, pushed]
    rfl
  · rw [same, pushed]
    rfl

end Program

/-- Two calls are refused here: the name of the second activation is taken, and the positions that
the instruction reads come with the second arena. -/
def gatherDraft : Draft Int :=
  ((((Draft.start "gather").newActivation "picked" (.float [2, 2])).newActivation
    "picked" (.float [3])).push ⟨(gatherWeights 0).locations.take 1⟩ gatherRows).push
      (gatherWeights 0) gatherRows

/-- A constant activation that gets its value once and is copied. -/
def unitProgram : Program Int where
  name := "unit"
  instructions := #[.ofValues "one" (.splat 1) [.activation ⟨0⟩],
    .ofValues "copied" .copy [.activation ⟨1⟩, .activation ⟨0⟩]]
  activations := ⟨#[⟨"one", .constant, .hidden, .zeros (.float [2])⟩,
    ⟨"copied", .mutable, .hidden, .zeros (.float [2])⟩]⟩

theorem gatherDraft_drafted : Drafted (gatherWeights 0) gatherDraft := by
  have gains : (gatherWeights 0).Covers ⟨(gatherWeights 0).locations.take 1⟩ := by
    intro id l hl
    obtain ⟨hlt, rfl⟩ := Array.getElem?_eq_some_iff.mp hl
    refine ⟨_, ?_, .refl _⟩
    have : id.index < 1 := hlt
    obtain rfl : id = ⟨0⟩ := by
      cases id
      simp_all
    rfl
  exact .push _ (.widen (.push _ (.newActivation _ _ (.newActivation _ _ (.start _ _)))) gains)

theorem gatherDraft_verification :
    Drafted (gatherWeights 0) gatherDraft ∧ gatherDraft.noted = [⟨0⟩] ∧
      gatherDraft.program.verify (gatherWeights 0) = .ok () ∧
      unitProgram.verify .empty = .ok () ∧ unitProgram.Disciplined .empty ∧
      unitProgram.instructions.toList.foldlM (fun q i => q.push .empty i) unitProgram.bare =
        .ok unitProgram := by
  obtain ⟨noted, passes, -⟩ := Program.verification.1 _ _ gatherDraft_drafted
  have defined : gatherDraft.program.defined = [⟨0⟩] := by cbv
  have unit_passes : unitProgram.verify .empty = .ok () := by cbv
  obtain ⟨rebuilt, disciplined⟩ := Program.verification.2 .empty unitProgram
  exact ⟨gatherDraft_drafted, noted.trans defined, passes, unit_passes, disciplined unit_passes,
    rebuilt.mp unit_passes⟩

end NeuralGraph
