import NeuralGraph.Proofs.Program.Frames
import NeuralGraph.Proofs.Program.Matching

/-!
# What a run depends on

A run depends on what is read before it is written, and on nothing else.  `Sourced known` says of
instructions that they read only values in `known` and what those before them have written.  From
memories that agree on `known`, they fail at the same instruction with the same error or not at all, and
end with the same in all that is known and all that was written.
-/

namespace NeuralGraph
set_option autoImplicit false
variable {α : Type}

theorem Tensor.encoded_congr [Scalar α] {type type' : TensorType α} {a : PlacedArray α}
    (same : type = type') (h : a.dims = type.dims) :
    Tensor.encoded type a h = Tensor.encoded type' a (same ▸ h) := by
  subst same
  rfl

/-- The values `stored` have been stored, the same in both memories, and no others. -/
structure Stored (known : Value → Prop) (stored : List Value) (m n m' n' : Memory α) : Prop where
  agrees : m'.Agrees (fun v => known v ∨ v ∈ stored) n'
  others : ∀ v, v ∉ stored → m'.locate? v = m.locate? v ∧ n'.locate? v = n.locate? v

theorem Stored.refl {known : Value → Prop} {m n : Memory α} (agrees : m.Agrees known n) :
    Stored known [] m n m n :=
  ⟨agrees.mono fun _ h => h.resolve_right List.not_mem_nil, fun _ _ => ⟨rfl, rfl⟩⟩

theorem Stored.trans {known : Value → Prop} {stored stored' : List Value}
    {m n m' n' m'' n'' : Memory α} (h : Stored known stored m n m' n')
    (h' : Stored (fun v => known v ∨ v ∈ stored) stored' m' n' m'' n'') :
    Stored known (stored ++ stored') m n m'' n'' := by
  refine ⟨h'.agrees.mono fun v is => ?_, fun v out => ?_⟩
  · rw [List.mem_append] at is
    tauto
  · rw [List.mem_append, not_or] at out
    obtain ⟨left, right⟩ := h.others v out.1
    obtain ⟨left', right'⟩ := h'.others v out.2
    exact ⟨left'.trans left, right'.trans right⟩

/-- Both succeed, with results in the relation, or both fail with the same error. -/
inductive Parallel {ε β : Type} (R : β → β → Prop) : Except ε β → Except ε β → Prop
  | ok {b c : β} : R b c → Parallel R (.ok b) (.ok c)
  | error (e : ε) : Parallel R (.error e) (.error e)

namespace Instruction

/-- The directions are those of the kind, and what is read is in `known`. -/
structure Reads (known : Value → Prop) (i : Instruction α) : Prop where
  directions : i.operands.map Operand.direction = i.kind.layout
  known : ∀ o ∈ i.operands, o.direction.reads = true → known o.value

/-- Tensors that suit the direction: of one type, and equal if they are read. -/
def Suit (d : Direction) (q : Tensor α × Tensor α) : Prop :=
  q.1.type = q.2.type ∧ (d.reads = true → q.1 = q.2)

variable [Scalar α] {known : Value → Prop} {i : Instruction α} {m n : Memory α}

/-! ## Operands and results -/

omit [Scalar α] in
theorem locate_parallel (agrees : m.Agrees known n) (v : Value) :
    Parallel (fun l k => l.Peers k ∧ (known v → l.payload = k.payload)) (m.locate v) (n.locate v) := by
  cases hl : m.locate? v with
  | some l =>
    obtain ⟨k, hk, same⟩ := agrees.locate? hl
    rw [Memory.locate_eq_ok_iff.mpr hl, Memory.locate_eq_ok_iff.mpr hk]
    exact .ok same
  | none =>
    have hk := agrees.locate?_eq_none hl
    cases v <;> simp only [Memory.locate, Memory.locate?, Arena.get] at hl hk ⊢ <;>
      rw [hl, hk] <;> exact .error _

omit [Scalar α] in
/-- Locations of operands: found in both memories, with tensors that suit the directions. -/
theorem locations_parallel (agrees : m.Agrees known n) {os : List Operand}
    (reads : ∀ o ∈ os, o.direction.reads = true → known o.value) :
    Parallel (fun ls ks => ∃ qs : List (Tensor α × Tensor α),
        ls.map Location.payload = qs.map Prod.fst ∧ ks.map Location.payload = qs.map Prod.snd ∧
          List.Forall₂ Suit (os.map Operand.direction) qs)
      (os.mapM fun (o : Operand) => m.locate o.value)
      (os.mapM fun (o : Operand) => n.locate o.value) := by
  induction os with
  | nil => exact .ok ⟨[], rfl, rfl, .nil⟩
  | cons o os ih =>
    have first := locate_parallel agrees o.value
    have rest := ih fun o ho => reads o (List.mem_cons_of_mem _ ho)
    rw [List.mapM_cons, List.mapM_cons]
    generalize m.locate o.value = r, n.locate o.value = r' at first
    cases first with
    | error e => exact .error e
    | @ok l k same =>
      simp only [bind, Except.bind]
      generalize os.mapM (fun (o : Operand) => m.locate o.value) = s,
        os.mapM (fun (o : Operand) => n.locate o.value) = s' at rest
      cases rest with
      | error e => exact .error e
      | @ok ls ks h =>
        obtain ⟨qs, left, right, suit⟩ := h
        refine .ok ⟨(l.payload, k.payload) :: qs, ?_, ?_, .cons ⟨same.1.type, fun is => ?_⟩ suit⟩
        · rw [List.map_cons, List.map_cons, left]
        · rw [List.map_cons, List.map_cons, right]
        · exact same.2 (reads o List.mem_cons_self is)

omit [Scalar α] in
theorem map_fst_eq_snd {count : Nat} {qs : List (Tensor α × Tensor α)}
    (h : List.Forall₂ Suit (List.replicate count .input) qs) : qs.map Prod.fst = qs.map Prod.snd := by
  induction count generalizing qs with
  | zero =>
    cases h
    rfl
  | succ count ih =>
    cases h with
    | cons first rest => rw [List.map_cons, List.map_cons, first.2 rfl, ih rest]

/-- Results depend on what is read, and on types. -/
theorem results_eq {kind : Opcode α} {qs : List (Tensor α × Tensor α)}
    (h : List.Forall₂ Suit kind.layout qs) :
    results kind (qs.map Prod.fst) = results kind (qs.map Prod.snd) := by
  by_cases update : ∃ rule, kind = .update rule
  -- an update reads all its operands, any other instruction all but the first
  · obtain ⟨rule, rfl⟩ := update
    rcases h with _ | ⟨first, _ | ⟨second, _ | ⟨third, _ | -⟩⟩⟩
    rw [List.map_cons, List.map_cons, List.map_cons, List.map_cons, List.map_cons, List.map_cons,
      first.2 rfl, second.2 rfl, third.2 rfl]
    rfl
  · obtain ⟨count, layout⟩ := layout_first fun rule same => update ⟨rule, same⟩
    rw [layout] at h
    rcases h with _ | ⟨first, rest⟩
    rw [List.map_cons, List.map_cons, map_fst_eq_snd rest]
    exact results_first layout first.1 _

theorem evaluate_eq (agrees : m.Agrees known n) (reads : i.Reads known) :
    i.evaluate m = i.evaluate n := by
  have found := locations_parallel agrees reads.known
  rw [evaluate, evaluate]
  generalize i.operands.mapM (fun (o : Operand) => m.locate o.value) = r,
    i.operands.mapM (fun (o : Operand) => n.locate o.value) = r' at found
  cases found with
  | error e => rfl
  | @ok ls ks h =>
    obtain ⟨qs, left, right, suit⟩ := h
    rw [reads.directions] at suit
    have length : ls.length = ks.length := by
      have payloads := congrArg List.length left
      have payloads' := congrArg List.length right
      rw [List.length_map, List.length_map] at payloads payloads'
      exact payloads.trans payloads'.symm
    simp only [bind, Except.bind, left, right, results_eq suit, length]

/-! ## Steps -/

/-- Where results are stored: in the values up to the first that is refused. -/
def storedOf (i : Instruction α) : List (Value × PlacedArray α) → Memory α → List Value
  | [], _ => []
  | (value, a) :: rest, m =>
    match i.store m value a with
    | .ok m' => value :: i.storedOf rest m'
    | .error _ => []

/-- The values that the instruction stores a result in, whether it succeeds or fails. -/
def stored (i : Instruction α) (m : Memory α) : List Value :=
  match i.evaluate m with
  | .ok arrays => i.storedOf (i.written.zip arrays) m
  | .error _ => []

theorem store_parallel (agrees : m.Agrees known n) (v : Value) (a : PlacedArray α) :
    Parallel (Memory.Agrees fun w => known w ∨ w = v) (i.store m v a) (i.store n v a) := by
  cases hl : m.locate? v with
  | none =>
    have found := locate_parallel agrees v
    have missing : ∀ l, m.locate v ≠ .ok l := fun l hm => by
      rw [Memory.locate_eq_ok_iff, hl] at hm
      cases hm
    rw [store, store]
    generalize m.locate v = r, n.locate v = r' at found missing
    cases found with
    | error e => exact .error e
    | ok _ => exact absurd rfl (missing _)
  | some l =>
    obtain ⟨k, hk, peers, -⟩ := agrees.locate? hl
    rw [store, store, Memory.locate_eq_ok_iff.mpr hl, Memory.locate_eq_ok_iff.mpr hk]
    simp only [bind, Except.bind, peers.isConstant]
    split
    · rw [peers.name]
      exact .error _
    · by_cases fits : a.dims = l.type.dims
      · have fits' : a.dims = k.type.dims := peers.type ▸ fits
        rw [dif_pos fits, dif_pos fits', ← Tensor.encoded_congr peers.type fits]
        exact .ok (agrees.put hl hk _)
      · have unfit : a.dims ≠ k.type.dims := peers.type ▸ fits
        rw [dif_neg fits, dif_neg unfit, peers.name, peers.type]
        exact .error _

theorem storeAll_stored (agrees : m.Agrees known n) (results : List (Value × PlacedArray α)) :
    (i.storeAll results m).2 = (i.storeAll results n).2 ∧
      i.storedOf results m = i.storedOf results n ∧
      Stored known (i.storedOf results m) m n (i.storeAll results m).1 (i.storeAll results n).1 := by
  induction results generalizing known m n with
  | nil => exact ⟨rfl, rfl, .refl agrees⟩
  | cons q results ih =>
    have first := store_parallel (i := i) agrees q.1 q.2
    have frame : ∀ {m m' : Memory α}, i.store m q.1 q.2 = .ok m' → ∀ v, v ≠ q.1 →
        m'.locate? v = m.locate? v := fun done v ne => store_frame done ne.symm
    simp only [storeAll, storedOf]
    cases hm : i.store m q.1 q.2 with
    | error e =>
      rw [hm] at first
      generalize i.store n q.1 q.2 = r' at first
      cases first
      exact ⟨rfl, rfl, .refl agrees⟩
    | ok m' =>
      rw [hm] at first
      cases hn : i.store n q.1 q.2 with
      | error e =>
        rw [hn] at first
        cases first
      | ok n' =>
        rw [hn] at first
        cases first with
        | ok agrees' =>
          obtain ⟨failure, stored, rest⟩ := ih agrees'
          refine ⟨failure, congrArg (q.1 :: ·) stored, rest.agrees.mono fun v h => ?_,
            fun v other => ?_⟩
          · rw [List.mem_cons] at h
            tauto
          · obtain ⟨ne, out⟩ := not_or.mp (mt List.mem_cons.mpr other)
            obtain ⟨left, right⟩ := rest.others v out
            exact ⟨left.trans (frame hm v ne), right.trans (frame hn v ne)⟩

/-- Without a failure every result has been stored. -/
theorem storedOf_of_success {results : List (Value × PlacedArray α)}
    (success : (i.storeAll results m).2 = none) : i.storedOf results m = results.map Prod.fst := by
  induction results generalizing m with
  | nil => rfl
  | cons q results ih =>
    simp only [storeAll, storedOf, List.map_cons] at success ⊢
    cases hm : i.store m q.1 q.2 with
    | error e => simp [hm] at success
    | ok m' =>
      rw [hm] at success
      exact congrArg (q.1 :: ·) (ih success)

theorem results_length {kind : Opcode α} {ts : List (Tensor α)} {arrays : List (PlacedArray α)}
    (h : results kind ts = .ok arrays) :
    arrays.length = (kind.layout.filter Direction.writes).length := by
  by_cases update : ∃ rule, kind = .update rule
  · obtain ⟨rule, rfl⟩ := update
    unfold results at h
    split at h <;> try contradiction
    simp only [UpdateRule.apply, bind, Except.bind] at h
    split at h
    · cases h
    · cases h
      rfl
  · obtain ⟨count, layout⟩ := layout_first fun rule same => update ⟨rule, same⟩
    obtain ⟨a, rfl⟩ := results_single layout h
    rw [layout, List.filter_cons_of_pos rfl, List.filter_replicate]
    rfl

omit [Scalar α] in
/-- All instructions but updates write one value. -/
theorem written_single (directions : i.operands.map Operand.direction = i.kind.layout)
    (other : ∀ rule, i.kind ≠ .update rule) : i.written.length = 1 := by
  obtain ⟨count, layout⟩ := layout_first other
  rw [written, List.length_map, ← List.length_map Operand.direction]
  refine (congrArg List.length (List.filter_map (f := Operand.direction)
    (p := Direction.writes) (l := i.operands)).symm).trans ?_
  rw [directions, layout, List.filter_cons_of_pos rfl, List.filter_replicate]
  rfl

theorem results_of_evaluate {arrays : List (PlacedArray α)} (h : i.evaluate m = .ok arrays) :
    ∃ ts, results i.kind ts = .ok arrays := by
  simp only [evaluate, bind, Except.bind] at h
  split at h
  · cases h
  · split at h
    · cases h
    · split at h
      · next arrays' done =>
        cases h
        exact ⟨_, done⟩
      · cases h

theorem evaluate_length {arrays : List (PlacedArray α)} (reads : i.Reads known)
    (h : i.evaluate m = .ok arrays) : i.written.length = arrays.length := by
  obtain ⟨ts, done⟩ := results_of_evaluate h
  rw [results_length done, ← reads.directions, List.filter_map, List.length_map, written,
    List.length_map]
  rfl

theorem step_stored (agrees : m.Agrees known n) (reads : i.Reads known) :
    (i.step m).2 = (i.step n).2 ∧ i.stored m = i.stored n ∧
      Stored known (i.stored m) m n (i.step m).1 (i.step n).1 := by
  rw [step, step, stored, stored, ← evaluate_eq agrees reads]
  cases i.evaluate m with
  | error e => exact ⟨rfl, rfl, .refl agrees⟩
  | ok arrays => exact storeAll_stored agrees _

/-- An instruction that succeeds has stored in all it writes. -/
theorem stored_of_success (reads : i.Reads known) (success : (i.step m).2 = none) :
    i.stored m = i.written := by
  rw [step] at success
  rw [stored]
  cases done : i.evaluate m with
  | error e => simp [done] at success
  | ok arrays =>
    rw [done] at success
    exact (storedOf_of_success success).trans
      (List.map_fst_zip (Nat.le_of_eq (evaluate_length reads done)))

end Instruction

/-! ## Runs -/

/-- Instructions read only what is known and what those before them have written. -/
def Sourced : (Value → Prop) → List (Instruction α) → Prop
  | _, [] => True
  | known, i :: is => i.Reads known ∧ Sourced (fun v => known v ∨ v ∈ i.written) is

theorem Sourced.mono {known known' : Value → Prop} {is : List (Instruction α)}
    (h : Sourced known is) (more : ∀ v, known v → known' v) : Sourced known' is := by
  induction is generalizing known known' with
  | nil => trivial
  | cons i is ih =>
    exact ⟨⟨h.1.directions, fun o ho read => more _ (h.1.known o ho read)⟩,
      ih h.2 fun v is => is.imp_left (more v)⟩

theorem Sourced.directions {known : Value → Prop} {is : List (Instruction α)}
    (h : Sourced known is) {i : Instruction α} (hi : i ∈ is) :
    i.operands.map Operand.direction = i.kind.layout := by
  induction is generalizing known with
  | nil => cases hi
  | cons j is ih =>
    rcases List.mem_cons.mp hi with rfl | hi
    · exact h.1.directions
    · exact ih h.2 hi

variable [Scalar α]

/-- The values that a run stores in, those of the instruction that fails included. -/
def storedBy : List (Instruction α) → Memory α → List Value
  | [], _ => []
  | i :: is, m => i.stored m ++
    match i.step m with
    | (m', none) => storedBy is m'
    | (_, some _) => []

/-- From memories that agree on what is read, both runs stop at the same place with the same outcome, and
store the same in the same values. -/
theorem execute_stored {known : Value → Prop} {is : List (Instruction α)} {m n : Memory α}
    (sourced : Sourced known is) (agrees : m.Agrees known n) :
    (execute is m).executed = (execute is n).executed ∧
      (execute is m).failure = (execute is n).failure ∧ storedBy is m = storedBy is n ∧
      Stored known (storedBy is m) m n (execute is m).memory (execute is n).memory := by
  induction is generalizing known m n with
  | nil => exact ⟨rfl, rfl, rfl, .refl agrees⟩
  | cons i is ih =>
    obtain ⟨reads, rest⟩ := sourced
    obtain ⟨failure, stored, both⟩ := Instruction.step_stored agrees reads
    have all : (i.step m).2 = none → i.stored m = i.written := Instruction.stored_of_success reads
    simp only [execute, storedBy, ← stored]
    generalize i.stored m = values at both all ⊢
    generalize i.step m = r, i.step n = s at failure both all
    obtain ⟨m', e⟩ := r
    obtain ⟨n', e'⟩ := s
    obtain rfl : e = e' := failure
    cases e with
    | some e =>
      rw [List.append_nil]
      exact ⟨rfl, rfl, rfl, both⟩
    | none =>
      -- the first instruction has succeeded, so the rest may read all it writes
      obtain ⟨executed, failure, stored', both'⟩ :=
        ih (rest.mono fun v h => h.imp_right (all rfl ▸ id)) both.agrees
      exact ⟨congrArg (· + 1) executed, failure, congrArg (values ++ ·) stored', both.trans both'⟩

/-- A run stores in all that instructions write which succeed. -/
theorem mem_storedBy {known : Value → Prop} {is : List (Instruction α)} {m : Memory α} {v : Value}
    (sourced : Sourced known is) (h : v ∈ writtenBy (is.take (execute is m).executed)) :
    v ∈ storedBy is m := by
  induction is generalizing known m with
  | nil => exact h
  | cons i is ih =>
    have all : (i.step m).2 = none → i.stored m = i.written :=
      Instruction.stored_of_success sourced.1
    simp only [execute, storedBy, List.mem_append] at h ⊢
    generalize i.stored m = values at all
    generalize i.step m = r at h all
    obtain ⟨m', e⟩ := r
    cases e with
    | some e => exact absurd h List.not_mem_nil
    | none =>
      rw [List.take_succ_cons, writtenBy, List.flatMap_cons, List.mem_append] at h
      exact h.imp (all rfl ▸ id) (ih sourced.2)

/-- What a verified program reads is defined, and its directions are right. -/
theorem sourced_of_verifyFrom {known : Value → Prop} {is done : List (Instruction α)} {m : Memory α}
    (verified : Program.verifyFrom m done is = .ok ())
    (defined : ∀ id ∈ activationsWritten done, known (.activation id))
    (weights : ∀ i ∈ is, ∀ l, i.reads (.weight l) = true → known (.weight l)) : Sourced known is := by
  induction is generalizing known done with
  | nil => trivial
  | cons i is ih =>
    obtain ⟨checked, later⟩ := Program.verifyFrom_cons.mp verified
    obtain ⟨ls, accepted⟩ := Instruction.check_eq_ok_iff.mp checked
    refine ⟨⟨accepted.directions, fun o ho read => ?_⟩, ih later (fun id hid => ?_)
      fun j hj l read => .inl (weights j (List.mem_cons_of_mem _ hj) l read)⟩
    · obtain ⟨k, fits⟩ := accepted.fits ho
      have ready := fits.readable read
      cases value : o.value with
      | weight l =>
        refine weights i List.mem_cons_self l (List.any_eq_true.mpr ⟨o, ho, ?_⟩)
        rw [value, read, beq_self_eq_true, Bool.and_self]
      | activation id =>
        rw [value] at ready
        exact defined id (List.contains_iff_mem.mp ready)
    -- what is defined for the rest is what was defined and what this instruction writes
    · rw [activationsWritten, List.flatMap_append, List.mem_append] at hid
      rcases hid with old | new
      · exact .inl (defined id old)
      · simp only [List.flatMap_cons, List.flatMap_nil, List.append_nil, List.mem_filterMap] at new
        obtain ⟨v, hv, same⟩ := new
        cases v with
        | weight l => cases same
        | activation id' =>
          cases same
          exact .inr hv

/-! ## Runs from other activations -/

/-- Runs from `m` and from `n` stop at the same place for the same reason and leave the same weights.  They
store in the same values, which hold the same when both have stopped, and all that instructions write
which succeed is among them. -/
structure RunsSame (is : List (Instruction α)) (m n : Memory α) : Prop where
  executed : (execute is m).executed = (execute is n).executed
  failure : (execute is m).failure = (execute is n).failure
  weights : (execute is m).memory.weights = (execute is n).memory.weights
  stored : storedBy is m = storedBy is n
  same : ∀ v ∈ storedBy is m, (execute is m).memory.locate? v = (execute is n).memory.locate? v
  written : ∀ v ∈ writtenBy (is.take (execute is m).executed), v ∈ storedBy is m

omit [Scalar α] in
/-- Memories agree on weights that hold the same. -/
theorem Memory.agrees_of_weights {a b weights weights' : Arena α} (peers : a.Peers b)
    (peers' : weights.Peers weights') {kept : LocationId → Prop}
    (same : ∀ id, kept id → weights.get? id = weights'.get? id) :
    Memory.Agrees (fun v => ∃ id, v = .weight id ∧ kept id) (⟨a, weights⟩ : Memory α)
      ⟨b, weights'⟩ := by
  intro v
  cases v with
  | weight id =>
    refine (?_ : Option.Rel _ (weights.get? id) (weights'.get? id))
    have rel := peers' id
    have equal := same id
    generalize weights.get? id = l, weights'.get? id = k at rel equal
    cases rel with
    | none => exact .none
    | some located =>
      refine .some ⟨located, ?_⟩
      rintro ⟨_, ⟨⟩, is⟩
      rw [Option.some.inj (equal is)]
  | activation id =>
    refine (?_ : Option.Rel _ (a.get? id) (b.get? id))
    have rel := peers id
    generalize a.get? id = l, b.get? id = k at rel
    cases rel with
    | none => exact .none
    | some located =>
      refine .some ⟨located, ?_⟩
      rintro ⟨_, ⟨⟩, -⟩

/-- What activations hold when a verified program starts has no influence on its run. -/
theorem Program.runsSame {p : Program α} {w a b : Arena α} (verified : p.verify w = .ok ())
    (peers : a.Peers b) (weights : Arena α) :
    RunsSame p.instructions.toList (⟨a, weights⟩ : Memory α) ⟨b, weights⟩ := by
  have agrees : Memory.Agrees (fun v => ∃ id, v = .weight id ∧ True) (⟨a, weights⟩ : Memory α)
      ⟨b, weights⟩ := Memory.agrees_of_weights peers (.refl weights) fun _ _ => rfl
  have sourced : Sourced (fun v => ∃ id, v = .weight id ∧ True) p.instructions.toList :=
    sourced_of_verifyFrom verified (fun _ h => absurd h List.not_mem_nil)
      fun _ _ l _ => ⟨l, rfl, trivial⟩
  obtain ⟨executed, failure, stored, both⟩ := execute_stored sourced agrees
  exact ⟨executed, failure,
    Arena.ext_get? fun id => both.agrees.locate?_eq (v := .weight id) (.inl ⟨id, rfl, trivial⟩),
    stored, fun v h => both.agrees.locate?_eq (.inr h), fun v h => mem_storedBy sourced h⟩

/-! ## Runs that are repeated -/

/-- Run again from weights that hold what they did where nothing was stored, instructions do the same, if
they read no weight that they write. -/
theorem execute_again {is : List (Instruction α)} {m n : Memory α}
    (sourced : Sourced (fun v => ∃ id, v = .weight id ∧ Value.weight id ∉ writtenBy is) is)
    (activations : m.activations.Peers n.activations) (weights : m.weights.Peers n.weights)
    (kept : ∀ id, .weight id ∉ writtenBy (is.take (execute is m).executed) →
      m.weights.get? id = n.weights.get? id) :
    (execute is n).failure = (execute is m).failure ∧
      (execute is n).memory.weights = (execute is m).memory.weights := by
  have less : ∀ v ∈ writtenBy (is.take (execute is m).executed), v ∈ writtenBy is := by
    intro v h
    obtain ⟨i, hi, written⟩ := List.mem_flatMap.mp h
    exact List.mem_flatMap.mpr ⟨i, List.mem_of_mem_take hi, written⟩
  have sourced : Sourced (fun v => ∃ id, v = .weight id ∧
      Value.weight id ∉ writtenBy (is.take (execute is m).executed)) is := by
    refine sourced.mono ?_
    rintro _ ⟨id, rfl, unwritten⟩
    exact ⟨id, rfl, fun h => unwritten (less _ h)⟩
  obtain ⟨-, failure, -, both⟩ :=
    execute_stored sourced (Memory.agrees_of_weights activations weights kept)
  refine ⟨failure.symm, Arena.ext_get? fun id => ?_⟩
  by_cases h : .weight id ∈ writtenBy (is.take (execute is m).executed)
  · exact (both.agrees.locate?_eq (v := .weight id) (.inr (mem_storedBy sourced h))).symm
  · exact (both.agrees.locate?_eq (v := .weight id) (.inl ⟨id, rfl, h⟩)).symm

/-- No instruction updates weights, and none reads a weight that one of them writes. -/
structure Program.Inferential (p : Program α) : Prop where
  other : ∀ i ∈ p.instructions.toList, ∀ rule, i.kind ≠ .update rule
  apart : ∀ i ∈ p.instructions.toList, ∀ j ∈ p.instructions.toList, ∀ l,
    .weight l ∈ i.written → j.reads (.weight l) = false

namespace Program
variable {p : Program α} {w a b : Arena α}

theorem Inferential.sourced (h : p.Inferential) (verified : p.verify w = .ok ()) :
    Sourced (fun v => ∃ id, v = .weight id ∧ Value.weight id ∉ writtenBy p.instructions.toList)
      p.instructions.toList := by
  refine sourced_of_verifyFrom verified (fun _ h => absurd h List.not_mem_nil)
    fun j hj l reads => ⟨l, rfl, fun written => ?_⟩
  obtain ⟨i, hi, written⟩ := List.mem_flatMap.mp written
  simp [h.apart i hi j hj l written] at reads

theorem run_frame (h : p.Inferential) (verified : p.verify w = .ok ()) {l : LocationId}
    (unwritten : .weight l ∉ writtenBy (p.instructions.toList.take (p.run a).executed)) :
    (p.run a).memory.weights.get? l = a.get? l :=
  execute_frame_of_single (v := .weight l) (fun _ hi => (Instruction.written_single
    ((h.sourced verified).directions hi) (h.other _ hi)).le) unwritten

/-- Such a program does the same again after a run, from weights that hold what they did where the run has
stored nothing. -/
theorem run_again (h : p.Inferential) (verified : p.verify w = .ok ()) (peers : b.Peers a)
    (same : ∀ l, .weight l ∉ writtenBy (p.instructions.toList.take (p.run a).executed) →
      b.get? l = a.get? l) :
    ((p.after (p.run a)).run b).failure = (p.run a).failure ∧
      ((p.after (p.run a)).run b).memory.weights = (p.run a).memory.weights := by
  have ran : (p.run a).memory.Peers (p.memory a) := execute_peers _ _
  exact execute_again (n := ⟨(p.run a).memory.activations, b⟩) (h.sourced verified)
    ran.activations.symm peers.symm fun l unwritten => (same l unwritten).symm

end Program
end NeuralGraph
