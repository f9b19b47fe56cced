import NeuralGraph.Proofs.Program.Frames

/-!
# Instructions that fail

Tags may change after an instruction was accepted, so it may come upon a constant when it runs.  An
instruction that fails has stored nothing, with one exception: the update of a weight that may be
written with a velocity that may not has stored the weight by the time it is refused.
-/

namespace NeuralGraph
set_option autoImplicit false
variable {α : Type}

/-! ## Memories that fit -/

/-- Every location of `n` is one of `m` with its type; tags and contents may be others. -/
def Memory.Fits (m n : Memory α) : Prop :=
  ∀ v l, n.locate? v = some l → ∃ k, m.locate? v = some k ∧ k.type = l.type

theorem Memory.Covers.fits {m n : Memory α} (h : m.Covers n) : m.Fits n := by
  intro v l hl
  obtain ⟨k, hk, alike⟩ := h v l hl
  exact ⟨k, hk, alike.type⟩

namespace Instruction
variable [Scalar α]

/-- The operands are there, with the directions and types that the kind asks for. -/
structure Typed (i : Instruction α) (m : Memory α) (ls : List (Location α)) : Prop where
  directions : i.operands.map Operand.direction = i.kind.layout
  located : i.LocatedIn m ls
  signature : Signature.instruction i.kind (ls.map Location.type) = .ok ()

theorem Accepted.typed {i : Instruction α} {m : Memory α} {defined : List LocationId}
    {ls : List (Location α)} (accepted : i.Accepted m defined ls) : i.Typed m ls :=
  ⟨accepted.directions, accepted.locatedIn, accepted.signature⟩

theorem Typed.mono {i : Instruction α} {m M : Memory α} {ls : List (Location α)}
    (typed : i.Typed m ls) (fits : M.Fits m) : ∃ ks, i.Typed M ks := by
  obtain ⟨directions, located, signature⟩ := typed
  have found : ∃ ks, i.LocatedIn M ks ∧ ks.map Location.type = ls.map Location.type := by
    clear directions signature
    unfold LocatedIn at located ⊢
    generalize i.operands = os at located ⊢
    induction located with
    | nil => exact ⟨[], .nil, rfl⟩
    | cons hl _ ih =>
      obtain ⟨k, hk, type⟩ := fits _ _ hl
      obtain ⟨ks, hks, types⟩ := ih
      exact ⟨k :: ks, .cons hk hks, by rw [List.map_cons, List.map_cons, type, types]⟩
  obtain ⟨ks, hks, types⟩ := found
  exact ⟨ks, directions, hks, types ▸ signature⟩

end Instruction

/-- Programs in the making whose storage changes between instructions: locations are added, and those
that are there get other tags and other contents. -/
inductive Program.Handled [Scalar α] : Arena α → Program α → Prop
  | empty (weights : Arena α) (name : String) : Handled weights (.empty name)
  | alter {weights weights' activations : Arena α} {p : Program α} : Handled weights p →
      Memory.Fits ⟨activations, weights'⟩ (p.memory weights) →
      Handled weights' { p with activations := activations }
  | push {weights : Arena α} {p p' : Program α} {i : Instruction α} :
      Handled weights p → p.push weights i = .ok p' → Handled weights p'

theorem Program.Handled.typed [Scalar α] {weights : Arena α} {p : Program α}
    (handled : p.Handled weights) : ∀ i ∈ p.instructions, ∃ ls, i.Typed (p.memory weights) ls := by
  induction handled with
  | empty weights name => simp
  | alter _ fits ih =>
    intro i hi
    obtain ⟨ls, typed⟩ := ih i hi
    exact typed.mono fits
  | push _ pushed ih =>
    obtain ⟨⟨ls, accepted⟩, rfl⟩ := push_eq_ok_iff.mp pushed
    intro i hi
    rcases Array.mem_push.mp hi with hi | rfl
    · exact ih i hi
    · exact ⟨ls, accepted.typed⟩

/-! ## The one instruction that tears -/

/-- The update of a weight in `u` that may be written, with a velocity in `v` that may not. -/
structure Instruction.HalfFrozen (i : Instruction α) (m : Memory α) (u v : Value)
    (l k : Location α) : Prop where
  update : ∃ rule, i.kind = .update rule
  written : i.written = [u, v]
  weight : m.locate? u = some l
  velocity : m.locate? v = some k
  writable : l.isConstant = false
  refused : k.isConstant = true

namespace Instruction

theorem HalfFrozen.of_peers {i : Instruction α} {m n : Memory α} {u v : Value} {l k : Location α}
    (half : i.HalfFrozen m u v l k) (peers : m.Peers n) :
    ∃ l' k', i.HalfFrozen n u v l' k' := by
  have found {w : Value} {l : Location α} (hl : m.locate? w = some l) :
      ∃ l', n.locate? w = some l' ∧ l.Peers l' := by
    cases w with
    | weight id => exact peers.weights.get? hl
    | activation id => exact peers.activations.get? hl
  obtain ⟨l', hl', like⟩ := found half.weight
  obtain ⟨k', hk', like'⟩ := found half.velocity
  exact ⟨l', k', half.update, half.written, hl', hk', like.isConstant ▸ half.writable,
    like'.isConstant ▸ half.refused⟩

theorem mayWrite_of_mutable {i : Instruction α} {v : Value} {l : Location α}
    (h : l.isConstant = false) : i.MayWrite v l := by
  intro constant
  rw [h] at constant
  cases constant

variable [Scalar α]

theorem Typed.update {i : Instruction α} {m : Memory α} {ls : List (Location α)}
    (typed : i.Typed m ls) {rule : UpdateRule α} (hk : i.kind = .update rule) :
    ∃ (u v : Value) (l k : Location α) (x y : PlacedArray α), i.written = [u, v] ∧
      m.locate? u = some l ∧ m.locate? v = some k ∧ i.evaluate m = .ok [x, y] ∧
      x.dims = l.type.dims ∧ y.dims = k.type.dims := by
  obtain ⟨a, b, c, p, q, r, x, y, -, -, -, -, written, hp, hr, -, evaluated, hx, hy⟩ :=
    typed.located.update hk typed.directions typed.signature
  exact ⟨a.value, c.value, p, r, x, y, written, hp, hr, evaluated, hx, hy⟩

theorem store_of_constant {i : Instruction α} {m : Memory α} {v : Value} {l : Location α}
    (hl : m.locate? v = some l) (constant : l.isConstant = true) (h : i.kind.initializes = false)
    (a : PlacedArray α) : i.store m v a = .error (.constantWrite i.name l.name) := by
  rw [store, Memory.locate_eq_ok_iff.mpr hl]
  simp [bind, Except.bind, constant, h]

/-- A half-frozen update stores the weight and is refused at the velocity. -/
theorem HalfFrozen.step_eq {i : Instruction α} {m : Memory α} {u v : Value} {l k : Location α}
    (half : i.HalfFrozen m u v l k) {ls : List (Location α)} (typed : i.Typed m ls) :
    ∃ (x y : PlacedArray α) (h : x.dims = l.type.dims), i.evaluate m = .ok [x, y] ∧
      i.step m = (m.put u { l with payload := .encoded l.type x h },
        some (.constantWrite i.name k.name)) := by
  obtain ⟨⟨rule, hk⟩, written, hl, hv, writable, refused⟩ := half
  obtain ⟨u', v', l', k', x, y, written', hl', hv', evaluated, hx, -⟩ := typed.update hk
  cases written.symm.trans written'
  cases hl.symm.trans hl'
  cases hv.symm.trans hv'
  have apart : u ≠ v := by
    rintro rfl
    cases hl.symm.trans hv
    rw [writable] at refused
    cases refused
  have kind : i.kind.initializes = false := by rw [hk]; rfl
  refine ⟨x, y, hx, evaluated, ?_⟩
  rw [step, evaluated]
  simp only [written, List.zip_cons_cons, List.zip_nil_right, storeAll,
    store_eq hl (mayWrite_of_mutable writable), dif_pos hx]
  rw [store_of_constant ((Memory.locate?_put_ne m _ apart).trans hv) refused kind]

/-- Any other instruction that fails has stored nothing. -/
theorem Typed.step_of_failure {i : Instruction α} {m : Memory α} {ls : List (Location α)}
    (typed : i.Typed m ls) (whole : ¬∃ u v l k, i.HalfFrozen m u v l k)
    (failed : (i.step m).2 ≠ none) : (i.step m).1 = m := by
  rcases i.writesFirst_or_update with first | ⟨rule, hk⟩
  · obtain ⟨o, os, -, -, written⟩ := first.written typed.directions
    exact Instruction.step_of_failure (by simp [written]) failed
  · obtain ⟨u, v, l, k, x, y, written, hl, hv, evaluated, hx, hy⟩ := typed.update hk
    have kind : i.kind.initializes = false := by rw [hk]; rfl
    cases frozen : l.isConstant with
    | true =>
      -- The weight is stored first, so a constant weight is refused before anything is stored.
      rw [step, evaluated]
      simp only [written, List.zip_cons_cons, List.zip_nil_right, storeAll,
        store_of_constant hl frozen kind]
    | false =>
      cases stopped : k.isConstant with
      | true => exact absurd ⟨u, v, l, k, ⟨rule, hk⟩, written, hl, hv, frozen, stopped⟩ whole
      | false =>
        rw [step_of_results written evaluated hl hv (mayWrite_of_mutable frozen)
          (mayWrite_of_mutable stopped) hx hy] at failed
        exact absurd rfl failed

/-! ## What an instruction fails with -/

/-- The error is a fault of the kernel of the instruction, or a constant that it writes. -/
def Raises (i : Instruction α) (e : Error α) : Prop :=
  (∃ fault, e = .kernel i.name fault) ∨ ∃ location, e = .constantWrite i.name location

omit [Scalar α] in
theorem LocatedIn.located {i : Instruction α} {m : Memory α} {ls : List (Location α)}
    (located : i.LocatedIn m ls) {o : Operand} (ho : o ∈ i.operands) :
    ∃ l, m.locate? o.value = some l := by
  obtain ⟨n, hn, rfl⟩ := List.getElem_of_mem ho
  obtain ⟨length, found⟩ := List.forall₂_iff_get.mp located
  exact ⟨_, found n hn (length ▸ hn)⟩

theorem LocatedIn.evaluate_error {i : Instruction α} {m : Memory α} {ls : List (Location α)}
    {e : Error α} (located : i.LocatedIn m ls) (h : i.evaluate m = .error e) :
    ∃ fault, e = .kernel i.name fault := by
  rw [evaluate, mapM_eq_ok_of_forall₂
    (located.imp fun _ _ located => Memory.locate_eq_ok_iff.mpr located)] at h
  simp only [bind, Except.bind] at h
  split at h
  · cases h
    exact ⟨_, rfl⟩
  · split at h
    · cases h
    · cases h
      exact ⟨_, rfl⟩

theorem store_raises {i : Instruction α} {m : Memory α} {v : Value} {l : Location α}
    {a : PlacedArray α} {e : Error α} (hl : m.locate? v = some l) (h : i.store m v a = .error e) :
    i.Raises e := by
  rw [store, Memory.locate_eq_ok_iff.mpr hl] at h
  simp only [bind, Except.bind] at h
  split at h
  · cases h
    exact .inr ⟨_, rfl⟩
  · split at h
    · cases h
    · cases h
      exact .inl ⟨_, rfl⟩

theorem storeAll_raises {i : Instruction α} {results : List (Value × PlacedArray α)} {m : Memory α}
    {e : Error α} (located : ∀ r ∈ results, ∃ l, m.locate? r.1 = some l)
    (h : (i.storeAll results m).2 = some e) : i.Raises e := by
  induction results generalizing m with
  | nil => cases h
  | cons r results ih =>
    obtain ⟨l, hl⟩ := located r List.mem_cons_self
    simp only [storeAll] at h
    cases stored : i.store m r.1 r.2 with
    | error e' =>
      rw [stored] at h
      cases h
      exact store_raises hl stored
    | ok m' =>
      rw [stored] at h
      refine ih (fun q hq => ?_) h
      obtain ⟨k, hk⟩ := located q (List.mem_cons_of_mem _ hq)
      obtain ⟨k', hk', -⟩ := store_covers stored q.1 k hk
      exact ⟨k', hk'⟩

theorem LocatedIn.raises {i : Instruction α} {m : Memory α} {ls : List (Location α)} {e : Error α}
    (located : i.LocatedIn m ls) (h : (i.step m).2 = some e) : i.Raises e := by
  rw [step] at h
  cases done : i.evaluate m with
  | error e' =>
    rw [done] at h
    cases h
    exact .inl (located.evaluate_error done)
  | ok arrays =>
    rw [done] at h
    refine storeAll_raises (fun r hr => ?_) h
    obtain ⟨o, ho, same⟩ := List.mem_map.mp (List.of_mem_zip hr).1
    exact same ▸ located.located (List.mem_filter.mp ho).1

end Instruction

/-! ## Runs that fail -/

variable [Scalar α]

namespace Program

/-- An instruction that fails has stored nothing unless it is half frozen; and a half-frozen update
does fail, having stored the new weight and nothing else.  A run that fails leaves what the
instructions before the failing one left, unless that one is half frozen. -/
theorem Handled.step_atomic {weights : Arena α} {p : Program α} (handled : p.Handled weights) :
    (∀ i ∈ p.instructions, ∀ m' e, i.step (p.memory weights) = (m', some e) →
      (¬∃ u v l k, i.HalfFrozen (p.memory weights) u v l k) → m' = p.memory weights) ∧
    (∀ i ∈ p.instructions, ∀ u v l k, i.HalfFrozen (p.memory weights) u v l k →
      ∃ (x y : PlacedArray α) (h : x.dims = l.type.dims),
        i.evaluate (p.memory weights) = .ok [x, y] ∧
        i.step (p.memory weights) =
          ((p.memory weights).put u { l with payload := .encoded l.type x h },
            some (.constantWrite i.name k.name))) ∧
    ∀ e, (p.run weights).failure = some e →
      ∃ i, p.instructions[(p.run weights).executed]? = some i ∧
        let before := execute (p.instructions.toList.take (p.run weights).executed) (p.memory weights)
        before.failure = none ∧ i.step before.memory = ((p.run weights).memory, some e) ∧
        ((¬∃ u v l k, i.HalfFrozen (p.memory weights) u v l k) →
          (p.run weights).memory = before.memory) := by
  refine ⟨fun i hi m' e failed whole => ?_, fun i hi u v l k half => ?_, fun e failed => ?_⟩
  · obtain ⟨ls, typed⟩ := handled.typed i hi
    have kept := typed.step_of_failure whole (by rw [failed]; simp)
    rwa [failed] at kept
  · obtain ⟨ls, typed⟩ := handled.typed i hi
    exact half.step_eq typed
  · obtain ⟨i, hi, before, last⟩ := execute_before_failure failed
    rw [Array.getElem?_toList] at hi
    refine ⟨i, hi, before, last, fun whole => ?_⟩
    -- What ran before has changed contents only, so the instruction is as whole as at the start.
    have peers := execute_peers (p.instructions.toList.take (p.run weights).executed)
      (p.memory weights)
    obtain ⟨ks, typed⟩ := handled.typed i (Array.mem_of_getElem? hi)
    obtain ⟨ls, typed⟩ := typed.mono peers.covers.fits
    have kept := typed.step_of_failure (fun ⟨u, v, l, k, half⟩ =>
      whole ⟨u, v, half.of_peers peers⟩) (by rw [run, last]; simp)
    rwa [run, last] at kept

end Program

/-- A weight of 5, its gradient of 2 and its velocity of 3, the first and the last with given tags. -/
def descentWeights (weight velocity : Mutability) : Arena Int where
  locations := #[⟨"w", weight, .exposed, .full (.float [1]) 5⟩,
    ⟨"g", .mutable, .exposed, .full (.float [1]) 2⟩,
    ⟨"v", velocity, .exposed, .full (.float [1]) 3⟩]

def descent : Instruction Int :=
  .ofValues "descent" (.update ⟨1, 1, 0⟩) [.weight ⟨0⟩, .weight ⟨1⟩, .weight ⟨2⟩]

def descentProgram : Program Int := { Program.empty "descent" with instructions := #[descent] }

theorem descentWeights_fits (weight velocity weight' velocity' : Mutability) :
    (descentProgram.memory (descentWeights weight velocity)).Fits
      (descentProgram.memory (descentWeights weight' velocity')) := by
  intro v l hl
  cases v with
  | activation id =>
    have none : (descentProgram.activations.get? id) = some l := hl
    simp [descentProgram, Program.empty, Arena.empty, Arena.get?] at none
  | weight id =>
    obtain ⟨hlt, rfl⟩ := Array.getElem?_eq_some_iff.mp
      (show (descentWeights weight' velocity').locations[id.index]? = some l from hl)
    have small : id.index < (descentWeights weight velocity).locations.size := hlt
    refine ⟨(descentWeights weight velocity).locations[id.index],
      Array.getElem?_eq_getElem small, ?_⟩
    have small : id.index < 3 := hlt
    obtain h | h | h : id.index = 0 ∨ id.index = 1 ∨ id.index = 2 := by omega
    all_goals simp only [h]; rfl

/-- The tags may become any after the push. -/
theorem descentProgram_handled (weight velocity : Mutability) :
    descentProgram.Handled (descentWeights weight velocity) := by
  have pushed : (Program.empty "descent").push (descentWeights .mutable .mutable) descent =
      .ok descentProgram := by cbv
  exact .alter (p := descentProgram) (.push (.empty _ _) pushed)
    (descentWeights_fits weight velocity .mutable .mutable)

theorem descent_halfFrozen :
    descent.HalfFrozen (descentProgram.memory (descentWeights .mutable .constant)) (.weight ⟨0⟩)
      (.weight ⟨2⟩) ⟨"w", .mutable, .exposed, .full (.float [1]) 5⟩
      ⟨"v", .constant, .exposed, .full (.float [1]) 3⟩ :=
  ⟨⟨_, rfl⟩, rfl, rfl, rfl, rfl, rfl⟩

theorem descent_whole :
    ¬∃ u v l k, descent.HalfFrozen (descentProgram.memory (descentWeights .constant .mutable)) u v
      l k := by
  rintro ⟨u, v, l, k, -, written, hl, -, writable, -⟩
  cases written
  cases hl
  cases writable

theorem descent_step_atomic :
    (descent.step (descentProgram.memory (descentWeights .constant .mutable))).1 =
        descentProgram.memory (descentWeights .constant .mutable) ∧
      (∃ (x y : PlacedArray Int) (h : x.dims = [1]),
        descent.evaluate (descentProgram.memory (descentWeights .mutable .constant)) = .ok [x, y] ∧
        descent.step (descentProgram.memory (descentWeights .mutable .constant)) =
          ((descentProgram.memory (descentWeights .mutable .constant)).put (.weight ⟨0⟩)
            ⟨"w", .mutable, .exposed, .encoded (.float [1]) x h⟩,
            some (.constantWrite "descent" "v"))) ∧
      (descentProgram.run (descentWeights .constant .mutable)).memory =
        descentProgram.memory (descentWeights .constant .mutable) := by
  have mem : descent ∈ descentProgram.instructions := by simp [descentProgram]
  refine ⟨?_, ?_, ?_⟩
  · have failed : (descent.step (descentProgram.memory (descentWeights .constant .mutable))).2 =
        some (.constantWrite "descent" "w") := by cbv
    exact (descentProgram_handled .constant .mutable).step_atomic.1 descent mem _ _
      (Prod.ext rfl failed) descent_whole
  · exact (descentProgram_handled .mutable .constant).step_atomic.2.1 descent mem _ _ _ _
      descent_halfFrozen
  · have failed : (descentProgram.run (descentWeights .constant .mutable)).failure =
        some (.constantWrite "descent" "w") := by cbv
    have executed : (descentProgram.run (descentWeights .constant .mutable)).executed = 0 := by cbv
    obtain ⟨i, hi, -, -, kept⟩ :=
      (descentProgram_handled .constant .mutable).step_atomic.2.2 _ failed
    rw [executed] at hi kept
    cases hi
    exact kept descent_whole

/-- The weight has moved from 5 to 6 by the time the velocity is refused. -/
theorem descent_tears :
    ¬∀ (weights : Arena Int) (p : Program Int), p.Handled weights → ∀ i ∈ p.instructions,
      ∀ m' e, i.step (p.memory weights) = (m', some e) → m' = p.memory weights := by
  intro atomic
  have failed : (descent.step (descentProgram.memory (descentWeights .mutable .constant))).2 =
      some (.constantWrite "descent" "v") := by cbv
  have kept : (descent.step (descentProgram.memory (descentWeights .mutable .constant))).1 =
      descentProgram.memory (descentWeights .mutable .constant) :=
    atomic _ _ (descentProgram_handled .mutable .constant) descent (by simp [descentProgram]) _ _
      (Prod.ext rfl failed)
  have moved : ((descent.step (descentProgram.memory
      (descentWeights .mutable .constant))).1.weights.get? ⟨0⟩).map
        (fun l => l.payload.decoded.array.data.toList) = some [6] := by cbv
  rw [kept] at moved
  have old : ((descentProgram.memory (descentWeights .mutable .constant)).weights.get? ⟨0⟩).map
      (fun l => l.payload.decoded.array.data.toList) = some [5] := by cbv
  rw [old] at moved
  cases moved

end NeuralGraph
