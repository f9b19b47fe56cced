import NeuralGraph.Proofs.Binary32.Quantization
import NeuralGraph.Proofs.Module.Typing
import NeuralGraph.Proofs.Program.Independence
import NeuralGraph.Proofs.Program.Stepping

/-!
# Copies

A copy reads the numbers that stored elements stand for and stores these.  Elements without
quantization arrive as they are; quantized ones go through binary32 and back, which loses some of
them.  What instructions have stored narrows down what can arrive.
-/

namespace NeuralGraph
set_option autoImplicit false

/-! ## What instructions have stored -/

section
variable {α : Type} [Scalar α] {m : Memory α} {v : Value}

/-- What lies at `v` was stored there by an instruction. -/
def Memory.StoredAt (m : Memory α) (v : Value) : Prop :=
  ∃ (i : Instruction α) (before : Memory α),
    v ∈ i.stored before ∧ m.locate? v = (i.step before).1.locate? v

/-- The elements at `v` were made for numbers. -/
def Memory.EncodedAt (m : Memory α) (v : Value) : Prop :=
  ∀ l, m.locate? v = some l → ∃ (a : PlacedArray α) (fits : a.dims = l.type.dims),
    l.payload = .encoded l.type a fits

namespace Instruction

theorem store_encoded {i : Instruction α} {m' : Memory α} {a : PlacedArray α}
    (h : i.store m v a = .ok m') : m'.EncodedAt v := by
  simp only [store, bind, Except.bind] at h
  split at h
  · cases h
  · next l found =>
    split at h
    · cases h
    · split at h
      · next fits =>
        cases h
        intro k hk
        rw [Memory.locate?_put_self m (Memory.locate_eq_ok_iff.mp found)] at hk
        cases hk
        exact ⟨a, fits, rfl⟩
      · cases h

theorem storeAll_keeps_encoded {i : Instruction α} {results : List (Value × PlacedArray α)}
    (h : m.EncodedAt v) : (i.storeAll results m).1.EncodedAt v := by
  induction results generalizing m with
  | nil => exact h
  | cons q results ih =>
    rw [storeAll]
    cases done : i.store m q.1 q.2 with
    | error e => exact h
    | ok m' =>
      by_cases same : q.1 = v
      · exact ih (same ▸ store_encoded done)
      · refine ih fun l hl => h l ?_
        rw [← store_frame done same]
        exact hl

theorem storeAll_encoded {i : Instruction α} {results : List (Value × PlacedArray α)}
    (h : v ∈ i.storedOf results m) : (i.storeAll results m).1.EncodedAt v := by
  induction results generalizing m with
  | nil => cases h
  | cons q results ih =>
    rw [storeAll]
    rw [storedOf] at h
    cases done : i.store m q.1 q.2 with
    | error e =>
      rw [done] at h
      cases h
    | ok m' =>
      rw [done] at h
      rcases List.mem_cons.mp h with rfl | h
      · exact storeAll_keeps_encoded (store_encoded done)
      · exact ih h

theorem step_encoded {i : Instruction α} (h : v ∈ i.stored m) : (i.step m).1.EncodedAt v := by
  rw [step]
  rw [stored] at h
  cases done : i.evaluate m with
  | error e =>
    rw [done] at h
    cases h
  | ok arrays =>
    rw [done] at h
    exact storeAll_encoded h

end Instruction

theorem Memory.StoredAt.encoded (h : m.StoredAt v) : m.EncodedAt v := by
  obtain ⟨i, before, stored, same⟩ := h
  intro l hl
  exact Instruction.step_encoded stored l (same ▸ hl)

theorem Memory.StoredAt.step (h : m.StoredAt v) (i : Instruction α) : (i.step m).1.StoredAt v := by
  by_cases anew : v ∈ i.stored m
  · exact ⟨i, m, anew, rfl⟩
  · have alone : (i.step m).1.locate? v = m.locate? v := by
      rw [Instruction.step]
      rw [Instruction.stored] at anew
      cases done : i.evaluate m with
      | error e => rfl
      | ok arrays =>
        rw [done] at anew
        have agrees : m.Agrees (fun _ => True) m := .refl m
        exact ((Instruction.storeAll_stored agrees _).2.2.others v anew).1
    obtain ⟨j, before, stored, same⟩ := h
    exact ⟨j, before, stored, alone.trans same⟩

theorem Memory.StoredAt.execute (h : m.StoredAt v) (is : List (Instruction α)) :
    (NeuralGraph.execute is m).memory.StoredAt v := by
  induction is generalizing m with
  | nil => exact h
  | cons i is ih =>
    have next := h.step i
    rw [NeuralGraph.execute]
    generalize i.step m = r at next
    obtain ⟨m', e⟩ := r
    cases e with
    | none => exact ih next
    | some e => exact next

theorem Instruction.step_copy {name : String} {target source : Value} {t s : Location α}
    (ht : m.locate? target = some t) (hs : m.locate? source = some s) (free : t.isConstant = false)
    (fits : s.payload.decoded.dims = t.type.dims) :
    (ofValues name .copy [target, source]).step m =
      (m.put target { t with payload := .encoded t.type s.payload.decoded fits }, none) := by
  have located : (ofValues name .copy [target, source] : Instruction α).LocatedIn m [t, s] :=
    locatedIn_ofValues.mpr (.cons ht (.cons hs .nil))
  have evaluated : (ofValues name .copy [target, source]).evaluate m = .ok [s.payload.decoded] :=
    located.evaluate_eq rfl
  have may : (ofValues name .copy [target, source] : Instruction α).MayWrite target t :=
    fun constant => by rw [free] at constant; cases constant
  rw [step_of_result rfl evaluated ht may, dif_pos fits]

end

/-! ## What a copy makes of an element -/

namespace TensorType

/-- `r` is what a copy makes of the stored element `q`. -/
inductive Copied (t : TensorType Float32) (q : Float32) : Float32 → Prop
  | plain : t.isQuantized = false → Copied t q q
  /-- No number is left of what has none, and nothing divides by zero or by an infinity. -/
  | lost {r : Float32} : t.isQuantized = true →
      q.isNaN = true ∨ (t.scale == 0) = true ∨ t.scale.isInf = true → r.isNaN = true → Copied t q r
  /-- A number too large for a float is stored as the last integer on its side of the offset. -/
  | saturated {k : ℤ} : t.isQuantized = true → t.scale.isFinite = true → (t.scale == 0) = false →
      q.isFinite = true → Binary32.value q = k → (t.decode q).isFinite = false →
      Copied t q (if t.offset < k then Binary32.greatest else Binary32.least)
  /-- Any other integer comes back up to an error of a few digits of its distance from the offset,
  and comes back unchanged if that distance has no more than 22 digits. -/
  | near {r : Float32} {k j : ℤ} : t.isQuantized = true → t.scale.isFinite = true →
      (t.scale == 0) = false → q.isFinite = true → Binary32.value q = k →
      (t.decode q).isFinite = true → r.isFinite = true → Binary32.value r = j →
      |(j : ℚ) - k| ≤ 1 / 2 + |((k - t.offset : ℤ) : ℚ)| / 2 ^ 21 →
      (|k - t.offset| < 2 ^ 22 → (r == q) = true) → Copied t q r

/-- An integer near the offset is kept. -/
theorem Copied.kept {t : TensorType Float32} {q r : Float32} {k : ℤ} (h : t.Copied q r)
    (quantized : t.isQuantized = true) (finite : t.scale.isFinite = true)
    (nonzero : (t.scale == 0) = false) (hq : q.isFinite = true) (hk : Binary32.value q = k)
    (within : (t.decode q).isFinite = true) (few : |k - t.offset| < 2 ^ 22) : (r == q) = true := by
  cases h with
  | plain plain => rw [quantized] at plain; cases plain
  | lost _ none =>
    rcases none with number | zero | infinite
    · rw [Binary32.not_finite_of_isNaN number] at hq
      cases hq
    · rw [zero] at nonzero
      cases nonzero
    · obtain ⟨_, read⟩ := Binary32.isInf_iff.mp infinite
      rw [Binary32.not_finite_of_infinity read] at finite
      cases finite
  | saturated _ _ _ _ _ overflow => rw [within] at overflow; cases overflow
  | @near _ k' _ _ _ _ _ hk' _ _ _ _ same =>
    have equal : k = k' := by exact_mod_cast hk.symm.trans hk'
    exact same (equal ▸ few)

theorem storable_encode {t : TensorType Float32} (quantized : t.isQuantized = true) (x : Float32) :
    Binary32.Storable (t.encode x) := by
  rw [encode, if_pos quantized]
  exact Binary32.storable_clamp_round _

theorem copied {t s : TensorType Float32} {q : Float32} (same : (t == s) = true)
    (word : |s.offset| ≤ 2 ^ 31) (stored : s.isQuantized = true → Binary32.Storable q) :
    s.Copied q (t.encode (s.decode q)) := by
  obtain ⟨-, element, scale, offset⟩ := TensorType.beq_iff.mp same
  have kind : t.isQuantized = s.isQuantized := by rw [isQuantized, isQuantized, element]
  by_cases quantized : s.isQuantized = true
  · have encoded : t.encode (s.decode q) = Scalar.clamp Binary32.least Binary32.greatest
        (Binary32.round (s.scale * (q - Float32.ofInt s.offset) / t.scale +
          Float32.ofInt s.offset)) := by
      rw [encode, kind, if_pos quantized, decode, if_pos quantized, quantize, offset]
      rfl
    have decoded : s.decode q = s.scale * (q - Float32.ofInt s.offset) := by
      rw [decode, if_pos quantized]
      rfl
    rw [encoded]
    rcases stored quantized with number | ⟨hq, k, hk, low, high⟩
    · refine .lost quantized (.inl number) ?_
      exact Binary32.isNaN_requantized
        (Binary32.isNaN_div (Binary32.isNaN_mul _ (Binary32.isNaN_sub number _)) _)
    rcases Binary32.infinite_or_finite_of_beq scale with ⟨ht, hs⟩ | ⟨ht, hs, scale⟩
    · refine .lost quantized (.inr (.inr hs)) ?_
      exact Binary32.isNaN_requantized (Binary32.isNaN_mul_div_infinity hs ht _)
    have zero : (s.scale == 0) = true ↔ Binary32.value s.scale = 0 :=
      Binary32.beq_iff_value hs rfl
    by_cases nonzero : Binary32.value s.scale = 0
    · refine .lost quantized (.inr (.inl (zero.mpr nonzero))) ?_
      exact Binary32.isNaN_requantized
        (Binary32.isNaN_mul_div_zero hs nonzero ht (scale.trans nonzero) _)
    have invertible : (s.scale == 0) = false := Bool.eq_false_iff.mpr (mt zero.mp nonzero)
    cases finite : (s.decode q).isFinite with
    | false =>
      rw [Binary32.saturated hs ht scale nonzero hq hk low high word (decoded ▸ finite)]
      exact .saturated quantized hs invertible hq hk finite
    | true =>
      obtain ⟨hr, j, hj, near⟩ :=
        Binary32.requantized_near hs ht scale nonzero hq hk low high word (decoded ▸ finite)
      exact .near quantized hs invertible hq hk finite hr hj near fun few =>
        Binary32.requantized hs ht scale nonzero hq hk low high few (decoded ▸ finite)
  · have plain : t.encode (s.decode q) = q := by
      rw [encode, kind, if_neg quantized, decode, if_neg quantized]
    rw [plain]
    exact .plain (Bool.not_eq_true _ ▸ quantized)

end TensorType

/-- What lies where an instruction has stored goes on to be what some instruction has stored there.
A copy of it succeeds, leaves it as it is, and makes of each of its elements one that `Copied`
allows. -/
theorem copies_of_stored {m : Memory Float32} {source : Value} {s t : Location Float32}
    (name : String) (target : Value) (stored : m.StoredAt source) (hs : m.locate? source = some s)
    (ht : m.locate? target = some t) (apart : target ≠ source) (same : (t.type == s.type) = true)
    (free : t.isConstant = false) (word : |s.type.offset| ≤ 2 ^ 31) :
    (∀ js, (execute js m).memory.StoredAt source) ∧
    ∃ u : Tensor Float32,
      (Instruction.ofValues name .copy [target, source]).step m =
        (m.put target { t with payload := u }, none) ∧
      (m.put target { t with payload := u }).locate? target = some { t with payload := u } ∧
      (m.put target { t with payload := u }).locate? source = some s ∧
      u.type = t.type ∧ u.array.dims = s.payload.array.dims ∧
      ∀ p < volume s.type.dims, s.type.Copied (s.payload.array.get p) (u.array.get p) := by
  have fits : s.payload.decoded.dims = t.type.dims :=
    s.payload.decoded_dims.trans (TensorType.dims_eq_of_beq same).symm
  refine ⟨stored.execute, .encoded t.type s.payload.decoded fits,
    Instruction.step_copy ht hs free fits, Memory.locate?_put_self m ht,
    (Memory.locate?_put_ne m _ apart).trans hs, rfl, rfl, fun p within => ?_⟩
  obtain ⟨a, dims, payload⟩ := stored.encoded s hs
  have size : p < volume s.payload.array.dims := s.payload.fits ▸ within
  have copy : (Tensor.encoded t.type s.payload.decoded fits).array.get p =
      t.type.encode (s.type.decode (s.payload.array.get p)) := by
    have decoded : s.payload.decoded.array.get p = s.type.decode (s.payload.array.get p) :=
      DenseArray.get_map _ _ size
    rw [← decoded]
    exact DenseArray.get_map _ _ size
  rw [copy]
  refine TensorType.copied same word fun quantized => ?_
  have element : s.payload.array.get p = s.type.encode (a.array.get p) := by
    have dims : a.array.dims = s.type.dims := dims
    have inner : p < volume a.array.dims := by rwa [dims]
    rw [payload]
    exact DenseArray.get_map _ _ inner
  rw [element]
  exact TensorType.storable_encode quantized _

/-- Two activations of one quantized type, and a weight to store in the first. -/
def quantizedMemory (scale : Float32) (offset : Int) (x : Float32) : Memory Float32 where
  activations := ⟨#[⟨"stored", .mutable, .hidden, .zeros ⟨.quantized, [1], scale, offset⟩⟩,
    ⟨"copied", .mutable, .hidden, .zeros ⟨.quantized, [1], scale, offset⟩⟩]⟩
  weights := ⟨#[⟨"x", .mutable, .exposed, .full (.float [1]) x⟩]⟩

def quantizing : Instruction Float32 :=
  .ofValues "stored" (.compute (.convert .quantize)) [.activation ⟨0⟩, .weight ⟨0⟩]

def copying : Instruction Float32 :=
  .ofValues "copied" .copy [.activation ⟨1⟩, .activation ⟨0⟩]

theorem quantizing_storedAt (scale : Float32) (offset : Int) (x : Float32) :
    (quantizing.step (quantizedMemory scale offset x)).1.StoredAt (.activation ⟨0⟩) :=
  ⟨quantizing, _, List.mem_cons_self, rfl⟩

theorem halves_copied : ∃ (m : Memory Float32) (s t : Location Float32) (u : Tensor Float32),
    m.StoredAt (.activation ⟨0⟩) ∧ m.locate? (.activation ⟨0⟩) = some s ∧
      m.locate? (.activation ⟨1⟩) = some t ∧ (t.type == s.type) = true ∧ t.isConstant = false ∧
      copying.step m = (m.put (.activation ⟨1⟩) { t with payload := u }, none) ∧
      (s.payload.array.get 0 == 5) = true ∧
      (u.array.get 0 == s.payload.array.get 0) = true := by
  have stored := quantizing_storedAt 0.5 3 1
  have same : ((⟨.quantized, [1], 0.5, 3⟩ : TensorType Float32) ==
    ⟨.quantized, [1], 0.5, 3⟩) = true := by decide +kernel
  obtain ⟨-, u, copied, -, -, -, -, elements⟩ := copies_of_stored "copied"
    (.activation ⟨1⟩) stored rfl rfl (by decide) same rfl (by show |(3 : ℤ)| ≤ 2 ^ 31; norm_num)
  refine ⟨_, _, _, u, stored, rfl, rfl, same, rfl, copied, by decide +kernel, ?_⟩
  obtain ⟨five, value⟩ := Binary32.value_ofInt (n := 5) (by norm_num)
  have kept := (elements 0 (by decide)).kept (k := 5) rfl rfl (by decide +kernel)
  refine kept (by decide +kernel) (.trans ?_ value) (by decide +kernel) (by decide)
  exact (Binary32.beq_iff_value (by decide +kernel) five).mp (by decide +kernel)

/-- The number is off by half a digit, and so is its quotient: together they reach the integer next
to the one that was stored. -/
theorem drifting_copied : ∃ (m : Memory Float32) (s t : Location Float32) (u : Tensor Float32),
    m.StoredAt (.activation ⟨0⟩) ∧ m.locate? (.activation ⟨0⟩) = some s ∧
      m.locate? (.activation ⟨1⟩) = some t ∧ (t.type == s.type) = true ∧ t.isConstant = false ∧
      copying.step m = (m.put (.activation ⟨1⟩) { t with payload := u }, none) ∧
      (s.payload.array.get 0 == -127) = true ∧ (u.array.get 0 == -128) = true := by
  have stored := quantizing_storedAt 0.1 5242757 (-524288.375)
  refine ⟨_, _, _, _, stored, rfl, rfl, ?_, rfl, rfl, ?_, ?_⟩
  · decide +kernel
  · decide +kernel
  · decide +kernel

end NeuralGraph
