import Mathlib.Data.List.Forall2
import NeuralGraph.Program.Basic
import NeuralGraph.Proofs.Storage.Covering

/-!
# Accepted instructions

What `check` asks of an instruction, as one proposition: `Instruction.Accepted`.  Every proof about
accepted instructions starts from `check_eq_ok_iff` and does not open the checks again.
-/

namespace NeuralGraph
set_option autoImplicit false
variable {α : Type}

namespace Instruction

/-- An operand that suits the location it names: what is read is defined, and only an initializer
writes a constant, an activation that has no value yet. -/
structure OperandFits (kind : Opcode α) (m : Memory α) (defined : List LocationId) (o : Operand)
    (l : Location α) : Prop where
  located : m.locate? o.value = some l
  readable : o.direction.reads = true → isDefined defined o.value = true
  writable : o.direction.writes = true → l.isConstant = true →
    kind.initializes = true ∧ o.value.isActivation = true ∧ isDefined defined o.value = false

/-- The operands have the directions of the kind, they suit the locations they name, and the types
of these locations suit the kind. -/
structure Accepted [Scalar α] (i : Instruction α) (m : Memory α) (defined : List LocationId)
    (ls : List (Location α)) : Prop where
  directions : i.operands.map Operand.direction = i.kind.layout
  operands : List.Forall₂ (OperandFits i.kind m defined) i.operands ls
  signature : Signature.instruction i.kind (ls.map Location.type) = .ok ()

theorem Accepted.fits [Scalar α] {i : Instruction α} {m : Memory α} {defined : List LocationId}
    {ls : List (Location α)} (accepted : i.Accepted m defined ls) {o : Operand}
    (ho : o ∈ i.operands) : ∃ l, OperandFits i.kind m defined o l := by
  have all := accepted.operands
  clear accepted
  generalize i.operands = os at all ho
  induction all with
  | nil => cases ho
  | cons fits _ ih =>
    rcases List.mem_cons.mp ho with rfl | ho
    · exact ⟨_, fits⟩
    · exact ih ho

/-- What suits a location suits a similar one in a memory that covers. -/
theorem OperandFits.mono {kind : Opcode α} {m M : Memory α} {defined : List LocationId} {o : Operand}
    {l : Location α} (fits : OperandFits kind m defined o l) (covers : M.Covers m) :
    ∃ k, OperandFits kind M defined o k ∧ k.Alike l := by
  obtain ⟨k, hk, alike⟩ := covers _ _ fits.located
  exact ⟨k, ⟨hk, fits.readable, fun hw hc => fits.writable hw (alike.isConstant ▸ hc)⟩, alike⟩

theorem types_eq_of_alike {ks ls : List (Location α)} (h : List.Forall₂ Location.Alike ks ls) :
    ks.map Location.type = ls.map Location.type := by
  induction h with
  | nil => rfl
  | cons alike _ ih => rw [List.map_cons, List.map_cons, alike.type, ih]

theorem Accepted.mono [Scalar α] {i : Instruction α} {m M : Memory α} {defined : List LocationId}
    {ls : List (Location α)} (accepted : i.Accepted m defined ls) (covers : M.Covers m) :
    ∃ ks, i.Accepted M defined ks ∧ List.Forall₂ Location.Alike ks ls := by
  obtain ⟨directions, operands, signature⟩ := accepted
  have lifted : ∃ ks, List.Forall₂ (OperandFits i.kind M defined) i.operands ks ∧
      List.Forall₂ Location.Alike ks ls := by
    clear directions signature
    generalize i.operands = os at operands ⊢
    induction operands with
    | nil => exact ⟨[], .nil, .nil⟩
    | cons fits _ ih =>
      obtain ⟨k, hk, alike⟩ := fits.mono covers
      obtain ⟨ks, hks, alikes⟩ := ih
      exact ⟨k :: ks, .cons hk hks, .cons alike alikes⟩
  obtain ⟨ks, hks, alikes⟩ := lifted
  exact ⟨ks, ⟨directions, hks, types_eq_of_alike alikes ▸ signature⟩, alikes⟩

/-- The instruction is accepted after some others. -/
def Suits [Scalar α] (i : Instruction α) (m : Memory α) : Prop :=
  ∃ defined ls, i.Accepted m defined ls

theorem Suits.mono [Scalar α] {i : Instruction α} {m M : Memory α} (suits : i.Suits m)
    (covers : M.Covers m) : i.Suits M := by
  obtain ⟨defined, ls, accepted⟩ := suits
  obtain ⟨ks, accepted', -⟩ := accepted.mono covers
  exact ⟨defined, ks, accepted'⟩

theorem checkOperand_eq_ok_iff (position : Nat) {i : Instruction α} {m : Memory α}
    {defined : List LocationId} {o : Operand} {d : Direction} {t : TensorType α} :
    i.checkOperand m defined position o d = .ok t ↔
      o.direction = d ∧ ∃ l, OperandFits i.kind m defined o l ∧ l.type = t := by
  simp only [checkOperand]
  by_cases hd : o.direction = d
  · rw [if_neg (not_not.mpr hd)]
    cases hl : m.locate? o.value with
    | none =>
      simp only [hd, true_and, reduceCtorEq, false_iff, not_exists, not_and]
      intro l fits
      rw [fits.located] at hl
      cases hl
    | some l =>
      have fits_iff : (∃ k, OperandFits i.kind m defined o k ∧ k.type = t) ↔
          ((o.direction.reads = true → isDefined defined o.value = true) ∧
            (o.direction.writes = true → l.isConstant = true →
              i.kind.initializes = true ∧ o.value.isActivation = true ∧
                isDefined defined o.value = false)) ∧ l.type = t := by
        constructor
        · rintro ⟨k, ⟨h1, h2, h3⟩, rfl⟩
          rw [hl] at h1
          cases h1
          exact ⟨⟨h2, h3⟩, rfl⟩
        · rintro ⟨⟨h2, h3⟩, rfl⟩
          exact ⟨l, ⟨hl, h2, h3⟩, rfl⟩
      rw [fits_iff]
      dsimp only
      cases o.direction.reads <;> cases isDefined defined o.value <;> cases o.direction.writes <;>
        cases l.isConstant <;> cases i.kind.initializes <;> cases o.value.isActivation <;>
        simp [hd]
  · simp [hd]

theorem checkOperands_eq_ok_iff (position : Nat) {i : Instruction α} {m : Memory α}
    {defined : List LocationId} {os : List Operand} {ds : List Direction} {ts : List (TensorType α)}
    (h : os.length = ds.length) :
    i.checkOperands m defined position os ds = .ok ts ↔
      os.map Operand.direction = ds ∧
        ∃ ls, List.Forall₂ (OperandFits i.kind m defined) os ls ∧ ls.map Location.type = ts := by
  induction os generalizing position ds ts with
  | nil =>
    cases ds with
    | nil => simp [checkOperands, eq_comm]
    | cons d ds => simp at h
  | cons o os ih =>
    cases ds with
    | nil => simp at h
    | cons d ds =>
      have hlen : os.length = ds.length := by simpa using h
      simp only [checkOperands, List.map_cons, List.cons.injEq]
      constructor
      · intro hok
        cases h1 : i.checkOperand m defined position o d with
        | error e => simp [h1, bind, Except.bind] at hok
        | ok t =>
          cases h2 : i.checkOperands m defined (position + 1) os ds with
          | error e => simp [h1, h2, bind, Except.bind] at hok
          | ok rest =>
            obtain ⟨hd, l, fits, rfl⟩ := (checkOperand_eq_ok_iff position).mp h1
            obtain ⟨hds, ls, all, rfl⟩ := (ih (position + 1) hlen).mp h2
            have : l.type :: ls.map Location.type = ts := by
              simpa [h1, h2, bind, Except.bind] using hok
            exact ⟨⟨hd, hds⟩, l :: ls, .cons fits all, this⟩
      · rintro ⟨⟨hd, hds⟩, ls, all, rfl⟩
        cases all with
        | cons fits all =>
          have h1 := (checkOperand_eq_ok_iff position).mpr ⟨hd, _, fits, rfl⟩
          have h2 := (ih (position + 1) hlen).mpr ⟨hds, _, all, rfl⟩
          simp [h1, h2, bind, Except.bind]

/-- An instruction passes the check exactly if it is accepted for some locations. -/
theorem check_eq_ok_iff [Scalar α] {i : Instruction α} {m : Memory α}
    {defined : List LocationId} :
    i.check m defined = .ok () ↔ ∃ ls, i.Accepted m defined ls := by
  simp only [check]
  by_cases hlen : i.operands.length = i.kind.layout.length
  · rw [if_neg (not_not.mpr hlen)]
    constructor
    · intro hok
      cases hc : i.checkOperands m defined 0 i.operands i.kind.layout with
      | error e => simp [hc, bind, Except.bind] at hok
      | ok ts =>
        obtain ⟨hd, ls, all, rfl⟩ := (checkOperands_eq_ok_iff 0 hlen).mp hc
        refine ⟨ls, hd, all, ?_⟩
        cases hs : Signature.instruction i.kind (ls.map Location.type) with
        | error e => simp [hc, hs, bind, Except.bind] at hok
        | ok u => rfl
    · rintro ⟨ls, hd, all, hs⟩
      have hc := (checkOperands_eq_ok_iff 0 hlen).mpr ⟨hd, ls, all, rfl⟩
      simp [hc, hs, bind, Except.bind]
  · rw [if_pos hlen]
    simp only [reduceCtorEq, false_iff, not_exists]
    rintro ls ⟨hd, -, -⟩
    exact hlen (by rw [← hd, List.length_map])

end Instruction

/-! ## Adding instructions -/

/-- What `push` does: the instruction is accepted and put at the end. -/
theorem Program.push_eq_ok_iff [Scalar α] {p p' : Program α} {weights : Arena α}
    {i : Instruction α} :
    p.push weights i = .ok p' ↔
      (∃ ls, i.Accepted (p.memory weights) p.defined ls) ∧
        p' = { p with instructions := p.instructions.push i } := by
  rw [← Instruction.check_eq_ok_iff, Program.push]
  cases i.check (p.memory weights) p.defined with
  | error e => simp [bind, Except.bind]
  | ok u => simp [bind, Except.bind, eq_comm]

/-- What `newActivation` does: a mutable location of zeros is put at the end. -/
theorem Program.newActivation_eq_ok_iff [Scalar α] {p p' : Program α} {name : String}
    {type : TensorType α} {value : Value} :
    p.newActivation name type = .ok (p', value) ↔
      ∃ a id, p.activations.insert ⟨name, .mutable, .hidden, .zeros type⟩ = .ok (a, id) ∧
        p' = { p with activations := a } ∧ value = .activation id := by
  simp only [Program.newActivation, Arena.create]
  cases p.activations.insert ⟨name, .mutable, .hidden, .zeros type⟩ with
  | error e => simp [bind, Except.bind]
  | ok r =>
    obtain ⟨a, id⟩ := r
    constructor
    · intro h
      cases h
      exact ⟨a, id, rfl, rfl, rfl⟩
    · rintro ⟨_, _, h, rfl, rfl⟩
      cases h
      rfl

/-! ## One more activation -/

namespace Program
variable [Scalar α] {p : Program α}

/-- The program with a new activation. -/
def widen (p : Program α) (name : String) (type : TensorType α) : Program α :=
  { p with activations := ⟨p.activations.locations.push ⟨name, .mutable, .hidden, .zeros type⟩⟩ }

theorem newActivation_of_free {name : String} (type : TensorType α)
    (free : p.activations.find? name = none) :
    p.newActivation name type = .ok (p.widen name type, .activation ⟨p.activations.size⟩) :=
  newActivation_eq_ok_iff.mpr ⟨_, _, Arena.insert_eq_ok_iff.mpr ⟨free, rfl, rfl⟩, rfl, rfl⟩

theorem covers_widen (p : Program α) (name : String) (type : TensorType α) :
    (p.widen name type).activations.Covers p.activations := Arena.covers_push _ _

theorem widen_activation (p : Program α) (name : String) (type : TensorType α) :
    (p.widen name type).activations.get? ⟨p.activations.size⟩ =
      some ⟨name, .mutable, .hidden, .zeros type⟩ := Arena.get?_push_self _ _

theorem of_widen {name : String} {type : TensorType α} {id : LocationId} {l : Location α}
    (h : (p.widen name type).activations.get? id = some l) :
    p.activations.get? id = some l ∨ l.name = name := by
  rw [widen, Arena.get?_push] at h
  split at h
  · cases h
    exact .inr rfl
  · exact .inl h

end Program
end NeuralGraph
