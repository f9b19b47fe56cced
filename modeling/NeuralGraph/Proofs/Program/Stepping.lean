import NeuralGraph.Program.Execution
import NeuralGraph.Proofs.Program.Acceptance
import NeuralGraph.Proofs.Program.Signatures
import NeuralGraph.Proofs.Yields

/-!
# Steps of accepted instructions

The operands of an accepted instruction are all found, and what it writes may be written.  So a step
comes down to the results of the instruction and to their dimensions: `step_of_result` for the
instructions that write one value, `step_of_results` for the update of a weight, which writes two.
-/

namespace NeuralGraph
set_option autoImplicit false
variable {α : Type}

namespace Instruction

/-! ## Operands -/

theorem ofValues_values (name : String) (kind : Opcode α) (values : List Value) :
    (ofValues name kind values).operands.map Operand.value = values := by
  simp only [ofValues, List.map_map, Function.comp_def]
  exact List.zipIdx_map_fst 0 values

theorem ofValues_directions {name : String} {kind : Opcode α} {values : List Value}
    (h : values.length = kind.layout.length) :
    (ofValues name kind values).operands.map Operand.direction = kind.layout := by
  apply List.ext_getElem
  · simp [ofValues, h]
  · intro i h1 h2
    simp [ofValues, h2]

/-- The locations of the operands of an instruction, in order. -/
def LocatedIn (i : Instruction α) (m : Memory α) (ls : List (Location α)) : Prop :=
  List.Forall₂ (fun (o : Operand) (l : Location α) => m.locate? o.value = some l) i.operands ls

theorem locatedIn_ofValues {name : String} {kind : Opcode α} {values : List Value} {m : Memory α}
    {ls : List (Location α)} :
    (ofValues name kind values).LocatedIn m ls ↔
      List.Forall₂ (fun (v : Value) (l : Location α) => m.locate? v = some l) values ls := by
  conv_rhs => rw [← ofValues_values name kind values]
  rw [LocatedIn, List.forall₂_map_left_iff]

theorem LocatedIn.unique {i : Instruction α} {m : Memory α} {ls ks : List (Location α)}
    (h : i.LocatedIn m ls) (h' : i.LocatedIn m ks) : ls = ks := by
  unfold LocatedIn at h h'
  generalize i.operands = os at h h'
  induction h generalizing ks with
  | nil =>
    cases h'
    rfl
  | cons hl _ ih =>
    cases h' with
    | cons hk rest =>
      obtain rfl := Option.some.inj (hl.symm.trans hk)
      rw [ih rest]

theorem LocatedIn.mono {i : Instruction α} {m M : Memory α} {ls : List (Location α)}
    (h : i.LocatedIn m ls) (covers : M.Covers m) :
    ∃ ks, i.LocatedIn M ks ∧ List.Forall₂ Location.Alike ks ls := by
  unfold LocatedIn at h ⊢
  generalize i.operands = os at h ⊢
  induction h with
  | nil => exact ⟨[], .nil, .nil⟩
  | cons hl _ ih =>
    obtain ⟨k, hk, alike⟩ := covers _ _ hl
    obtain ⟨ks, hks, alikes⟩ := ih
    exact ⟨k :: ks, .cons hk hks, .cons alike alikes⟩

/-- The instructions that write one value and read the others. -/
def WritesFirst (i : Instruction α) : Prop :=
  ∃ n, i.kind.layout = .output :: List.replicate n .input

theorem filter_writes_inputs (os : List Operand) (n : Nat)
    (h : os.map Operand.direction = List.replicate n .input) :
    os.filter (fun (o : Operand) => o.direction.writes) = [] := by
  rw [List.filter_eq_nil_iff]
  intro o ho
  have hd : o.direction ∈ List.replicate n Direction.input := h ▸ List.mem_map_of_mem ho
  rw [List.eq_of_mem_replicate hd]
  simp [Direction.writes]

theorem WritesFirst.written {i : Instruction α} (first : i.WritesFirst)
    (h : i.operands.map Operand.direction = i.kind.layout) :
    ∃ o os, i.operands = o :: os ∧ o.direction = .output ∧ i.written = [o.value] := by
  obtain ⟨n, hn⟩ := first
  rw [hn] at h
  cases hos : i.operands with
  | nil => simp [hos] at h
  | cons o os =>
    rw [hos, List.map_cons, List.cons.injEq] at h
    refine ⟨o, os, rfl, h.1, ?_⟩
    have rest := filter_writes_inputs os n h.2
    have self : o.direction.writes = true := by rw [h.1]; rfl
    simp only [Instruction.written, hos, List.filter_cons, self, if_true, rest, List.map_cons,
      List.map_nil]

theorem written_ofValues {name : String} {kind : Opcode α} {self : Value} {values : List Value}
    (h : (ofValues name kind (self :: values)).operands.map Operand.direction = kind.layout)
    (first : (ofValues name kind (self :: values)).WritesFirst) :
    (ofValues name kind (self :: values)).written = [self] := by
  obtain ⟨o, os, ho, -, hw⟩ := first.written h
  have value := ofValues_values name kind (self :: values)
  rw [ho, List.map_cons, List.cons.injEq] at value
  rw [hw, value.1]

theorem update_written {i : Instruction α} {rule : UpdateRule α} (hk : i.kind = .update rule)
    (h : i.operands.map Operand.direction = i.kind.layout) :
    ∃ w g v, i.operands = [w, g, v] ∧ w.direction = .both ∧ v.direction = .both ∧
      i.written = [w.value, v.value] := by
  rw [hk, Opcode.layout] at h
  match hos : i.operands with
  | [w, g, v] =>
    simp only [hos, List.map_cons, List.map_nil, List.cons.injEq, and_true] at h
    refine ⟨w, g, v, rfl, h.1, h.2.2, ?_⟩
    simp [Instruction.written, hos, h.1, h.2.1, h.2.2, Direction.writes]
  | [] | [_] | [_, _] | _ :: _ :: _ :: _ :: _ => simp [hos] at h

theorem writesFirst_or_update (i : Instruction α) :
    i.WritesFirst ∨ ∃ rule, i.kind = .update rule := by
  rw [WritesFirst]
  cases i.kind with
  | copy => exact .inl ⟨1, rfl⟩
  | splat value => exact .inl ⟨0, rfl⟩
  | compute op => exact .inl ⟨op.arity, rfl⟩
  | reshape => exact .inl ⟨1, rfl⟩
  | update rule => exact .inr ⟨rule, rfl⟩

/-- A location that an instruction may write when it runs. -/
def MayWrite (i : Instruction α) (value : Value) (l : Location α) : Prop :=
  l.isConstant = true → i.kind.initializes = true ∧ value.isActivation = true

variable [Scalar α]

theorem Accepted.locatedIn {i : Instruction α} {m : Memory α} {defined : List LocationId}
    {ls : List (Location α)} (accepted : i.Accepted m defined ls) : i.LocatedIn m ls :=
  accepted.operands.imp fun _ _ fits => fits.located

theorem Accepted.mayWrite {i : Instruction α} {m : Memory α} {defined : List LocationId}
    {ls : List (Location α)} (accepted : i.Accepted m defined ls) {o : Operand}
    (ho : o ∈ i.operands) (hd : o.direction.writes = true) {l : Location α}
    (hl : m.locate? o.value = some l) : i.MayWrite o.value l := by
  obtain ⟨k, hk⟩ := accepted.fits ho
  have same : some k = some l := hk.located.symm.trans hl
  cases same
  intro hconst
  obtain ⟨h1, h2, -⟩ := hk.writable hd hconst
  exact ⟨h1, h2⟩

/-- The types of the operands of an instruction that suits the memory. -/
theorem Suits.signature {i : Instruction α} {m : Memory α} {ls : List (Location α)}
    (suits : i.Suits m) (located : i.LocatedIn m ls) :
    i.operands.map Operand.direction = i.kind.layout ∧
      Signature.instruction i.kind (ls.map Location.type) = .ok () := by
  obtain ⟨defined, ks, accepted⟩ := suits
  rw [located.unique accepted.locatedIn]
  exact ⟨accepted.directions, accepted.signature⟩

/-! ## Steps -/

theorem LocatedIn.evaluate_eq {i : Instruction α} {m : Memory α} {ls : List (Location α)}
    (h : i.LocatedIn m ls) (hlen : i.operands.length = i.kind.layout.length) :
    i.evaluate m = (results i.kind (ls.map Location.payload)).mapError (Error.kernel i.name) := by
  have hl : ls.length = i.kind.layout.length := by
    rw [← hlen]
    exact (List.Forall₂.length_eq h).symm
  rw [evaluate, mapM_eq_ok_of_forall₂ (h.imp fun _ _ located => Memory.locate_eq_ok_iff.mpr located)]
  simp only [bind, Except.bind, hl, ne_eq, not_true_eq_false, if_false]
  cases results i.kind (ls.map Location.payload) <;> rfl

theorem step_of_fault {i : Instruction α} {m : Memory α} {e : Error α}
    (h : i.evaluate m = .error e) : i.step m = (m, some e) := by
  rw [step, h]

theorem store_eq {i : Instruction α} {m : Memory α} {value : Value} {l : Location α}
    (hl : m.locate? value = some l) (may : i.MayWrite value l) (a : PlacedArray α) :
    i.store m value a =
      if h : a.dims = l.type.dims then .ok (m.put value { l with payload := .encoded l.type a h })
      else .error (.kernel i.name (.result a.dims l.name l.type)) := by
  rw [store, Memory.locate_eq_ok_iff.mpr hl]
  have unlocked : (l.isConstant && !(i.kind.initializes && value.isActivation)) = false := by
    cases hc : l.isConstant with
    | false => rfl
    | true => simp [(may hc).1, (may hc).2]
  simp only [bind, Except.bind, unlocked, Bool.false_eq_true, if_false]

theorem step_of_result {i : Instruction α} {m : Memory α} {value : Value} {l : Location α}
    {a : PlacedArray α} (hw : i.written = [value]) (he : i.evaluate m = .ok [a])
    (hl : m.locate? value = some l) (may : i.MayWrite value l) :
    i.step m =
      if h : a.dims = l.type.dims then
        (m.put value { l with payload := .encoded l.type a h }, none)
      else (m, some (.kernel i.name (.result a.dims l.name l.type))) := by
  rw [step, he]
  simp only [hw, List.zip_cons_cons, List.zip_nil_right, storeAll, store_eq hl may]
  by_cases h : a.dims = l.type.dims
  · simp only [dif_pos h]
  · simp only [dif_neg h]

/-- The step of an instruction that writes two values, which may lie in the same location. -/
theorem step_of_results {i : Instruction α} {m : Memory α} {u v : Value} {l k : Location α}
    {a b : PlacedArray α} (hw : i.written = [u, v]) (he : i.evaluate m = .ok [a, b])
    (hl : m.locate? u = some l) (hk : m.locate? v = some k) (mayu : i.MayWrite u l)
    (mayv : i.MayWrite v k) (ha : a.dims = l.type.dims) (hb : b.dims = k.type.dims) :
    i.step m =
      ((m.put u { l with payload := .encoded l.type a ha }).put v
        { k with payload := .encoded k.type b hb }, none) := by
  rw [step, he]
  simp only [hw, List.zip_cons_cons, List.zip_nil_right, storeAll, store_eq hl mayu, dif_pos ha]
  by_cases huv : u = v
  · subst huv
    rw [hl] at hk
    cases hk
    let stored : Location α := { l with payload := .encoded l.type a ha }
    have may : i.MayWrite u stored := mayv
    have hb' : b.dims = stored.type.dims := hb
    rw [store_eq (Memory.locate?_put_self m hl) may b, dif_pos hb']
    rfl
  · rw [store_eq ((Memory.locate?_put_ne m _ huv).trans hk) mayv]
    simp only [dif_pos hb]

/-- What an instruction of this name stores in the location `l` when its kernel finds `r`. -/
def kept (name : String) (l : Location α) (r : Kernel α (PlacedArray α)) :
    Except (Error α) (Tensor α) :=
  match r with
  | .ok a =>
    if h : a.dims = l.type.dims then .ok (.encoded l.type a h)
    else .error (.kernel name (.result a.dims l.name l.type))
  | .error fault => .error (.kernel name fault)

/-- The step of an instruction that suits the memory and writes the first of its values. -/
theorem step_ofValues {name : String} {kind : Opcode α} {self : Value} {values : List Value}
    {m : Memory α} {l : Location α} {ls : List (Location α)} {r : Kernel α (PlacedArray α)}
    (suits : (ofValues name kind (self :: values)).Suits m)
    (first : (ofValues name kind (self :: values)).WritesFirst) (hl : m.locate? self = some l)
    (hls : List.Forall₂ (fun (v : Value) (k : Location α) => m.locate? v = some k) values ls)
    (hr : results kind (l.payload :: ls.map Location.payload) =
      r.map fun (a : PlacedArray α) => [a]) :
    (ofValues name kind (self :: values)).step m =
      match kept name l r with
      | .ok t => (m.put self { l with payload := t }, none)
      | .error e => (m, some e) := by
  obtain ⟨defined, ks, accepted⟩ := suits
  have located : (ofValues name kind (self :: values)).LocatedIn m (l :: ls) :=
    locatedIn_ofValues.mpr (.cons hl hls)
  have count : (ofValues name kind (self :: values)).operands.length = kind.layout.length := by
    have := congrArg List.length accepted.directions
    rwa [List.length_map] at this
  have evaluated := located.evaluate_eq count
  have kind_eq : (ofValues name kind (self :: values)).kind = kind := rfl
  rw [kind_eq, List.map_cons, hr] at evaluated
  cases r with
  | error fault => exact step_of_fault evaluated
  | ok a =>
    obtain ⟨o, os, ho, hd, hw⟩ := first.written accepted.directions
    have value : o.value = self := by
      have := ofValues_values name kind (self :: values)
      rw [ho, List.map_cons, List.cons.injEq] at this
      exact this.1
    have may := accepted.mayWrite (by rw [ho]; exact List.mem_cons_self)
      (by rw [hd]; rfl) (value ▸ hl)
    rw [value] at hw may
    rw [step_of_result hw evaluated hl may, kept]
    by_cases h : a.dims = l.type.dims
    · simp only [dif_pos h]
    · simp only [dif_neg h]
      rfl

/-- What an update computes from operands of the right types, whatever tags they have. -/
theorem LocatedIn.update {i : Instruction α} {rule : UpdateRule α} {m : Memory α}
    {ls : List (Location α)} (located : i.LocatedIn m ls) (hk : i.kind = .update rule)
    (directions : i.operands.map Operand.direction = i.kind.layout)
    (signature : Signature.instruction i.kind (ls.map Location.type) = .ok ()) :
    ∃ (a b c : Operand) (p q o : Location α) (x y : PlacedArray α), i.operands = [a, b, c] ∧
      ls = [p, q, o] ∧ a.direction = .both ∧ c.direction = .both ∧
      i.written = [a.value, c.value] ∧ m.locate? a.value = some p ∧ m.locate? c.value = some o ∧
      rule.apply p.payload.decoded q.payload.decoded o.payload.decoded = .ok [x, y] ∧
      i.evaluate m = .ok [x, y] ∧ x.dims = p.type.dims ∧ y.dims = o.type.dims := by
  obtain ⟨a, b, c, ho, ha, hc, written⟩ := update_written hk directions
  have count : i.operands.length = i.kind.layout.length := by
    rw [← directions, List.length_map]
  have evaluated := located.evaluate_eq count
  rw [LocatedIn, ho] at located
  rcases located with _ | ⟨hp, _ | ⟨hq, _ | ⟨hv, ⟨⟩⟩⟩⟩
  rename_i p q o
  rw [hk] at signature
  obtain ⟨_, _, _, types, hqp, hop, -⟩ := Signature.update_eq_ok_iff.mp signature
  cases types
  obtain ⟨x, y, applied, hx, hy⟩ := rule.apply_of_dims p.payload.decoded q.payload.decoded
    o.payload.decoded (q.payload.decoded_dims.trans (hqp.trans p.payload.decoded_dims.symm))
    (o.payload.decoded_dims.trans (hop.trans p.payload.decoded_dims.symm))
  refine ⟨a, b, c, p, q, o, x, y, ho, rfl, ha, hc, written, hp, hv, applied, ?_,
    hx.trans p.payload.decoded_dims, (hy.trans p.payload.decoded_dims).trans hop.symm⟩
  rw [evaluated, hk]
  exact congrArg (Except.mapError (Error.kernel i.name)) applied

/-- The step of an update that suits the memory, which always succeeds. -/
theorem Suits.step_update {i : Instruction α} {rule : UpdateRule α} {m : Memory α}
    {p q o : Location α} (suits : i.Suits m) (hk : i.kind = .update rule)
    (located : i.LocatedIn m [p, q, o]) :
    ∃ (u v : Value) (x y : PlacedArray α) (hx : x.dims = p.type.dims) (hy : y.dims = o.type.dims),
      i.written = [u, v] ∧ m.locate? u = some p ∧ m.locate? v = some o ∧
      rule.apply p.payload.decoded q.payload.decoded o.payload.decoded = .ok [x, y] ∧
      i.evaluate m = .ok [x, y] ∧
      i.step m = ((m.put u { p with payload := .encoded p.type x hx }).put v
        { o with payload := .encoded o.type y hy }, none) := by
  obtain ⟨directions, signature⟩ := suits.signature located
  obtain ⟨a, b, c, _, _, _, x, y, ho, same, ha, hc, written, hp, hv, applied, found, hx, hy⟩ :=
    located.update hk directions signature
  cases same
  obtain ⟨defined, ks, accepted⟩ := suits
  have mayp : i.MayWrite a.value p := accepted.mayWrite (by simp [ho]) (by rw [ha]; rfl) hp
  have mayo : i.MayWrite c.value o := accepted.mayWrite (by simp [ho]) (by rw [hc]; rfl) hv
  exact ⟨a.value, c.value, x, y, hx, hy, written, hp, hv, applied, found,
    step_of_results written found hp hv mayp mayo hx hy⟩

end Instruction
end NeuralGraph
