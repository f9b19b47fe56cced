import NeuralGraph.Proofs.Gradient.Emission
import NeuralGraph.Proofs.Lowering.Steps
import NeuralGraph.Proofs.Program.Stepping

/-!
# Proper graphs can be lowered

The types that suit a node suit its instructions, so nothing that a proper graph asks for is refused.
`Lowering.Able` is the invariant: values that are placed have the types of their references, and
activations are named after the nodes that were met.
-/

namespace NeuralGraph
set_option autoImplicit false
variable {α : Type}

/-! ## Accepting instructions -/

namespace Instruction

theorem ofValues_operands {name : String} {kind : Opcode α} {values : List Value}
    (h : values.length = kind.layout.length) :
    (ofValues name kind values).operands = List.zipWith Operand.mk values kind.layout := by
  apply List.ext_getElem
  · simp [ofValues, h]
  · intro i h1 h2
    have bound : i < kind.layout.length := by
      have := h2
      rw [List.length_zipWith, h, Nat.min_self] at this
      exact this
    simp [ofValues, bound]

/-- The operands of a kind that writes its first value and reads the others. -/
theorem operands_writing {name : String} {kind : Opcode α} {target : Value} {values : List Value}
    {k : Nat} (layout : kind.layout = .output :: List.replicate k .input) :
    (ofValues name kind (target :: values)).operands =
      ⟨target, .output⟩ :: values.map fun (v : Value) => ⟨v, .input⟩ := by
  have first : kind.layout.getD 0 .input = .output := by rw [layout, List.getD_cons_zero]
  have others (i : Nat) : kind.layout.getD (1 + i) .input = .input := by
    rw [layout, Nat.add_comm, List.getD_cons_succ, List.getD_eq_getElem?_getD,
      List.getElem?_replicate]
    split <;> rfl
  refine List.ext_getElem (by simp [ofValues]) fun i _ _ => ?_
  cases i with
  | zero =>
    simp only [ofValues, List.zipIdx_cons, List.map_cons, List.getElem_cons_zero, first]
  | succ i =>
    simp only [ofValues, List.zipIdx_cons, List.map_cons, List.getElem_cons_succ, List.getElem_map,
      List.getElem_zipIdx, Nat.zero_add, others]

theorem mem_written_writing {name : String} {kind : Opcode α} {target : Value}
    {values : List Value} (layout : kind.layout = .output :: List.replicate values.length .input) :
    target ∈ (ofValues name kind (target :: values)).written := by
  rw [written, operands_writing layout, List.filter_cons_of_pos rfl, List.map_cons]
  exact List.mem_cons_self

/-- A location and defined values of types that suit a kind make an instruction that is accepted. -/
theorem accepted_writing [Scalar α] {name : String} {kind : Opcode α} {target : Value}
    {values : List Value} {m : Memory α} {defined : List LocationId} {p : Location α}
    {ps : List (Location α)}
    (layout : kind.layout = .output :: List.replicate values.length .input)
    (located : m.locate? target = some p) (free : p.isConstant = false)
    (sources : List.Forall₂ (fun (v : Value) (q : Location α) =>
      m.locate? v = some q ∧ isDefined defined v = true) values ps)
    (suits : Signature.instruction kind (p.type :: ps.map Location.type) = .ok ()) :
    (ofValues name kind (target :: values)).Accepted m defined (p :: ps) := by
  refine ⟨ofValues_directions (by simp [layout]), ?_, suits⟩
  rw [operands_writing layout]
  refine .cons ⟨located, nofun, fun _ h => ?_⟩ ?_
  · rw [free] at h
    cases h
  · rw [List.forall₂_map_left_iff]
    exact sources.imp fun v q h => ⟨h.1, fun _ => h.2, nofun⟩

end Instruction

/-! ## Storage -/

/-- The homes of variables are what lowering would make them: named and typed after their variables,
and mutable if something writes them. -/
structure WeightStorage.Serves [Scalar α] (s : WeightStorage α) (m : Module α)
    (stored : List VarId) : Prop where
  homes : ∀ v l, s.home? v = some l → ∃ u p, m.var? v = some u ∧ s.arena.get? l = some p ∧
    p.name = u.name ∧ (p.type == u.type) = true ∧
    (u.isTrained = true ∨ v ∈ stored → p.isConstant = false)
  owned : ∀ l p, s.arena.get? l = some p → ∃ v, s.home? v = some l

theorem WeightStorage.Serves.empty [Scalar α] (m : Module α) (stored : List VarId) :
    (empty : WeightStorage α).Serves m stored := by
  constructor
  · intro v l h
    cases h
  · intro l p h
    simp [WeightStorage.empty, Arena.empty, Arena.get?] at h

/-- A home that is made like this serves whoever stores into fewer variables. -/
theorem WeightStorage.Serves.keep [Scalar α] {s s' : WeightStorage α} {m : Module α}
    {stored stored' : List VarId} (serves : s.Serves m stored) (fewer : ∀ v ∈ stored, v ∈ stored')
    {id : VarId} {v : Variable α} (hv : m.var? id = some v) {k : LocationId}
    (h : s.allocate id v (if v.isTrained || stored'.contains id then .mutable else .constant) =
      .ok (s', k)) : s'.Serves m stored := by
  rcases allocate_eq_ok_iff.mp h with ⟨-, rfl⟩ | ⟨hh, same, a, ha, rfl⟩
  · exact serves
  · obtain ⟨-, rfl, rfl⟩ := Arena.insert_eq_ok_iff.mp ha
    constructor
    · intro w l hw
      rw [home?_append] at hw
      rcases Option.or_eq_some_iff.mp hw with hw | ⟨-, hw⟩
      · obtain ⟨u, p, hu, hp, rest⟩ := serves.homes w l hw
        exact ⟨u, p, hu, Arena.get?_push_of_some hp, rest⟩
      · split at hw
        · next e =>
          cases hw
          subst e
          refine ⟨v, _, hv, Arena.get?_push_self s.arena _, rfl, same, fun written => ?_⟩
          have : (v.isTrained || stored'.contains w) = true := by
            simpa using written.imp_right (fewer w)
          rw [Location.isConstant, if_pos this]
          rfl
        · cases hw
    · intro l p hp
      rw [Arena.get?_push] at hp
      split at hp
      · next e =>
        refine ⟨id, ?_⟩
        rw [home?_append, if_pos rfl]
        rw [home?] at hh
        rw [hh, Option.none_or]
        exact congrArg some (congrArg LocationId.mk e.symm)
      · obtain ⟨w, hw⟩ := serves.owned l p hp
        refine ⟨w, ?_⟩
        rw [home?] at hw
        rw [home?_append, hw, Option.some_or]

/-- Allocation for a variable of a sound module succeeds. -/
theorem WeightStorage.Serves.allocate [Scalar α] {s : WeightStorage α} {m : Module α}
    {stored : List VarId} (serves : s.Serves m stored) (sound : m.Sound) {id : VarId}
    {v : Variable α} (hv : m.var? id = some v) (comparable : v.type.Comparable)
    (mutability : Mutability) : ∃ s' l, s.allocate id v mutability = .ok (s', l) := by
  cases hh : s.home? id with
  | some l => exact ⟨s, l, allocate_eq_ok_iff.mpr (.inl ⟨hh, rfl⟩)⟩
  | none =>
    have free : s.arena.find? v.name = none := by
      refine Arena.find?_eq_none_iff.mpr fun l p hp e => ?_
      obtain ⟨w, hw⟩ := serves.owned l p hp
      obtain ⟨u, q, hu, hq, name, -⟩ := serves.homes w l hw
      rw [hp] at hq
      cases hq
      obtain rfl := sound.distinct w id u v hu hv (name.symm.trans e)
      rw [hh] at hw
      cases hw
    exact ⟨_, _, allocate_eq_ok_iff.mpr (.inr ⟨hh, sound.initial id v hv comparable, _,
      Arena.insert_eq_ok_iff.mpr ⟨free, rfl, rfl⟩, rfl⟩)⟩

/-! ## The state -/

namespace Lowering

/-- The value has this type and can be read. -/
def Holds [Scalar α] (s : Lowering α) (value : Value) (t : TensorType α) : Prop :=
  ∃ p, s.memory.locate? value = some p ∧ (p.type == t) = true ∧
    Instruction.isDefined s.program.defined value = true

/-- The first `k` nodes have their instructions, the first `j` their activations. -/
structure Able [Scalar α] (c : LoweringContext α) (k j : Nat) (s : Lowering α) : Prop where
  tidy : s.Tidy c.graph j
  serves : s.store.Serves c.module c.stored
  nodes : ∀ i n t, i < k → c.graph.node? ⟨i⟩ = some n → n.type = some t → ∃ id p,
    s.place (.node ⟨i⟩) = some (.activation id) ∧ s.program.activations.get? id = some p ∧
    p.type = t ∧ p.isConstant = false ∧ id ∈ s.program.defined
  names : ∀ id p, s.program.activations.get? id = some p → ∃ i n, i < j ∧
    c.graph.node? ⟨i⟩ = some n ∧ n.name = p.name

theorem mem_defined {p : Program α} {id : LocationId} :
    id ∈ p.defined ↔ ∃ i ∈ p.instructions.toList, Value.activation id ∈ i.written := by
  simp only [Program.defined, activationsWritten, List.mem_flatMap, List.mem_filterMap]
  constructor
  · rintro ⟨i, hi, v, hv, h⟩
    cases v with
    | weight _ => cases h
    | activation a =>
      cases h
      exact ⟨i, hi, hv⟩
  · rintro ⟨i, hi, hv⟩
    exact ⟨i, hi, _, hv, rfl⟩

theorem Emits.defined {s s' : Lowering α} {is : List (Instruction α)} (emits : s.Emits is s')
    {id : LocationId} (h : id ∈ s.program.defined) : id ∈ s'.program.defined := by
  obtain ⟨i, hi, written⟩ := mem_defined.mp h
  exact mem_defined.mpr ⟨i, by rw [emits.instructions]; exact List.mem_append_left _ hi, written⟩

theorem Emits.isDefined {s s' : Lowering α} {is : List (Instruction α)} (emits : s.Emits is s')
    {value : Value} (h : Instruction.isDefined s.program.defined value = true) :
    Instruction.isDefined s'.program.defined value = true := by
  cases value with
  | weight _ => rfl
  | activation id =>
    exact List.contains_iff_mem.mpr (emits.defined (List.contains_iff_mem.mp h))

variable [Scalar α]

theorem Holds.mono {s s' : Lowering α} {is : List (Instruction α)} {value : Value}
    {t : TensorType α} (h : s.Holds value t) (emits : s.Emits is s') : s'.Holds value t := by
  obtain ⟨p, hp, type, defined⟩ := h
  obtain ⟨q, hq, alike⟩ := emits.covers value p hp
  exact ⟨q, hq, by rw [alike.type]; exact type, emits.isDefined defined⟩

/-! ## Operands -/

variable {c : LoweringContext α} {k j : Nat} {s s' : Lowering α}

/-- Values that are placed hold their types. -/
theorem Able.holds (able : s.Able c k j) (ready : c.graph.Ready c.module) {r : Ref} {value : Value}
    {t : TensorType α} (placed : s.place r = some value) (typed : c.module.typeOf c.graph r = .ok t)
    (earlier : ∀ i, r = .node i → i.index < k) : s.Holds value t := by
  cases r with
  | var v =>
    obtain ⟨l, rfl, home⟩ := able.tidy.vars v value placed
    obtain ⟨u, p, hu, hp, -, same, -⟩ := able.serves.homes v l home
    obtain ⟨u', hu', rfl⟩ := Module.typeOf_var_iff.mp typed
    obtain rfl := Option.some.inj (hu.symm.trans hu')
    exact ⟨p, hp, same, rfl⟩
  | node i =>
    obtain ⟨n, hn, hnt⟩ := Module.typeOf_node_iff.mp typed
    obtain ⟨id, p, own, hp, rfl, -, defined⟩ := able.nodes i.index n t (earlier i rfl) hn hnt
    obtain rfl := Option.some.inj (placed.symm.trans own)
    exact ⟨p, hp, ready.comparable typed, List.contains_iff_mem.mpr defined⟩

theorem Able.operand (able : s.Able c k j) (ready : c.graph.Ready c.module)
    (sound : c.module.Sound) {r : Ref} {t : TensorType α}
    (typed : c.module.typeOf c.graph r = .ok t) (earlier : ∀ i, r = .node i → i.index < k) :
    ∃ value s', Yields (Lower.operand c r) s value s' ∧ s'.Able c k j := by
  cases hp : s.values.lookup r with
  | some value =>
    refine ⟨value, s, ?_, able⟩
    rw [Lower.operand, yields_attempt, hp]
  | none =>
    cases r with
    | node i =>
      obtain ⟨n, hn, hnt⟩ := Module.typeOf_node_iff.mp typed
      obtain ⟨id, p, own, -⟩ := able.nodes i.index n t (earlier i rfl) hn hnt
      rw [place, hp] at own
      cases own
    | var v =>
      obtain ⟨u, hu, rfl⟩ := Module.typeOf_var_iff.mp typed
      obtain ⟨store, l, ha⟩ := able.serves.allocate sound hu (ready.vars v u hu)
        (if u.isTrained || c.stored.contains v then .mutable else .constant)
      have serves := able.serves.keep (fun _ h => h) hu ha
      have done : Yields (Lower.operand c (.var v)) s (.weight l) (s.homed store v l) := by
        rw [Lower.operand, yields_attempt, hp]
        simp only [Module.var, hu, ha, bind, Except.bind, homed]
      obtain ⟨tidy, emits, -⟩ := able.tidy.operand done
      refine ⟨_, _, done, tidy, serves, fun i n t hi hn ht => ?_, able.names⟩
      obtain ⟨id, p, own, rest⟩ := able.nodes i n t hi hn ht
      exact ⟨id, p, emits.places _ _ own, rest⟩

theorem Able.operands (able : s.Able c k j) (ready : c.graph.Ready c.module)
    (sound : c.module.Sound) {rs : List Ref} {ts : List (TensorType α)}
    (typed : c.module.TypesOf c.graph rs ts)
    (earlier : ∀ r ∈ rs, ∀ i, r = .node i → i.index < k) :
    ∃ values s', Yields (rs.mapM (Lower.operand c)) s values s' ∧ s'.Able c k j ∧
      s.Emits [] s' ∧ rs.map s'.place = values.map some ∧ List.Forall₂ s'.Holds values ts := by
  induction typed generalizing s with
  | nil => exact ⟨[], s, yields_mapM_nil.mpr ⟨rfl, rfl⟩, able, .refl s, rfl, .nil⟩
  | @cons r t rs ts hr _ ih =>
    have first : ∀ i, r = .node i → i.index < k := earlier r List.mem_cons_self
    obtain ⟨value, s₁, found, able₁⟩ := able.operand ready sound hr first
    obtain ⟨-, emits₁, placed₁⟩ := able.tidy.operand found
    obtain ⟨values, s₂, others, able₂, emits₂, placed₂, hold⟩ :=
      ih able₁ fun r hr => earlier r (List.mem_cons_of_mem _ hr)
    have placed : s₂.place r = some value := emits₂.places r value placed₁
    refine ⟨value :: values, s₂, yields_mapM_cons.mpr ⟨value, s₁, values, found, others, rfl⟩,
      able₂, emits₁.trans emits₂, ?_, .cons (able₂.holds ready placed hr first) hold⟩
    rw [List.map_cons, List.map_cons, placed, placed₂]

/-- What is stored into can be written. -/
theorem Able.writable (able : s.Able c k j) {v : VarId} {value : Value}
    (placed : s.place (.var v) = some value) (stored : v ∈ c.stored) :
    ∃ p, s.memory.locate? value = some p ∧ p.isConstant = false := by
  obtain ⟨l, rfl, home⟩ := able.tidy.vars v value placed
  obtain ⟨u, p, hu, hp, -, -, free⟩ := able.serves.homes v l home
  exact ⟨p, hp, free (.inr stored)⟩

/-! ## Results -/

/-- The place of a value that can be written, of exactly this type. -/
def Owns (s : Lowering α) (id : LocationId) (t : TensorType α) : Prop :=
  ∃ p, s.program.activations.get? id = some p ∧ p.type = t ∧ p.isConstant = false

omit [Scalar α] in
theorem Owns.mono {is : List (Instruction α)} {id : LocationId} {t : TensorType α}
    (h : s.Owns id t) (emits : s.Emits is s') : s'.Owns id t := by
  obtain ⟨p, hp, type, free⟩ := h
  obtain ⟨q, hq, alike⟩ := emits.activations id p hp
  exact ⟨q, hq, alike.type.trans type, alike.isConstant.trans free⟩

/-- Node `k` is given its place. -/
theorem Able.place (able : s.Able c k k) {n : Node α} (hn : c.graph.node? ⟨k⟩ = some n)
    (tidy : s'.Tidy c.graph (k + 1)) (emits : s.Emits [] s') (store : s'.store = s.store)
    (names : ∀ id p, s'.program.activations.get? id = some p →
      s.program.activations.get? id = some p ∨ p.name = n.name) : s'.Able c k (k + 1) := by
  refine ⟨tidy, store ▸ able.serves, fun i n t hi hn ht => ?_, fun id p hp => ?_⟩
  · obtain ⟨id, p, own, hp, type, free, defined⟩ := able.nodes i n t hi hn ht
    obtain ⟨q, hq, alike⟩ := emits.activations id p hp
    exact ⟨id, q, emits.places _ _ own, hq, alike.type.trans type, alike.isConstant.trans free,
      emits.defined defined⟩
  · rcases names id p hp with old | own
    · obtain ⟨i, a, hi, ha, name⟩ := able.names id p old
      exact ⟨i, a, Nat.lt_succ_of_lt hi, ha, name⟩
    · exact ⟨k, n, Nat.lt_succ_self k, hn, own.symm⟩

theorem Able.result (able : s.Able c k k) (ready : c.graph.Ready c.module) {n : Node α}
    (hn : c.graph.node? ⟨k⟩ = some n) {t : TensorType α} (type : n.type = some t)
    (valued : n.kind.hasValue = true) :
    ∃ id s', Yields (Lower.result ⟨k⟩ n) s (.activation id) s' ∧ s'.Able c k (k + 1) ∧
      s.Emits [] s' ∧ s'.place (.node ⟨k⟩) = some (.activation id) ∧ s'.Owns id t := by
  have named : s.NamedBelow c.graph k := by
    intro a l hl
    obtain ⟨i, m, hi, hm, name⟩ := able.names a l hl
    exact ⟨i, m, hi, hm, name.symm⟩
  have done := yields_result (k := k) type (named.free ready.proper.distinct hn)
  obtain ⟨tidy, emits, placed⟩ := able.tidy.result hn valued done
  exact ⟨_, _, done, able.place hn tidy emits rfl fun _ _ => Program.of_widen, emits, placed, _,
    Program.widen_activation _ _ _, rfl, rfl⟩

/-! ## Instructions -/

theorem Able.emit (able : s.Able c k j) {n : Node α} {kind : Opcode α} {values : List Value}
    {ls : List (Location α)} (accepted : (Instruction.ofValues n.name kind values).Accepted
      s.memory s.program.defined ls) :
    ∃ s', Yields (Lower.emit n kind values) s () s' ∧ s'.Able c k j ∧
      s.Emits [.ofValues n.name kind values] s' ∧ s'.place = s.place := by
  have done : Yields (Lower.emit n kind values) s () { s with program := { s.program with
      instructions := s.program.instructions.push (.ofValues n.name kind values) } } := by
    rw [Lower.emit, yields_attempt]
    have pushed := Program.push_eq_ok_iff.mpr ⟨⟨ls, accepted⟩, rfl⟩
    simp only [pushed, bind, Except.bind]
  obtain ⟨tidy, emits, same⟩ := able.tidy.emit done
  refine ⟨_, done, ⟨tidy, able.serves, fun i n t hi hn ht => ?_, able.names⟩, emits, same⟩
  obtain ⟨id, p, own, hp, type, free, defined⟩ := able.nodes i n t hi hn ht
  exact ⟨id, p, own, hp, type, free, emits.defined defined⟩

/-- Node `k` has a value that its instructions define. -/
theorem Able.finish (able : s.Able c k (k + 1)) {n : Node α} {id : LocationId} {t : TensorType α}
    (hn : c.graph.node? ⟨k⟩ = some n) (type : n.type = some t)
    (placed : s.place (.node ⟨k⟩) = some (.activation id)) (owns : s.Owns id t)
    (defined : id ∈ s.program.defined) : s.Able c (k + 1) (k + 1) := by
  refine ⟨able.tidy, able.serves, fun i a u hi ha hu => ?_, able.names⟩
  rcases Nat.lt_or_eq_of_le (Nat.le_of_lt_succ hi) with hi | rfl
  · exact able.nodes i a u hi ha hu
  · obtain rfl := Option.some.inj (hn.symm.trans ha)
    obtain rfl := Option.some.inj (type.symm.trans hu)
    obtain ⟨p, hp, same, free⟩ := owns
    exact ⟨id, p, placed, hp, same, free, defined⟩

/-- Node `k` has no value. -/
theorem Able.skip (able : s.Able c k k) {n : Node α} (hn : c.graph.node? ⟨k⟩ = some n)
    (type : n.type = none) : s.Able c (k + 1) (k + 1) := by
  refine ⟨able.tidy.skip, able.serves, fun i a u hi ha hu => ?_, fun id p hp => ?_⟩
  · rcases Nat.lt_or_eq_of_le (Nat.le_of_lt_succ hi) with hi | rfl
    · exact able.nodes i a u hi ha hu
    · obtain rfl := Option.some.inj (hn.symm.trans ha)
      rw [type] at hu
      cases hu
  · obtain ⟨i, a, hi, ha, name⟩ := able.names id p hp
    exact ⟨i, a, Nat.lt_succ_of_lt hi, ha, name⟩

theorem Holds.sources {values : List Value} {ts : List (TensorType α)}
    (hold : List.Forall₂ s.Holds values ts) : ∃ ps,
      List.Forall₂ (fun (v : Value) (q : Location α) => s.memory.locate? v = some q ∧
        Instruction.isDefined s.program.defined v = true) values ps ∧
      List.Forall₂ (fun (q : Location α) (t : TensorType α) => (q.type == t) = true) ps ts := by
  induction hold with
  | nil => exact ⟨[], .nil, .nil⟩
  | cons h _ ih =>
    obtain ⟨p, hp, type, defined⟩ := h
    obtain ⟨ps, located, types⟩ := ih
    exact ⟨p :: ps, .cons ⟨hp, defined⟩ located, .cons type types⟩

/-- One instruction computes the value of node `k` from values that hold suitable types. -/
theorem Able.write (able : s.Able c k (k + 1)) {n : Node α} {kind : Opcode α} {values : List Value}
    {ts : List (TensorType α)} {id : LocationId} {t : TensorType α}
    (hn : c.graph.node? ⟨k⟩ = some n) (type : n.type = some t)
    (placed : s.place (.node ⟨k⟩) = some (.activation id)) (owns : s.Owns id t)
    (hold : List.Forall₂ s.Holds values ts)
    (layout : kind.layout = .output :: List.replicate values.length .input)
    (suits : ∀ us, List.Forall₂ (fun (u v : TensorType α) => (u == v) = true) us ts →
      Signature.instruction kind (t :: us) = .ok ()) :
    ∃ s', Yields (Lower.emit n kind (.activation id :: values)) s () s' ∧
      s'.Able c (k + 1) (k + 1) := by
  have owned := owns
  obtain ⟨p, hp, rfl, free⟩ := owned
  obtain ⟨ps, located, types⟩ := Holds.sources hold
  have suits := suits (ps.map Location.type) (List.forall₂_map_left_iff.mpr types)
  have target : s.memory.locate? (.activation id) = some p := hp
  obtain ⟨s', done, able', emits, same⟩ := able.emit
    (Instruction.accepted_writing layout target free located suits)
  refine ⟨s', done, able'.finish hn type (same ▸ placed) (owns.mono emits) ?_⟩
  refine mem_defined.mpr ⟨Instruction.ofValues n.name kind (.activation id :: values), ?_,
    Instruction.mem_written_writing layout⟩
  rw [emits.instructions]
  exact List.mem_append_right _ List.mem_cons_self

/-! ## Nodes -/

variable [PartialEquivBEq α] {n : Node α} {ts : List (TensorType α)}

omit [PartialEquivBEq α] in
theorem Able.compute (able : s.Able c k k) (ready : c.graph.Ready c.module)
    (sound : c.module.Sound) (hn : c.graph.node? ⟨k⟩ = some n)
    (earlier : ∀ r ∈ n.inputs, ∀ i, r = .node i → i.index < k)
    (types : c.module.TypesOf c.graph n.inputs ts) {kind : Opcode α} {t : TensorType α}
    (type : n.type = some t) (valued : n.kind.hasValue = true)
    (layout : kind.layout = .output :: List.replicate n.inputs.length .input)
    (suits : ∀ us, List.Forall₂ (fun (u v : TensorType α) => (u == v) = true) us ts →
      Signature.instruction kind (t :: us) = .ok ()) :
    ∃ s', Yields (Lower.compute c ⟨k⟩ n kind) s () s' ∧ s'.Able c (k + 1) (k + 1) := by
  obtain ⟨values, s₁, read, able₁, -, located, hold⟩ := able.operands ready sound types earlier
  have count : n.inputs.length = values.length := by
    have := congrArg List.length located
    simpa using this
  obtain ⟨id, s₂, made, able₂, emits₂, placed, owns⟩ := able₁.result ready hn type valued
  obtain ⟨s₃, emitted, able₃⟩ := able₂.write hn type placed owns (hold.imp fun _ _ h => h.mono emits₂)
    (count ▸ layout) suits
  refine ⟨s₃, ?_, able₃⟩
  simp only [Lower.compute, Lower.operands, yields_bind]
  exact ⟨values, s₁, read, .activation id, s₂, made, emitted⟩

omit [PartialEquivBEq α] in
/-- The target of an activation function can be written, be it its input or not. -/
theorem Able.activationTarget (able : s.Able c k k) (ready : c.graph.Ready c.module)
    (hn : c.graph.node? ⟨k⟩ = some n) {op : UnaryOp} (kind : n.kind = .compute (.unary op))
    {r : Ref} (inputs : n.inputs = [r]) (earlier : ∀ i, r = .node i → i.index < k)
    {source : Value} (located : s.place r = some source) {d : TensorType α}
    (type : n.type = some d) (typed : c.module.typeOf c.graph r = .ok d) :
    ∃ id s', Yields (Lower.activationTarget c ⟨k⟩ n source) s (.activation id) s' ∧
      s'.Able c k (k + 1) ∧ s.Emits [] s' ∧ s'.place (.node ⟨k⟩) = some (.activation id) ∧
      s'.Owns id d := by
  by_cases reuse : Lower.mayReuse c n source = true
  · cases r with
    | var v => simp [Lower.mayReuse, inputs] at reuse
    | node i =>
      obtain ⟨a, ha, hat⟩ := Module.typeOf_node_iff.mp typed
      obtain ⟨id, p, own, hp, same, free, -⟩ := able.nodes i.index a d (earlier i rfl) ha hat
      obtain rfl := Option.some.inj (located.symm.trans own)
      have done : Yields (Lower.activationTarget c ⟨k⟩ n (.activation id)) s (.activation id)
          (s.placed k s.program (.activation id)) := by
        rw [Lower.activationTarget, if_pos reuse, type]
        simp only [yields_bind, yields_pure, Lower.define, yields_attempt]
        exact ⟨(), _, rfl, trivial, rfl⟩
      obtain ⟨tidy, emits, placed⟩ := able.tidy.activationTarget hn kind located done
      exact ⟨id, _, done, able.place hn tidy emits rfl fun id p hp => .inl hp, emits, placed,
        p, hp, same, free⟩
  · rw [Lower.activationTarget, if_neg reuse]
    exact able.result ready hn type (by rw [kind]; rfl)

omit [PartialEquivBEq α] in
theorem Able.unary (able : s.Able c k k) (ready : c.graph.Ready c.module)
    (sound : c.module.Sound) (hn : c.graph.node? ⟨k⟩ = some n) {op : UnaryOp}
    (kind : n.kind = .compute (.unary op)) {r : Ref} (inputs : n.inputs = [r])
    (earlier : ∀ i, r = .node i → i.index < k) {d : TensorType α} (type : n.type = some d)
    (typed : c.module.typeOf c.graph r = .ok d) :
    ∃ s', Yields (Lower.node c ⟨k⟩ n) s () s' ∧ s'.Able c (k + 1) (k + 1) := by
  obtain ⟨source, s₁, read, able₁⟩ := able.operand ready sound typed earlier
  obtain ⟨-, emits₁, located⟩ := able.tidy.operand read
  obtain ⟨id, s₂, made, able₂, emits₂, placed, owns⟩ :=
    able₁.activationTarget ready hn kind inputs earlier located type typed
  have held : s₁.Holds source d := able₁.holds ready located typed earlier
  have hold : List.Forall₂ s₂.Holds [source] [d] := .cons (held.mono emits₂) .nil
  have suits : ∀ us, List.Forall₂ (fun (u v : TensorType α) => (u == v) = true) us [d] →
      Signature.instruction (.compute (.unary op)) (d :: us) = .ok () := by
    intro us hus
    obtain ⟨u, rest, same, others, rfl⟩ := List.forall₂_cons_right_iff.mp hus
    cases others
    have dims : u.dims = d.dims := TensorType.dims_eq_of_beq same
    simp [Signature.instruction, Signature.operator, dims]
  obtain ⟨s₃, emitted, able₃⟩ := able₂.write hn type placed owns hold rfl suits
  refine ⟨s₃, ?_, able₃⟩
  simp only [Lower.node, kind, inputs, yields_bind]
  exact ⟨source, s₁, read, .activation id, s₂, made, emitted⟩

omit [PartialEquivBEq α] in
theorem Holds.of_mem {values : List Value} (hold : List.Forall₂ s.Holds values ts) {x : Value}
    (hx : x ∈ values) : ∃ t ∈ ts, s.Holds x t := by
  induction hold with
  | nil => cases hx
  | @cons y t values ts hy _ ih =>
    rcases List.mem_cons.mp hx with rfl | hx
    · exact ⟨t, List.mem_cons_self, hy⟩
    · obtain ⟨u, hu, held⟩ := ih hx
      exact ⟨u, List.mem_cons_of_mem t hu, held⟩

omit [PartialEquivBEq α] in
theorem Holds.two {values : List Value} {t u : TensorType α}
    (hold : List.Forall₂ s.Holds values [t, u]) :
    ∃ x y, values = [x, y] ∧ s.Holds x t ∧ s.Holds y u := by
  obtain ⟨x, rest, hx, others, rfl⟩ := List.forall₂_cons_right_iff.mp hold
  obtain ⟨y, nothing, hy, empty, rfl⟩ := List.forall₂_cons_right_iff.mp others
  cases empty
  exact ⟨x, y, rfl, hx, hy⟩

omit [PartialEquivBEq α] in
theorem Holds.three {values : List Value} {t u v : TensorType α}
    (hold : List.Forall₂ s.Holds values [t, u, v]) :
    ∃ x y z, values = [x, y, z] ∧ s.Holds x t ∧ s.Holds y u ∧ s.Holds z v := by
  obtain ⟨x, rest, hx, others, rfl⟩ := List.forall₂_cons_right_iff.mp hold
  obtain ⟨y, z, rfl, hy, hz⟩ := Holds.two others
  exact ⟨x, y, z, rfl, hx, hy, hz⟩

omit [PartialEquivBEq α] in
/-- A total to which values of its dimensions are added one after the other. -/
theorem Able.accumulate (able : s.Able c k j) {id : LocationId} {d : TensorType α}
    (owns : s.Owns id d) (filled : id ∈ s.program.defined)
    {values : List Value} (hold : ∀ x ∈ values, ∃ t, s.Holds x t ∧ t.dims = d.dims) :
    ∃ s', Yields (forM values fun (x : Value) =>
        Lower.emit n (.compute (.binary .add)) [.activation id, .activation id, x]) s () s' ∧
      s'.Able c k j ∧ s'.place = s.place ∧ s'.Owns id d ∧ id ∈ s'.program.defined := by
  induction values generalizing s with
  | nil => exact ⟨s, yields_forM_nil.mpr rfl, able, rfl, owns, filled⟩
  | cons x values ih =>
    have owned := owns
    obtain ⟨p, hp, rfl, free⟩ := owned
    obtain ⟨t, ⟨q, hq, same, defined⟩, dims⟩ := hold x List.mem_cons_self
    have target : s.memory.locate? (.activation id) = some p := hp
    have dims' : q.type.dims = p.type.dims := (TensorType.dims_eq_of_beq same).trans dims
    have suits : Signature.instruction (.compute (.binary .add))
        (p.type :: [p, q].map Location.type) = .ok () := by
      simp [Signature.instruction, Signature.operator, dims']
    have sources : List.Forall₂ (fun (v : Value) (l : Location α) =>
        s.memory.locate? v = some l ∧ Instruction.isDefined s.program.defined v = true)
        [.activation id, x] [p, q] :=
      .cons ⟨target, List.contains_iff_mem.mpr filled⟩ (.cons ⟨hq, defined⟩ .nil)
    obtain ⟨s₁, first, able₁, emits, same₁⟩ := able.emit (n := n)
      (Instruction.accepted_writing rfl target free sources suits)
    obtain ⟨s₂, rest, able₂, same₂, result⟩ := ih able₁ (owns.mono emits) (emits.defined filled)
      fun y hy => by
        obtain ⟨u, hu, hdims⟩ := hold y (List.mem_cons_of_mem x hy)
        exact ⟨u, hu.mono emits, hdims⟩
    exact ⟨s₂, yields_forM_cons.mpr ⟨s₁, first, rest⟩, able₂, same₂.trans same₁, result⟩

omit [PartialEquivBEq α] in
theorem Able.gradientSum (able : s.Able c k k) (ready : c.graph.Ready c.module)
    (sound : c.module.Sound) (hn : c.graph.node? ⟨k⟩ = some n)
    (earlier : ∀ r ∈ n.inputs, ∀ i, r = .node i → i.index < k)
    (types : c.module.TypesOf c.graph n.inputs ts) (kind : n.kind = .gradientSum)
    {d : TensorType α} (type : n.type = some d) (dims : ∀ t ∈ ts, t.dims = d.dims) :
    ∃ s', Yields (Lower.node c ⟨k⟩ n) s () s' ∧ s'.Able c (k + 1) (k + 1) := by
  obtain ⟨values, s₁, read, able₁, -, -, hold⟩ := able.operands ready sound types earlier
  obtain ⟨id, s₂, made, able₂, emits₂, placed, owns⟩ :=
    able₁.result ready hn type (by rw [kind]; rfl)
  obtain ⟨s₃, cleared, able₃, emits₃, same₃⟩ : ∃ s₃, Yields (Lower.emit n (.splat 0)
      [.activation id]) s₂ () s₃ ∧ s₃.Able c k (k + 1) ∧
      s₂.Emits [.ofValues n.name (.splat 0) [.activation id]] s₃ ∧ s₃.place = s₂.place := by
    obtain ⟨p, hp, -, free⟩ := owns
    exact able₂.emit (Instruction.accepted_writing rfl hp free .nil rfl)
  have filled : id ∈ s₃.program.defined := by
    refine mem_defined.mpr ⟨Instruction.ofValues n.name (.splat 0) [.activation id], ?_,
      Instruction.mem_written_writing rfl⟩
    rw [emits₃.instructions]
    exact List.mem_append_right _ List.mem_cons_self
  obtain ⟨s₄, summed, able₄, same₄, owns₄, filled₄⟩ := able₃.accumulate (n := n)
    (owns.mono emits₃) filled fun x hx => by
      obtain ⟨t, ht, held⟩ := Holds.of_mem hold hx
      exact ⟨t, (held.mono emits₂).mono emits₃, dims t ht⟩
  refine ⟨s₄, ?_, able₄.finish hn type (same₄ ▸ same₃ ▸ placed) owns₄ filled₄⟩
  simp only [Lower.node, kind, Lower.operands, yields_bind, List.forM_eq_forM]
  exact ⟨values, s₁, read, .activation id, s₂, made, (), s₃, cleared, summed⟩

/-- The value of another node, of its very type. -/
theorem Able.regression (able : s.Able c k k) (ready : c.graph.Ready c.module)
    (sound : c.module.Sound) (hn : c.graph.node? ⟨k⟩ = some n)
    (earlier : ∀ r ∈ n.inputs, ∀ i, r = .node i → i.index < k) {d e : TensorType α}
    (types : c.module.TypesOf c.graph n.inputs [d, e]) (kind : n.kind = .regression)
    (type : n.type = some d) :
    ∃ s', Yields (Lower.node c ⟨k⟩ n) s () s' ∧ s'.Able c (k + 1) (k + 1) := by
  obtain ⟨values, s₁, read, able₁, -, -, hold⟩ := able.operands ready sound types earlier
  obtain ⟨x, y, rfl, hx, -⟩ := Holds.two hold
  obtain ⟨id, s₂, made, able₂, emits₂, placed, owns⟩ :=
    able₁.result ready hn type (by rw [kind]; rfl)
  have suits : ∀ us, List.Forall₂ (fun (u v : TensorType α) => (u == v) = true) us [d] →
      Signature.instruction .copy (d :: us) = .ok () := by
    intro us hus
    obtain ⟨u, rest, same, others, rfl⟩ := List.forall₂_cons_right_iff.mp hus
    cases others
    simp [Signature.instruction, PartialEquivBEq.symm same]
  obtain ⟨s₃, emitted, able₃⟩ :=
    able₂.write hn type placed owns (.cons (hx.mono emits₂) .nil) rfl suits
  refine ⟨s₃, ?_, able₃⟩
  simp only [Lower.node, kind, Lower.operands, yields_bind]
  refine ⟨[x, y], s₁, read, ?_⟩
  simp only [yields_bind]
  exact ⟨.activation id, s₂, made, emitted⟩

omit [PartialEquivBEq α] in
theorem Able.splat (able : s.Able c k k) (ready : c.graph.Ready c.module)
    (hn : c.graph.node? ⟨k⟩ = some n) {a : α} (kind : n.kind = .splat a) {d : TensorType α}
    (type : n.type = some d) :
    ∃ s', Yields (Lower.node c ⟨k⟩ n) s () s' ∧ s'.Able c (k + 1) (k + 1) := by
  obtain ⟨id, s₁, made, able₁, -, placed, owns⟩ := able.result ready hn type (by rw [kind]; rfl)
  have suits : ∀ us, List.Forall₂ (fun (u v : TensorType α) => (u == v) = true) us [] →
      Signature.instruction (.splat a) (d :: us) = .ok () := by
    intro us hus
    cases hus
    rfl
  obtain ⟨s₂, emitted, able₂⟩ := able₁.write hn type placed owns .nil rfl suits
  refine ⟨s₂, ?_, able₂⟩
  simp only [Lower.node, kind, yields_bind]
  exact ⟨.activation id, s₁, made, emitted⟩

omit [PartialEquivBEq α] in
theorem Able.store (able : s.Able c k k) (hn : c.graph.node? ⟨k⟩ = some n) (type : n.type = none)
    {kind : Opcode α} {values : List Value} {ls : List (Location α)}
    (accepted : (Instruction.ofValues n.name kind values).Accepted
      s.memory s.program.defined ls) :
    ∃ s', Yields (Lower.emit n kind values) s () s' ∧ s'.Able c (k + 1) (k + 1) := by
  obtain ⟨s', done, able', -⟩ := able.emit accepted
  exact ⟨s', done, able'.skip hn type⟩

theorem Able.save (able : s.Able c k k) (ready : c.graph.Ready c.module)
    (sound : c.module.Sound) (hn : c.graph.node? ⟨k⟩ = some n)
    (earlier : ∀ r ∈ n.inputs, ∀ i, r = .node i → i.index < k) {x d : TensorType α}
    (types : c.module.TypesOf c.graph n.inputs [x, d]) (kind : n.kind = .save)
    (type : n.type = none) (same : (x == d) = true) (stores : n.StoresIntoVariables)
    (written : ∀ v ∈ n.storesInto, v ∈ c.stored) :
    ∃ s', Yields (Lower.node c ⟨k⟩ n) s () s' ∧ s'.Able c (k + 1) (k + 1) := by
  obtain ⟨values, s₁, read, able₁, -, located, hold⟩ := able.operands ready sound types earlier
  obtain ⟨source, target, rfl, ⟨p, hp, ptype, defined⟩, ⟨q, hq, qtype, -⟩⟩ := Holds.two hold
  obtain ⟨r, v, inputs⟩ : ∃ r v, n.inputs = [r, .var v] := by
    have count := types.length_eq
    match hi : n.inputs with
    | [r, q] =>
      simp only [Node.StoresIntoVariables, kind, hi] at stores
      obtain ⟨v, rfl⟩ := stores
      exact ⟨r, v, rfl⟩
    | [] | [_] | _ :: _ :: _ :: _ => simp [hi] at count
  have stored : v ∈ c.stored := written v (by simp [Node.storesInto, kind, inputs])
  simp only [inputs, List.map_cons, List.map_nil, List.cons.injEq, and_true] at located
  obtain ⟨q', hq', free⟩ := able₁.writable located.2 stored
  obtain rfl := Option.some.inj (hq.symm.trans hq')
  have equal : (q.type == p.type) = true :=
    PartialEquivBEq.symm (PartialEquivBEq.trans (PartialEquivBEq.trans ptype same)
      (PartialEquivBEq.symm qtype))
  have suits : Signature.instruction .copy (q.type :: [p].map Location.type) = .ok () := by
    simp [Signature.instruction, equal]
  obtain ⟨s₂, emitted, able₂⟩ := able₁.store hn type
    (Instruction.accepted_writing rfl hq free (.cons ⟨hp, defined⟩ .nil) suits)
  refine ⟨s₂, ?_, able₂⟩
  simp only [Lower.node, kind, Lower.operands, yields_bind]
  exact ⟨[source, target], s₁, read, emitted⟩

omit [PartialEquivBEq α] in
theorem Able.update (able : s.Able c k k) (ready : c.graph.Ready c.module)
    (sound : c.module.Sound) (hn : c.graph.node? ⟨k⟩ = some n)
    (earlier : ∀ r ∈ n.inputs, ∀ i, r = .node i → i.index < k) {w g v : TensorType α}
    (types : c.module.TypesOf c.graph n.inputs [w, g, v]) {rule : UpdateRule α}
    (kind : n.kind = .update rule) (type : n.type = none)
    (suits : Signature.instruction (.update rule) [w, g, v] = .ok ())
    (stores : n.StoresIntoVariables) (written : ∀ v ∈ n.storesInto, v ∈ c.stored) :
    ∃ s', Yields (Lower.node c ⟨k⟩ n) s () s' ∧ s'.Able c (k + 1) (k + 1) := by
  obtain ⟨values, s₁, read, able₁, -, located, hold⟩ := able.operands ready sound types earlier
  obtain ⟨x, y, z, rfl, ⟨p, hp, ptype, xdefined⟩, ⟨q, hq, qtype, ydefined⟩, l, hl, ltype, zdefined⟩ :=
    Holds.three hold
  obtain ⟨u, r, t, inputs⟩ : ∃ u r t, n.inputs = [.var u, r, .var t] := by
    have count := types.length_eq
    match hi : n.inputs with
    | [a, r, b] =>
      simp only [Node.StoresIntoVariables, kind, hi] at stores
      obtain ⟨⟨u, rfl⟩, t, rfl⟩ := stores
      exact ⟨u, r, t, rfl⟩
    | [] | [_] | [_, _] | _ :: _ :: _ :: _ :: _ => simp [hi] at count
  have stored : u ∈ c.stored ∧ t ∈ c.stored := by
    constructor <;> refine written _ ?_ <;> simp [Node.storesInto, kind, inputs]
  simp only [inputs, List.map_cons, List.map_nil, List.cons.injEq, and_true] at located
  obtain ⟨p', hp', pfree⟩ := able₁.writable located.1 stored.1
  obtain rfl := Option.some.inj (hp.symm.trans hp')
  obtain ⟨l', hl', lfree⟩ := able₁.writable located.2.2 stored.2
  obtain rfl := Option.some.inj (hl.symm.trans hl')
  have accepted : (Instruction.ofValues n.name (.update rule) [x, y, z]).Accepted s₁.memory
      s₁.program.defined [p, q, l] := by
    refine ⟨Instruction.ofValues_directions rfl, ?_, ?_⟩
    · rw [Instruction.ofValues_operands rfl]
      exact .cons ⟨hp, fun _ => xdefined, fun _ h => by rw [pfree] at h; cases h⟩
        (.cons ⟨hq, fun _ => ydefined, nofun⟩
        (.cons ⟨hl, fun _ => zdefined, fun _ h => by rw [lfree] at h; cases h⟩ .nil))
    · obtain ⟨_, _, _, e, gdims, vdims, welement, gelement, velement⟩ :=
        Signature.update_eq_ok_iff.mp suits
      cases e
      obtain ⟨pdims, pelement, -⟩ := TensorType.beq_iff.mp ptype
      obtain ⟨qdims, qelement, -⟩ := TensorType.beq_iff.mp qtype
      obtain ⟨ldims, lelement, -⟩ := TensorType.beq_iff.mp ltype
      exact Signature.update_eq_ok_iff.mpr ⟨_, _, _, rfl, by rw [qdims, pdims, gdims],
        by rw [ldims, pdims, vdims], pelement.trans welement, qelement.trans gelement,
        lelement.trans velement⟩
  obtain ⟨s₂, emitted, able₂⟩ := able₁.store hn type accepted
  refine ⟨s₂, ?_, able₂⟩
  simp only [Lower.node, kind, Lower.operands, yields_bind]
  exact ⟨[x, y, z], s₁, read, emitted⟩

theorem Able.node (able : s.Able c k k) (ready : c.graph.Ready c.module)
    (sound : c.module.Sound) (hn : c.graph.node? ⟨k⟩ = some n)
    (written : ∀ v ∈ n.storesInto, v ∈ c.stored) :
    ∃ s', Yields (Lower.node c ⟨k⟩ n) s () s' ∧ s'.Able c (k + 1) (k + 1) := by
  have member : n ∈ c.graph.nodes := Array.mem_of_getElem? hn
  have earlier : ∀ r ∈ n.inputs, ∀ i, r = .node i → i.index < k := by
    rintro r hr i rfl
    exact ready.proper.formed.ordered k n hn i (Graph.mem_nodeInputs.mpr hr)
  obtain ⟨⟨ts, types, accepts⟩, stores⟩ := ready.proper.typed n member
  have arity := ready.proper.formed.arities n member
  generalize kind : n.kind = kd at accepts
  generalize type : n.type = out at accepts
  cases accepts with
  | unary =>
    obtain ⟨r, inputs⟩ := List.length_eq_one_iff.mp types.length_eq
    rw [inputs] at types
    obtain ⟨_, e, typed⟩ := types.one
    cases e
    exact able.unary ready sound hn kind inputs
      (fun i e => earlier r (by rw [inputs]; exact List.mem_cons_self) i e) type typed
  | @compute op ts d other suits =>
    have lowered : Lower.node c ⟨k⟩ n = Lower.compute c ⟨k⟩ n (.compute op) := by
      rw [Lower.node, kind]
      cases op with
      | unary f => exact absurd rfl (other f)
      | _ => rfl
    have count : n.inputs.length = op.arity := arity op.arity (by rw [kind]; rfl)
    rw [lowered]
    refine able.compute ready sound hn earlier types type (by rw [kind]; rfl)
      (by rw [count]; rfl) fun us same => Signature.operator_congr op (.cons ⟨rfl, rfl⟩ ?_) suits
    refine same.flip.imp fun t u h => ?_
    obtain ⟨dims, element, -⟩ := TensorType.beq_iff.mp h
    exact ⟨dims.symm, element.symm⟩
  | reshape volumes =>
    rw [Lower.node, kind]
    refine able.compute ready sound hn earlier types type (by rw [kind]; rfl)
      (by rw [types.length_eq]; rfl) fun us same => ?_
    obtain ⟨u, rest, equal, others, rfl⟩ := List.forall₂_cons_right_iff.mp same
    cases others
    refine Signature.reshape_eq_ok_iff.mpr ⟨_, _, rfl, ?_⟩
    rw [volumes, TensorType.dims_eq_of_beq equal]
  | regression => exact able.regression ready sound hn earlier types kind type
  | splat => exact able.splat ready hn kind type
  | gradientSum dims => exact able.gradientSum ready sound hn earlier types kind type dims
  | save same => exact able.save ready sound hn earlier types kind type same stores written
  | update suits => exact able.update ready sound hn earlier types kind type suits stores written

/-! ## Graphs -/

theorem Able.nodes_from {ns : List (Node α)} (able : s.Able c k k) (ready : c.graph.Ready c.module)
    (sound : c.module.Sound) (written : ∀ v ∈ c.graph.storesInto, v ∈ c.stored)
    (hns : c.graph.nodes.toList.drop k = ns) :
    ∃ s', Yields (Lower.nodes c ((List.range' k ns.length).map NodeId.mk)) s () s' ∧
      s'.Able c (k + ns.length) (k + ns.length) := by
  induction ns generalizing k s with
  | nil => exact ⟨s, yields_forM_nil.mpr rfl, able⟩
  | cons n ns ih =>
    have hn : c.graph.node? ⟨k⟩ = some n := by
      have : c.graph.nodes.toList[k]? = some n := by
        rw [← List.head?_drop, hns, List.head?_cons]
      rwa [Array.getElem?_toList] at this
    have stored : ∀ v ∈ n.storesInto, v ∈ c.stored := fun v hv =>
      written v (List.mem_flatMap.mpr ⟨n, Array.mem_toList_iff.mpr (Array.mem_of_getElem? hn), hv⟩)
    obtain ⟨s₁, first, able₁⟩ := able.node ready sound hn stored
    have hrest : c.graph.nodes.toList.drop (k + 1) = ns := by
      rw [← List.tail_drop, hns, List.tail_cons]
    obtain ⟨s', rest, able'⟩ := ih able₁ hrest
    have size : k + 1 + ns.length = k + (n :: ns).length := by
      rw [List.length_cons]
      omega
    refine ⟨s', ?_, size ▸ able'⟩
    simp only [Lower.nodes, List.forM_eq_forM, List.length_cons, List.range'_succ, List.map_cons,
      yields_forM_cons, yields_bind, yields_attempt]
    refine ⟨s₁, ⟨n, s, ?_, first⟩, rest⟩
    simp only [Graph.node, hn, Except.map]

end Lowering

/-- Nothing that a proper graph asks for is refused, whatever lies in the store already. -/
theorem Graph.lower_succeeds [Scalar α] [PartialEquivBEq α] {g : Graph α} {m : Module α}
    {store : WeightStorage α} (ready : g.Ready m) (sound : m.Sound) (kept : store.Sound)
    (serves : store.Serves m (m.storedWith g)) :
    ∃ p store', g.lower m store = (.ok p, store') ∧ store'.Serves m (m.storedWith g) := by
  have start : Lowering.Able ⟨m, g, m.storedWith g⟩ 0 0 ⟨.empty g.name, store, []⟩ := by
    refine ⟨.start kept g g.name, serves, fun i n t hi => absurd hi (Nat.not_lt_zero i), fun id p hp => ?_⟩
    simp [Program.empty, Arena.empty, Arena.get?] at hp
  obtain ⟨s, run, able⟩ := start.nodes_from ready sound
    (fun v hv => List.mem_append_right _ hv) rfl
  have whole : Yields (Lower.nodes ⟨m, g, m.storedWith g⟩ ((List.range g.size).map NodeId.mk))
      ⟨.empty g.name, store, []⟩ () s := by
    rw [List.range_eq_range']
    exact run
  rw [Yields] at whole
  refine ⟨s.program, s.store, ?_, able.serves⟩
  simp only [Graph.lower, ready.proper.formed.ordered.evaluationOrder_eq, whole]

end NeuralGraph
