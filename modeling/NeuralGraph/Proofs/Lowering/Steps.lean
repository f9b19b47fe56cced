import NeuralGraph.Proofs.Graph.Names
import NeuralGraph.Proofs.Lowering.Blocks

/-!
# Steps of lowering

Each step of `Lower` keeps the state tidy and adds what it is meant to add.  From the steps follow
the nodes, one case for each kind, and from the nodes, by induction, the whole graph:
`Graph.lower_eq_ok`.
-/

namespace NeuralGraph
set_option autoImplicit false
variable {α : Type}

namespace Lowering
variable {c : LoweringContext α} {k : Nat} {s s' : Lowering α}

theorem yields_attempt {β : Type} {f : Lowering α → Except (Error α) (Lowering α × β)} {b : β} :
    Yields (Lower.attempt f) s b s' ↔ f s = .ok (s', b) := by
  simp only [Yields, Lower.attempt, ExceptT.run_mk, StateT.run]
  cases f s with
  | error e =>
    constructor <;> intro h <;> cases h
  | ok r =>
    constructor <;> intro h <;> cases h <;> rfl

theorem mayReuse_eq_true {n : Node α} {input : Value} (h : Lower.mayReuse c n input = true) :
    c.graph.inPlace = true ∧ input.isActivation = true := by
  simp only [Lower.mayReuse, Bool.and_eq_true] at h
  exact h.1

theorem map_place_mono {rs : List Ref} {values : List Value} {is : List (Instruction α)}
    (emits : s.Emits is s') (h : rs.map s.place = values.map some) :
    rs.map s'.place = values.map some := by
  rw [← h]
  apply List.map_congr_left
  intro r hr
  have : s.place r ∈ values.map some := h ▸ List.mem_map_of_mem hr
  obtain ⟨v, -, hv⟩ := List.mem_map.mp this
  rw [← hv]
  exact emits.places r v hv.symm

/-! ## Places -/

/-- The state in which a variable is placed at its home in the store. -/
def homed (s : Lowering α) (store : WeightStorage α) (id : VarId) (l : LocationId) : Lowering α :=
  { s with store := store, values := s.values ++ [(.var id, .weight l)] }

/-- The state in which node `k` is placed at `x`, over these activations. -/
def placed (s : Lowering α) (k : Nat) (p : Program α) (x : Value) : Lowering α :=
  { s with program := p, values := (.node ⟨k⟩, x) :: s.values }

section
variable {store : WeightStorage α} {id : VarId} {l : LocationId} {r : Ref} {x : Value}

theorem place_homed_of_some (h : s.place r = some x) : (s.homed store id l).place r = some x := by
  rw [place] at h
  rw [homed, place, lookup_snoc, h, Option.some_or]

theorem of_place_homed (h : (s.homed store id l).place r = some x) :
    s.place r = some x ∨ r = .var id ∧ x = .weight l := by
  rw [homed, place, lookup_snoc] at h
  rcases Option.or_eq_some_iff.mp h with h | ⟨-, h⟩
  · exact .inl h
  · split at h
    · next own =>
      cases h
      exact .inr ⟨own, rfl⟩
    · cases h

theorem place_homed_node (i : NodeId) :
    (s.homed store id l).place (.node i) = s.place (.node i) := by
  rw [homed, place, lookup_snoc, if_neg (by simp), Option.or_none, place]

theorem place_homed (free : s.place (.var id) = none) (r : Ref) :
    (s.homed store id l).place r = if r = .var id then some (.weight l) else s.place r := by
  rw [place] at free
  rw [homed, place, lookup_snoc]
  split
  · next own => rw [own, free, Option.none_or]
  · rw [Option.or_none, place]

end

/-- The activations are called like some of the first `k` nodes. -/
def NamedBelow (g : Graph α) (k : Nat) (s : Lowering α) : Prop :=
  ∀ a l, s.program.activations.get? a = some l → ∃ i n, i < k ∧ g.node? ⟨i⟩ = some n ∧ l.name = n.name

theorem NamedBelow.succ {g : Graph α} {n : Node α} (named : s.NamedBelow g k)
    (hn : g.node? ⟨k⟩ = some n) (added : ∀ a l, s'.program.activations.get? a = some l →
      s.program.activations.get? a = some l ∨ l.name = n.name) : s'.NamedBelow g (k + 1) := by
  intro a l hl
  rcases added a l hl with old | own
  · obtain ⟨i, m, hi, rest⟩ := named a l old
    exact ⟨i, m, Nat.lt_succ_of_lt hi, rest⟩
  · exact ⟨k, n, Nat.lt_succ_self k, hn, own⟩

/-- No activation is called like node `k` yet. -/
theorem NamedBelow.free {g : Graph α} {n : Node α} (named : s.NamedBelow g k) (distinct : g.DistinctNames)
    (hn : g.node? ⟨k⟩ = some n) : s.program.activations.find? n.name = none := by
  rw [Arena.find?_eq_none_iff]
  intro a l hl same
  obtain ⟨i, m, hi, hm, name⟩ := named a l hl
  exact absurd (distinct i k m n hm hn (name.symm.trans same)) (Nat.ne_of_lt hi)

theorem place_placed (s : Lowering α) (k : Nat) (p : Program α) (x : Value) (r : Ref) :
    (s.placed k p x).place r = if r = .node ⟨k⟩ then some x else s.place r :=
  lookup_cons_if s.values r _ _

variable [Scalar α]

/-! ## Operands -/

/-- The store grows and one reference to a variable is placed at its home. -/
theorem Tidy.homed {g : Graph α} (tidy : s.Tidy g k) {id : VarId} {store : WeightStorage α}
    {l : LocationId} (grows : s.store.Grows store) (sound : store.Sound)
    (home : store.home? id = some l) :
    (s.homed store id l).Tidy g k ∧ s.Emits [] (s.homed store id l) := by
  have emits : s.Emits [] (s.homed store id l) :=
    ⟨grows, .refl _, fun _ _ => place_homed_of_some, (List.append_nil _).symm⟩
  refine ⟨⟨sound, tidy.distinct, fun v value hv => ?_, fun i value hv => ?_,
    fun i hi => (tidy.suited i hi).mono emits.covers, fun keeps => ?_⟩, emits⟩
  · rcases of_place_homed hv with hv | ⟨own, rfl⟩
    · obtain ⟨p, rfl, hp⟩ := tidy.vars v value hv
      exact ⟨p, rfl, grows.homes v p hp⟩
    · obtain rfl := Ref.var.inj own
      exact ⟨l, rfl, home⟩
  · rw [place_homed_node] at hv
    exact tidy.nodes i value hv
  · obtain ⟨named, separate⟩ := tidy.apart keeps
    constructor
    · intro i aid hv
      rw [place_homed_node] at hv
      exact named i aid hv
    · intro i j value hi hj
      rw [place_homed_node] at hi hj
      exact separate i j value hi hj

/-- A reference has a value already, or it is a variable that gets its home now. -/
theorem operand_cases {r : Ref} {value : Value} (h : Yields (Lower.operand c r) s value s') :
    (s.place r = some value ∧ s' = s) ∨ ∃ id v store l, r = .var id ∧ s.place r = none ∧
      c.module.var id = .ok v ∧ s.store.allocate id v
        (if v.isTrained || c.stored.contains id then .mutable else .constant) = .ok (store, l) ∧
      value = .weight l ∧ s' = s.homed store id l := by
  rw [Lower.operand, yields_attempt] at h
  cases hp : s.values.lookup r with
  | some v =>
    simp only [hp, Except.ok.injEq, Prod.mk.injEq] at h
    obtain ⟨rfl, rfl⟩ := h
    exact .inl ⟨hp, rfl⟩
  | none =>
    simp only [hp] at h
    cases r with
    | node id => cases h
    | var id =>
      simp only [bind, Except.bind] at h
      cases hvar : c.module.var id with
      | error e => simp [hvar] at h
      | ok v =>
        simp only [hvar] at h
        split at h
        · cases h
        · next given =>
          cases h
          exact .inr ⟨id, v, _, _, rfl, hp, hvar, given, rfl, rfl⟩

theorem operand_places {r : Ref} {value : Value} (h : Yields (Lower.operand c r) s value s') :
    s'.place r = some value := by
  rcases operand_cases h with ⟨placed, rfl⟩ | ⟨id, v, store, l, rfl, free, -, -, rfl, rfl⟩
  · exact placed
  · rw [place_homed free, if_pos rfl]

theorem Tidy.operand (tidy : s.Tidy c.graph k) {r : Ref} {value : Value}
    (h : Yields (Lower.operand c r) s value s') :
    s'.Tidy c.graph k ∧ s.Emits [] s' ∧ s'.place r = some value := by
  have placed := operand_places h
  rcases operand_cases h with ⟨-, rfl⟩ | ⟨id, v, store, l, rfl, -, -, given, rfl, rfl⟩
  · exact ⟨tidy, .refl s', placed⟩
  · obtain ⟨tidy', emits⟩ := tidy.homed (WeightStorage.allocate_grows given)
      (tidy.store.allocate given) (WeightStorage.allocate_home given)
    exact ⟨tidy', emits, placed⟩

theorem Tidy.mapM_operand (tidy : s.Tidy c.graph k) {rs : List Ref} {values : List Value}
    (h : Yields (rs.mapM (Lower.operand c)) s values s') :
    s'.Tidy c.graph k ∧ s.Emits [] s' ∧ rs.map s'.place = values.map some := by
  induction rs generalizing s values with
  | nil =>
    obtain ⟨rfl, rfl⟩ := yields_mapM_nil.mp h
    exact ⟨tidy, .refl s, rfl⟩
  | cons r rs ih =>
    obtain ⟨value, s₁, rest, h1, h2, rfl⟩ := yields_mapM_cons.mp h
    obtain ⟨tidy1, emits1, placed⟩ := tidy.operand h1
    obtain ⟨tidy2, emits2, all⟩ := ih tidy1 h2
    refine ⟨tidy2, emits1.trans emits2, ?_⟩
    rw [List.map_cons, List.map_cons, all, emits2.places r value placed]

/-! ## Results -/

/-- No value lies at a place that is not among the activations. -/
theorem Tidy.vacant {g : Graph α} (tidy : s.Tidy g k) {aid : LocationId}
    (free : s.program.activations.get? aid = none) (r : Ref) :
    s.place r ≠ some (.activation aid) := by
  intro hr
  cases r with
  | var v =>
    obtain ⟨_, e, -⟩ := tidy.vars v _ hr
    cases e
  | node i =>
    obtain ⟨-, -, _, l, e, hl⟩ := tidy.nodes i _ hr
    cases e
    rw [free] at hl
    cases hl

/-- Activations are added and the next node is placed in one of them, either a new one of its own or
one that it shares with its input. -/
theorem Tidy.placed {g : Graph α} (tidy : s.Tidy g k) {n : Node α} {p : Program α}
    {aid : LocationId} {l : Location α} (hn : g.node? ⟨k⟩ = some n) (valued : n.kind.hasValue = true)
    (same : p.instructions = s.program.instructions)
    (covers : p.activations.Covers s.program.activations) (distinct : p.activations.Distinct)
    (located : p.activations.get? aid = some l)
    (own : g.KeepsInputs → s.program.activations.get? aid = none ∧
      l.name = n.name ∧ n.type = some l.type) :
    (s.placed k p (.activation aid)).Tidy g (k + 1) ∧
      s.Emits [] (s.placed k p (.activation aid)) := by
  have fresh : s.place (.node ⟨k⟩) = none := by
    rw [Option.eq_none_iff_forall_ne_some]
    intro value hv
    exact absurd (tidy.nodes _ _ hv).1 (Nat.lt_irrefl k)
  have emits : s.Emits [] (s.placed k p (.activation aid)) := by
    refine ⟨.refl _, covers, fun r v hv => ?_, ?_⟩
    · rw [place_placed, if_neg, hv]
      rintro rfl
      rw [fresh] at hv
      cases hv
    · rw [List.append_nil, Lowering.placed, same]
  refine ⟨⟨tidy.store, distinct, fun v value hv => ?_, fun i value hv => ?_, fun i hi => ?_,
    fun keeps => ?_⟩, emits⟩
  · rw [place_placed, if_neg (by simp)] at hv
    exact tidy.vars v value hv
  · rw [place_placed] at hv
    split at hv
    · next e =>
      cases e
      cases hv
      exact ⟨Nat.lt_succ_self k, ⟨n, hn, valued⟩, aid, l, rfl, located⟩
    · obtain ⟨hi, has, bid, p, rfl, hp⟩ := tidy.nodes i value hv
      obtain ⟨q, hq, -⟩ := covers bid p hp
      exact ⟨Nat.lt_succ_of_lt hi, has, bid, q, rfl, hq⟩
  · rw [Lowering.placed, same] at hi
    exact (tidy.suited i hi).mono emits.covers
  · obtain ⟨named, separate⟩ := tidy.apart keeps
    obtain ⟨free, hname, htype⟩ := own keeps
    constructor
    · intro i bid hv
      rw [place_placed] at hv
      split at hv
      · next e =>
        cases e
        cases hv
        exact ⟨n, l, hn, located, hname, htype⟩
      · obtain ⟨m, p, hm, hp, pname, ptype⟩ := named i bid hv
        obtain ⟨q, hq, alike⟩ := covers bid p hp
        exact ⟨m, q, hm, hq, alike.name.trans pname, ptype.trans (congrArg some alike.type.symm)⟩
    · intro i j value hi hj
      rw [place_placed] at hi hj
      split at hi <;> split at hj
      · next e1 e2 => exact Ref.node.inj (e1.trans e2.symm)
      · cases hi
        exact absurd hj (tidy.vacant free _)
      · cases hj
        exact absurd hi (tidy.vacant free _)
      · exact separate i j value hi hj

theorem yields_result {n : Node α} {type : TensorType α} (htype : n.type = some type)
    (free : s.program.activations.find? n.name = none) :
    Yields (Lower.result ⟨k⟩ n) s (.activation ⟨s.program.activations.size⟩)
      (s.placed k (s.program.widen n.name type) (.activation ⟨s.program.activations.size⟩)) := by
  simp only [Lower.result, htype]
  refine yields_bind.mpr ⟨_, { s with program := s.program.widen n.name type },
    yields_attempt.mpr ?_, yields_bind.mpr ⟨(), _, yields_attempt.mpr rfl, yields_pure.mpr ⟨rfl, rfl⟩⟩⟩
  rw [Program.newActivation_of_free type free]
  rfl

theorem Tidy.result (tidy : s.Tidy c.graph k) {n : Node α} {value : Value}
    (hn : c.graph.node? ⟨k⟩ = some n) (valued : n.kind.hasValue = true)
    (h : Yields (Lower.result ⟨k⟩ n) s value s') :
    s'.Tidy c.graph (k + 1) ∧ s.Emits [] s' ∧ s'.place (.node ⟨k⟩) = some value := by
  simp only [Lower.result] at h
  cases htype : n.type with
  | none => simp [htype] at h
  | some type =>
    simp only [htype, yields_bind, yields_pure, Lower.define, yields_attempt] at h
    obtain ⟨_, s₁, h1, u, s₂, h2, rfl, rfl⟩ := h
    cases h2
    simp only [bind, Except.bind] at h1
    split at h1
    · cases h1
    · next r hr =>
      cases h1
      obtain ⟨a, aid, ha, hp, hv⟩ := Program.newActivation_eq_ok_iff.mp hr
      obtain ⟨p, w⟩ := r
      cases hp
      cases hv
      obtain ⟨free, rfl, rfl⟩ := Arena.insert_eq_ok_iff.mp ha
      obtain ⟨tidy', emits⟩ := tidy.placed (p := s.program.widen n.name type) hn valued rfl
        (Program.covers_widen s.program n.name type) (tidy.distinct.insert ha)
        (Program.widen_activation s.program n.name type)
        fun _ => ⟨Array.getElem?_eq_none (Nat.le_refl _), rfl, htype⟩
      exact ⟨tidy', emits, (place_placed ..).trans (if_pos rfl)⟩

theorem Tidy.activationTarget (tidy : s.Tidy c.graph k) {n : Node α} {op : UnaryOp}
    {r : Ref} {input value : Value} (hn : c.graph.node? ⟨k⟩ = some n)
    (hk : n.kind = .compute (.unary op)) (placed : s.place r = some input)
    (h : Yields (Lower.activationTarget c ⟨k⟩ n input) s value s') :
    s'.Tidy c.graph (k + 1) ∧ s.Emits [] s' ∧ s'.place (.node ⟨k⟩) = some value := by
  rw [Lower.activationTarget] at h
  split at h
  · next reuse =>
    obtain ⟨inPlace, activation⟩ := mayReuse_eq_true reuse
    cases htype : n.type with
    | none => simp [htype] at h
    | some type =>
      simp only [htype, yields_bind, yields_pure, Lower.define, yields_attempt] at h
      obtain ⟨u, s₁, h1, rfl, rfl⟩ := h
      cases h1
      cases input with
      | weight id => cases activation
      | activation aid =>
        have shares : ¬c.graph.KeepsInputs := by
          intro keeps
          have := keeps n (Array.mem_of_getElem? hn) op hk
          rw [inPlace] at this
          cases this
        obtain ⟨l, hl⟩ : ∃ l, s.program.activations.get? aid = some l := by
          cases r with
          | var v =>
            obtain ⟨_, e, -⟩ := tidy.vars v _ placed
            cases e
          | node i =>
            obtain ⟨-, -, _, l, e, hl⟩ := tidy.nodes i _ placed
            cases e
            exact ⟨l, hl⟩
        obtain ⟨tidy', emits⟩ := tidy.placed hn (by rw [hk]; rfl) rfl (.refl _) tidy.distinct hl
          fun keeps => absurd keeps shares
        exact ⟨tidy', emits, (place_placed ..).trans (if_pos rfl)⟩
  · exact tidy.result hn (by rw [hk]; rfl) h

/-! ## Instructions -/

theorem Tidy.emit {g : Graph α} (tidy : s.Tidy g k) {n : Node α} {kind : Opcode α}
    {values : List Value} (h : Yields (Lower.emit n kind values) s () s') :
    s'.Tidy g k ∧ s.Emits [.ofValues n.name kind values] s' ∧ s'.place = s.place := by
  rw [Lower.emit, yields_attempt] at h
  simp only [bind, Except.bind] at h
  split at h
  · cases h
  · next p hp =>
    cases h
    obtain ⟨accepted, rfl⟩ := Program.push_eq_ok_iff.mp hp
    have emits : s.Emits [.ofValues n.name kind values] { s with
        program := { s.program with
          instructions := s.program.instructions.push (.ofValues n.name kind values) } } :=
      ⟨.refl _, .refl _, fun _ _ h => h, by simp⟩
    refine ⟨⟨tidy.store, tidy.distinct, tidy.vars, tidy.nodes, ?_, fun keeps =>
      ⟨(tidy.apart keeps).named, (tidy.apart keeps).separate⟩⟩, emits, rfl⟩
    intro i hi
    rw [emits.instructions, List.mem_append, List.mem_singleton] at hi
    rcases hi with hi | rfl
    · exact tidy.suited i hi
    · exact ⟨_, accepted⟩

/-- The same kind of instruction for each of several values. -/
theorem Tidy.forM_emit {g : Graph α} (tidy : s.Tidy g k) {n : Node α} {kind : Opcode α}
    {operands : Value → List Value} {values : List Value}
    (h : Yields (forM values fun (x : Value) => Lower.emit n kind (operands x)) s () s') :
    s'.Tidy g k ∧
      s.Emits (values.map fun (x : Value) => .ofValues n.name kind (operands x)) s' ∧
      s'.place = s.place := by
  induction values generalizing s with
  | nil =>
    obtain rfl := yields_forM_nil.mp h
    exact ⟨tidy, .refl s, rfl⟩
  | cons x xs ih =>
    obtain ⟨s₁, h1, h2⟩ := yields_forM_cons.mp h
    obtain ⟨tidy1, emits1, same1⟩ := tidy.emit h1
    obtain ⟨tidy2, emits2, same2⟩ := ih tidy1 h2
    exact ⟨tidy2, emits1.trans emits2, same2.trans same1⟩

/-! ## Nodes -/

/-- A node without a value. -/
theorem Tidy.skip {g : Graph α} (tidy : s.Tidy g k) : s.Tidy g (k + 1) where
  store := tidy.store
  distinct := tidy.distinct
  vars := tidy.vars
  nodes i value hv := ⟨Nat.lt_succ_of_lt (tidy.nodes i value hv).1, (tidy.nodes i value hv).2⟩
  suited := tidy.suited
  apart := tidy.apart

/-- The nodes whose operator is computed into an activation of its own. -/
theorem Tidy.compute (tidy : s.Tidy c.graph k) {n : Node α} {kind : Opcode α}
    (hn : c.graph.node? ⟨k⟩ = some n) (valued : n.kind.hasValue = true)
    (h : Yields (Lower.compute c ⟨k⟩ n kind) s () s') :
    s'.Tidy c.graph (k + 1) ∧ ∃ self values,
      s.Emits [.ofValues n.name kind (self :: values)] s' ∧
        n.inputs.map s'.place = values.map some ∧ s'.place (.node ⟨k⟩) = some self := by
  simp only [Lower.compute, Lower.operands, yields_bind] at h
  obtain ⟨values, s₁, h1, self, s₂, h2, h3⟩ := h
  obtain ⟨tidy1, emits1, placed⟩ := tidy.mapM_operand h1
  obtain ⟨tidy2, emits2, own⟩ := tidy1.result hn valued h2
  obtain ⟨tidy3, emits3, same⟩ := tidy2.emit h3
  refine ⟨tidy3, self, values, emits1.after (emits2.after emits3), ?_, same ▸ own⟩
  exact map_place_mono (emits2.after emits3) placed

theorem Tidy.node (tidy : s.Tidy c.graph k) {n : Node α} (hn : c.graph.node? ⟨k⟩ = some n)
    (arity : ∀ count, n.kind.arity = some count → n.inputs.length = count)
    (h : Yields (Lower.node c ⟨k⟩ n) s () s') :
    s'.Tidy c.graph (k + 1) ∧ ∃ is, s.Emits is s' ∧ n.LowersTo s'.place k is := by
  have computed : ∀ kind : Opcode α, n.kind.hasValue = true →
      Yields (Lower.compute c ⟨k⟩ n kind) s () s' →
      (∀ self values, n.block self values = some [.ofValues n.name kind (self :: values)]) →
      s'.Tidy c.graph (k + 1) ∧ ∃ is, s.Emits is s' ∧ n.LowersTo s'.place k is := by
    intro kind valued hc hb
    obtain ⟨tidy', self, values, emits, placed, own⟩ := tidy.compute hn valued hc
    exact ⟨tidy', _, emits, self, values, placed, fun _ => own, hb self values⟩
  rw [Lower.node] at h
  split at h
  · next op hk =>
    split at h
    · next r hr =>
      simp only [yields_bind] at h
      obtain ⟨source, s₁, h1, self, s₂, h2, h3⟩ := h
      obtain ⟨tidy1, emits1, placed⟩ := tidy.operand h1
      obtain ⟨tidy2, emits2, own⟩ := tidy1.activationTarget hn hk placed h2
      obtain ⟨tidy3, emits3, same⟩ := tidy2.emit h3
      refine ⟨tidy3, _, emits1.after (emits2.after emits3), self, [source], ?_,
        fun _ => same ▸ own, by simp only [Node.block, hk]⟩
      rw [hr, List.map_singleton, List.map_singleton, same, emits2.places r source placed]
    · simp [Lower.wrongArity] at h
  · next op _ hk => exact computed _ (by rw [hk]; rfl) h fun _ _ => by simp only [Node.block, hk]
  · next dims hk => exact computed _ (by rw [hk]; rfl) h fun _ _ => by simp only [Node.block, hk]
  · next hk =>
    simp only [Lower.operands, yields_bind] at h
    obtain ⟨values, s₁, h1, h2⟩ := h
    obtain ⟨tidy1, emits1, placed⟩ := tidy.mapM_operand h1
    split at h2
    · next _ x _ =>
      simp only [yields_bind] at h2
      obtain ⟨self, s₂, h2, h3⟩ := h2
      obtain ⟨tidy2, emits2, own⟩ := tidy1.result hn (by rw [hk]; rfl) h2
      obtain ⟨tidy3, emits3, same⟩ := tidy2.emit h3
      refine ⟨tidy3, _, emits1.after (emits2.after emits3), self, _,
        map_place_mono (emits2.after emits3) placed, fun _ => same ▸ own, ?_⟩
      simp only [Node.block, hk]
    · simp [Lower.wrongArity] at h2
  · next value hk =>
    simp only [yields_bind] at h
    obtain ⟨self, s₁, h1, h2⟩ := h
    obtain ⟨tidy1, emits1, own⟩ := tidy.result hn (by rw [hk]; rfl) h1
    obtain ⟨tidy2, emits2, same⟩ := tidy1.emit h2
    have none : n.inputs = [] := List.length_eq_zero_iff.mp (arity 0 (by rw [hk]; rfl))
    refine ⟨tidy2, _, emits1.after emits2, self, [], by rw [none]; rfl, fun _ => same ▸ own, ?_⟩
    simp only [Node.block, hk]
  · next hk =>
    simp only [Lower.operands, yields_bind] at h
    obtain ⟨values, s₁, h1, h2⟩ := h
    obtain ⟨tidy1, emits1, placed⟩ := tidy.mapM_operand h1
    split at h2
    · next _ x d =>
      obtain ⟨tidy2, emits2, same⟩ := tidy1.emit h2
      refine ⟨tidy2.skip, _, emits1.after emits2, d, _, map_place_mono emits2 placed, ?_, ?_⟩
      · simp [hk, NodeKind.hasValue]
      · simp only [Node.block, hk]
    · simp [Lower.wrongArity] at h2
  · next hk =>
    simp only [Lower.operands, yields_bind, List.forM_eq_forM] at h
    obtain ⟨values, s₁, h1, self, s₂, h2, u, s₃, h3, h4⟩ := h
    obtain ⟨tidy1, emits1, placed⟩ := tidy.mapM_operand h1
    obtain ⟨tidy2, emits2, own⟩ := tidy1.result hn (by rw [hk]; rfl) h2
    obtain ⟨tidy3, emits3, same3⟩ := tidy2.emit h3
    obtain ⟨tidy4, emits4, same4⟩ := tidy3.forM_emit h4
    have emits := emits2.after (emits3.trans emits4)
    refine ⟨tidy4, _, emits1.after emits, self, values, map_place_mono emits placed,
      fun _ => same4 ▸ same3 ▸ own, ?_⟩
    simp only [Node.block, hk]
    rfl
  · next rule hk =>
    simp only [Lower.operands, yields_bind] at h
    obtain ⟨values, s₁, h1, h2⟩ := h
    obtain ⟨tidy1, emits1, placed⟩ := tidy.mapM_operand h1
    obtain ⟨tidy2, emits2, same⟩ := tidy1.emit h2
    refine ⟨tidy2.skip, _, emits1.after emits2, .weight ⟨0⟩, values, map_place_mono emits2 placed,
      ?_, ?_⟩
    · simp [hk, NodeKind.hasValue]
    · simp only [Node.block, hk]
  · simp at h

/-! ## Graphs -/

theorem Tidy.nodes_from {ns : List (Node α)} (formed : c.graph.WellFormed)
    (tidy : s.Tidy c.graph k) (hns : c.graph.nodes.toList.drop k = ns)
    (h : Yields (Lower.nodes c ((List.range' k ns.length).map NodeId.mk)) s () s') :
    s'.Tidy c.graph (k + ns.length) ∧ ∃ is, s.Emits is s' ∧ Emitted s'.place k ns is := by
  induction ns generalizing k s with
  | nil =>
    obtain rfl := yields_forM_nil.mp h
    exact ⟨tidy, [], .refl s, .nil⟩
  | cons n ns ih =>
    simp only [Lower.nodes, List.forM_eq_forM, List.length_cons, List.range'_succ, List.map_cons,
      yields_forM_cons, yields_bind, yields_attempt] at h
    obtain ⟨s₂, ⟨m, s₁, h1, h2⟩, h3⟩ := h
    have hn : c.graph.node? ⟨k⟩ = some n := by
      have : c.graph.nodes.toList[k]? = some n := by
        rw [← List.head?_drop, hns, List.head?_cons]
      rwa [Array.getElem?_toList] at this
    simp only [Graph.node, hn, Except.map, Except.ok.injEq, Prod.mk.injEq] at h1
    obtain ⟨rfl, rfl⟩ := h1
    obtain ⟨tidy1, is, emits1, lowers⟩ :=
      tidy.node hn (formed.arities n (Array.mem_of_getElem? hn)) h2
    have hrest : c.graph.nodes.toList.drop (k + 1) = ns := by
      rw [← List.tail_drop, hns, List.tail_cons]
    have h3' : Yields (Lower.nodes c ((List.range' (k + 1) ns.length).map NodeId.mk)) s₂ () s' := by
      rw [Lower.nodes, List.forM_eq_forM]
      exact h3
    obtain ⟨tidy2, js, emits2, rest⟩ := ih tidy1 hrest h3'
    refine ⟨?_, is ++ js, emits1.trans emits2, .cons (lowers.mono emits2.places) rest⟩
    rw [List.length_cons, Nat.add_comm ns.length, ← Nat.add_assoc]
    exact tidy2

theorem Tidy.start {store : WeightStorage α} (sound : store.Sound) (g : Graph α) (name : String) :
    Tidy g 0 ⟨.empty name, store, []⟩ :=
  ⟨sound, .empty, by simp [place], by simp [place], by simp [Program.empty],
    fun _ => ⟨by simp [place], by simp [place]⟩⟩

end Lowering

/-- A lowering that succeeds has gone through all nodes, one after the other. -/
theorem Graph.yields_of_lower [Scalar α] {g : Graph α} {m : Module α}
    {store store' : WeightStorage α} {p : Program α} (formed : g.WellFormed)
    (h : g.lower m store = (.ok p, store')) :
    ∃ s : Lowering α, s.program = p ∧ s.store = store' ∧
      Yields (Lower.nodes ⟨m, g, m.storedWith g⟩
        ((List.range' 0 g.nodes.toList.length).map NodeId.mk)) ⟨.empty g.name, store, []⟩ () s := by
  simp only [Graph.lower, formed.ordered.evaluationOrder_eq] at h
  split at h
  · next s hs =>
    cases h
    refine ⟨s, rfl, rfl, ?_⟩
    rw [← List.range_eq_range', Array.length_toList]
    exact hs
  · cases h

/-- What a successful lowering leaves: a tidy state of all nodes, whose program consists of their
blocks. -/
theorem Graph.lower_eq_ok [Scalar α] {g : Graph α} {m : Module α} {store store' : WeightStorage α}
    {p : Program α} (formed : g.WellFormed) (sound : store.Sound)
    (h : g.lower m store = (.ok p, store')) :
    ∃ s : Lowering α, s.program = p ∧ s.store = store' ∧ s.Tidy g g.size ∧
      store.Grows store' ∧ Emitted s.place 0 g.nodes.toList p.instructions.toList := by
  obtain ⟨s, rfl, rfl, run⟩ := yields_of_lower formed h
  obtain ⟨tidy, is, emits, blocks⟩ := (Lowering.Tidy.start sound g g.name).nodes_from
    (c := ⟨m, g, m.storedWith g⟩) formed rfl run
  refine ⟨s, rfl, rfl, ?_, emits.store, ?_⟩
  · simpa [Graph.size] using tidy
  · rw [emits.instructions]
    exact blocks

end NeuralGraph
