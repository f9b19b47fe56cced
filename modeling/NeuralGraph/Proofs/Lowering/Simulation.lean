import Mathlib.Algebra.GroupWithZero.Nat
import NeuralGraph.Proofs.Graph.Evaluation
import NeuralGraph.Proofs.Kernel.Results
import NeuralGraph.Proofs.Lowering.Steps
import NeuralGraph.Proofs.Program.Signatures
import NeuralGraph.Proofs.Program.Stepping

/-!
# Programs compute what graphs mean

The program of a graph, run in any memory that has the locations it was lowered for, does what the
evaluation of the graph does.  `Shows` relates the memory to the valuation: every variable's home
holds what the variable holds, and the place of every node that is done holds the value of the node.
Each node's block keeps the relation or fails where the evaluation of the node fails.
-/

namespace NeuralGraph
set_option autoImplicit false
variable {α : Type}

/-- The location holds `t` instead. -/
def Location.holding (l : Location α) (t : Tensor α) : Location α := { l with payload := t }

/-- Homes hold what variables hold, and the places of the first `k` nodes hold their values. -/
structure Shows (s : Lowering α) (k : Nat) (m : Memory α) (V : Valuation α) : Prop where
  covers : m.Covers s.memory
  vars : ∀ v l, s.store.home? v = some l →
    ∃ p, m.weights.get? l = some p ∧ V.vars v = some p.payload
  nodes : ∀ i value, i.index < k → s.place (.node i) = some value →
    ∃ p, m.locate? value = some p ∧ V.nodes i = some p.payload

namespace Shows
variable {s : Lowering α} {g : Graph α} {k : Nat} {m : Memory α} {V : Valuation α}

/-- A node without a value is done. -/
theorem skip (shows : Shows s k m V) (absent : s.place (.node ⟨k⟩) = none) :
    Shows s (k + 1) m V := by
  refine ⟨shows.covers, shows.vars, fun i value hi hv => shows.nodes i value ?_ hv⟩
  have : i ≠ ⟨k⟩ := by
    rintro rfl
    rw [absent] at hv
    cases hv
  have : i.index ≠ k := fun h => this (by rw [← h])
  omega

variable [Scalar α]

/-- What is read of a value is what lies at its place. -/
theorem read (shows : Shows s k m V) (tidy : s.Tidy g g.size) {r : Ref} {value : Value}
    (placed : s.place r = some value) (before : ∀ id, r = .node id → id.index < k) :
    ∃ l, m.locate? value = some l ∧ V.read r = .ok l.payload := by
  cases r with
  | var v =>
    obtain ⟨l, rfl, home⟩ := tidy.vars v value placed
    obtain ⟨p, hp, hv⟩ := shows.vars v l home
    exact ⟨p, hp, by simp only [Valuation.read, hv]⟩
  | node id =>
    obtain ⟨p, hp, hv⟩ := shows.nodes id value (before id rfl) placed
    exact ⟨p, hp, by simp only [Valuation.read, hv]⟩

theorem readAll (shows : Shows s k m V) (tidy : s.Tidy g g.size) {rs : List Ref}
    {values : List Value} (placed : rs.map s.place = values.map some)
    (before : ∀ id, Ref.node id ∈ rs → id.index < k) :
    ∃ ls, List.Forall₂ (fun (v : Value) (l : Location α) => m.locate? v = some l) values ls ∧
      List.Forall₂ (fun (r : Ref) (t : Tensor α) => V.read r = .ok t) rs
        (ls.map Location.payload) := by
  induction rs generalizing values with
  | nil =>
    cases values with
    | nil => exact ⟨[], .nil, .nil⟩
    | cons v values => cases placed
  | cons r rs ih =>
    cases values with
    | nil => cases placed
    | cons v values =>
      simp only [List.map_cons, List.cons.injEq] at placed
      obtain ⟨l, hl, hr⟩ := shows.read tidy placed.1 fun id e => before id (e ▸ List.mem_cons_self)
      obtain ⟨ls, hls, hrs⟩ := ih placed.2 fun id h => before id (List.mem_cons_of_mem _ h)
      exact ⟨l :: ls, .cons hl hls, .cons hr hrs⟩

/-- The value of node `k` is stored at its place. -/
theorem record (shows : Shows s k m V) (tidy : s.Tidy g g.size) (keeps : g.KeepsInputs)
    {self : Value} {l : Location α} {t : Tensor α} (placed : s.place (.node ⟨k⟩) = some self)
    (hl : m.locate? self = some l) (ht : t.type = l.type) :
    Shows s (k + 1) (m.put self (l.holding t)) (V.record ⟨k⟩ t) := by
  obtain ⟨-, -, id, -, rfl, -⟩ := tidy.nodes _ _ placed
  refine ⟨shows.covers.put hl (.withPayload l ht), fun v h hv => ?_, fun i value hi hv => ?_⟩
  · exact shows.vars v h hv
  · by_cases e : i = ⟨k⟩
    · subst e
      rw [placed] at hv
      cases hv
      exact ⟨_, Memory.locate?_put_self m hl, V.record_self _ _⟩
    · have apart : Value.activation id ≠ value := by
        rintro rfl
        exact e ((tidy.apart keeps).separate _ _ _ hv placed)
      have hlt : i.index < k := by
        have : i.index ≠ k := fun h => e (by rw [← h])
        omega
      obtain ⟨p, hp, hV⟩ := shows.nodes i value hlt hv
      refine ⟨p, ?_, ?_⟩
      · rw [Memory.locate?_put_ne m _ apart, hp]
      · rw [V.record_ne t e, hV]

/-- A tensor is stored at the home of a variable. -/
theorem assign (shows : Shows s k m V) (tidy : s.Tidy g g.size) {v : VarId} {value : Value}
    {l : Location α} {t : Tensor α} (placed : s.place (.var v) = some value)
    (hl : m.locate? value = some l) (ht : t.type = l.type) :
    Shows s k (m.put value (l.holding t)) (V.assign v t) := by
  obtain ⟨home, rfl, hhome⟩ := tidy.vars v value placed
  refine ⟨shows.covers.put hl (.withPayload l ht), fun u h hu => ?_, fun i value hi hv => ?_⟩
  · by_cases e : u = v
    · subst e
      rw [hhome] at hu
      cases hu
      exact ⟨_, Memory.locate?_put_self m hl, V.assign_self _ _⟩
    · have apart : Value.weight home ≠ .weight h := by
        intro same
        cases same
        exact e (tidy.store.separate _ _ _ hu hhome)
      obtain ⟨p, hp, hV⟩ := shows.vars u h hu
      refine ⟨p, ?_, ?_⟩
      · exact (Memory.locate?_put_ne m _ apart).trans hp
      · rw [V.assign_ne t e, hV]
  · obtain ⟨p, hp, hV⟩ := shows.nodes i value hi hv
    obtain ⟨-, -, id, -, rfl, -⟩ := tidy.nodes i value hv
    refine ⟨p, ?_, hV⟩
    rw [Memory.locate?_put_ne m _ (by simp), hp]

/-- The place of node `k` is a location under its name and of its type. -/
theorem own (shows : Shows s k m V) (tidy : s.Tidy g g.size) (keeps : g.KeepsInputs) {n : Node α}
    (hn : g.node? ⟨k⟩ = some n) {self : Value} (placed : s.place (.node ⟨k⟩) = some self) :
    ∃ l, m.locate? self = some l ∧ l.name = n.name ∧ n.type = some l.type := by
  obtain ⟨-, -, id, -, rfl, -⟩ := tidy.nodes _ _ placed
  obtain ⟨n', p, hn', hp, hname, htype⟩ := (tidy.apart keeps).named _ _ placed
  rw [hn] at hn'
  cases hn'
  obtain ⟨l, hl, alike⟩ := shows.covers (.activation id) p hp
  exact ⟨l, hl, alike.name.trans hname, htype.trans (congrArg some alike.type.symm)⟩

end Shows

/-! ## Runs that agree with evaluations -/

theorem except_map_bind {ε β γ δ : Type} (x : Except ε β) (f : β → Except ε γ) (φ : γ → δ) :
    (x >>= f).map φ = x >>= fun (b : β) => (f b).map φ := by
  cases x <;> rfl

/-- A run does what an evaluation does: it executes all of `count` instructions and shows the
valuation, or fails with the same error before it comes to their end. -/
def Agrees (s : Lowering α) (k count : Nat) (r : Run α) (o : Except (Error α) (Valuation α)) : Prop :=
  match o with
  | .ok V => r.failure = none ∧ r.executed = count ∧ Shows s k r.memory V
  | .error e => r.failure = some e ∧ r.executed < count

section
variable [Scalar α] {s : Lowering α} {g : Graph α} {k : Nat} {m : Memory α} {V : Valuation α}

theorem agrees_step {i : Instruction α} {o : Except (Error α) (Valuation α)}
    (h : match o with
      | .ok V' => ∃ m', i.step m = (m', none) ∧ Shows s k m' V'
      | .error e => ∃ m', i.step m = (m', some e)) :
    Agrees s k 1 (execute [i] m) o := by
  cases o with
  | ok V' =>
    obtain ⟨m', hm, hs⟩ := h
    simp only [execute, hm]
    exact ⟨rfl, rfl, hs⟩
  | error e =>
    obtain ⟨m', hm⟩ := h
    simp only [execute, hm]
    exact ⟨rfl, Nat.one_pos⟩

/-- Two runs one after the other, the second of which continues with what the first has found. -/
theorem Agrees.append {β : Type} {is js : List (Instruction α)} {j a b : Nat}
    {x : Except (Error α) β} {φ : β → Valuation α} {f : β → Except (Error α) (Valuation α)}
    (first : Agrees s j a (execute is m) (x.map φ))
    (second : ∀ m' c, x = .ok c → Shows s j m' (φ c) → Agrees s k b (execute js m') (f c)) :
    Agrees s k (a + b) (execute (is ++ js) m) (x >>= f) := by
  rw [execute_append]
  cases x with
  | ok c =>
    obtain ⟨hf, he, hs⟩ := first
    simp only [hf]
    have rest := second _ c rfl hs
    simp only [bind, Except.bind]
    cases ho : f c with
    | ok W =>
      rw [ho] at rest
      obtain ⟨hf', he', hs'⟩ := rest
      exact ⟨hf', by rw [he, he'], hs'⟩
    | error e =>
      rw [ho] at rest
      obtain ⟨hf', he'⟩ := rest
      exact ⟨hf', by simp only [he]; omega⟩
  | error e =>
    obtain ⟨hf, he⟩ := first
    simp only [hf]
    exact ⟨hf, Nat.lt_add_right b he⟩

theorem Shows.agrees_self (shows : Shows s k m V) (tidy : s.Tidy g g.size) (keeps : g.KeepsInputs)
    {n : Node α} (hn : g.node? ⟨k⟩ = some n) {type : TensorType α} (htype : n.type = some type)
    {self : Value} (placed : s.place (.node ⟨k⟩) = some self) {kind : Opcode α}
    {values : List Value} {ls : List (Location α)} {r : Kernel α (PlacedArray α)}
    (suits : (Instruction.ofValues n.name kind (self :: values)).Suits s.memory)
    (first : (Instruction.ofValues n.name kind (self :: values)).WritesFirst)
    (hls : List.Forall₂ (fun (v : Value) (l : Location α) => m.locate? v = some l) values ls)
    (hr : ∀ t : Tensor α, t.type = type → Instruction.results kind (t :: ls.map Location.payload) =
      r.map fun (a : PlacedArray α) => [a]) :
    Agrees s (k + 1) 1 (execute [.ofValues n.name kind (self :: values)] m)
      ((n.keepResult type r).map (V.record ⟨k⟩)) := by
  obtain ⟨l, hl, hname, hltype⟩ := shows.own tidy keeps hn placed
  have same : l.type = type := Option.some.inj (hltype.symm.trans htype)
  have step := Instruction.step_ofValues (suits.mono shows.covers) first hl hls
    (hr l.payload same)
  have kept : Instruction.kept n.name l r = n.keepResult type r := by
    subst same
    cases r with
    | error fault => rfl
    | ok a => simp only [Instruction.kept, Node.keepResult, Node.keep, hname]
  rw [kept] at step
  apply agrees_step
  cases hk : n.keepResult type r with
  | error e => exact ⟨m, by rw [step, hk]⟩
  | ok t =>
    have ttype : t.type = l.type := by
      rw [same]
      exact Node.keepResult_type hk
    refine ⟨_, ?_, shows.record tidy keeps placed hl ttype⟩
    rw [step, hk]
    rfl

/-! ## Blocks -/

theorem Shows.agrees_single (shows : Shows s k m V) (tidy : s.Tidy g g.size) (keeps : g.KeepsInputs)
    {n : Node α} (hn : g.node? ⟨k⟩ = some n) (valued : n.kind.hasValue = true)
    (single : n.kind ≠ .gradientSum) {self : Value} (placed : s.place (.node ⟨k⟩) = some self)
    {kind : Opcode α} {values : List Value} {ls : List (Location α)} {xs : List (Tensor α)}
    (suits : (Instruction.ofValues n.name kind (self :: values)).Suits s.memory)
    (first : (Instruction.ofValues n.name kind (self :: values)).WritesFirst)
    (hls : List.Forall₂ (fun (v : Value) (l : Location α) => m.locate? v = some l) values ls)
    (hxs : n.inputs.mapM V.read = .ok xs)
    (hr : ∀ t : Tensor α, Instruction.results kind (t :: ls.map Location.payload) =
      (n.kind.numbers t.type.dims (xs.map Tensor.decoded)).map fun (a : PlacedArray α) => [a]) :
    Agrees s (k + 1) 1 (execute [.ofValues n.name kind (self :: values)] m) (n.evaluate ⟨k⟩ V) := by
  obtain ⟨l, -, -, htype⟩ := shows.own tidy keeps hn placed
  rw [Node.evaluate_of_hasValue valued hxs htype, Node.value_of_not_sum single]
  exact shows.agrees_self tidy keeps hn htype placed suits first hls fun t ht => by rw [hr t, ht]

/-- The additions of a sum of gradients, after a part of the sum is stored. -/
theorem Shows.agrees_additions (tidy : s.Tidy g g.size) (keeps : g.KeepsInputs) {n : Node α}
    (hn : g.node? ⟨k⟩ = some n) {type : TensorType α} (htype : n.type = some type) {self : Value}
    (placed : s.place (.node ⟨k⟩) = some self) {rs : List Ref} {values : List Value}
    {xs : List (Tensor α)} {total : Tensor α} (shows : Shows s (k + 1) m (V.record ⟨k⟩ total))
    (sources : rs.map s.place = values.map some) (before : ∀ id, Ref.node id ∈ rs → id.index < k)
    (hxs : List.Forall₂ (fun (r : Ref) (t : Tensor α) => V.read r = .ok t) rs xs)
    (suits : ∀ v ∈ values, (Instruction.ofValues n.name (.compute (.binary .add))
      [self, self, v]).Suits s.memory) :
    Agrees s (k + 1) values.length
      (execute (values.map fun (v : Value) =>
        .ofValues n.name (.compute (.binary .add)) [self, self, v]) m)
      ((xs.foldlM (n.addTo type) total).map (V.record ⟨k⟩)) := by
  induction hxs generalizing values total m with
  | nil =>
    obtain rfl : values = [] := by simpa using sources.symm
    exact ⟨rfl, rfl, shows⟩
  | @cons r x rs xs hx hxs ih =>
    cases values with
    | nil => cases sources
    | cons v values =>
      simp only [List.map_cons, List.cons.injEq] at sources
      have shows' : Shows s k m (V.record ⟨k⟩ total) :=
        ⟨shows.covers, shows.vars, fun i w hi => shows.nodes i w (Nat.lt_succ_of_lt hi)⟩
      obtain ⟨l, hl, hV⟩ := shows.nodes ⟨k⟩ self (Nat.lt_succ_self k) placed
      obtain rfl : total = l.payload := by simpa using hV
      obtain ⟨p, hp, hread⟩ := shows'.read tidy sources.1
        fun id e => before id (e ▸ List.mem_cons_self)
      have ne : r ≠ .node ⟨k⟩ := by
        rintro rfl
        exact absurd (before _ List.mem_cons_self) (Nat.lt_irrefl k)
      obtain rfl : x = p.payload := by
        rw [V.read_record_ne _ ne, hx] at hread
        exact Except.ok.inj hread
      have one := shows'.agrees_self tidy keeps hn htype placed
        (suits v List.mem_cons_self) ⟨2, rfl⟩ (.cons hl (.cons hp .nil))
        (r := (Operator.binary .add).apply type.dims [l.payload.decoded, p.payload.decoded])
        fun t ht => by simp only [Instruction.results, Tensor.dims, ht, List.map_cons, List.map_nil]
      have value : ((n.addTo type l.payload p.payload).map (V.record ⟨k⟩)) =
          (n.keepResult type ((Operator.binary .add).apply type.dims
            [l.payload.decoded, p.payload.decoded])).map
              ((V.record ⟨k⟩ l.payload).record ⟨k⟩) := by
        simp only [Node.addTo]
        cases n.keepResult type ((Operator.binary .add).apply type.dims
          [l.payload.decoded, p.payload.decoded]) with
        | error e => rfl
        | ok t => exact congrArg Except.ok (V.record_record _ _ _).symm
      rw [← value] at one
      have all := one.append (b := values.length) fun m' t _ shown =>
        ih shown sources.2 (fun id h => before id (List.mem_cons_of_mem _ h))
          fun w hw => suits w (List.mem_cons_of_mem _ hw)
      rw [List.length_cons, Nat.add_comm values.length, List.map_cons, List.foldlM_cons, except_map_bind]
      exact all

theorem Shows.agrees_sum (shows : Shows s k m V) (tidy : s.Tidy g g.size) (keeps : g.KeepsInputs)
    {n : Node α} (hn : g.node? ⟨k⟩ = some n) (hk : n.kind = .gradientSum) {self : Value}
    (placed : s.place (.node ⟨k⟩) = some self) {values : List Value} {is : List (Instruction α)}
    (sources : n.inputs.map s.place = values.map some)
    (before : ∀ id, Ref.node id ∈ n.inputs → id.index < k) (hb : n.block self values = some is)
    (suits : ∀ i ∈ is, i.Suits s.memory) :
    Agrees s (k + 1) is.length (execute is m) (n.evaluate ⟨k⟩ V) := by
  simp only [Node.block, hk, Option.some.injEq] at hb
  subst hb
  obtain ⟨l, -, -, htype⟩ := shows.own tidy keeps hn placed
  obtain ⟨ls, -, hxs⟩ := shows.readAll tidy sources before
  rw [Node.evaluate_of_hasValue (by rw [hk]; rfl) (mapM_eq_ok_of_forall₂ hxs) htype]
  have zero := shows.agrees_self tidy keeps hn htype placed (suits _ List.mem_cons_self) ⟨0, rfl⟩
    .nil (r := .ok (.byRows (.fill l.type.dims 0)))
    fun t ht => by simp only [Instruction.results, Tensor.dims, ht, List.map_nil]; rfl
  have all := zero.append (b := values.length) fun m' t _ shown =>
    shown.agrees_additions tidy keeps hn htype placed sources before hxs
      fun v hv => suits _ (List.mem_cons_of_mem _ (List.mem_map_of_mem hv))
  rw [List.length_cons, List.length_map, Nat.add_comm values.length]
  simp only [Node.value, hk]
  rw [except_map_bind]
  exact all

theorem Shows.agrees_save (shows : Shows s k m V) (tidy : s.Tidy g g.size) {n : Node α}
    (hk : n.kind = .save) {r : Ref} {v : VarId} (hi : n.inputs = [r, .var v]) {x d : Value}
    (absent : s.place (.node ⟨k⟩) = none)
    (sources : n.inputs.map s.place = [x, d].map some)
    (before : ∀ id, Ref.node id ∈ n.inputs → id.index < k)
    (suits : (Instruction.ofValues n.name .copy [d, x]).Suits s.memory) :
    Agrees s (k + 1) 1 (execute [.ofValues n.name .copy [d, x]] m) (n.evaluate ⟨k⟩ V) := by
  obtain ⟨ls, hls, hxs⟩ := shows.readAll tidy sources before
  match ls, hls with
  | [p, q], .cons hp (.cons hq .nil) =>
    have placed : s.place (.var v) = some d := by
      simp only [hi, List.map_cons, List.map_nil, List.cons.injEq, and_true] at sources
      exact sources.2
    have suits' := suits.mono shows.covers
    obtain ⟨-, signature⟩ := suits'.signature (Instruction.locatedIn_ofValues.mpr
      (.cons hq (.cons hp .nil)))
    obtain ⟨_, _, types, same⟩ := Signature.copy_eq_ok_iff.mp signature
    cases types
    have dims : p.payload.decoded.dims = q.type.dims :=
      p.payload.decoded_dims.trans (TensorType.dims_eq_of_beq same).symm
    have step := Instruction.step_ofValues (r := .ok p.payload.decoded) suits' ⟨1, rfl⟩ hq
      (.cons hp .nil) rfl
    simp only [Instruction.kept, dif_pos dims] at step
    have value : n.evaluate ⟨k⟩ V =
        .ok (V.assign v (.encoded q.type p.payload.decoded dims)) := by
      rw [Node.evaluate_save hk hi (mapM_eq_ok_of_forall₂ hxs)]
      have dims' : p.payload.decoded.dims = q.payload.type.dims := dims
      rw [Node.saveTo, n.keep_of_dims dims']
      rfl
    rw [value]
    let stored : Tensor α := .encoded q.type p.payload.decoded dims
    exact agrees_step ⟨_, step, (shows.assign (t := stored) tidy placed hq rfl).skip absent⟩

theorem Shows.agrees_update (shows : Shows s k m V) (tidy : s.Tidy g g.size) {n : Node α}
    {rule : UpdateRule α} (hk : n.kind = .update rule) {r : Ref} {w v : VarId}
    (hi : n.inputs = [.var w, r, .var v]) {values : List Value}
    (absent : s.place (.node ⟨k⟩) = none)
    (sources : n.inputs.map s.place = values.map some)
    (before : ∀ id, Ref.node id ∈ n.inputs → id.index < k)
    (suits : (Instruction.ofValues n.name (.update rule) values).Suits s.memory) :
    Agrees s (k + 1) 1 (execute [.ofValues n.name (.update rule) values] m) (n.evaluate ⟨k⟩ V) := by
  obtain ⟨ls, hls, hxs⟩ := shows.readAll tidy sources before
  rw [hi] at sources
  match values, sources with
  | [a, b, c], sources =>
    simp only [List.map_cons, List.map_nil, List.cons.injEq, and_true] at sources
    match ls, hls with
    | [p, q, o], .cons hp (.cons hq (.cons ho .nil)) =>
      have located : (Instruction.ofValues n.name (.update rule) [a, b, c]).LocatedIn m [p, q, o] :=
        Instruction.locatedIn_ofValues.mpr (.cons hp (.cons hq (.cons ho .nil)))
      obtain ⟨_, _, x, y, hxp, hyo, written, -, -, applied, -, step⟩ :=
        (suits.mono shows.covers).step_update rfl located
      cases written
      let weight : Tensor α := .encoded p.type x hxp
      let velocity : Tensor α := .encoded o.type y hyo
      have value : n.evaluate ⟨k⟩ V = .ok ((V.assign w weight).assign v velocity) := by
        have hxp' : x.dims = p.payload.type.dims := hxp
        have hyo' : y.dims = o.payload.type.dims := hyo
        rw [Node.evaluate_update hk hi (mapM_eq_ok_of_forall₂ hxs)]
        simp only [Node.updateWith, applied, n.keep_of_dims hxp', n.keep_of_dims hyo']
        rfl
      have showsWeight := shows.assign (t := weight) tidy sources.1 hp rfl
      have showsBoth : Shows s k ((m.put a (p.holding weight)).put c (o.holding velocity))
          ((V.assign w weight).assign v velocity) := by
        by_cases same : a = c
        · subst same
          obtain rfl := Option.some.inj (hp.symm.trans ho)
          exact showsWeight.assign (l := p.holding weight) (t := velocity) tidy sources.2.2
            (Memory.locate?_put_self m hp) rfl
        · have kept := (Memory.locate?_put_ne m (p.holding weight) same).trans ho
          exact showsWeight.assign tidy sources.2.2 kept rfl
      rw [value]
      exact agrees_step ⟨_, step, showsBoth.skip absent⟩

theorem Lowering.Tidy.absent (tidy : s.Tidy g g.size) {n : Node α} (hn : g.node? ⟨k⟩ = some n)
    (h : n.kind.hasValue = false) : s.place (.node ⟨k⟩) = none := by
  rw [Option.eq_none_iff_forall_ne_some]
  intro value hv
  obtain ⟨-, ⟨n', hn', h'⟩, -⟩ := tidy.nodes _ _ hv
  rw [hn] at hn'
  cases hn'
  rw [h] at h'
  cases h'

/-- The block of a node does what the evaluation of the node does. -/
theorem Shows.agrees_block (shows : Shows s k m V) (tidy : s.Tidy g g.size) (keeps : g.KeepsInputs)
    (formed : g.WellFormed) {n : Node α} (hn : g.node? ⟨k⟩ = some n)
    (stores : n.StoresIntoVariables) {is : List (Instruction α)} (lowers : n.LowersTo s.place k is)
    (suits : ∀ i ∈ is, i.Suits s.memory) :
    Agrees s (k + 1) is.length (execute is m) (n.evaluate ⟨k⟩ V) := by
  obtain ⟨self, values, sources, own, hb⟩ := lowers
  have arity := formed.arities n (Array.mem_of_getElem? hn)
  have before : ∀ id, Ref.node id ∈ n.inputs → id.index < k := fun id hid =>
    formed.ordered k n hn id (Graph.mem_nodeInputs.mpr hid)
  obtain ⟨ls, hls, hxs⟩ := shows.readAll tidy sources before
  have reads := mapM_eq_ok_of_forall₂ hxs
  have count : ls.length = n.inputs.length := by
    rw [hxs.length_eq, List.length_map]
  have count' : values.length = n.inputs.length := by
    rw [hls.length_eq, count]
  cases hk : n.kind with
  | compute op =>
    simp only [Node.block, hk, Option.some.injEq] at hb
    subst hb
    exact shows.agrees_single tidy keeps hn (by rw [hk]; rfl) (by simp [hk]) (own (by rw [hk]; rfl))
      (suits _ List.mem_cons_self) ⟨op.arity, rfl⟩ hls reads fun t => by rw [hk]; rfl
  | reshape dims =>
    simp only [Node.block, hk, Option.some.injEq] at hb
    subst hb
    have one : n.inputs.length = 1 := arity 1 (by rw [hk]; rfl)
    rw [one] at count
    obtain ⟨l, rfl⟩ := List.length_eq_one_iff.mp count
    refine shows.agrees_single tidy keeps hn (by rw [hk]; rfl) (by simp [hk])
      (own (by rw [hk]; rfl)) (suits _ List.mem_cons_self) ⟨1, rfl⟩ hls reads fun t => ?_
    simp only [hk, NodeKind.numbers, Instruction.results, List.map_cons, List.map_nil]
    rw [Tensor.dims]
    cases Kernel.reshape l.payload.decoded.array t.type.dims <;> rfl
  | regression =>
    have two : n.inputs.length = 2 := arity 2 (by rw [hk]; rfl)
    rw [two] at count'
    obtain ⟨x, e, rfl⟩ := List.length_eq_two.mp count'
    simp only [Node.block, hk, Option.some.injEq] at hb
    subst hb
    rcases hls with _ | ⟨hp, _ | ⟨hq, ⟨⟩⟩⟩
    exact shows.agrees_single tidy keeps hn (by rw [hk]; rfl) (by simp [hk])
      (own (by rw [hk]; rfl)) (suits _ List.mem_cons_self) ⟨1, rfl⟩ (.cons hp .nil) reads
      fun t => by rw [hk]; rfl
  | splat value =>
    simp only [Node.block, hk, Option.some.injEq] at hb
    subst hb
    have none : n.inputs.length = 0 := arity 0 (by rw [hk]; rfl)
    rw [none] at count
    obtain rfl := List.length_eq_zero_iff.mp count
    exact shows.agrees_single tidy keeps hn (by rw [hk]; rfl) (by simp [hk])
      (own (by rw [hk]; rfl)) (suits _ List.mem_cons_self) ⟨0, rfl⟩ .nil reads
      fun t => by rw [hk]; rfl
  | save =>
    have two : n.inputs.length = 2 := arity 2 (by rw [hk]; rfl)
    obtain ⟨r, r', hi⟩ := List.length_eq_two.mp two
    rw [two] at count'
    obtain ⟨x, d, rfl⟩ := List.length_eq_two.mp count'
    simp only [Node.block, hk, Option.some.injEq] at hb
    subst hb
    simp only [Node.StoresIntoVariables, hk, hi] at stores
    obtain ⟨v, rfl⟩ := stores
    exact shows.agrees_save tidy hk hi (tidy.absent hn (by rw [hk]; rfl)) sources before
      (suits _ List.mem_cons_self)
  | custom name => simp [Node.block, hk] at hb
  | gradientSum =>
    exact shows.agrees_sum tidy keeps hn hk (own (by rw [hk]; rfl)) sources before hb suits
  | update rule =>
    simp only [Node.block, hk, Option.some.injEq] at hb
    subst hb
    have three : n.inputs.length = 3 := arity 3 (by rw [hk]; rfl)
    obtain ⟨w, r, v, hi⟩ := List.length_eq_three.mp three
    simp only [Node.StoresIntoVariables, hk, hi] at stores
    obtain ⟨⟨w, rfl⟩, v, rfl⟩ := stores
    exact shows.agrees_update tidy hk hi (tidy.absent hn (by rw [hk]; rfl)) sources before
      (suits _ List.mem_cons_self)

end

/-! ## Whole programs -/

/-- The number of instructions of a node. -/
def Node.instructionCount (n : Node α) : Nat :=
  match n.kind with
  | .gradientSum => n.inputs.length + 1
  | _ => 1

/-- The number of instructions of nodes. -/
def instructionCounts (ns : List (Node α)) : Nat := (ns.map Node.instructionCount).sum

/-- The number of the first instruction of node `i`, if every node has its instructions in turn. -/
def Graph.firstInstruction (g : Graph α) (i : Nat) : Nat := instructionCounts (g.nodes.toList.take i)

@[simp] theorem instructionCounts_nil : instructionCounts ([] : List (Node α)) = 0 := rfl

@[simp] theorem instructionCounts_cons (n : Node α) (ns : List (Node α)) :
    instructionCounts (n :: ns) = n.instructionCount + instructionCounts ns := by
  simp [instructionCounts]

/-- Consecutive nodes of a graph, the first of which is node `k`. -/
def Graph.HasNodes (g : Graph α) (k : Nat) (ns : List (Node α)) : Prop :=
  ∀ j n, ns[j]? = some n → g.node? ⟨k + j⟩ = some n

theorem Graph.HasNodes.tail {g : Graph α} {k : Nat} {n : Node α} {ns : List (Node α)}
    (h : g.HasNodes k (n :: ns)) :
    g.HasNodes (k + 1) ns := by
  intro j n' hj
  have := h (j + 1) n' hj
  rwa [Nat.add_comm j, ← Nat.add_assoc] at this

section
variable [Scalar α] {s : Lowering α} {g : Graph α} {k : Nat} {m : Memory α} {V : Valuation α}

theorem Node.LowersTo.length_eq {place : Ref → Option Value} {i : Nat} {n : Node α}
    {is : List (Instruction α)} (h : n.LowersTo place i is) : is.length = n.instructionCount := by
  obtain ⟨self, values, sources, -, hb⟩ := h
  have count := congrArg List.length sources
  simp only [List.length_map] at count
  simp only [Node.block] at hb
  split at hb <;> cases hb <;> simp [Node.instructionCount, *]

/-- A run of the instructions of nodes does what the evaluation of the nodes does: it executes all
of them and shows the valuation, or it fails with the same error in the block of the same node. -/
def RunAgrees (s : Lowering α) (k : Nat) (ns : List (Node α)) (r : Run α)
    (o : Except (NodeId × Error α) (Valuation α)) : Prop :=
  match o with
  | .ok V => r.failure = none ∧ r.executed = instructionCounts ns ∧ Shows s (k + ns.length) r.memory V
  | .error (i, e) => r.failure = some e ∧ ∃ j, j < ns.length ∧ i = ⟨k + j⟩ ∧
      instructionCounts (ns.take j) ≤ r.executed ∧ r.executed < instructionCounts (ns.take (j + 1))

theorem Shows.agrees_run (tidy : s.Tidy g g.size) (keeps : g.KeepsInputs) (formed : g.WellFormed)
    {ns : List (Node α)} {is : List (Instruction α)} (emitted : Emitted s.place k ns is)
    (shows : Shows s k m V) (has : g.HasNodes k ns) (stores : ∀ n ∈ ns, n.StoresIntoVariables)
    (suits : ∀ i ∈ is, i.Suits s.memory) :
    RunAgrees s k ns (execute is m) (evaluateFrom k ns V) := by
  induction emitted generalizing m V with
  | nil => exact ⟨rfl, rfl, shows⟩
  | @cons k n ns is js lowers emitted ih =>
    have hn : g.node? ⟨k⟩ = some n := has 0 n rfl
    have block := shows.agrees_block tidy keeps formed hn (stores n List.mem_cons_self) lowers
      fun i hi => suits i (List.mem_append_left _ hi)
    rw [lowers.length_eq] at block
    rw [execute_append, evaluateFrom]
    cases hV : n.evaluate ⟨k⟩ V with
    | error e =>
      rw [hV] at block
      obtain ⟨failure, executed⟩ := block
      simp only [failure]
      refine ⟨failure, 0, Nat.zero_lt_succ _, rfl, Nat.zero_le _, ?_⟩
      simpa using executed
    | ok V' =>
      rw [hV] at block
      obtain ⟨failure, executed, shows'⟩ := block
      have rest := ih shows' has.tail (fun n' h => stores n' (List.mem_cons_of_mem _ h))
        fun i hi => suits i (List.mem_append_right _ hi)
      simp only [failure]
      cases hW : evaluateFrom (k + 1) ns V' with
      | ok W =>
        rw [hW] at rest
        obtain ⟨failure', executed', shows''⟩ := rest
        refine ⟨failure', ?_, ?_⟩
        · simp only [executed, executed', instructionCounts_cons]
        · rw [List.length_cons, Nat.add_comm ns.length, ← Nat.add_assoc]
          exact shows''
      | error p =>
        obtain ⟨i, e⟩ := p
        rw [hW] at rest
        obtain ⟨failure', j, hj, rfl, low, high⟩ := rest
        refine ⟨failure', j + 1, Nat.succ_lt_succ hj, ?_, ?_, ?_⟩
        · rw [Nat.add_comm j, ← Nat.add_assoc]
        · simp only [List.take_succ_cons, instructionCounts_cons, executed]
          omega
        · simp only [List.take_succ_cons, instructionCounts_cons, executed]
          omega

end

end NeuralGraph
