import NeuralGraph.Proofs.Graph.Updating
import NeuralGraph.Proofs.Lowering.Allocation
import NeuralGraph.Proofs.Lowering.InPlace
import NeuralGraph.Proofs.Lowering.Sections

/-!
# Programs of graphs

A program realizes a graph over a weight storage if its instructions are the blocks of the nodes, with
variables at their homes.  It goes on to do so while the storage grows and the activations change.
-/

namespace NeuralGraph
set_option autoImplicit false
variable {α : Type} [Scalar α]

theorem Lowering.Tidy.rehome {s : Lowering α} {g : Graph α} {k : Nat} {t : WeightStorage α}
    (tidy : s.Tidy g k) (grows : s.store.Grows t) (sound : t.Sound) :
    Lowering.Tidy g k { s with store := t } where
  store := sound
  distinct := tidy.distinct
  vars v value placed := by
    obtain ⟨l, rfl, home⟩ := tidy.vars v value placed
    exact ⟨l, rfl, grows.homes v l home⟩
  nodes := tidy.nodes
  suited i hi := (tidy.suited i hi).mono (Memory.covers_iff.mpr ⟨.refl _, grows.arena⟩)
  apart keeps := ⟨(tidy.apart keeps).named, (tidy.apart keeps).separate⟩

namespace Program
variable {p q : Program α} {g : Graph α} {m : Module α} {s t : WeightStorage α}

/-- The instructions are the blocks of the nodes of `g`, and variables lie at their homes. -/
def Realizes (p : Program α) (g : Graph α) (t : WeightStorage α) : Prop :=
  ∃ s : Lowering α, s.store = t ∧ s.Tidy g g.size ∧ s.program.instructions = p.instructions ∧
    p.activations.Covers s.program.activations ∧
    Emitted s.place 0 g.nodes.toList p.instructions.toList

theorem Realizes.of_lower (formed : g.WellFormed) (sound : s.Sound)
    (lowered : g.lower m s = (.ok p, t)) : p.Realizes g t := by
  obtain ⟨s', rfl, rfl, tidy, -, emitted⟩ := Graph.lower_eq_ok formed sound lowered
  exact ⟨s', rfl, tidy, rfl, .refl _, emitted⟩

theorem Realizes.mono (h : p.Realizes g s) (grows : s.Grows t) (sound : t.Sound)
    (same : q.instructions = p.instructions) (covers : q.activations.Covers p.activations) :
    q.Realizes g t := by
  obtain ⟨s', rfl, tidy, code, room, emitted⟩ := h
  refine ⟨{ s' with store := t }, rfl, tidy.rehome grows sound, code.trans same.symm,
    covers.trans room, ?_⟩
  rw [same]
  exact emitted

/-- The operands that stand for variables are the homes of the variables. -/
theorem Realizes.operands (h : p.Realizes g t) : ∃ place,
    Emitted place 0 g.nodes.toList p.instructions.toList ∧
      ∀ v value, place (.var v) = some value → ∃ l, value = .weight l ∧ t.home? v = some l := by
  obtain ⟨s, rfl, tidy, -, -, emitted⟩ := h
  exact ⟨s.place, emitted, tidy.vars⟩

end Program

/-! ## Runs of programs that realize graphs -/

omit [Scalar α] in
theorem WeightStorage.contents_of_home {t : WeightStorage α} {v : VarId} {l : LocationId}
    (home : t.home? v = some l) (a : Arena α) :
    t.contents a v = (a.get? l).map Location.payload := by
  rw [contents, home, Option.bind_some]

omit [Scalar α] in
theorem WeightStorage.home_of_contents {t : WeightStorage α} {v : VarId} {a : Arena α} {x : Tensor α}
    (h : t.contents a v = some x) : ∃ l, t.home? v = some l := by
  cases home : t.home? v with
  | none => simp [contents, home] at h
  | some l => exact ⟨l, rfl⟩

omit [Scalar α] in
/-- A variable holds what it held if the contents of its home are what they were. -/
theorem WeightStorage.contents_congr {t : WeightStorage α} {v : VarId} {a b : Arena α}
    (h : ∀ l, t.home? v = some l → a.get? l = b.get? l) : t.contents a v = t.contents b v := by
  cases home : t.home? v with
  | none => simp only [contents, home, Option.bind_none, Option.map_none]
  | some l => rw [contents_of_home home, contents_of_home home, h l home]

/-- What is read at the homes of variables has the shape of their types. -/
theorem WeightStorage.Labelled.shape {m m' : Module α} {s : WeightStorage α}
    (labelled : s.Labelled m') {a : Arena α} (covered : a.Covers s.arena) (covers : m'.Covers m)
    {v : VarId} {t : Tensor α} {u : Variable α} (ht : s.contents a v = some t) (hu : m.var? v = some u) :
    t.type.SameShape u.type := by
  cases home : s.home? v with
  | none => simp [contents, home] at ht
  | some l =>
    obtain ⟨u', p, hu', hp, -, type⟩ := labelled v l home
    obtain ⟨q, hq, alike⟩ := covered l p hp
    obtain ⟨u'', hu'', same⟩ := covers v u hu
    obtain rfl := Option.some.inj (hu'.symm.trans hu'')
    simp only [contents, home, Option.bind_some, hq, Option.map_some, Option.some.injEq] at ht
    subst ht
    obtain ⟨dims, element, -⟩ := TensorType.beq_iff.mp type
    have own : q.payload.type = p.type := alike.type
    rw [← same.type, own]
    exact ⟨dims, element⟩

/-- What is found after an evaluation of the graph: homes hold what variables hold, and nodes have
values of their types. -/
structure Graph.Ends (g : Graph α) (t : WeightStorage α) (a : Arena α) (V : Valuation α) : Prop where
  vars : ∀ v l, t.home? v = some l → t.contents a v = V.vars v
  nodes : ∀ i n, g.node? i = some n → n.kind.hasValue = true →
    ∃ x, V.nodes i = some x ∧ n.type = some x.type

namespace Program
variable {p q : Program α} {g : Graph α} {t : WeightStorage α} {V : Valuation α}

/-- The run of the instructions agrees with the evaluation of the graph. -/
theorem Realizes.agrees (h : p.Realizes g t) (keeps : g.KeepsInputs) (formed : g.WellFormed)
    (stores : ∀ n ∈ g.nodes, n.StoresIntoVariables) :
    ((p.run t.arena).failure = none → ∃ V, g.evaluate (t.contents t.arena) = .ok V) ∧
      ∀ V, g.evaluate (t.contents t.arena) = .ok V → (p.run t.arena).failure = none ∧
        g.Ends t (p.run t.arena).memory.weights V := by
  obtain ⟨s, rfl, tidy, code, room, emitted⟩ := h
  have shows : Shows s 0 (p.memory s.store.arena) (.start (s.store.contents s.store.arena)) :=
    .start tidy (Memory.covers_iff.mpr ⟨room, .refl _⟩)
  have has : g.HasNodes 0 g.nodes.toList := by
    intro j n hj
    rwa [Array.getElem?_toList, ← Nat.zero_add j] at hj
  have run := shows.agrees_run tidy keeps formed emitted has
    (fun n hn => stores n (Array.mem_toList_iff.mp hn)) (code ▸ tidy.suited)
  rw [Graph.evaluate]
  cases hV : evaluateFrom 0 g.nodes.toList (.start (s.store.contents s.store.arena)) with
  | error q =>
    rw [hV] at run
    exact ⟨fun success => absurd (success.symm.trans run.1) (by simp), by simp⟩
  | ok V =>
    rw [hV] at run
    obtain ⟨failure, -, shown⟩ := run
    refine ⟨fun _ => ⟨V, rfl⟩, fun W hW => ?_⟩
    obtain rfl := Except.ok.inj hW
    refine ⟨failure, fun v l home => ?_, fun i n hn valued => ?_⟩
    · obtain ⟨k, hk, held⟩ := shown.vars v l home
      have located : (p.run s.store.arena).memory.weights.get? l = some k := hk
      rw [WeightStorage.contents_of_home home, located, held, Option.map_some]
    · obtain ⟨js, lowers⟩ := emitted.lowersTo (j := i.index) (n := n)
        (by rw [Array.getElem?_toList]; exact hn)
      rw [Nat.zero_add] at lowers
      obtain ⟨self, -, -, own, -⟩ := lowers
      obtain ⟨-, -, id, _, rfl, -⟩ := tidy.nodes i self (own valued)
      obtain ⟨n', l, hn', hl, -, type⟩ := (tidy.apart keeps).named i id (own valued)
      obtain rfl := Option.some.inj (hn.symm.trans hn')
      have before : i.index < 0 + g.nodes.toList.length := by
        rw [Nat.zero_add, Array.length_toList]
        exact (Array.getElem?_eq_some_iff.mp hn).1
      obtain ⟨k, hk, held⟩ := shown.nodes i _ before (own valued)
      obtain ⟨k', hk', alike⟩ := shown.covers (.activation id) l hl
      obtain rfl := Option.some.inj (hk.symm.trans hk')
      exact ⟨k.payload, held, type.trans (congrArg some alike.type.symm)⟩

/-- A location that is not the home of a variable that the graph stores into keeps its contents. -/
theorem Realizes.frame (h : p.Realizes g t) (stores : ∀ n ∈ g.nodes, n.StoresIntoVariables)
    {l : LocationId} (other : ∀ v ∈ g.storesInto, t.home? v ≠ some l) :
    (p.run t.arena).memory.weights.get? l = t.arena.get? l := by
  obtain ⟨s, rfl, tidy, code, -, emitted⟩ := h
  suffices unwritten : ∀ i ∈ p.instructions.toList, Value.weight l ∉ i.written from
    execute_frame unwritten
  intro i hi written
  rcases emitted.written (fun n hn => stores n (Array.mem_toList_iff.mp hn)) (code ▸ tidy.suited) hi
    written with ⟨j, n, -, -, place⟩ | ⟨n, hn, v, hv, place⟩
  · obtain ⟨-, -, id, _, same, -⟩ := tidy.nodes _ _ place
    cases same
  · obtain ⟨l', same, home⟩ := tidy.vars v _ place
    cases same
    exact other v (List.mem_flatMap.mpr ⟨n, hn, hv⟩) home

end Program

/-! ## Updates at the end -/

/-- An update that suits the memory succeeds. -/
theorem Instruction.Suits.update_succeeds {i : Instruction α} {rule : UpdateRule α} {m : Memory α}
    (suits : i.Suits m) (kind : i.kind = .update rule) : (i.step m).2 = none := by
  obtain ⟨defined, ls, accepted⟩ := id suits
  have located := accepted.locatedIn
  obtain ⟨-, signature⟩ := suits.signature located
  rw [kind] at signature
  obtain ⟨_, _, _, types, -⟩ := Signature.update_eq_ok_iff.mp signature
  obtain ⟨p, q, o, rfl⟩ : ∃ p q o, ls = [p, q, o] :=
    List.length_eq_three.mp ((List.length_map _).symm.trans (congrArg List.length types))
  obtain ⟨_, _, _, _, _, _, -, -, -, -, -, step⟩ := suits.step_update kind located
  rw [step]

theorem execute_updates {is : List (Instruction α)} {m : Memory α}
    (updates : ∀ i ∈ is, ∃ rule, i.kind = .update rule) (suits : ∀ i ∈ is, i.Suits m) :
    (execute is m).failure = none := by
  induction is generalizing m with
  | nil => rfl
  | cons i is ih =>
    obtain ⟨rule, kind⟩ := updates i List.mem_cons_self
    have step := (suits i List.mem_cons_self).update_succeeds kind
    have covers := i.step_covers m
    simp only [execute]
    generalize i.step m = r at step covers
    obtain ⟨m', e⟩ := r
    obtain rfl : e = none := step
    exact ih (fun j hj => updates j (List.mem_cons_of_mem _ hj))
      fun j hj => (suits j (List.mem_cons_of_mem _ hj)).mono covers

theorem Emitted.updates {place : Ref → Option Value} {k : Nat} {ns : List (Node α)}
    {is : List (Instruction α)} (h : Emitted place k ns is) (all : AllUpdates ns) :
    ∀ i ∈ is, ∃ rule, i.kind = .update rule := by
  induction h with
  | nil => simp
  | @cons k n ns is js lowers emitted ih =>
    obtain ⟨rule, _, _, _, update⟩ := all n List.mem_cons_self
    obtain ⟨self, values, -, -, block⟩ := lowers
    simp only [Node.block, update.kind, Option.some.injEq] at block
    subst block
    intro i hi
    rcases List.mem_append.mp hi with hi | hi
    · obtain rfl := List.mem_singleton.mp hi
      exact ⟨rule, rfl⟩
    · exact ih (fun n hn => all n (List.mem_cons_of_mem _ hn)) i hi

/-- The instructions of a node are among those of all nodes. -/
theorem Emitted.block_mem {place : Ref → Option Value} {k : Nat} {ns : List (Node α)}
    {is : List (Instruction α)} (h : Emitted place k ns is) {n : Node α} (hn : n ∈ ns) :
    ∃ j js, n.LowersTo place j js ∧ ∀ i ∈ js, i ∈ is := by
  induction h with
  | nil => cases hn
  | @cons k n' ns is js lowers emitted ih =>
    rcases List.mem_cons.mp hn with rfl | hn
    · exact ⟨k, is, lowers, fun i hi => List.mem_append_left _ hi⟩
    · obtain ⟨j, ks, lowers', listed⟩ := ih hn
      exact ⟨j, ks, lowers', fun i hi => List.mem_append_right _ (listed i hi)⟩

namespace Program
variable {p q : Program α} {g : Graph α} {t : WeightStorage α}

/-- A run that fails has not come to the updates at the end of the graph: only what the nodes before
them store into can have changed. -/
theorem Realizes.frame_of_failure (h : p.Realizes g t) {ns updates : List (Node α)}
    (nodes : g.nodes.toList = ns ++ updates) (all : AllUpdates updates)
    (stores : ∀ n ∈ ns, n.StoresIntoVariables) (failed : (p.run t.arena).failure ≠ none)
    {l : LocationId} (other : ∀ n ∈ ns, ∀ v ∈ n.storesInto, t.home? v ≠ some l) :
    (p.run t.arena).memory.weights.get? l = t.arena.get? l := by
  obtain ⟨s, rfl, tidy, code, room, emitted⟩ := h
  have suits : ∀ i ∈ p.instructions.toList, i.Suits s.memory := code ▸ tidy.suited
  rw [nodes] at emitted
  obtain ⟨first, rest, split, emitted₁, emitted₂⟩ := emitted.split
  rw [run, split] at failed ⊢
  rw [split] at suits
  cases early : (execute first (p.memory s.store.arena)).failure with
  | none =>
    have covers : (execute first (p.memory s.store.arena)).memory.Covers s.memory :=
      (execute_covers first _).trans (Memory.covers_iff.mpr ⟨room, .refl _⟩)
    have late := execute_updates (emitted₂.updates all) fun i hi =>
      (suits i (List.mem_append_right _ hi)).mono covers
    rw [execute_append, early] at failed
    exact absurd late failed
  | some e =>
    rw [execute_append_of_failure early]
    suffices unwritten : ∀ i ∈ first, Value.weight l ∉ i.written from execute_frame unwritten
    intro i hi written
    rcases emitted₁.written stores (fun i hi => suits i (List.mem_append_left _ hi)) hi written with
      ⟨j, n, -, -, place⟩ | ⟨n, hn, v, hv, place⟩
    · obtain ⟨-, -, id, _, same, -⟩ := tidy.nodes _ _ place
      cases same
    · obtain ⟨l', same, home⟩ := tidy.vars v _ place
      cases same
      exact other n hn v hv home

/-- Weights, gradients and velocities are numbers. -/
theorem Realizes.update_floats (h : p.Realizes g t) (keeps : g.KeepsInputs) {n : Node α}
    (hn : n ∈ g.nodes) {rule : UpdateRule α} {w u : VarId} {d : NodeId}
    (update : n.IsUpdate rule w d u) : ∃ a b x type, t.contents t.arena w = some a ∧
      t.contents t.arena u = some b ∧ g.node? d = some x ∧ x.type = some type ∧
      a.type.element = .float ∧ type.element = .float ∧ b.type.element = .float := by
  obtain ⟨s, rfl, tidy, code, -, emitted⟩ := h
  have suits : ∀ i ∈ p.instructions.toList, i.Suits s.memory := code ▸ tidy.suited
  obtain ⟨k, is, ⟨self, values, sources, -, block⟩, listed⟩ :=
    emitted.block_mem (Array.mem_toList_iff.mpr hn)
  simp only [Node.block, update.kind, Option.some.injEq] at block
  subst block
  have suited := suits _ (listed _ (List.mem_singleton_self _))
  obtain ⟨x, y, z, rfl⟩ : ∃ x y z, values = [x, y, z] := by
    rw [update.inputs] at sources
    exact List.length_eq_three.mp
      ((List.length_map _).symm.trans (congrArg List.length sources.symm))
  simp only [update.inputs, List.map_cons, List.map_nil, List.cons.injEq, and_true] at sources
  obtain ⟨hx, hy, hz⟩ := sources
  obtain ⟨defined, ls, accepted⟩ := id suited
  have located := accepted.locatedIn
  obtain ⟨-, signature⟩ := suited.signature located
  obtain ⟨_, _, _, types, -, -, fw, fd, fu⟩ := Signature.update_eq_ok_iff.mp signature
  rcases Instruction.locatedIn_ofValues.mp located with
    _ | ⟨hw, _ | ⟨hd, _ | ⟨hu, _ | -⟩⟩⟩
  cases types
  obtain ⟨lw, rfl, home⟩ := tidy.vars w x hx
  obtain ⟨lu, rfl, home'⟩ := tidy.vars u z hz
  obtain ⟨-, -, id, _, rfl, -⟩ := tidy.nodes d y hy
  obtain ⟨n', l, hn', hl, -, type⟩ := (tidy.apart keeps).named d id hy
  obtain rfl := Option.some.inj (hl.symm.trans hd)
  refine ⟨_, _, n', _, ?_, ?_, hn', type, fw, fd, fu⟩
  · rw [WeightStorage.contents_of_home home]
    exact congrArg (Option.map Location.payload) hw
  · rw [WeightStorage.contents_of_home home']
    exact congrArg (Option.map Location.payload) hu

/-- Every variable that a node uses has a home. -/
theorem Realizes.home_of_references (h : p.Realizes g t) {v : VarId} (used : g.References v) :
    ∃ l k, t.home? v = some l ∧ t.arena.get? l = some k := by
  obtain ⟨s, rfl, tidy, -, -, emitted⟩ := h
  obtain ⟨n, hn, member⟩ := used
  obtain ⟨j, js, ⟨self, values, sources, -, -⟩, -⟩ :=
    emitted.block_mem (Array.mem_toList_iff.mpr hn)
  have placed : s.place (.var v) ∈ values.map some := sources ▸ List.mem_map_of_mem member
  obtain ⟨value, -, same⟩ := List.mem_map.mp placed
  obtain ⟨l, -, home⟩ := tidy.vars v value same.symm
  obtain ⟨k, hk⟩ := tidy.store.located v l home
  exact ⟨l, k, home, hk⟩

/-! ## In place or not -/

/-- The program mirrors one that realizes the graph without in-place activations. -/
def Computes (p : Program α) (g : Graph α) (t : WeightStorage α) : Prop :=
  ∃ q : Program α, q.Realizes (g.withInPlace false) t ∧ q.Mirrors p

theorem Computes.of_lower {m : Module α} {s : WeightStorage α} (made : g.Made)
    (keeps : g.KeepsTypes) (sound : s.Sound) (lowered : g.lower m s = (.ok p, t)) :
    p.Computes g t := by
  have formed : (g.withInPlace false).WellFormed := made.formed.congr rfl
  have self : (g.withInPlace g.inPlace).lower m s = (.ok p, t) := lowered
  rcases Graph.inPlaceAgrees made keeps m s with
    ⟨q, q', t', plain, reusing, mirrors⟩ | ⟨e, e', t', t'', plain, reusing⟩
  · have realizes : q.Realizes (g.withInPlace false) t' := .of_lower formed sound plain
    cases place : g.inPlace with
    | false =>
      rw [place, plain] at self
      obtain ⟨⟨⟩, rfl⟩ := Prod.mk.inj self
      exact ⟨_, realizes, mirrors.trans mirrors.symm⟩
    | true =>
      rw [place, reusing] at self
      obtain ⟨⟨⟩, rfl⟩ := Prod.mk.inj self
      exact ⟨_, realizes, mirrors⟩
  · cases place : g.inPlace with
    | false =>
      rw [place, plain] at self
      cases self
    | true =>
      rw [place, reusing] at self
      cases self

theorem Computes.mono {s : WeightStorage α} (h : p.Computes g s) (grows : s.Grows t)
    (sound : t.Sound) (same : q.instructions = p.instructions)
    (covers : q.activations.Covers p.activations) : q.Computes g t := by
  obtain ⟨r, realizes, mirrors⟩ := h
  exact ⟨r, realizes.mono grows sound rfl (.refl _),
    mirrors.widen (.refl _) covers rfl same⟩

theorem Mirrors.run (h : q.Mirrors p) (a : Arena α) : (q.run a).Mirrors (p.run a) :=
  h.runs _ _ ⟨.refl _, .refl _, rfl⟩

theorem Mirrors.failure (h : q.Mirrors p) (a : Arena α) :
    (q.run a).failure = none ↔ (p.run a).failure = none := by
  have failed := (h.run a).failed
  cases hq : (q.run a).failure <;> cases hp : (p.run a).failure <;> simp [hq, hp] at failed ⊢

omit [Scalar α] in
theorem keepsInputs_withInPlace (g : Graph α) : (g.withInPlace false).KeepsInputs :=
  fun _ _ _ _ => rfl

theorem Computes.agrees (h : p.Computes g t) (formed : g.WellFormed)
    (stores : ∀ n ∈ g.nodes, n.StoresIntoVariables) :
    ((p.run t.arena).failure = none → ∃ V, g.evaluate (t.contents t.arena) = .ok V) ∧
      ∀ V, g.evaluate (t.contents t.arena) = .ok V → (p.run t.arena).failure = none ∧
        g.Ends t (p.run t.arena).memory.weights V := by
  obtain ⟨q, realizes, mirrors⟩ := h
  obtain ⟨succeeds, ends⟩ := realizes.agrees (keepsInputs_withInPlace g) (formed.congr rfl) stores
  refine ⟨fun success => succeeds ((mirrors.failure _).mpr success), fun V hV => ?_⟩
  obtain ⟨success, vars, nodes⟩ := ends V hV
  rw [(mirrors.run t.arena).weights] at vars
  exact ⟨(mirrors.failure _).mp success, vars, nodes⟩

theorem Computes.sound (h : p.Computes g t) : t.Sound := by
  obtain ⟨q, ⟨s, rfl, tidy, -⟩, -⟩ := h
  exact tidy.store

theorem Computes.frame (h : p.Computes g t) (stores : ∀ n ∈ g.nodes, n.StoresIntoVariables)
    {l : LocationId} (other : ∀ v ∈ g.storesInto, t.home? v ≠ some l) :
    (p.run t.arena).memory.weights.get? l = t.arena.get? l := by
  obtain ⟨q, realizes, mirrors⟩ := h
  rw [← (mirrors.run t.arena).weights]
  exact realizes.frame stores other

theorem Computes.frame_of_failure (h : p.Computes g t) {ns updates : List (Node α)}
    (nodes : g.nodes.toList = ns ++ updates) (all : AllUpdates updates)
    (stores : ∀ n ∈ ns, n.StoresIntoVariables) (failed : (p.run t.arena).failure ≠ none)
    {l : LocationId} (other : ∀ n ∈ ns, ∀ v ∈ n.storesInto, t.home? v ≠ some l) :
    (p.run t.arena).memory.weights.get? l = t.arena.get? l := by
  obtain ⟨q, realizes, mirrors⟩ := h
  rw [← (mirrors.run t.arena).weights]
  exact realizes.frame_of_failure nodes all stores (mt (mirrors.failure _).mp failed) other

theorem Computes.update_floats (h : p.Computes g t) {n : Node α} (hn : n ∈ g.nodes)
    {rule : UpdateRule α} {w u : VarId} {d : NodeId} (update : n.IsUpdate rule w d u) :
    ∃ a b x type, t.contents t.arena w = some a ∧ t.contents t.arena u = some b ∧
      g.node? d = some x ∧ x.type = some type ∧ a.type.element = .float ∧ type.element = .float ∧
      b.type.element = .float := by
  obtain ⟨q, realizes, -⟩ := h
  exact realizes.update_floats (keepsInputs_withInPlace g) hn update

theorem Computes.home_of_references (h : p.Computes g t) {v : VarId} (used : g.References v) :
    ∃ l k, t.home? v = some l ∧ t.arena.get? l = some k := by
  obtain ⟨q, realizes, -⟩ := h
  exact realizes.home_of_references used

end Program
end NeuralGraph
