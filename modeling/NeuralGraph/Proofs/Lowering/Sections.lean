import NeuralGraph.Proofs.Gradient.Sections
import NeuralGraph.Proofs.Lowering.Meaning
import NeuralGraph.Proofs.Program.Frames

/-!
# Runs up to a node

The program of a graph that goes on from another graph starts with the instructions for the nodes of
that graph, and its run with what the evaluation of that graph does.
-/

namespace NeuralGraph
set_option autoImplicit false
variable {α : Type}

theorem Graph.Extends.take_nodes {g h : Graph α} (extends' : g.Extends h) :
    g.nodes.toList.take h.size = h.nodes.toList := by
  refine List.ext_getElem? fun i => ?_
  rw [List.getElem?_take]
  split
  · next bound =>
    have known : h.node? ⟨i⟩ = some h.nodes[i] := Array.getElem?_eq_getElem bound
    rw [Array.getElem?_toList, Array.getElem?_toList]
    exact (extends' i _ known).trans known.symm
  · next late =>
    rw [Array.getElem?_toList, Array.getElem?_eq_none (Nat.not_lt.mp late)]

theorem Graph.Extends.nodes_eq {g h : Graph α} (extends' : g.Extends h) :
    g.nodes.toList = h.nodes.toList ++ g.nodes.toList.drop h.size := by
  rw [← extends'.take_nodes, List.take_append_drop]

variable [Scalar α]

theorem Emitted.split {place : Ref → Option Value} {k : Nat} {ns ms : List (Node α)}
    {is : List (Instruction α)} (h : Emitted place k (ns ++ ms) is) : ∃ first rest,
      is = first ++ rest ∧ Emitted place k ns first ∧ Emitted place (k + ns.length) ms rest := by
  induction ns generalizing k is with
  | nil => exact ⟨[], is, rfl, .nil, h⟩
  | cons n ns ih =>
    cases h with
    | @cons _ _ _ js ks lowers emitted =>
      obtain ⟨first, rest, rfl, emitted₁, emitted₂⟩ := ih emitted
      refine ⟨js ++ first, rest, (List.append_assoc _ _ _).symm, .cons lowers emitted₁, ?_⟩
      rw [List.length_cons, Nat.add_comm ns.length, ← Nat.add_assoc]
      exact emitted₂

/-- A run that comes past a part of its instructions has not failed in this part. -/
theorem execute_past {is js : List (Instruction α)} {m : Memory α}
    (h : is.length ≤ (execute (is ++ js) m).executed) : (execute is m).failure = none := by
  cases failed : (execute is m).failure with
  | none => rfl
  | some e =>
    obtain ⟨i, -, hi, -⟩ := execute_failure failed
    have early : (execute is m).executed < is.length := (List.getElem?_eq_some_iff.mp hi).1
    rw [execute_append, failed] at h
    exact absurd h (Nat.not_le.mpr early)

/-- A run that comes past the nodes of a graph that the graph goes on from shows what the evaluation
of that graph gives. -/
theorem Shows.passes {s : Lowering α} {g h : Graph α} {is : List (Instruction α)} {m : Memory α}
    {V : Valuation α} (shows : Shows s 0 m V) (tidy : s.Tidy g g.size) (keeps : g.KeepsInputs)
    (formed : g.WellFormed) (emitted : Emitted s.place 0 g.nodes.toList is)
    (suits : ∀ i ∈ is, i.Suits s.memory) (extends' : g.Extends h)
    (stores : ∀ n ∈ h.nodes, n.StoresIntoVariables)
    (past : g.firstInstruction h.size ≤ (execute is m).executed) :
    ∃ first rest W, is = first ++ rest ∧ Emitted s.place 0 h.nodes.toList first ∧
      Emitted s.place h.size (g.nodes.toList.drop h.size) rest ∧
      (execute first m).failure = none ∧ evaluateFrom 0 h.nodes.toList V = .ok W ∧
      Shows s h.size (execute first m).memory W := by
  rw [extends'.nodes_eq] at emitted
  obtain ⟨first, rest, rfl, emitted₁, emitted₂⟩ := emitted.split
  rw [Nat.zero_add] at emitted₂
  have whole : g.firstInstruction h.size = first.length := by
    rw [emitted₁.length_eq, Graph.firstInstruction, extends'.take_nodes]
  have success := execute_past (whole ▸ past)
  have has : g.HasNodes 0 h.nodes.toList := by
    intro j n hj
    rw [Array.getElem?_toList] at hj
    rw [Nat.zero_add]
    exact extends' j n hj
  have run := shows.agrees_run tidy keeps formed emitted₁ has
    (fun n hn => stores n (Array.mem_toList_iff.mp hn))
    fun i hi => suits i (List.mem_append_left _ hi)
  cases hW : evaluateFrom 0 h.nodes.toList V with
  | error q =>
    rw [hW] at run
    exact absurd (success.symm.trans run.1) (by simp)
  | ok W =>
    rw [hW] at run
    obtain ⟨-, -, shown⟩ := run
    rw [Nat.zero_add, Array.length_toList] at shown
    exact ⟨first, rest, W, rfl, emitted₁, emitted₂, success, rfl, shown⟩

/-! ## What is written -/

theorem Node.block_two {n : Node α} {self : Value} {values : List Value}
    {is : List (Instruction α)} (two : n.kind = .regression ∨ n.kind = .save)
    (h : n.block self values = some is) : ∃ x y, values = [x, y] := by
  rcases values with _ | ⟨x, _ | ⟨y, _ | ⟨z, rest⟩⟩⟩
  · rcases two with kind | kind <;> simp [block, kind] at h
  · rcases two with kind | kind <;> simp [block, kind] at h
  · exact ⟨x, y, rfl⟩
  · rcases two with kind | kind <;> simp [block, kind] at h

/-- The instructions of a node write its own place, or the values of variables that it stores into. -/
theorem Node.block_writes {n : Node α} {self : Value} {values : List Value}
    {is : List (Instruction α)} (h : n.block self values = some is) {i : Instruction α}
    (hi : i ∈ is) :
    (n.kind.hasValue = true ∧ ∃ kind rest, i = .ofValues n.name kind (self :: rest) ∧
      i.WritesFirst) ∨
    (n.kind = .save ∧ ∃ x d, values = [x, d] ∧ i = .ofValues n.name .copy [d, x]) ∨
    ∃ rule, n.kind = .update rule ∧ i = .ofValues n.name (.update rule) values := by
  cases kind : n.kind with
  | compute op =>
    simp only [block, kind, Option.some.injEq] at h
    subst h
    obtain rfl := List.mem_singleton.mp hi
    exact .inl ⟨rfl, _, _, rfl, op.arity, rfl⟩
  | reshape dims =>
    simp only [block, kind, Option.some.injEq] at h
    subst h
    obtain rfl := List.mem_singleton.mp hi
    exact .inl ⟨rfl, _, _, rfl, 1, rfl⟩
  | regression =>
    obtain ⟨x, e, rfl⟩ := block_two (.inl kind) h
    simp only [block, kind, Option.some.injEq] at h
    subst h
    obtain rfl := List.mem_singleton.mp hi
    exact .inl ⟨rfl, _, _, rfl, 1, rfl⟩
  | splat value =>
    simp only [block, kind, Option.some.injEq] at h
    subst h
    obtain rfl := List.mem_singleton.mp hi
    exact .inl ⟨rfl, _, _, rfl, 0, rfl⟩
  | save =>
    obtain ⟨x, d, rfl⟩ := block_two (.inr kind) h
    simp only [block, kind, Option.some.injEq] at h
    subst h
    obtain rfl := List.mem_singleton.mp hi
    exact .inr (.inl ⟨rfl, x, d, rfl, rfl⟩)
  | custom name => simp [block, kind] at h
  | gradientSum =>
    simp only [block, kind, Option.some.injEq] at h
    subst h
    rcases List.mem_cons.mp hi with rfl | hi
    · exact .inl ⟨rfl, _, _, rfl, 0, rfl⟩
    · obtain ⟨x, -, rfl⟩ := List.mem_map.mp hi
      exact .inl ⟨rfl, _, _, rfl, 2, rfl⟩
  | update rule =>
    simp only [block, kind, Option.some.injEq] at h
    subst h
    obtain rfl := List.mem_singleton.mp hi
    exact .inr (.inr ⟨rule, rfl, rfl⟩)

theorem Node.LowersTo.written {place : Ref → Option Value} {k : Nat} {n : Node α}
    {is : List (Instruction α)} {m : Memory α} (h : n.LowersTo place k is)
    (stores : n.StoresIntoVariables) (suits : ∀ i ∈ is, i.Suits m) {i : Instruction α} (hi : i ∈ is)
    {value : Value} (hv : value ∈ i.written) :
    (n.kind.hasValue = true ∧ place (.node ⟨k⟩) = some value) ∨
      ∃ v ∈ n.storesInto, place (.var v) = some value := by
  obtain ⟨self, values, sources, own, hb⟩ := h
  obtain ⟨_, _, accepted⟩ := suits i hi
  rcases block_writes hb hi with ⟨valued, kind, rest, rfl, first⟩ | ⟨kind, x, d, rfl, rfl⟩ |
      ⟨rule, kind, rfl⟩
  · rw [Instruction.written_ofValues accepted.directions first] at hv
    obtain rfl := List.mem_singleton.mp hv
    exact .inl ⟨valued, own valued⟩
  · rw [Instruction.written_ofValues accepted.directions ⟨1, rfl⟩] at hv
    obtain rfl := List.mem_singleton.mp hv
    refine .inr ?_
    obtain ⟨r, r', inputs⟩ := List.length_eq_two.mp
      ((List.length_map _).symm.trans (congrArg List.length sources))
    simp only [StoresIntoVariables, kind, inputs] at stores
    obtain ⟨v, rfl⟩ := stores
    simp only [inputs, List.map_cons, List.map_nil, List.cons.injEq, and_true] at sources
    exact ⟨v, by simp [storesInto, kind, inputs], sources.2⟩
  · obtain ⟨a, b, c, ha, -, -, hw⟩ := Instruction.update_written rfl accepted.directions
    have listed := Instruction.ofValues_values n.name (.update rule) values
    rw [ha] at listed
    subst listed
    refine .inr ?_
    obtain ⟨r, r', r'', inputs⟩ := List.length_eq_three.mp
      ((List.length_map _).symm.trans (congrArg List.length sources))
    simp only [StoresIntoVariables, kind, inputs] at stores
    obtain ⟨⟨w, rfl⟩, v, rfl⟩ := stores
    simp only [inputs, List.map_cons, List.map_nil, List.cons.injEq, and_true] at sources
    rw [hw, List.mem_cons, List.mem_singleton] at hv
    rcases hv with rfl | rfl
    · exact ⟨w, by simp [storesInto, kind, inputs], sources.1⟩
    · exact ⟨v, by simp [storesInto, kind, inputs], sources.2.2⟩

/-- What the instructions of nodes write: places of these nodes, and homes of variables that they
store into. -/
theorem Emitted.written {place : Ref → Option Value} {k : Nat} {ns : List (Node α)}
    {is : List (Instruction α)} {m : Memory α} (h : Emitted place k ns is)
    (stores : ∀ n ∈ ns, n.StoresIntoVariables) (suits : ∀ i ∈ is, i.Suits m) {i : Instruction α}
    (hi : i ∈ is) {value : Value} (hv : value ∈ i.written) :
    (∃ j n, ns[j]? = some n ∧ n.kind.hasValue = true ∧ place (.node ⟨k + j⟩) = some value) ∨
      ∃ n ∈ ns, ∃ v ∈ n.storesInto, place (.var v) = some value := by
  induction h with
  | nil => cases hi
  | @cons k n ns is js lowers emitted ih =>
    rcases List.mem_append.mp hi with hi | hi
    · rcases lowers.written (stores n List.mem_cons_self)
        (fun i hi => suits i (List.mem_append_left _ hi)) hi hv with ⟨valued, own⟩ | ⟨v, hv, home⟩
      · exact .inl ⟨0, n, rfl, valued, own⟩
      · exact .inr ⟨n, List.mem_cons_self, v, hv, home⟩
    · rcases ih (fun n hn => stores n (List.mem_cons_of_mem _ hn))
        (fun i hi => suits i (List.mem_append_right _ hi)) hi with ⟨j, n', hj, valued, own⟩ | other
      · refine .inl ⟨j + 1, n', hj, valued, ?_⟩
        rw [Nat.add_comm j, ← Nat.add_assoc]
        exact own
      · obtain ⟨n', hn', rest⟩ := other
        exact .inr ⟨n', List.mem_cons_of_mem _ hn', rest⟩

end NeuralGraph
