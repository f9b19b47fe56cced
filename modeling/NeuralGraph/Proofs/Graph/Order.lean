import Mathlib.Data.List.Basic
import NeuralGraph.Graph.Order

/-!
# Insertion order

In an ordered graph every node uses only nodes that stand before it, and in a well-formed one it also
has the inputs that its kind asks for: this is all that adding nodes can produce.
`Ordered.evaluationOrder_eq`: the order in which such a graph is computed is the order of its nodes.
The invariant of the search is `Agenda.At`: once the first `k` nodes are computed, a node waits for as
many inputs as it has at or after `k`, and the ready nodes are those that wait for none.
-/

namespace NeuralGraph
set_option autoImplicit false
variable {α : Type}

/-- Every node uses only nodes that stand before it. -/
def Graph.Ordered (g : Graph α) : Prop :=
  ∀ (i : Nat) (n : Node α), g.nodes[i]? = some n → ∀ id ∈ Graph.nodeInputs n.inputs, id.index < i

namespace Graph

theorem Ordered.empty (name : String) : (Graph.empty name : Graph α).Ordered := by
  intro i n h
  simp at h

theorem mem_nodeInputs {inputs : List Ref} {id : NodeId} :
    id ∈ nodeInputs inputs ↔ Ref.node id ∈ inputs := by
  simp only [nodeInputs, List.mem_filterMap]
  constructor
  · rintro ⟨r, hr, h⟩
    cases r with
    | var v => cases h
    | node i => cases h; exact hr
  · exact fun h => ⟨_, h, rfl⟩

theorem push_bound {g g' : Graph α} {name : String} {kind : NodeKind α} {inputs : List Ref}
    {type : Option (TensorType α)} {id : NodeId} (h : g.push name kind inputs type = .ok (g', id)) :
    ∀ i ∈ nodeInputs inputs, i.index < g.size := by
  simp only [push] at h
  split at h
  · cases h
  · split at h
    · cases h
    · next hnone =>
      intro i hi
      have := List.find?_eq_none.mp hnone i hi
      simpa using this

theorem Ordered.push {g g' : Graph α} {name : String} {kind : NodeKind α} {inputs : List Ref}
    {type : Option (TensorType α)} {id : NodeId} (ordered : g.Ordered)
    (h : g.push name kind inputs type = .ok (g', id)) : g'.Ordered := by
  have bound := push_bound h
  obtain ⟨rfl, -⟩ := push_eq h
  intro i n hn j hj
  simp only [Array.getElem?_push] at hn
  split at hn
  · next hi =>
    cases hn
    exact hi ▸ bound j hj
  · exact ordered i n hn j hj

/-! ## What adding nodes can produce -/

theorem push_arity {g g' : Graph α} {name : String} {kind : NodeKind α} {inputs : List Ref}
    {type : Option (TensorType α)} {id : NodeId} (h : g.push name kind inputs type = .ok (g', id))
    {count : Nat} (hk : kind.arity = some count) : inputs.length = count := by
  simp only [push, hk] at h
  split at h
  · cases h
  · next fits =>
      have same : count = inputs.length := by simpa using fits
      exact same.symm

/-- Ordered, and every node has as many inputs as its kind asks for. -/
structure WellFormed (g : Graph α) : Prop where
  ordered : g.Ordered
  arities : ∀ n ∈ g.nodes, ∀ count, n.kind.arity = some count → n.inputs.length = count

theorem WellFormed.empty (name : String) : (Graph.empty name : Graph α).WellFormed :=
  ⟨.empty name, by simp⟩

theorem WellFormed.push {g g' : Graph α} {name : String} {kind : NodeKind α} {inputs : List Ref}
    {type : Option (TensorType α)} {id : NodeId} (formed : g.WellFormed)
    (h : g.push name kind inputs type = .ok (g', id)) : g'.WellFormed := by
  refine ⟨formed.ordered.push h, ?_⟩
  have arity := @push_arity _ _ _ _ _ _ _ _ h
  obtain ⟨rfl, -⟩ := push_eq h
  intro n hn count hk
  rcases Array.mem_push.mp hn with hn | rfl
  · exact formed.arities n hn count hk
  · exact arity hk

/-! ## Inserting into increasing lists -/

theorem mem_insertOrdered {n m : Nat} {xs : List Nat} :
    m ∈ insertOrdered n xs ↔ m = n ∨ m ∈ xs := by
  induction xs with
  | nil => simp [insertOrdered]
  | cons x xs ih =>
    simp only [insertOrdered]
    split
    · simp
    · split
      · next h => subst h; simp
      · simp only [List.mem_cons, ih]
        constructor <;> rintro (h | h | h) <;> simp [h]

theorem insertOrdered_increasing {n : Nat} {xs : List Nat} (h : xs.Pairwise (· < ·)) :
    (insertOrdered n xs).Pairwise (· < ·) := by
  induction xs with
  | nil => simp [insertOrdered]
  | cons x xs ih =>
    obtain ⟨hx, hxs⟩ := List.pairwise_cons.mp h
    simp only [insertOrdered]
    split
    · next hn =>
      refine List.pairwise_cons.mpr ⟨?_, h⟩
      intro y hy
      rcases List.mem_cons.mp hy with rfl | hy
      · exact hn
      · exact Nat.lt_trans hn (hx y hy)
    · split
      · exact h
      · next hlt hne =>
        refine List.pairwise_cons.mpr ⟨?_, ih hxs⟩
        intro y hy
        rcases mem_insertOrdered.mp hy with rfl | hy
        · omega
        · exact hx y hy

/-! ## Arrivals -/

theorem arrive_waiting {a : Agenda} {v : Nat} (hv : v < a.waiting.size) (i : Nat) :
    (a.arrive v).waiting.getD i 0 =
      if i = v then a.waiting.getD v 0 - 1 else a.waiting.getD i 0 := by
  simp only [Agenda.arrive, Array.getD_eq_getD_getElem?, Array.getElem?_setIfInBounds]
  by_cases h : v = i
  · subst h
    simp [hv]
  · simp [h, Ne.symm h]

theorem mem_arrive_ready {a : Agenda} {v i : Nat} :
    i ∈ (a.arrive v).ready ↔ (i = v ∧ a.waiting.getD v 0 - 1 = 0) ∨ i ∈ a.ready := by
  rw [Agenda.arrive]
  by_cases h : a.waiting.getD v 0 - 1 = 0
  · simp only [h, if_true, mem_insertOrdered, and_true]
  · simp only [h, if_false, and_false, false_or]

theorem arrive_increasing {a : Agenda} {v : Nat} (sorted : a.ready.Pairwise (· < ·)) :
    (a.arrive v).ready.Pairwise (· < ·) := by
  rw [Agenda.arrive]
  by_cases h : a.waiting.getD v 0 - 1 = 0
  · simp only [if_pos h]
    exact insertOrdered_increasing sorted
  · simp only [if_neg h]
    exact sorted

@[simp] theorem arrive_size (a : Agenda) (v : Nat) :
    (a.arrive v).waiting.size = a.waiting.size := by
  simp [Agenda.arrive]

theorem count_cons_if {v i : Nat} {vs : List Nat} :
    (v :: vs).count i = vs.count i + if i = v then 1 else 0 := by
  rw [List.count_cons]
  by_cases h : i = v
  · simp [h]
  · simp [h, Ne.symm h]

/-- The arrivals that are still to come find nodes that wait for them. -/
theorem arrive_enough {a : Agenda} {v : Nat} {vs : List Nat} (hv : v < a.waiting.size)
    (enough : ∀ i, (v :: vs).count i ≤ a.waiting.getD i 0) (i : Nat) :
    vs.count i ≤ (a.arrive v).waiting.getD i 0 := by
  have hi := enough i
  rw [count_cons_if] at hi
  rw [arrive_waiting hv]
  by_cases same : i = v
  · subst same
    rw [if_pos rfl] at hi ⊢
    omega
  · rwa [if_neg same] at hi ⊢

/-- A node is ready or will be so after `vs`: it does not matter that `v` has arrived already. -/
theorem arrive_ready {a : Agenda} {v i : Nat} {vs : List Nat} (hv : v < a.waiting.size)
    (enough : (v :: vs).count i ≤ a.waiting.getD i 0) :
    (i ∈ (a.arrive v).ready ∨ (i ∈ vs ∧ (a.arrive v).waiting.getD i 0 = vs.count i)) ↔
      (i ∈ a.ready ∨ (i ∈ v :: vs ∧ a.waiting.getD i 0 = (v :: vs).count i)) := by
  rw [count_cons_if] at enough ⊢
  rw [mem_arrive_ready, arrive_waiting hv, List.mem_cons]
  by_cases same : i = v
  · subst same
    have listed : i ∈ vs ↔ 0 < vs.count i := List.count_pos_iff.symm
    simp only [if_true, true_and, true_or] at enough ⊢
    rw [listed, or_right_comm, or_comm]
    exact or_congr_right (by omega)
  · simp [same]

/-- After many arrivals each node waits for as many inputs fewer as it is listed, and those that
wait for none any more have become ready. -/
theorem arrive_all (vs : List Nat) (a : Agenda) (bound : ∀ v ∈ vs, v < a.waiting.size)
    (enough : ∀ v, vs.count v ≤ a.waiting.getD v 0) (sorted : a.ready.Pairwise (· < ·)) :
    let b : Agenda := vs.foldl Agenda.arrive a
    b.waiting.size = a.waiting.size ∧
      (∀ i, b.waiting.getD i 0 = a.waiting.getD i 0 - vs.count i) ∧
      b.ready.Pairwise (· < ·) ∧
      ∀ i, i ∈ b.ready ↔ i ∈ a.ready ∨ (i ∈ vs ∧ a.waiting.getD i 0 = vs.count i) := by
  induction vs generalizing a with
  | nil => simp [sorted]
  | cons v vs ih =>
    have hv : v < a.waiting.size := bound v List.mem_cons_self
    obtain ⟨size, waiting, increasing, ready⟩ := ih (a.arrive v)
      (fun w hw => (arrive_size a v).symm ▸ bound w (List.mem_cons_of_mem _ hw))
      (arrive_enough hv enough) (arrive_increasing sorted)
    refine ⟨size.trans (arrive_size a v), fun i => ?_, increasing, fun i =>
      (ready i).trans (arrive_ready hv (enough i))⟩
    rw [List.foldl_cons, waiting i, arrive_waiting hv, count_cons_if]
    by_cases same : i = v
    · subst same
      rw [if_pos rfl, if_pos rfl]
      omega
    · rw [if_neg same, if_neg same, Nat.add_zero]

/-! ## The search -/

/-- The nodes that node `i` uses. -/
def inputsOf (g : Graph α) (i : Nat) : List NodeId :=
  (g.nodes[i]?.map fun (n : Node α) => nodeInputs n.inputs).getD []

/-- How many inputs of node `i` stand at or after `k`. -/
def pending (g : Graph α) (k i : Nat) : Nat :=
  (g.inputsOf i).countP fun (id : NodeId) => decide (k ≤ id.index)

theorem count_flatMap_zipIdx {β : Type} (xs : List β) (f : β → Nat) (s i : Nat) :
    ((xs.zipIdx s).flatMap fun (p : β × Nat) => List.replicate (f p.1) p.2).count i =
      if s ≤ i then (xs[i - s]?.map f).getD 0 else 0 := by
  induction xs generalizing s with
  | nil => simp
  | cons x xs ih =>
    rw [List.zipIdx_cons, List.flatMap_cons, List.count_append, ih, List.count_replicate]
    rcases Nat.lt_trichotomy s i with h | h | h
    · have e : i - s = (i - (s + 1)) + 1 := by omega
      rw [if_neg (by simp; omega), if_pos (by omega), if_pos (by omega), e]
      simp
    · subst h
      rw [if_neg (by omega : ¬s + 1 ≤ s)]
      simp
    · rw [if_neg (by simp; omega), if_neg (by omega), if_neg (by omega)]

theorem count_consumers (g : Graph α) (k i : Nat) :
    (g.consumers k).count i = (g.inputsOf i).count ⟨k⟩ := by
  rw [consumers, count_flatMap_zipIdx g.nodes.toList fun (n : Node α) =>
    (nodeInputs n.inputs).count ⟨k⟩]
  simp only [Nat.zero_le, if_true, Nat.sub_zero, Array.getElem?_toList, inputsOf]
  cases g.nodes[i]? <;> simp

theorem mem_consumers {g : Graph α} {k i : Nat} :
    i ∈ g.consumers k ↔ 0 < (g.inputsOf i).count ⟨k⟩ := by
  rw [← count_consumers, List.count_pos_iff]

theorem lt_size_of_mem_consumers {g : Graph α} {k i : Nat} (h : i ∈ g.consumers k) :
    i < g.size := by
  rw [mem_consumers, inputsOf] at h
  by_contra missing
  rw [Array.getElem?_eq_none (Nat.not_lt.mp missing)] at h
  simp at h

theorem pending_succ (g : Graph α) (k i : Nat) :
    g.pending k i = g.pending (k + 1) i + (g.inputsOf i).count ⟨k⟩ := by
  simp only [pending]
  induction g.inputsOf i with
  | nil => simp
  | cons id ids ih =>
    rw [List.countP_cons, List.countP_cons, List.count_cons, ih]
    obtain ⟨j⟩ := id
    rcases Nat.lt_trichotomy j k with h | h | h
    · simp [Nat.not_le.mpr h, Nat.not_le.mpr (Nat.lt_succ_of_lt h), Nat.ne_of_lt h]
    · subst h
      have hj : ¬j + 1 ≤ j := by omega
      simp [hj]
      omega
    · simp [Nat.le_of_lt h, Nat.succ_le_of_lt h, Nat.ne_of_gt h]
      omega

/-- The agenda once the nodes before `k` are computed. -/
structure Agenda.At (a : Agenda) (g : Graph α) (k : Nat) : Prop where
  size : a.waiting.size = g.size
  waiting : ∀ i, a.waiting.getD i 0 = g.pending k i
  increasing : a.ready.Pairwise (· < ·)
  ready : ∀ i, i ∈ a.ready ↔ k ≤ i ∧ i < g.size ∧ g.pending k i = 0

theorem pending_eq_zero {g : Graph α} (ordered : g.Ordered) {k i : Nat} (h : i ≤ k) :
    g.pending k i = 0 := by
  rw [pending, List.countP_eq_zero]
  intro id hid
  simp only [inputsOf] at hid
  cases hn : g.nodes[i]? with
  | none => simp [hn] at hid
  | some n =>
    have := ordered i n hn id (by simpa [hn] using hid)
    simp only [decide_eq_true_eq]
    omega

theorem agenda_at (g : Graph α) : g.agenda.At g 0 := by
  have waiting : ∀ i, g.agenda.waiting.getD i 0 = g.pending 0 i := by
    intro i
    simp only [agenda, Array.getD_eq_getD_getElem?, Array.getElem?_map, pending, inputsOf]
    cases g.nodes[i]? <;> simp
  refine ⟨by simp [agenda, Graph.size], waiting, ?_, ?_⟩
  · exact List.Pairwise.filter _ List.pairwise_lt_range
  · intro i
    have := waiting i
    simp only [agenda] at this ⊢
    simp only [List.mem_filter, List.mem_range, beq_iff_eq, this, Nat.zero_le, true_and]

/-- Node `k` is the next one, and the others that are ready stand after it. -/
theorem Agenda.At.next {g : Graph α} {a : Agenda} {k : Nat} (ordered : g.Ordered)
    (inv : a.At g k) (hk : k < g.size) :
    ∃ rest, a.ready = k :: rest ∧ rest.Pairwise (· < ·) ∧
      ∀ i, i ∈ rest ↔ k + 1 ≤ i ∧ i < g.size ∧ g.pending k i = 0 := by
  have hmem : k ∈ a.ready := (inv.ready k).mpr ⟨Nat.le_refl k, hk, pending_eq_zero ordered (Nat.le_refl k)⟩
  obtain ⟨u, rest, hready⟩ := List.exists_cons_of_ne_nil (List.ne_nil_of_mem hmem)
  obtain ⟨least, hrest⟩ := List.pairwise_cons.mp (hready ▸ inv.increasing)
  have hu : u = k := by
    have := ((inv.ready u).mp (by simp [hready])).1
    rcases List.mem_cons.mp (hready ▸ hmem) with h | h
    · exact h.symm
    · have := least k h
      omega
  subst hu
  refine ⟨rest, hready, hrest, fun i => ?_⟩
  have listed := inv.ready i
  rw [hready, List.mem_cons] at listed
  constructor
  · intro hi
    exact ⟨least i hi, (listed.mp (.inr hi)).2⟩
  · rintro ⟨after, rest⟩
    exact (listed.mpr ⟨Nat.le_of_succ_le after, rest⟩).resolve_left (Nat.ne_of_gt after)

/-- Computing node `k` leaves the agenda for the nodes after it. -/
theorem Agenda.At.step {g : Graph α} {a : Agenda} {k : Nat} (ordered : g.Ordered)
    (inv : a.At g k) (hk : k < g.size) :
    ∃ rest, a.ready = k :: rest ∧
      ((g.consumers k).foldl Agenda.arrive { a with ready := rest }).At g (k + 1) := by
  obtain ⟨rest, hready, hrest, old⟩ := inv.next ordered hk
  have bound : ∀ v ∈ g.consumers k, v < a.waiting.size := fun v hv =>
    inv.size.symm ▸ lt_size_of_mem_consumers hv
  have enough : ∀ v, (g.consumers k).count v ≤ a.waiting.getD v 0 := by
    intro v
    rw [count_consumers, inv.waiting, pending_succ]
    omega
  obtain ⟨hs, hw, hp, hm⟩ := arrive_all (g.consumers k) { a with ready := rest } bound enough hrest
  refine ⟨rest, hready, by rw [hs, inv.size], fun i => ?_, hp, fun i => ?_⟩
  · rw [hw i, inv.waiting i, count_consumers, pending_succ]
    omega
  · have hsucc := pending_succ g k i
    rw [hm i, old, inv.waiting i, count_consumers]
    constructor
    · rintro (⟨h1, h2, h3⟩ | ⟨h1, h2⟩)
      · exact ⟨h1, h2, by omega⟩
      · have used := mem_consumers.mp h1
        refine ⟨?_, lt_size_of_mem_consumers h1, by omega⟩
        by_contra before
        have := pending_eq_zero ordered (k := k) (i := i) (by omega)
        omega
    · rintro ⟨h1, h2, h3⟩
      by_cases hz : (g.inputsOf i).count ⟨k⟩ = 0
      · exact .inl ⟨h1, h2, by omega⟩
      · exact .inr ⟨mem_consumers.mpr (by omega), by omega⟩

theorem drain_eq_range' {g : Graph α} (ordered : g.Ordered) (fuel k : Nat) {a : Agenda}
    (inv : a.At g k) (hk : k + fuel = g.size) :
    drain g.consumers fuel a = List.range' k fuel := by
  induction fuel generalizing k a with
  | zero => rfl
  | succ fuel ih =>
    obtain ⟨rest, hready, next⟩ := inv.step ordered (by omega)
    simp only [drain, hready]
    rw [ih (k + 1) next (by omega), List.range'_succ]

theorem Ordered.danglingInput?_eq {g : Graph α} (ordered : g.Ordered) :
    g.danglingInput? = none := by
  simp only [danglingInput?, List.findSome?_eq_none_iff, Option.map_eq_none_iff,
    List.find?_eq_none]
  intro n hn id hid
  obtain ⟨i, hi⟩ := List.getElem?_of_mem hn
  rw [Array.getElem?_toList] at hi
  have h1 := ordered i n hi id hid
  have h2 : i < g.nodes.size := (Array.getElem?_eq_some_iff.mp hi).1
  simp only [Graph.size, Nat.ble_eq]
  omega

/-- An ordered graph is computed node after node. -/
theorem Ordered.evaluationOrder_eq {g : Graph α} (ordered : g.Ordered) :
    g.evaluationOrder = .ok ((List.range g.size).map NodeId.mk) := by
  have order := drain_eq_range' ordered g.size 0 (agenda_at g) (by omega)
  rw [← List.range_eq_range'] at order
  simp only [evaluationOrder, ordered.danglingInput?_eq, order, List.length_range, if_true]

end Graph
end NeuralGraph
