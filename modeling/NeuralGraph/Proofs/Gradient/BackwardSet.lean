import NeuralGraph.Gradient.Training
import NeuralGraph.Proofs.Graph.Order

/-!
# The backward set

Which nodes gradients are computed for, in an ordered graph.  A node depends on a trained variable if
such a variable or a dependent node flows into it; what flows into a contributor contributes.
Backward nodes are both, and they are visited from last to first.
-/

namespace NeuralGraph
set_option autoImplicit false
variable {α : Type}

namespace Graph

/-- The numbers of the first `k` nodes. -/
def firstIds (k : Nat) : List NodeId := (List.range k).map NodeId.mk

theorem mem_firstIds {k : Nat} {id : NodeId} : id ∈ firstIds k ↔ id.index < k := by
  obtain ⟨i⟩ := id
  simp [firstIds]

theorem firstIds_succ (k : Nat) : firstIds (k + 1) = firstIds k ++ [⟨k⟩] := by
  simp [firstIds, List.range_succ]

/-- A value that a gradient can be for: a trained variable, or a node of the given ones. -/
def Reaches (m : Module α) (found : List NodeId) : Ref → Prop
  | .var v => m.isTrained v = true
  | .node source => source ∈ found

theorem mem_flows {g : Graph α} {id : NodeId} {n : Node α} (hn : g.node? id = some n) {r : Ref} :
    r ∈ g.flows id ↔ ∃ i ∈ flowPositions n.kind n.inputs.length, n.inputs[i]? = some r := by
  simp only [flows, hn, List.mem_filterMap]

theorem flows_subset {g : Graph α} {id : NodeId} {n : Node α} (hn : g.node? id = some n) {r : Ref}
    (h : r ∈ g.flows id) : r ∈ n.inputs := by
  obtain ⟨i, -, hi⟩ := (mem_flows hn).mp h
  exact List.mem_of_getElem? hi

theorem Ordered.flows_lt {g : Graph α} (ordered : g.Ordered) {id source : NodeId}
    (h : Ref.node source ∈ g.flows id) : source.index < id.index := by
  cases hn : g.node? id with
  | none => simp [flows, hn] at h
  | some n => exact ordered id.index n hn source (mem_nodeInputs.mpr (flows_subset hn h))

variable {g : Graph α} {m : Module α}

theorem mem_savedLosses {id : NodeId} :
    id ∈ g.savedLosses ↔ (∃ n, g.node? id = some n ∧ n.kind.isLoss = true) ∧
      ∃ s ∈ g.nodes, s.kind = .save ∧ s.inputs.head? = some (.node id) := by
  have any : ((g.node? id).any fun (s : Node α) => s.kind.isLoss) = true ↔
      ∃ n, g.node? id = some n ∧ n.kind.isLoss = true := by
    cases g.node? id <;> simp
  rw [savedLosses, List.mem_filterMap, ← any]
  constructor
  · rintro ⟨s, hs, hn⟩
    split at hn
    · next kind inputs =>
      split at hn
      · next found =>
        cases hn
        exact ⟨found, s, Array.mem_toList_iff.mp hs, kind, by rw [inputs]; rfl⟩
      · cases hn
    · cases hn
  · rintro ⟨found, s, hs, kind, head⟩
    refine ⟨s, Array.mem_toList_iff.mpr hs, ?_⟩
    cases inputs : s.inputs with
    | nil => simp [inputs] at head
    | cons r rest =>
      rw [inputs, List.head?_cons, Option.some.injEq] at head
      simp only [kind, head, found, if_true]

/-! ## Dependents -/

theorem dependents_succ (k : Nat) :
    g.dependents m (firstIds (k + 1)) =
      if (g.flows ⟨k⟩).any (fun (r : Ref) =>
        match r with
        | .var v => m.isTrained v
        | .node source => (g.dependents m (firstIds k)).contains source)
      then ⟨k⟩ :: g.dependents m (firstIds k) else g.dependents m (firstIds k) := by
  rw [dependents, firstIds_succ, List.foldl_append]
  rfl

theorem dependents_lt {k : Nat} {id : NodeId} (h : id ∈ g.dependents m (firstIds k)) :
    id.index < k := by
  induction k with
  | zero => cases h
  | succ k ih =>
    rw [dependents_succ] at h
    split at h
    · rcases List.mem_cons.mp h with rfl | h
      · exact Nat.lt_succ_self k
      · exact Nat.lt_succ_of_lt (ih h)
    · exact Nat.lt_succ_of_lt (ih h)

theorem dependents_stable {k j : Nat} (hj : j ≤ k) {id : NodeId} (h : id.index < j) :
    id ∈ g.dependents m (firstIds k) ↔ id ∈ g.dependents m (firstIds j) := by
  induction k with
  | zero => rw [Nat.le_zero.mp hj]
  | succ k ih =>
    rcases Nat.lt_or_eq_of_le hj with hj | rfl
    · have other : id ≠ ⟨k⟩ := by
        rintro rfl
        exact absurd h (Nat.not_lt.mpr (Nat.le_of_lt_succ hj))
      rw [← ih (Nat.le_of_lt_succ hj), dependents_succ]
      split
      · simp [other]
      · rfl
    · rfl

/-- What a dependent is: it looks only at the nodes before it. -/
theorem mem_dependents (ordered : g.Ordered) {k : Nat} {id : NodeId} :
    id ∈ g.dependents m (firstIds k) ↔
      id.index < k ∧ ∃ r ∈ g.flows id, Reaches m (g.dependents m (firstIds k)) r := by
  constructor
  · intro h
    have bound := dependents_lt h
    have here := (dependents_stable bound (Nat.lt_succ_self id.index)).mp h
    rw [dependents_succ] at here
    split at here
    · next any =>
      obtain ⟨r, hr, reaches⟩ := List.any_eq_true.mp any
      refine ⟨bound, r, hr, ?_⟩
      cases r with
      | var v => exact reaches
      | node source =>
        have found := List.contains_iff_mem.mp reaches
        exact (dependents_stable (Nat.le_of_lt bound) (ordered.flows_lt hr)).mpr found
    · exact absurd (dependents_lt here) (Nat.lt_irrefl _)
  · rintro ⟨bound, r, hr, reaches⟩
    refine (dependents_stable bound (Nat.lt_succ_self id.index)).mpr ?_
    rw [dependents_succ, if_pos]
    · exact List.mem_cons_self
    · refine List.any_eq_true.mpr ⟨r, hr, ?_⟩
      cases r with
      | var v => exact reaches
      | node source =>
        exact List.contains_iff_mem.mpr
          ((dependents_stable (Nat.le_of_lt bound) (ordered.flows_lt hr)).mp reaches)

/-! ## Contributors -/

theorem contributors_succ (losses : List NodeId) (k : Nat) :
    g.contributors losses (firstIds (k + 1)) =
      g.contributors (if losses.contains ⟨k⟩ then nodeInputs (g.flows ⟨k⟩) ++ losses else losses)
        (firstIds k) := by
  rw [contributors, firstIds_succ, List.reverse_append]
  rfl

theorem contributors_extend {losses : List NodeId} {k : Nat} {id : NodeId} (h : id ∈ losses) :
    id ∈ g.contributors losses (firstIds k) := by
  induction k generalizing losses with
  | zero => exact h
  | succ k ih =>
    rw [contributors_succ]
    split
    · exact ih (List.mem_append_right _ h)
    · exact ih h

/-- Nothing is added at or after the nodes that are still to be looked at. -/
theorem contributors_of_le (ordered : g.Ordered) {losses : List NodeId} {k : Nat} {id : NodeId}
    (h : id ∈ g.contributors losses (firstIds k)) (bound : k ≤ id.index + 1) : id ∈ losses := by
  induction k generalizing losses with
  | zero => exact h
  | succ k ih =>
    rw [contributors_succ] at h
    split at h
    · rcases List.mem_append.mp (ih h (by omega)) with h | h
      · have := ordered.flows_lt (mem_nodeInputs.mp h)
        have : id.index < k := this
        omega
      · exact h
    · exact ih h (by omega)

/-- What flows into a contributor contributes. -/
theorem contributors_closed (ordered : g.Ordered) {losses : List NodeId} {k : Nat}
    {id source : NodeId} (h : id ∈ g.contributors losses (firstIds k)) (bound : id.index < k)
    (flow : Ref.node source ∈ g.flows id) : source ∈ g.contributors losses (firstIds k) := by
  induction k generalizing losses with
  | zero => cases bound
  | succ k ih =>
    rw [contributors_succ] at h ⊢
    rcases Nat.lt_or_eq_of_le (Nat.le_of_lt_succ bound) with lt | eq
    · exact ih h lt
    · obtain rfl : id = ⟨k⟩ := congrArg NodeId.mk eq
      have found : (⟨k⟩ : NodeId) ∈ losses := by
        have := contributors_of_le ordered h (Nat.le_succ k)
        split at this
        · rcases List.mem_append.mp this with inputs | old
          · exact absurd (ordered.flows_lt (mem_nodeInputs.mp inputs)) (Nat.lt_irrefl k)
          · exact old
        · exact this
      rw [if_pos (List.contains_iff_mem.mpr found)]
      exact contributors_extend (List.mem_append_left _ (mem_nodeInputs.mpr flow))

/-! ## Both -/

/-- The nodes that gradients are computed for. -/
def backwardIds (g : Graph α) (m : Module α) : List NodeId :=
  g.backwardOrder m (firstIds g.size)

theorem mem_backwardIds {id : NodeId} :
    id ∈ g.backwardIds m ↔ id.index < g.size ∧ id ∈ g.dependents m (firstIds g.size) ∧
      id ∈ g.contributors g.savedLosses (firstIds g.size) := by
  simp only [backwardIds, backwardOrder, List.mem_filter, List.mem_reverse, mem_firstIds,
    Bool.and_eq_true, List.contains_iff_mem]

/-- Later nodes are visited first. -/
theorem backwardIds_decreasing (g : Graph α) (m : Module α) :
    (g.backwardIds m).Pairwise fun (a b : NodeId) => b.index < a.index := by
  refine List.Pairwise.filter _ (List.pairwise_reverse.mpr ?_)
  exact List.pairwise_map.mpr List.pairwise_lt_range

/-- Where one value alone flows into a backward node, the gradient goes on from there. -/
theorem backwardIds_flow (ordered : g.Ordered) {id : NodeId} {r : Ref} (h : id ∈ g.backwardIds m)
    (only : g.flows id = [r]) : Reaches m (g.backwardIds m) r := by
  obtain ⟨bound, depends, contributes⟩ := mem_backwardIds.mp h
  obtain ⟨-, r', hr', reaches⟩ := (mem_dependents ordered).mp depends
  rw [only] at hr'
  obtain rfl := List.mem_singleton.mp hr'
  cases r' with
  | var v => exact reaches
  | node source =>
    have flow : Ref.node source ∈ g.flows id := by simp [only]
    refine mem_backwardIds.mpr ⟨Nat.lt_trans (ordered.flows_lt flow) bound, reaches, ?_⟩
    exact contributors_closed ordered contributes bound flow

end Graph
end NeuralGraph
