import NeuralGraph.Proofs.Gradient.BackwardSet

/-!
# Paths of gradients

A value flows into a node along paths, use by use.  The backward set stands between the saved losses and
the trained variables: a node contributes if it flows into a saved loss, and it depends on a trained
variable if one flows into it.
-/

namespace NeuralGraph
set_option autoImplicit false
variable {α : Type}

/-! ## Flows -/

/-- The value flows into the node, directly or through other nodes. -/
inductive Graph.FlowsInto (g : Graph α) (r : Ref) : NodeId → Prop
  | direct {id : NodeId} : r ∈ g.flows id → FlowsInto g r id
  | through {a b : NodeId} : FlowsInto g r a → Ref.node a ∈ g.flows b → FlowsInto g r b

namespace Graph
variable {g : Graph α} {m : Module α}

theorem FlowsInto.trans {r : Ref} {a b : NodeId} (h : g.FlowsInto r a)
    (h' : g.FlowsInto (.node a) b) : g.FlowsInto r b := by
  induction h' with
  | direct flow => exact .through h flow
  | through _ flow ih => exact .through ih flow

/-- A contributor is one of the losses or flows into one. -/
theorem contributors_sound {losses : List NodeId} {k : Nat} {id : NodeId}
    (h : id ∈ g.contributors losses (firstIds k)) :
    ∃ loss ∈ losses, id = loss ∨ g.FlowsInto (.node id) loss := by
  induction k generalizing losses with
  | zero => exact ⟨id, h, .inl rfl⟩
  | succ k ih =>
    rw [contributors_succ] at h
    split at h
    · next found =>
      obtain ⟨loss, member, path⟩ := ih h
      rcases List.mem_append.mp member with input | old
      · have flow := mem_nodeInputs.mp input
        refine ⟨⟨k⟩, List.contains_iff_mem.mp found, .inr ?_⟩
        rcases path with rfl | path
        · exact .direct flow
        · exact path.trans (.direct flow)
      · exact ⟨loss, old, path⟩
    · exact ih h

theorem lt_size_of_flows {id : NodeId} {r : Ref} (h : r ∈ g.flows id) : id.index < g.size := by
  cases hn : g.node? id with
  | none => simp [flows, hn] at h
  | some n => exact (Array.getElem?_eq_some_iff.mp hn).1

/-- What depends on a trained variable and flows into a contributor flows into a backward node
directly. -/
theorem FlowsInto.backward (ordered : g.Ordered) {r : Ref}
    (depends : Reaches m (g.dependents m (firstIds g.size)) r) {id : NodeId}
    (h : g.FlowsInto r id) (contributes : id ∈ g.contributors g.savedLosses (firstIds g.size)) :
    ∃ b ∈ g.backwardIds m, r ∈ g.flows b := by
  induction h with
  | @direct id flow =>
    have bound := lt_size_of_flows flow
    exact ⟨id, mem_backwardIds.mpr
      ⟨bound, (mem_dependents ordered).mpr ⟨bound, _, flow, depends⟩, contributes⟩, flow⟩
  | through _ flow ih =>
    exact ih (contributors_closed ordered contributes (lt_size_of_flows flow) flow)

theorem FlowsInto.contributes (ordered : g.Ordered) {source id : NodeId}
    (h : g.FlowsInto (.node source) id)
    (contributes : id ∈ g.contributors g.savedLosses (firstIds g.size)) :
    source ∈ g.contributors g.savedLosses (firstIds g.size) := by
  induction h with
  | direct flow => exact contributors_closed ordered contributes (lt_size_of_flows flow) flow
  | through _ flow ih =>
    exact ih (contributors_closed ordered contributes (lt_size_of_flows flow) flow)

/-- A node depends on a trained variable if one flows into it. -/
theorem mem_dependents_iff_flowsInto (ordered : g.Ordered) {id : NodeId} :
    id ∈ g.dependents m (firstIds g.size) ↔
      ∃ w, m.isTrained w = true ∧ g.FlowsInto (.var w) id := by
  constructor
  · intro h
    obtain ⟨i⟩ := id
    induction i using Nat.strongRecOn with
    | _ i ih =>
      obtain ⟨-, r, flow, reaches⟩ := (mem_dependents ordered).mp h
      cases r with
      | var w => exact ⟨w, reaches, .direct flow⟩
      | node source =>
        obtain ⟨w, trained, path⟩ := ih source.index (ordered.flows_lt flow) reaches
        exact ⟨w, trained, .through path flow⟩
  · rintro ⟨w, trained, path⟩
    induction path with
    | direct flow => exact (mem_dependents ordered).mpr ⟨lt_size_of_flows flow, _, flow, trained⟩
    | through _ flow ih => exact (mem_dependents ordered).mpr ⟨lt_size_of_flows flow, _, flow, ih⟩

/-- The backward set stands between the saved losses and the trained variables. -/
theorem mem_backwardIds_iff_flowsInto (ordered : g.Ordered) {id : NodeId} :
    id ∈ g.backwardIds m ↔
      (∃ loss ∈ g.savedLosses, id = loss ∨ g.FlowsInto (.node id) loss) ∧
      ∃ w, m.isTrained w = true ∧ g.FlowsInto (.var w) id := by
  rw [mem_backwardIds, ← mem_dependents_iff_flowsInto ordered]
  constructor
  · rintro ⟨-, depends, contributes⟩
    exact ⟨contributors_sound contributes, depends⟩
  · rintro ⟨⟨loss, saved, path⟩, depends⟩
    refine ⟨dependents_lt depends, depends, ?_⟩
    rcases path with rfl | path
    · exact contributors_extend saved
    · exact path.contributes ordered (contributors_extend saved)

/-- The trained variables that flow into a saved loss. -/
def ReachedBy (g : Graph α) (m : Module α) (w : VarId) : Prop :=
  m.isTrained w = true ∧ ∃ loss ∈ g.savedLosses, g.FlowsInto (.var w) loss

/-- A trained variable flows into a saved loss exactly if it flows into a backward node directly. -/
theorem reachedBy_iff (ordered : g.Ordered) {w : VarId} :
    g.ReachedBy m w ↔
      m.isTrained w = true ∧ ∃ id ∈ g.backwardIds m, Ref.var w ∈ g.flows id := by
  refine and_congr_right fun trained => ?_
  constructor
  · rintro ⟨loss, saved, path⟩
    exact path.backward (r := .var w) ordered trained (contributors_extend saved)
  · rintro ⟨id, backward, flow⟩
    obtain ⟨loss, saved, path⟩ := contributors_sound (mem_backwardIds.mp backward).2.2
    refine ⟨loss, saved, ?_⟩
    rcases path with rfl | path
    · exact .direct flow
    · exact FlowsInto.trans (.direct flow) path

end Graph

/-! ## Uses -/

/-- The use of a value by a node, as its input at a position. -/
structure Use where
  consumer : NodeId
  position : Nat
  deriving DecidableEq, Repr

namespace Graph
variable {g : Graph α} {m : Module α}

/-- The value that is used. -/
def used? (g : Graph α) (u : Use) : Option Ref :=
  (g.node? u.consumer).bind fun (n : Node α) => n.inputs[u.position]?

/-- The uses of a value by a node that gradients flow along, in the order of the positions. -/
def usesOf (g : Graph α) (id : NodeId) (r : Ref) : List Use :=
  match g.node? id with
  | some n =>
    ((flowPositions n.kind n.inputs.length).filter fun (i : Nat) => n.inputs[i]? == some r).map
      fun (i : Nat) => ⟨id, i⟩
  | none => []

theorem mem_usesOf {id : NodeId} {n : Node α} (hn : g.node? id = some n) {r : Ref} {u : Use} :
    u ∈ g.usesOf id r ↔ u.consumer = id ∧
      u.position ∈ flowPositions n.kind n.inputs.length ∧ n.inputs[u.position]? = some r := by
  simp only [usesOf, hn, List.mem_map, List.mem_filter, beq_iff_eq]
  constructor
  · rintro ⟨i, ⟨flow, hi⟩, rfl⟩
    exact ⟨rfl, flow, hi⟩
  · rintro ⟨rfl, flow, hi⟩
    exact ⟨u.position, ⟨flow, hi⟩, rfl⟩

theorem consumer_of_mem_usesOf {id : NodeId} {r : Ref} {u : Use} (h : u ∈ g.usesOf id r) :
    u.consumer = id := by
  cases hn : g.node? id with
  | none => simp [usesOf, hn] at h
  | some n => exact ((mem_usesOf hn).mp h).1

theorem flowPositions_increasing (kind : NodeKind α) (count : Nat) :
    (flowPositions kind count).Pairwise (· < ·) := by
  rw [flowPositions]
  split
  · exact List.pairwise_singleton _ _
  · exact List.pairwise_lt_range

/-- The uses by one node are listed in the order of their positions, each once. -/
theorem usesOf_increasing (id : NodeId) (r : Ref) :
    (g.usesOf id r).Pairwise fun (a b : Use) => a.position < b.position := by
  rw [usesOf]
  split
  · exact List.pairwise_map.mpr ((flowPositions_increasing _ _).filter _)
  · exact .nil

theorem usesOf_nodup (id : NodeId) (r : Ref) : (g.usesOf id r).Nodup :=
  (usesOf_increasing id r).imp fun lt same => absurd (same ▸ lt) (Nat.lt_irrefl _)

theorem mem_flows_iff_uses {id : NodeId} {r : Ref} :
    r ∈ g.flows id ↔ ∃ u, u ∈ g.usesOf id r := by
  cases hn : g.node? id with
  | none => simp [flows, usesOf, hn]
  | some n =>
    rw [mem_flows hn]
    constructor
    · rintro ⟨i, flow, hi⟩
      exact ⟨⟨id, i⟩, (mem_usesOf hn).mpr ⟨rfl, flow, hi⟩⟩
    · rintro ⟨u, hu⟩
      obtain ⟨-, flow, hi⟩ := (mem_usesOf hn).mp hu
      exact ⟨u.position, flow, hi⟩

theorem mem_flows_of_mem_usesOf {id : NodeId} {r : Ref} {u : Use} (h : u ∈ g.usesOf id r) :
    r ∈ g.flows id := mem_flows_iff_uses.mpr ⟨u, h⟩

/-! ## Paths -/

/-- The uses lead from the node to the value, each to the node that has the next one. -/
inductive Path (g : Graph α) (source : NodeId) : List Use → Ref → Prop
  | nil : Path g source [] (.node source)
  | snoc {us : List Use} {consumer : NodeId} {u : Use} {r : Ref} :
    Path g source us (.node consumer) → u ∈ g.usesOf consumer r → Path g source (us ++ [u]) r

namespace Path
variable {source : NodeId} {us : List Use} {r : Ref}

theorem ne_nil {w : VarId} (path : g.Path source us (.var w)) : us ≠ [] := by
  cases path with
  | snoc path use => simp

theorem contributes (ordered : g.Ordered) (saved : source ∈ g.savedLosses)
    (path : g.Path source us r) {id : NodeId} (end' : r = .node id) :
    id ∈ g.contributors g.savedLosses (firstIds g.size) := by
  induction path generalizing id with
  | nil =>
    cases end'
    exact contributors_extend saved
  | snoc path use ih =>
    subst end'
    have flow := mem_flows_of_mem_usesOf use
    exact contributors_closed ordered (ih rfl) (lt_size_of_flows flow) flow

/-- Every node on a path from a saved loss to something that is reached is in the backward set. -/
theorem backward (ordered : g.Ordered) (saved : source ∈ g.savedLosses)
    (path : g.Path source us r) (reaches : Reaches m (g.dependents m (firstIds g.size)) r) :
    ∀ u ∈ us, u.consumer ∈ g.backwardIds m := by
  induction path with
  | nil => simp
  | @snoc us consumer u r path use ih =>
    have flow := mem_flows_of_mem_usesOf use
    have bound := lt_size_of_flows flow
    have depends := (mem_dependents ordered).mpr ⟨bound, r, flow, reaches⟩
    intro u' hu'
    rcases List.mem_append.mp hu' with earlier | last
    · exact ih depends u' earlier
    · obtain rfl := List.mem_singleton.mp last
      rw [consumer_of_mem_usesOf use]
      exact mem_backwardIds.mpr ⟨bound, depends, path.contributes ordered saved rfl⟩

end Path
end Graph
end NeuralGraph
