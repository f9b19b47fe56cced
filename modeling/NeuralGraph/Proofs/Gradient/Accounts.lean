import NeuralGraph.Proofs.Gradient.Visits

/-!
# What gradients account for

Every gradient stands for paths: one that a rule gives for those of the gradient that the rule was
handed, each longer by one use.  The rule of a loss is handed nothing and starts a path, whatever flows
on from its value.  So the gradients of a trained variable stand for the paths to it from the last loss
on them, each path once, and for the paths from saved losses if no loss is passed on the way.
-/

namespace NeuralGraph
set_option autoImplicit false
variable {α : Type}

/-- The uses that the visit gave gradients for. -/
def Visit.uses (v : Visit) : List Use :=
  v.given.map fun (q : InputGradient) => ⟨v.node, q.position⟩

namespace Graph

def isLoss (g : Graph α) (id : NodeId) : Bool :=
  (g.node? id).any fun (n : Node α) => n.kind.isLoss

/-- The paths that the gradients of a value account for, after some visits, the last of which stands
first. -/
def accounts (g : Graph α) : List Visit → Ref → List (List Use)
  | [], _ => []
  | v :: earlier, r =>
    let handed : List (List Use) :=
      if v.handed.isNone then [[]] else g.accounts earlier (.node v.node)
    g.accounts earlier r ++
      (v.uses.filter fun (u : Use) => g.used? u == some r).flatMap fun (u : Use) =>
        handed.map fun (us : List Use) => us ++ [u]

/-- Paths from a loss along given consumers, of which no other one is a loss. -/
inductive Carries (g : Graph α) (consumers : List NodeId) : List Use → Ref → Prop
  | start {u : Use} {consumer : NodeId} {r : Ref} : consumer ∈ consumers →
    g.isLoss consumer = true → u ∈ g.usesOf consumer r → Carries g consumers [u] r
  | next {us : List Use} {u : Use} {consumer : NodeId} {r : Ref} :
    Carries g consumers us (.node consumer) → consumer ∈ consumers → g.isLoss consumer = false →
    u ∈ g.usesOf consumer r → Carries g consumers (us ++ [u]) r

variable {g forward : Graph α} {m : Module α}

namespace Carries
variable {consumers more : List NodeId} {us : List Use} {r : Ref}

theorem mono (h : g.Carries consumers us r) (subset : consumers ⊆ more) : g.Carries more us r := by
  induction h with
  | start member loss use => exact .start (subset member) loss use
  | next _ member other use ih => exact .next ih (subset member) other use

theorem consumer_mem (h : g.Carries consumers us r) : ∀ u ∈ us, u.consumer ∈ consumers := by
  induction h with
  | start member _ use =>
    intro u hu
    rw [List.mem_singleton.mp hu, consumer_of_mem_usesOf use]
    exact member
  | next _ member _ use ih =>
    intro u hu
    rcases List.mem_append.mp hu with earlier | last
    · exact ih u earlier
    · rw [List.mem_singleton.mp last, consumer_of_mem_usesOf use]
      exact member

theorem path (h : g.Carries consumers us r) :
    ∃ loss ∈ consumers, g.isLoss loss = true ∧ g.Path loss us r := by
  induction h with
  | @start u consumer r member loss use => exact ⟨consumer, member, loss, .snoc .nil use⟩
  | next _ _ _ use ih =>
    obtain ⟨loss, member, is, path⟩ := ih
    exact ⟨loss, member, is, path.snoc use⟩

end Carries

theorem later_consumer (ordered : g.Ordered) {first consumer id : NodeId} {consumers : List NodeId}
    (least : ∀ i ∈ consumers, first.index < i.index) (le : first.index ≤ id.index) {u : Use}
    (member : consumer ∈ first :: consumers) (use : u ∈ g.usesOf consumer (.node id)) :
    consumer ∈ consumers ∧ first.index ≤ consumer.index := by
  have lt := ordered.flows_lt (mem_flows_of_mem_usesOf use)
  rcases List.mem_cons.mp member with rfl | member
  · exact absurd lt (Nat.not_lt.mpr le)
  · exact ⟨member, Nat.le_of_lt (least _ member)⟩

/-- A node that stands before all others is not on a path to a node at or after it. -/
theorem Carries.of_cons {first id : NodeId} {consumers : List NodeId} {us : List Use} {r : Ref}
    (ordered : g.Ordered) (least : ∀ i ∈ consumers, first.index < i.index)
    (h : g.Carries (first :: consumers) us r) (end' : r = .node id)
    (le : first.index ≤ id.index) : g.Carries consumers us r := by
  induction h generalizing id with
  | start member loss use =>
    subst end'
    exact .start (later_consumer ordered least le member use).1 loss use
  | next _ member other use ih =>
    subst end'
    obtain ⟨member, le⟩ := later_consumer ordered least le member use
    exact .next (ih rfl le) member other use

/-! ## The visits of a pass -/

variable [Scalar α]

/-- A visit of a node of the backward set, which is handed nothing if the node is a loss. -/
structure Visited (forward : Graph α) (m : Module α) (g : Graph α) (v : Visit) : Prop where
  backward : v.node ∈ forward.backwardIds m
  ran : ∃ n, forward.Ran m g v n
  handed : v.handed.isNone = forward.isLoss v.node

theorem Visited.uses {v : Visit} (visited : forward.Visited m g v) {r : Ref}
    (reaches : Reaches m (forward.backwardIds m) r) :
    v.uses.filter (fun (u : Use) => forward.used? u == some r) = forward.usesOf v.node r := by
  obtain ⟨n, ran⟩ := visited.ran
  have kept : (v.given.map fun (q : InputGradient) => (⟨v.node, q.position⟩ : Use)).filter
      (fun (u : Use) => forward.used? u == some r) = (v.given.filter fun (q : InputGradient) =>
        forward.used? ⟨v.node, q.position⟩ == some r).map
          fun (q : InputGradient) => ⟨v.node, q.position⟩ := List.filter_map
  rw [Visit.uses, kept]
  simp only [usesOf, used?, ran.found, Option.bind_some, ← ran.positions_of reaches, List.map_map]
  rfl

/-- The paths of the gradient that the rule of a node is handed. -/
def handedPaths (forward : Graph α) (earlier : List Visit) (id : NodeId) : List (List Use) :=
  if forward.isLoss id then [[]] else forward.accounts earlier (.node id)

theorem accounts_cons {v : Visit} (visited : forward.Visited m g v) (earlier : List Visit) {r : Ref}
    (reaches : Reaches m (forward.backwardIds m) r) :
    forward.accounts (v :: earlier) r = forward.accounts earlier r ++
      (forward.usesOf v.node r).flatMap fun (u : Use) =>
        (forward.handedPaths earlier v.node).map fun (us : List Use) => us ++ [u] := by
  rw [accounts, visited.uses reaches, visited.handed]
  rfl

/-- By induction over the visits: the paths that come with a visit end with a use by its node. -/
theorem mem_accounts {visits : List Visit} (ordered : forward.Ordered)
    (visited : ∀ v ∈ visits, forward.Visited m g v)
    (increasing : visits.Pairwise fun (v w : Visit) => v.node.index < w.node.index) {r : Ref}
    (reaches : Reaches m (forward.backwardIds m) r) {us : List Use} :
    us ∈ forward.accounts visits r ↔ forward.Carries (visits.map Visit.node) us r := by
  induction visits generalizing r us with
  | nil =>
    refine iff_of_false List.not_mem_nil fun h => ?_
    cases h with
    | start member => exact absurd member List.not_mem_nil
    | next _ member => exact absurd member List.not_mem_nil
  | cons v earlier ih =>
    obtain ⟨first, increasing⟩ := List.pairwise_cons.mp increasing
    have own := visited v List.mem_cons_self
    have known : ∀ {r us}, Reaches m (forward.backwardIds m) r →
        (us ∈ forward.accounts earlier r ↔ forward.Carries (earlier.map Visit.node) us r) :=
      fun reaches => ih (fun w hw => visited w (List.mem_cons_of_mem _ hw)) increasing reaches
    have least : ∀ i ∈ earlier.map Visit.node, v.node.index < i.index := by
      intro i hi
      obtain ⟨w, hw, rfl⟩ := List.mem_map.mp hi
      exact first w hw
    rw [accounts_cons own earlier reaches, List.mem_append, known reaches, List.mem_flatMap,
      List.map_cons]
    simp only [List.mem_map]
    constructor
    · rintro (before | ⟨u, use, us, through, rfl⟩)
      · exact before.mono (List.subset_cons_self _ _)
      · rw [handedPaths] at through
        split at through
        · next loss =>
          obtain rfl := List.mem_singleton.mp through
          exact .start List.mem_cons_self loss use
        · next other =>
          have before := (known (r := .node v.node) own.backward).mp through
          exact .next (before.mono (List.subset_cons_self _ _)) List.mem_cons_self
            (Bool.not_eq_true _ ▸ other) use
    · intro carries
      cases carries with
      | @start u consumer _ member loss use =>
        rcases List.mem_cons.mp member with rfl | member
        · exact .inr ⟨u, use, [], by rw [handedPaths, if_pos loss]; exact List.mem_singleton_self _, rfl⟩
        · exact .inl (.start member loss use)
      | @next us u consumer _ before member other use =>
        rcases List.mem_cons.mp member with rfl | member
        · refine .inr ⟨u, use, us, ?_, rfl⟩
          rw [handedPaths, if_neg (by simp [other])]
          exact (known (r := .node v.node) own.backward).mpr
            (before.of_cons ordered least rfl (Nat.le_refl _))
        · exact .inl (.next (before.of_cons ordered least rfl (Nat.le_of_lt (least _ member))) member
            other use)

theorem accounts_nodup {visits : List Visit} (ordered : forward.Ordered)
    (visited : ∀ v ∈ visits, forward.Visited m g v)
    (increasing : visits.Pairwise fun (v w : Visit) => v.node.index < w.node.index) {r : Ref}
    (reaches : Reaches m (forward.backwardIds m) r) : (forward.accounts visits r).Nodup := by
  induction visits generalizing r with
  | nil => exact List.nodup_nil
  | cons v earlier ih =>
    obtain ⟨first, increasing⟩ := List.pairwise_cons.mp increasing
    have own := visited v List.mem_cons_self
    have others : ∀ w ∈ earlier, forward.Visited m g w :=
      fun w hw => visited w (List.mem_cons_of_mem _ hw)
    have through : (forward.handedPaths earlier v.node).Nodup := by
      rw [handedPaths]
      split
      · exact List.nodup_singleton _
      · exact ih (r := .node v.node) others increasing own.backward
    rw [accounts_cons own earlier reaches]
    refine List.nodup_append'.mpr ⟨ih others increasing reaches, ?_, ?_⟩
    · refine List.nodup_flatMap.mpr ⟨fun u _ => through.map fun a b => (List.append_left_inj _).mp, ?_⟩
      refine (usesOf_nodup v.node r).imp fun different => ?_
      intro us hus hus'
      obtain ⟨a, -, rfl⟩ := List.mem_map.mp hus
      obtain ⟨b, -, same⟩ := List.mem_map.mp hus'
      exact different (List.singleton_inj.mp (List.append_inj_right' same rfl)).symm
    · intro us before new
      obtain ⟨u, use, hus⟩ := List.mem_flatMap.mp new
      obtain ⟨a, -, rfl⟩ := List.mem_map.mp hus
      have carries := (mem_accounts ordered others increasing reaches).mp before
      have member := carries.consumer_mem u (List.mem_append_right _ (List.mem_singleton_self _))
      obtain ⟨w, hw, same⟩ := List.mem_map.mp member
      have lt := first w hw
      rw [same, consumer_of_mem_usesOf use] at lt
      exact Nat.lt_irrefl _ lt

end Graph
end NeuralGraph
