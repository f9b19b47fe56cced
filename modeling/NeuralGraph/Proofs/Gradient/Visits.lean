import NeuralGraph.Proofs.Gradient.Paths
import NeuralGraph.Proofs.Gradient.Pushes
import NeuralGraph.Proofs.Gradient.Targets

/-!
# The visits of the backward pass

The pass visits the backward set from last to first.  `Graph.Walk` records what each rule was handed
and what it gave.  Every rule gives one gradient for each use that gradients flow along to a trained
variable or a backward node.  Since uses stand after what they use, all gradients of a value are there
when its node is visited: `Graph.Walk.hands`.
-/

namespace NeuralGraph
set_option autoImplicit false
variable {α : Type}

/-- The visit of a node: the gradient that its rule was handed, and those that the rule gave. -/
structure Visit where
  node : NodeId
  handed : Option Ref
  given : List InputGradient
  deriving DecidableEq, Repr

/-- What the visit contributes to the values that the node uses. -/
def Visit.contributions (v : Visit) (n : Node α) : List Contribution :=
  v.given.filterMap fun (q : InputGradient) =>
    n.inputs[q.position]?.map fun (r : Ref) => ⟨r, q.gradient⟩

/-- One of the visits gave this gradient for the use. -/
def Visit.Gives (visits : List Visit) (u : Use) (r : Ref) : Prop :=
  ∃ v ∈ visits, v.node = u.consumer ∧ ⟨u.position, r⟩ ∈ v.given

theorem Visit.Gives.mono {visits more : List Visit} {u : Use} {r : Ref}
    (h : Visit.Gives visits u r) (subset : visits ⊆ more) : Visit.Gives more u r := by
  obtain ⟨v, hv, same, given⟩ := h
  exact ⟨v, subset hv, same, given⟩

namespace Graph

/-- The uses of a value by backward nodes, in the order in which these are visited. -/
def backwardUses (g : Graph α) (m : Module α) (r : Ref) : List Use :=
  (g.backwardIds m).flatMap fun (id : NodeId) => g.usesOf id r

/-- What the rule of a node is handed if its value has these gradients: the only one, or else one sum
of all of them, which has the type of the value. -/
inductive Hands (g : Graph α) (type : Option (TensorType α)) : List Ref → Ref → Prop
  | one (r : Ref) : Hands g type [r] r
  | sum {parts : List Ref} {total : NodeId} {n : Node α} : 2 ≤ parts.length →
    g.node? total = some n → n.kind = .gradientSum → n.inputs = parts → n.type = type →
    Hands g type parts (.node total)

theorem Hands.mono {g g' : Graph α} {type : Option (TensorType α)} {parts : List Ref} {r : Ref}
    (h : g.Hands type parts r) (extends' : g'.Extends g) : g'.Hands type parts r := by
  cases h with
  | one => exact .one r
  | sum two found kind inputs same => exact .sum two (extends' _ _ found) kind inputs same

/-- The rules of nodes are run one after the other, each on what the nodes before it contributed. -/
inductive Walk [Scalar α] (forward : Graph α) (m : Module α) :
    List Contribution → Graph α → List Visit → List Contribution → Graph α → Prop
  | nil (cs : List Contribution) (g : Graph α) : Walk forward m cs g [] cs g
  | visit {cs cs' : List Contribution} {g g₁ g₂ g' : Graph α} {n : Node α} {v : Visit}
      {visits : List Visit} : forward.node? v.node = some n →
    (n.totalGradient m v.node cs).run g = .ok (v.handed, g₁) →
    (n.gradients m v.node v.handed (n.wants m (forward.backwardIds m))).run g₁ = .ok (v.given, g₂) →
    Walk forward m (cs ++ v.contributions n) g₂ visits cs' g' →
    Walk forward m cs g (v :: visits) cs' g'

variable [Scalar α] {m : Module α} {forward g g' : Graph α} {cs cs' : List Contribution}

/-- By induction over the nodes that are visited. -/
theorem walk_of_fold {ids : List NodeId}
    (h : (ids.foldlM (fun (cs : List Contribution) (id : NodeId) => (do
      let n ← forward.node id
      n.propagate m id (forward.backwardIds m) cs : Emit α (List Contribution))) cs).run g =
        .ok (cs', g')) :
    ∃ visits, visits.map Visit.node = ids ∧ forward.Walk m cs g visits cs' g' := by
  induction ids generalizing g cs with
  | nil =>
    cases h
    exact ⟨[], rfl, .nil _ _⟩
  | cons id ids ih =>
    rw [List.foldlM_cons] at h
    obtain ⟨cs₁, g₂, visited, rest⟩ := Emit.run_bind_eq_ok h
    obtain ⟨n, g₀, found, moved⟩ := Emit.run_bind_eq_ok visited
    obtain ⟨known, rfl⟩ := Emit.run_lift found
    obtain ⟨total, g₁, summed, computing⟩ := Emit.run_bind_eq_ok moved
    obtain ⟨grads, g₃, computed, done⟩ := Emit.run_bind_eq_ok computing
    cases done
    obtain ⟨visits, rfl, walk⟩ := ih rest
    exact ⟨⟨id, total, grads⟩ :: visits, rfl,
      .visit (Graph.node_eq_ok_iff.mp known) summed computed walk⟩

theorem Backpropagates.walk {sums : List WeightGradient} (ordered : forward.Ordered)
    (h : forward.Backpropagates m cs sums g) : ∃ visits g₁,
      visits.map Visit.node = forward.backwardIds m ∧
      forward.Walk m [] { forward with name := forward.name ++ ".train" } visits cs g₁ ∧
      (weightSums m cs).run g₁ = .ok (sums, g) := by
  obtain ⟨order, g₁, horder, pass, summed⟩ := h
  have same := ordered.evaluationOrder_eq
  rw [horder, Except.ok.injEq] at same
  subst same
  obtain ⟨visits, nodes, walk⟩ := walk_of_fold pass
  exact ⟨visits, g₁, nodes, walk, summed⟩

omit [Scalar α] in
theorem pairwise_decreasing {visits : List Visit}
    (nodes : visits.map Visit.node = forward.backwardIds m) :
    visits.Pairwise fun (v w : Visit) => w.node.index < v.node.index :=
  List.pairwise_map.mp (nodes ▸ forward.backwardIds_decreasing m)

/-! ## What a visit gives -/

/-- The rule of a node is run on what it is handed, and gives these gradients. -/
structure Ran (forward : Graph α) (m : Module α) (g : Graph α) (v : Visit) (n : Node α) : Prop where
  found : forward.node? v.node = some n
  /-- One gradient for each wanted input, in the order of the inputs. -/
  positions : v.given.map InputGradient.position =
    (flowPositions n.kind n.inputs.length).filter (n.wants m (forward.backwardIds m))
  rule : ∃ g₁ g₂, (n.gradients m v.node v.handed (n.wants m (forward.backwardIds m))).run g₁ =
    .ok (v.given, g₂) ∧ g₂.Extends g₁ ∧ g.Extends g₂

theorem Ran.mono {v : Visit} {n : Node α} (ran : forward.Ran m g v n) (extends' : g'.Extends g) :
    forward.Ran m g' v n := by
  obtain ⟨g₁, g₂, rule, grown, later⟩ := ran.rule
  exact ⟨ran.found, ran.positions, g₁, g₂, rule, grown, extends'.trans later⟩

theorem Walk.pushes {visits : List Visit} (walk : forward.Walk m cs g visits cs' g') :
    g.Pushes NodeKind.IsGradient g' := by
  induction walk with
  | nil cs g => exact .refl g
  | visit _ summed computed _ ih =>
    exact (((Node.uniform_totalGradient _ _ _).pushes m _ _ _ summed).trans
      ((Node.uniform_gradients _ _ _ _).pushes m _ _ _ computed)).trans ih

theorem Walk.ran {visits : List Visit} (formed : forward.WellFormed)
    (walk : forward.Walk m cs g visits cs' g')
    (backward : ∀ v ∈ visits, v.node ∈ forward.backwardIds m) :
    ∀ v ∈ visits, ∃ n, forward.Ran m g' v n := by
  induction walk with
  | nil => simp
  | @visit cs cs' g g₁ g₂ g' n v visits found summed computed walk ih =>
    have answers := n.answers_gradients (m := m) v.node v.handed
      (Node.wants_loss formed found (backward v List.mem_cons_self))
    intro u hu
    rcases List.mem_cons.mp hu with rfl | hu
    · exact ⟨n, found, answers _ _ _ computed, g₁, g₂, computed,
        ((Node.uniform_gradients _ _ _ _).pushes m _ _ _ computed).extends', walk.pushes.extends'⟩
    · exact ih (fun v hv => backward v (List.mem_cons_of_mem _ hv)) u hu

/-- The gradients of a value that a visit gave are those for the uses of the value by the node. -/
theorem Ran.positions_of {v : Visit} {n : Node α} (ran : forward.Ran m g v n) {r : Ref}
    (reaches : Reaches m (forward.backwardIds m) r) :
    (v.given.filter fun (q : InputGradient) => n.inputs[q.position]? == some r).map
        InputGradient.position =
      (flowPositions n.kind n.inputs.length).filter fun (i : Nat) => n.inputs[i]? == some r := by
  have kept : (v.given.map InputGradient.position).filter (fun (i : Nat) =>
      n.inputs[i]? == some r) = (v.given.filter fun (q : InputGradient) =>
        n.inputs[q.position]? == some r).map InputGradient.position := List.filter_map
  rw [← kept, ran.positions, List.filter_filter]
  refine List.filter_congr fun i flow => ?_
  cases hi : n.inputs[i]? == some r with
  | false => rfl
  | true =>
    have wanted := (Node.wants_eq_true (m := m) (beq_iff_eq.mp hi)).mpr ⟨flow, reaches⟩
    rw [wanted, Bool.and_self]

omit [Scalar α] in
theorem contributionsTo_contributions (v : Visit) (n : Node α) (r : Ref) :
    contributionsTo (v.contributions n) r =
      (v.given.filter fun (q : InputGradient) => n.inputs[q.position]? == some r).map
        InputGradient.gradient := by
  rw [contributionsTo, Visit.contributions]
  generalize v.given = given
  induction given with
  | nil => rfl
  | cons q given ih =>
    cases hq : n.inputs[q.position]? with
    | none => simpa [hq] using ih
    | some r' =>
      by_cases same : r' = r
      · subst same
        simpa [hq] using ih
      · simpa [hq, same] using ih

theorem Ran.gives {v : Visit} {n : Node α} (ran : forward.Ran m g v n) {r : Ref}
    (reaches : Reaches m (forward.backwardIds m) r) :
    List.Forall₂ (Visit.Gives [v]) (forward.usesOf v.node r)
      (contributionsTo (v.contributions n) r) := by
  simp only [usesOf, ran.found, ← ran.positions_of reaches, contributionsTo_contributions,
    List.forall₂_map_left_iff, List.forall₂_map_right_iff, List.forall₂_same]
  exact fun q hq => ⟨v, List.mem_singleton_self v, rfl, (List.mem_filter.mp hq).1⟩

/-- Each use by a visited node adds one gradient, in the order of the visits. -/
theorem Walk.gives {visits : List Visit} (formed : forward.WellFormed)
    (walk : forward.Walk m cs g visits cs' g')
    (backward : ∀ v ∈ visits, v.node ∈ forward.backwardIds m) {r : Ref}
    (reaches : Reaches m (forward.backwardIds m) r) :
    ∃ more, contributionsTo cs' r = contributionsTo cs r ++ more ∧
      List.Forall₂ (Visit.Gives visits)
        (visits.flatMap fun (v : Visit) => forward.usesOf v.node r) more := by
  induction walk with
  | nil cs g => exact ⟨[], (List.append_nil _).symm, .nil⟩
  | @visit cs cs' g g₁ g₂ g' n v visits found summed computed walk ih =>
    obtain ⟨more, same, later⟩ := ih fun w hw => backward w (List.mem_cons_of_mem _ hw)
    have once : forward.Walk m cs g [v] (cs ++ v.contributions n) g₂ :=
      .visit found summed computed (.nil _ _)
    obtain ⟨n', ran⟩ := once.ran formed (fun w hw =>
      List.mem_singleton.mp hw ▸ backward v List.mem_cons_self) v (List.mem_singleton_self v)
    obtain rfl : n' = n := Option.some.inj (ran.found.symm.trans found)
    refine ⟨contributionsTo (v.contributions n') r ++ more, ?_, ?_⟩
    · rw [same, contributionsTo_append, List.append_assoc]
    · rw [List.flatMap_cons]
      exact List.rel_append
        ((ran.gives reaches).imp fun u x => (·.mono (List.cons_subset_cons v (List.nil_subset _))))
        (later.imp fun u x => (·.mono (List.subset_cons_self v visits)))

/-- The gradients of a value after a pass over the backward set: one for each use by it. -/
theorem Walk.gives_all {visits : List Visit} {g₀ : Graph α} (formed : forward.WellFormed)
    (walk : forward.Walk m [] g₀ visits cs g) (nodes : visits.map Visit.node = forward.backwardIds m)
    {r : Ref} (reaches : Reaches m (forward.backwardIds m) r) :
    List.Forall₂ (Visit.Gives visits) (forward.backwardUses m r) (contributionsTo cs r) := by
  obtain ⟨more, same, gives⟩ :=
    walk.gives formed (fun v hv => nodes ▸ List.mem_map_of_mem hv) reaches
  rw [same, backwardUses, ← nodes, List.flatMap_map]
  exact gives

/-! ## What a rule is handed -/

omit [Scalar α] in
/-- What a node uses stands before it, and so has no gradients from it if it stands at or after it. -/
theorem contributionsTo_visit (ordered : forward.Ordered) {v : Visit} {n : Node α}
    (found : forward.node? v.node = some n) {id : NodeId} (le : v.node.index ≤ id.index) :
    contributionsTo (v.contributions n) (.node id) = [] := by
  refine List.eq_nil_iff_forall_not_mem.mpr fun r hr => ?_
  obtain ⟨q, -, hq⟩ := List.mem_filterMap.mp (mem_contributionsTo.mp hr)
  obtain ⟨r', hi, same⟩ := Option.map_eq_some_iff.mp hq
  cases same
  have lt := ordered v.node.index n found id (mem_nodeInputs.mpr (List.mem_of_getElem? hi))
  exact absurd lt (Nat.not_lt.mpr le)

/-- A node has all its gradients once all nodes after it are visited. -/
theorem Walk.contributionsTo_eq {visits : List Visit} (ordered : forward.Ordered)
    (walk : forward.Walk m cs g visits cs' g') {id : NodeId}
    (le : ∀ v ∈ visits, v.node.index ≤ id.index) :
    contributionsTo cs' (.node id) = contributionsTo cs (.node id) := by
  induction walk with
  | nil => rfl
  | @visit cs cs' g g₁ g₂ g' n v visits found summed computed walk ih =>
    rw [ih fun w hw => le w (List.mem_cons_of_mem _ hw), contributionsTo_append,
      contributionsTo_visit ordered found (le v List.mem_cons_self), List.append_nil]

omit [Scalar α] in
theorem hands_of_totalGradient {n : Node α} {id : NodeId} {r : Ref} (extends' : g.Extends forward)
    (found : forward.node? id = some n)
    (h : (n.totalGradient m id cs).run g = .ok (some r, g')) :
    g'.Hands n.type (contributionsTo cs (.node id)) r := by
  rw [Node.totalGradient] at h
  split at h
  · cases h
  · split at h
    · cases h
    · next r' alone =>
      cases h
      rw [alone]
      exact .one r
    · next empty alone =>
      obtain ⟨t, g₁, asked, adding⟩ := Emit.run_bind_eq_ok h
      obtain ⟨type, rfl⟩ := Emit.run_typeOf asked
      obtain ⟨r', g₂, added, done⟩ := Emit.run_bind_eq_ok adding
      obtain ⟨total, rfl, pushed⟩ := Emit.run_node added
      cases done
      obtain ⟨n', found', typed⟩ := Module.typeOf_node_iff.mp type
      obtain rfl : n' = n := Option.some.inj (found'.symm.trans (extends' _ _ found))
      refine .sum ?_ (push_node pushed) rfl rfl typed.symm
      cases parts : contributionsTo cs (.node id) with
      | nil => exact absurd parts empty
      | cons a rest =>
        cases rest with
        | nil => exact absurd parts (alone a)
        | cons b rest => simp

/-- Only the rule of a loss does without a gradient. -/
theorem not_gradients_none {n : Node α} {id : NodeId} {wants : Nat → Bool}
    {grads : List InputGradient} (other : n.kind.isLoss = false) :
    (n.gradients m id none wants).run g ≠ .ok (grads, g') := by
  intro h
  unfold Node.gradients at h
  dsimp only at h
  split at h
  · next kind _ => simp [kind, NodeKind.isLoss] at other
  · next kind _ => simp [kind, NodeKind.isLoss] at other
  · cases h

/-- The rule of a node that is no loss is handed all gradients of the value. -/
theorem Walk.hands {visits : List Visit} (ordered : forward.Ordered)
    (walk : forward.Walk m cs g visits cs' g') (extends' : g.Extends forward)
    (decreasing : visits.Pairwise fun (v w : Visit) => w.node.index < v.node.index) :
    ∀ v ∈ visits, ∀ n, forward.node? v.node = some n → n.kind.isLoss = false →
      ∃ r, v.handed = some r ∧ g'.Hands n.type (contributionsTo cs' (.node v.node)) r := by
  induction walk with
  | nil => simp
  | @visit cs cs' g g₁ g₂ g' n v visits found summed computed walk ih =>
    obtain ⟨first, decreasing⟩ := List.pairwise_cons.mp decreasing
    have grown : g₁.Extends g := ((Node.uniform_totalGradient _ _ _).pushes m _ _ _ summed).extends'
    have grown' : g₂.Extends g₁ := ((Node.uniform_gradients _ _ _ _).pushes m _ _ _ computed).extends'
    intro u hu n' hn' other
    rcases List.mem_cons.mp hu with rfl | hu
    · obtain rfl : n' = n := Option.some.inj (hn'.symm.trans found)
      cases handed : u.handed with
      | none => exact absurd (handed ▸ computed) (not_gradients_none other)
      | some r =>
        have total := hands_of_totalGradient extends' found (handed ▸ summed)
        refine ⟨r, rfl, ?_⟩
        rw [walk.contributionsTo_eq ordered fun w hw => Nat.le_of_lt (first w hw), contributionsTo_append,
          contributionsTo_visit ordered found (Nat.le_refl _), List.append_nil]
        exact total.mono (walk.pushes.extends'.trans grown')
    · exact ih ((grown'.trans grown).trans extends') decreasing u hu n' hn' other

/-- The rule of a loss is handed nothing. -/
theorem Walk.handed_loss {visits : List Visit} (walk : forward.Walk m cs g visits cs' g') :
    ∀ v ∈ visits, ∀ n, forward.node? v.node = some n → n.kind.isLoss = true →
      v.handed = none := by
  induction walk with
  | nil => simp
  | @visit cs cs' g g₁ g₂ g' n v visits found summed computed walk ih =>
    intro u hu n' hn' loss
    rcases List.mem_cons.mp hu with rfl | hu
    · obtain rfl : n' = n := Option.some.inj (hn'.symm.trans found)
      rw [Node.totalGradient, if_pos loss] at summed
      exact (Prod.mk.inj (Except.ok.inj summed)).1.symm
    · exact ih u hu n' hn' loss

end Graph
end NeuralGraph
