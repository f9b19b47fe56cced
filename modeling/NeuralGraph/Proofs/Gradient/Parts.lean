import NeuralGraph.Proofs.Gradient.Pushes
import NeuralGraph.Proofs.Gradient.Targets
import NeuralGraph.Proofs.Graph.Updating
import NeuralGraph.Proofs.Module.Evolution

/-!
# The parts of a training graph

A training graph is the graph that is differentiated, then nodes of gradients, then one update for each
weight.  `Graph.Trains` says so of every differentiation that succeeds, whatever the types are.  The
weights are different trained variables of the graph, and their velocities are different variables too.
-/

namespace NeuralGraph
set_option autoImplicit false
variable {α : Type}

/-! ## Updates -/

/-- The update of a weight by its gradient; the velocity is a variable called after the weight. -/
def WeightGradient.UpdatedBy (rule : UpdateRule α) (m : Module α) (w : WeightGradient) (n : Node α) :
    Prop :=
  ∃ velocity v u, m.var? w.weight = some v ∧ m.var? velocity = some u ∧
    u.name = v.name ++ ".velocity" ∧ n.IsUpdate rule w.weight w.total velocity

section
variable [Scalar α] {m m' : Module α} {name : String} {type : TensorType α}
  {visibility : Visibility} {training : Training α} {id : VarId}

theorem Module.findOrDeclare_name
    (h : m.findOrDeclare name type visibility training = .ok (m', id)) :
    ∃ u, m'.var? id = some u ∧ u.name = name := by
  rw [findOrDeclare] at h
  cases found : m.find? name with
  | some i =>
    simp only [found] at h
    split at h
    · cases h
      exact find?_eq_some found
    · cases h
  | none =>
    have declared : m.declare name type visibility training = .ok (m', id) := by
      simpa [found] using h
    have known := declare_var? declared id
    rw [if_pos rfl] at known
    exact ⟨_, known, rfl⟩

/-- One update for each sum, in order. -/
theorem Build.withUpdates_eq_ok {rule : UpdateRule α} {g train : Graph α}
    {sums : List WeightGradient} (sound : m.Sound)
    (h : Yields (withUpdates rule g sums) m train m') :
    m'.Sound ∧ m'.Covers m ∧ ∃ updates, train.nodes.toList = g.nodes.toList ++ updates ∧
      List.Forall₂ (WeightGradient.UpdatedBy rule m') sums updates := by
  induction sums generalizing m g with
  | nil =>
    obtain ⟨rfl, rfl⟩ := yields_pure.mp h
    exact ⟨sound, .refl m, [], (List.append_nil _).symm, .nil⟩
  | cons w sums ih =>
    obtain ⟨v, m₁, asked, declaring⟩ := yields_bind.mp h
    obtain ⟨hv, rfl⟩ := yields_ask.mp asked
    obtain ⟨velocity, m₂, found, adding⟩ := yields_bind.mp declaring
    obtain ⟨⟨g₁, id⟩, m₃, pushed, rest⟩ := yields_bind.mp adding
    obtain ⟨hp, rfl⟩ := yields_ask.mp pushed
    have declared := yields_attempt.mp found
    obtain ⟨sound', covers', updates, nodes, all⟩ := ih (sound.findOrDeclare declared) rest
    have covers := covers'.trans (Module.findOrDeclare_evolves declared).covers
    obtain ⟨v', hv', alike⟩ := covers _ v (Module.var_eq_ok_iff.mp hv)
    obtain ⟨u, hu, called⟩ := Module.findOrDeclare_name declared
    obtain ⟨u', hu', alike'⟩ := covers' _ u hu
    obtain ⟨rfl, -⟩ := Graph.push_eq hp
    rw [Array.toList_push, List.append_assoc] at nodes
    exact ⟨sound', covers, _, nodes,
      .cons ⟨velocity, v', u', hv', hu', by rw [alike'.name, called, alike.name], rfl, rfl⟩ all⟩

end

/-! ## All parts -/

variable [Scalar α]

/-- How a training graph is made of a graph `g`: first `g`, then the nodes of gradients, which together
are `s`, then the updates. -/
structure Graph.Trains (g : Graph α) (rule : UpdateRule α) (m m' : Module α) (s h : Graph α)
    (sums : List WeightGradient) (updates : List (Node α)) : Prop where
  gradients : Pushes NodeKind.IsGradient { g with name := g.name ++ ".train" } s
  nodes : h.nodes.toList = s.nodes.toList ++ updates
  updates : List.Forall₂ (WeightGradient.UpdatedBy rule m') sums updates
  sound : m'.Sound
  distinct : (sums.map WeightGradient.weight).Nodup
  trained : ∀ w ∈ sums, m.isTrained w.weight = true
  referenced : ∀ w ∈ sums, g.References w.weight
  totals : ∀ w ∈ sums, ∃ n, s.node? w.total = some n ∧ n.kind = .gradientSum

theorem Build.trainingGraph_trains {f : GraphId} {rule : UpdateRule α} {m m' : Module α}
    {g h : Graph α} (sound : m.Sound) (formed : g.WellFormed) (found : m.graph? f = some g)
    (trained : Yields (trainingGraph f rule) m h m') :
    ∃ s sums updates, g.withGradients m = .ok (s, sums) ∧ g.Trains rule m m' s h sums updates := by
  obtain ⟨g', s, sums, found', gradients, updating⟩ := trainingGraph_parts trained
  obtain rfl := Option.some.inj (found.symm.trans found')
  obtain ⟨cs, passes⟩ := Graph.withGradients_eq_ok gradients
  have targets := passes.targets formed
  obtain ⟨order, g₁, -, -, summed⟩ := passes
  obtain ⟨-, totals, -⟩ := weightSums_eq_ok summed
  obtain ⟨sound', -, updates, nodes, all⟩ := withUpdates_eq_ok sound updating
  have target : ∀ w ∈ sums, ∃ c ∈ cs, c.target = .var w.weight := by
    intro w hw
    obtain ⟨v, n, total⟩ := totals w hw
    exact contributionsTo_ne_nil.mp total.reached
  refine ⟨s, sums, updates, gradients, Graph.withGradients_pushes gradients, nodes, all, sound',
    weightSums_nodup summed, fun w hw => ?_, fun w hw => ?_, fun w hw => ?_⟩
  · obtain ⟨c, hc, same⟩ := target w hw
    have reaches := (targets c hc).1
    rw [same] at reaches
    exact reaches
  · obtain ⟨c, hc, same⟩ := target w hw
    obtain ⟨n, hn, uses⟩ := (targets c hc).2
    exact ⟨n, hn, same ▸ uses⟩
  · obtain ⟨v, n, total⟩ := totals w hw
    exact ⟨n, total.total, total.kind⟩

/-! ## What the parts do with variables -/

namespace Graph.Trains
variable {rule : UpdateRule α} {m m' : Module α} {g s h : Graph α} {sums : List WeightGradient}
  {updates : List (Node α)} {n : Node α}

theorem updatedBy (trains : g.Trains rule m m' s h sums updates) (hn : n ∈ updates) :
    ∃ w ∈ sums, w.UpdatedBy rule m' n := by
  obtain ⟨length, related⟩ := List.forall₂_iff_get.mp trains.updates
  obtain ⟨i, hi, rfl⟩ := List.getElem_of_mem hn
  have bound : i < sums.length := by omega
  exact ⟨sums[i], List.getElem_mem bound, related i bound hi⟩

theorem allUpdates (trains : g.Trains rule m m' s h sums updates) : AllUpdates updates := by
  intro n hn
  obtain ⟨w, -, velocity, _, _, -, -, -, update⟩ := trains.updatedBy hn
  exact ⟨rule, w.weight, w.total, velocity, update⟩

theorem updates_of_mem (trains : g.Trains rule m m' s h sums updates) (hn : n ∈ updates)
    {rule' : UpdateRule α} {w u : VarId} {d : NodeId} (update : n.IsUpdate rule' w d u) :
    h.Updates w d u := by
  refine ⟨n, ?_, rule', update⟩
  rw [← Array.mem_toList_iff, trains.nodes]
  exact List.mem_append_right _ hn

theorem mem_nodes (trains : g.Trains rule m m' s h sums updates) :
    n ∈ h.nodes ↔ n ∈ s.nodes ∨ n ∈ updates := by
  rw [← Array.mem_toList_iff, trains.nodes, List.mem_append, Array.mem_toList_iff]

theorem extends' (trains : g.Trains rule m m' s h sums updates) : h.Extends s := by
  intro i n hn
  rw [← Array.getElem?_toList] at hn ⊢
  rw [trains.nodes, List.getElem?_append_left (List.getElem?_eq_some_iff.mp hn).1, hn]

/-- Before the updates there are nodes that have values, and what the graph saves. -/
theorem plain (trains : g.Trains rule m m' s h sums updates)
    (layers : ∀ n ∈ g.nodes, n.kind.isLayer = true) (hn : n ∈ s.nodes) :
    n.kind.hasValue = true ∨ n ∈ g.nodes ∧ n.kind = .save := by
  rcases trains.gradients.mem hn with old | gradient
  · have layer := layers n old
    cases kind : n.kind with
    | save => exact .inr ⟨old, rfl⟩
    | _ => simp_all [NodeKind.isLayer, NodeKind.hasValue]
  · exact .inl gradient.hasValue

theorem saves_of_storesInto (trains : g.Trains rule m m' s h sums updates)
    (layers : ∀ n ∈ g.nodes, n.kind.isLayer = true) (hn : n ∈ s.nodes) {v : VarId}
    (hv : v ∈ n.storesInto) : g.Saves v := by
  rcases trains.plain layers hn with valued | ⟨old, kind⟩
  · rw [Node.storesInto_of_hasValue valued] at hv
    cases hv
  · unfold Node.storesInto at hv
    split at hv
    · next r w _ inputs =>
      obtain rfl := List.mem_singleton.mp hv
      exact ⟨n, old, kind, r, inputs⟩
    · next other _ => simp [kind] at other
    · cases hv

/-- The updates of a training graph are those of its weights. -/
theorem update_mem (trains : g.Trains rule m m' s h sums updates)
    (layers : ∀ n ∈ g.nodes, n.kind.isLayer = true) {rule' : UpdateRule α} {w u : VarId} {d : NodeId}
    (hn : n ∈ h.nodes) (update : n.IsUpdate rule' w d u) :
    n ∈ updates ∧ rule' = rule ∧ ∃ sum ∈ sums, sum.weight = w ∧ sum.total = d := by
  have listed : n ∈ updates := by
    rcases trains.mem_nodes.mp hn with early | listed
    · rcases trains.plain layers early with valued | ⟨-, kind⟩
      · simp [update.kind, NodeKind.hasValue] at valued
      · simp [update.kind] at kind
    · exact listed
  obtain ⟨sum, hsum, _, _, _, -, -, -, update'⟩ := trains.updatedBy listed
  have kinds := update.kind.symm.trans update'.kind
  have inputs := update.inputs.symm.trans update'.inputs
  simp only [NodeKind.update.injEq, List.cons.injEq, Ref.var.injEq, Ref.node.injEq] at kinds inputs
  exact ⟨listed, kinds, sum, hsum, inputs.1.symm, inputs.2.1.symm⟩

theorem sum_mem (trains : g.Trains rule m m' s h sums updates)
    (layers : ∀ n ∈ g.nodes, n.kind.isLayer = true) {w u : VarId} {d : NodeId}
    (update : h.Updates w d u) : ⟨w, d⟩ ∈ sums := by
  obtain ⟨n, hn, rule', is⟩ := update
  obtain ⟨-, -, sum, hsum, rfl, rfl⟩ := trains.update_mem layers hn is
  exact hsum

theorem isTrained (trains : g.Trains rule m m' s h sums updates)
    (layers : ∀ n ∈ g.nodes, n.kind.isLayer = true) {w u : VarId} {d : NodeId}
    (update : h.Updates w d u) : m.isTrained w = true :=
  trains.trained ⟨w, d⟩ (trains.sum_mem layers update)

/-- No two updates store into the same variable, if the graph does not use a velocity. -/
theorem separate (trains : g.Trains rule m m' s h sums updates)
    (apart : ∀ v, g.References v → ∀ w d, ¬h.Updates w d v) :
    updates.Pairwise fun (n n' : Node α) => ∀ v ∈ n.storesInto, v ∉ n'.storesInto := by
  obtain ⟨length, related⟩ := List.forall₂_iff_get.mp trains.updates
  have weights := List.pairwise_iff_getElem.mp (List.pairwise_map.mp trains.distinct)
  refine List.pairwise_iff_getElem.mpr fun i j hi hj lt => ?_
  have bound : ∀ k, k < updates.length → k < sums.length := fun k hk => by omega
  obtain ⟨velocity, v, u, hv, hu, name, update⟩ := related i (bound i hi) hi
  obtain ⟨velocity', v', u', hv', hu', name', update'⟩ := related j (bound j hj) hj
  simp only [List.get_eq_getElem] at hv hv' update update'
  have used : ∀ k (hk : k < sums.length) w d, ¬h.Updates w d sums[k].weight := fun k hk =>
    apart _ (trains.referenced _ (List.getElem_mem hk))
  have other := weights i j (bound i hi) (bound j hj) lt
  have different : velocity ≠ velocity' := by
    rintro rfl
    obtain rfl := Option.some.inj (hu.symm.trans hu')
    have same : v.name = v'.name := String.append_left_inj _ |>.mp (name.symm.trans name')
    exact other (trains.sound.distinct _ _ v v' hv hv' same)
  rw [update.storesInto, update'.storesInto]
  intro x hx hx'
  simp only [List.mem_cons, List.not_mem_nil, or_false] at hx hx'
  rcases hx with rfl | rfl
  · rcases hx' with same | same
    · exact other same
    · exact used i (bound i hi) _ _ (same ▸ trains.updates_of_mem (List.getElem_mem hj) update')
  · rcases hx' with same | same
    · exact used j (bound j hj) _ _ (same ▸ trains.updates_of_mem (List.getElem_mem hi) update)
    · exact different same

end Graph.Trains
end NeuralGraph
