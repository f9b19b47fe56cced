import NeuralGraph.Proofs.Integers
import NeuralGraph.Proofs.Gradient.Conservation
import NeuralGraph.Proofs.Gradient.Parts

/-!
# The layout of a training graph

A training graph is the graph that is differentiated, then nodes of gradients, then one sum for each
trained variable that a saved loss reaches, in the order of the variables, and then as many updates in
the same order.  A sum has one input for each use of its variable by the backward set.
-/

namespace NeuralGraph
set_option autoImplicit false
variable {α : Type}

/-- Uses by later nodes come first, and those by one node in the order of their positions. -/
def Use.Before (a b : Use) : Prop :=
  b.consumer.index < a.consumer.index ∨ a.consumer = b.consumer ∧ a.position < b.position

namespace Graph
variable {g : Graph α} {m : Module α}

theorem mem_backwardUses {r : Ref} {u : Use} :
    u ∈ g.backwardUses m r ↔ u.consumer ∈ g.backwardIds m ∧ u ∈ g.usesOf u.consumer r := by
  rw [backwardUses, List.mem_flatMap]
  constructor
  · rintro ⟨id, member, use⟩
    obtain rfl := consumer_of_mem_usesOf use
    exact ⟨member, use⟩
  · rintro ⟨member, use⟩
    exact ⟨_, member, use⟩

theorem backwardUses_before (g : Graph α) (m : Module α) (r : Ref) :
    (g.backwardUses m r).Pairwise Use.Before := by
  refine List.pairwise_flatMap.mpr ⟨fun id _ => ?_, ?_⟩
  · refine (usesOf_increasing id r).imp_of_mem fun ha hb lt => .inr ⟨?_, lt⟩
    rw [consumer_of_mem_usesOf ha, consumer_of_mem_usesOf hb]
  · refine (g.backwardIds_decreasing m).imp fun lt a ha b hb => .inl ?_
    rw [consumer_of_mem_usesOf ha, consumer_of_mem_usesOf hb]
    exact lt

end Graph

/-! ## Sums -/

/-- The node sums the gradients of a variable, one for each use of it by the backward set, and has the
type of the variable. -/
structure Node.SumsUses (forward : Graph α) (m : Module α) (visits : List Visit) (w : VarId)
    (n : Node α) : Prop where
  kind : n.kind = .gradientSum
  type : ∃ v, m.var? w = some v ∧ n.type = some v.type
  inputs : ∃ uses, uses.Pairwise Use.Before ∧
    (∀ u, u ∈ uses ↔ u.consumer ∈ forward.backwardIds m ∧ u ∈ forward.usesOf u.consumer (.var w)) ∧
    List.Forall₂ (Visit.Gives visits) uses n.inputs

variable {m m' : Module α} {forward g g' : Graph α} {cs : List Contribution}

/-- The sums stand at the end of the graph, in the order of the variables. -/
theorem weightSums_nodes {ids : List VarId} {sums : List WeightGradient}
    (h : (ids.filterMapM (weightSum m cs)).run g = .ok (sums, g')) :
    ∃ added, g'.nodes.toList = g.nodes.toList ++ added ∧
      List.Forall₂ (fun (w : WeightGradient) (n : Node α) => n.kind = .gradientSum ∧
        (∃ v, m.var? w.weight = some v ∧ n.type = some v.type) ∧
        contributionsTo cs (.var w.weight) ≠ [] ∧
        n.inputs = contributionsTo cs (.var w.weight)) sums added ∧
      sums.map WeightGradient.total =
        (List.range' g.size sums.length).map NodeId.mk := by
  induction ids generalizing g sums with
  | nil =>
    cases h
    exact ⟨[], (List.append_nil _).symm, .nil, rfl⟩
  | cons id ids ih =>
    rw [List.filterMapM_cons] at h
    obtain ⟨sum, g₁, first, rest⟩ := Emit.run_bind_eq_ok h
    rw [weightSum] at first
    split at first
    · cases first
      exact ih rest
    · next reached =>
      obtain ⟨v, g₂, asked, pushing⟩ := Emit.run_bind_eq_ok first
      obtain ⟨hv, rfl⟩ := Emit.run_lift asked
      obtain ⟨total, rfl, pushed⟩ := Emit.run_push (k := fun total =>
        some (⟨id, total⟩ : WeightGradient)) pushing
      obtain ⟨more, g₃, others, done⟩ := Emit.run_bind_eq_ok rest
      cases done
      obtain ⟨rfl, rfl⟩ := Graph.push_eq pushed
      obtain ⟨added, nodes, all, totals⟩ := ih others
      rw [Array.toList_push, List.append_assoc] at nodes
      refine ⟨_, nodes, .cons ⟨rfl, ⟨v, Module.var_eq_ok_iff.mp hv, rfl⟩, reached, rfl⟩ all, ?_⟩
      rw [List.map_cons, totals, List.length_cons, List.range'_succ, List.map_cons]
      simp [Graph.size]

/-! ## Velocities -/

section
variable [Scalar α] {name : String} {type : TensorType α} {visibility : Visibility}
  {training : Training α} {id : VarId}

/-- The variables of the module are those that it had and then `more`. -/
def Module.Gains (m m' : Module α) (more : List (Variable α)) : Prop :=
  m'.vars.toList = m.vars.toList ++ more

theorem Module.findOrDeclare_gains
    (h : m.findOrDeclare name type visibility training = .ok (m', id)) :
    ∃ more, m.Gains m' more ∧ ∀ u ∈ more, u.name = name ∧ u.type = type := by
  rcases findOrDeclare_eq_ok h with ⟨rfl, -⟩ | declared
  · exact ⟨[], (List.append_nil _).symm, by simp⟩
  · obtain ⟨-, -, rfl⟩ := declare_eq_ok declared
    exact ⟨[_], Array.toList_push, by simp⟩

omit [Scalar α] in
theorem Module.Gains.var? {more : List (Variable α)} (gains : m.Gains m' more) {id : VarId}
    {v : Variable α} (hv : m.var? id = some v) : m'.var? id = some v := by
  rw [Module.var?, ← Array.getElem?_toList] at hv ⊢
  rw [gains, List.getElem?_append_left (List.getElem?_eq_some_iff.mp hv).1, hv]

omit [Scalar α] in
theorem Module.Gains.refl (m : Module α) : m.Gains m [] := (List.append_nil _).symm

omit [Scalar α] in
theorem Module.Gains.trans {m'' : Module α} {more more' : List (Variable α)} (h : m.Gains m' more)
    (h' : m'.Gains m'' more') : m.Gains m'' (more ++ more') := by
  rw [Module.Gains, h', h, List.append_assoc]

omit [Scalar α] in
theorem Module.Gains.old_or_new {more : List (Variable α)} (gains : m.Gains m' more) {id : VarId}
    {u : Variable α} (hu : m'.var? id = some u) : m.var? id = some u ∨ u ∈ more := by
  rw [Module.var?, ← Array.getElem?_toList, gains] at hu
  by_cases lt : id.index < m.vars.toList.length
  · rw [List.getElem?_append_left lt, Array.getElem?_toList] at hu
    exact .inl hu
  · rw [List.getElem?_append_right (Nat.not_lt.mp lt)] at hu
    exact .inr (List.mem_of_getElem? hu)

/-- Every variable that is added is the velocity of a weight. -/
theorem Build.withUpdates_gains {rule : UpdateRule α} {g train : Graph α}
    {sums : List WeightGradient} (known : ∀ w ∈ sums, ∃ v, m.var? w.weight = some v)
    (h : Yields (withUpdates rule g sums) m train m') :
    ∃ more, m.Gains m' more ∧ ∀ u ∈ more, ∃ w ∈ sums, ∃ v, m.var? w.weight = some v ∧
      u.name = v.name ++ ".velocity" ∧ u.type = v.type := by
  induction sums generalizing m g with
  | nil =>
    obtain ⟨rfl, rfl⟩ := yields_pure.mp h
    exact ⟨[], .refl m, by simp⟩
  | cons w sums ih =>
    obtain ⟨v, m₁, asked, declaring⟩ := yields_bind.mp h
    obtain ⟨hv, rfl⟩ := yields_ask.mp asked
    obtain ⟨velocity, m₂, found, adding⟩ := yields_bind.mp declaring
    obtain ⟨⟨g₁, id⟩, m₃, pushed, rest⟩ := yields_bind.mp adding
    obtain ⟨hp, rfl⟩ := yields_ask.mp pushed
    obtain ⟨first, gains, own⟩ := Module.findOrDeclare_gains (yields_attempt.mp found)
    have known' := fun w hw => known w (List.mem_cons_of_mem _ hw)
    obtain ⟨more, gains', others⟩ := ih (fun w hw => by
      obtain ⟨u, hu⟩ := known' w hw
      exact ⟨u, gains.var? hu⟩) rest
    refine ⟨first ++ more, gains.trans gains', fun u hu => ?_⟩
    rcases List.mem_append.mp hu with hu | hu
    · exact ⟨w, List.mem_cons_self, v, Module.var_eq_ok_iff.mp hv, own u hu⟩
    · obtain ⟨w', hw', v', hv', same⟩ := others u hu
      obtain ⟨v'', hv''⟩ := known' w' hw'
      obtain rfl := Option.some.inj ((gains.var? hv'').symm.trans hv')
      exact ⟨w', List.mem_cons_of_mem _ hw', v'', hv'', same⟩

end

/-! ## The whole graph -/

variable [Scalar α] {train : Graph α}

/-- How the training graph of a graph is laid out, and what the module gains. -/
structure Graph.LaidOut (forward : Graph α) (rule : UpdateRule α) (m m' : Module α) (train : Graph α)
    (visits : List Visit) (reached : List VarId) (gradients sums updates : List (Node α)) :
    Prop where
  nodes : train.nodes.toList = forward.nodes.toList ++ gradients ++ sums ++ updates
  ascending : reached.Pairwise fun (v w : VarId) => v.index < w.index
  mem_reached : ∀ w, w ∈ reached ↔ forward.ReachedBy m w
  backward : ∀ id, id ∈ forward.backwardIds m ↔
    (∃ loss ∈ forward.savedLosses, id = loss ∨ forward.FlowsInto (.node id) loss) ∧
    ∃ w, m.isTrained w = true ∧ forward.FlowsInto (.var w) id
  visited : visits.map Visit.node = forward.backwardIds m ∧ ∀ v ∈ visits, ∃ n, forward.Ran m train v n
  plain : ∀ n ∈ gradients, ∀ rule', n.kind ≠ .update rule'
  sums : List.Forall₂ (fun (w : VarId) (n : Node α) => n.SumsUses forward m visits w) reached sums
  /-- Each update takes the variable, its sum and its velocity. -/
  updates : List.Forall₂ (WeightGradient.UpdatedBy rule m')
    (reached.mapIdx fun (i : Nat) (w : VarId) => ⟨w, ⟨forward.size + gradients.length + i⟩⟩) updates
  /-- No variable is added but velocities of variables that are reached. -/
  velocities : ∃ more, m.Gains m' more ∧
    (∀ u ∈ more, ∃ w ∈ reached, ∃ v, m.var? w = some v ∧ u.name = v.name ++ ".velocity" ∧
      u.type = v.type) ∧
    ∀ w v, m.var? w = some v → w ∉ reached → ∀ u ∈ more, u.name ≠ v.name ++ ".velocity"

/-- The variables with gradients are those that are reached. -/
theorem Graph.Walk.reached_iff {visits : List Visit} {g₀ : Graph α} (formed : forward.WellFormed)
    (walk : forward.Walk m [] g₀ visits cs g) (nodes : visits.map Visit.node = forward.backwardIds m)
    {w : VarId} (trained : m.isTrained w = true) :
    contributionsTo cs (.var w) ≠ [] ↔ forward.ReachedBy m w := by
  have counted := (walk.gives_all (r := .var w) formed nodes trained).length_eq
  rw [reachedBy_iff formed.ordered, ← List.length_pos_iff, ← counted, List.length_pos_iff_exists_mem]
  constructor
  · rintro ⟨u, hu⟩
    obtain ⟨member, use⟩ := mem_backwardUses.mp hu
    exact ⟨trained, u.consumer, member, mem_flows_of_mem_usesOf use⟩
  · rintro ⟨-, id, member, flow⟩
    obtain ⟨u, use⟩ := mem_flows_iff_uses.mp flow
    obtain rfl := consumer_of_mem_usesOf use
    exact ⟨u, mem_backwardUses.mpr ⟨member, use⟩⟩

/-- The variables that get a sum are those that are reached. -/
theorem Graph.Walk.mem_summed {visits : List Visit} {g₀ g' : Graph α} {sums : List WeightGradient}
    (formed : forward.WellFormed) (walk : forward.Walk m [] g₀ visits cs g)
    (nodes : visits.map Visit.node = forward.backwardIds m)
    (trained : ∀ w, contributionsTo cs (.var w) ≠ [] → m.isTrained w = true)
    (summed : (weightSums m cs).run g = .ok (sums, g')) {w : VarId} :
    w ∈ sums.map WeightGradient.weight ↔ forward.ReachedBy m w := by
  rw [mem_weightSums summed]
  constructor
  · rintro ⟨-, has⟩
    exact (walk.reached_iff formed nodes (trained w has)).mp has
  · intro reached
    exact ⟨Module.lt_size_of_isTrained reached.1,
      (walk.reached_iff formed nodes reached.1).mpr reached⟩

theorem weightGradients_eq {sums : List WeightGradient} {reached : List VarId} {start : Nat}
    (weights : sums.map WeightGradient.weight = reached)
    (totals : sums.map WeightGradient.total = (List.range' start sums.length).map NodeId.mk) :
    sums = reached.mapIdx fun (i : Nat) (w : VarId) => ⟨w, ⟨start + i⟩⟩ := by
  subst weights
  refine List.ext_getElem (by simp) fun i hi hi' => ?_
  have total := List.getElem_of_eq totals (i := i) (by simpa using hi)
  rw [List.getElem_mapIdx]
  simp only [List.getElem_map, List.getElem_range', Nat.one_mul] at total ⊢
  rw [← total]

theorem Build.trainingGraph_laidOut {f : GraphId} {rule : UpdateRule α} (sound : m.Sound)
    (made : forward.Made) (found : m.graph? f = some forward)
    (h : Yields (trainingGraph f rule) m train m') :
    ∃ visits reached gradients sums updates,
      forward.LaidOut rule m m' train visits reached gradients sums updates := by
  obtain ⟨forward', cs, sums, g, found', passes, updated⟩ := trainingGraph_eq_ok h
  obtain rfl : forward = forward' := Option.some.inj (found.symm.trans found')
  have formed := made.formed
  have targets := passes.targets formed
  obtain ⟨visits, g₁, nodes, walk, summed⟩ := passes.walk formed.ordered
  have backward : ∀ v ∈ visits, v.node ∈ forward.backwardIds m :=
    fun v hv => nodes ▸ List.mem_map_of_mem hv
  have grown := withUpdates_pushes updated
  obtain ⟨extends', totals, -⟩ := weightSums_eq_ok summed
  obtain ⟨added, sumNodes, sumsOf, places⟩ := weightSums_nodes (weightSums_eq m cs ▸ summed)
  obtain ⟨gradients, gradientNodes, kinds⟩ := walk.pushes.nodes
  obtain ⟨-, -, updates, updateNodes, all⟩ := withUpdates_eq_ok sound updated
  obtain ⟨more, gains, velocities⟩ := withUpdates_gains (fun w hw => by
    obtain ⟨v, n, total⟩ := totals w hw
    exact ⟨v, total.weight⟩) updated
  have trained : ∀ w, contributionsTo cs (.var w) ≠ [] → m.isTrained w = true := by
    intro w has
    obtain ⟨c, hc, target⟩ := contributionsTo_ne_nil.mp has
    have reaches := (targets c hc).1
    rwa [target] at reaches
  refine ⟨visits, sums.map WeightGradient.weight, gradients, added, updates, ?_,
    weightSums_ascending summed, fun w => walk.mem_summed formed nodes trained summed,
    fun id => Graph.mem_backwardIds_iff_flowsInto formed.ordered, ⟨nodes, ?_⟩, ?_, ?_, ?_, more, gains,
    ?_, ?_⟩
  · rw [updateNodes, sumNodes, gradientNodes]
  · intro v hv
    obtain ⟨n, ran⟩ := walk.ran formed backward v hv
    exact ⟨n, ran.mono (grown.extends'.trans extends')⟩
  · rintro n hn rule' update
    have gradient := kinds n hn
    rw [update] at gradient
    rcases gradient with rule | sum
    · cases rule
    · cases sum
  · refine List.forall₂_map_left_iff.mpr (sumsOf.imp fun w n ⟨kind, type, has, inputs⟩ => ?_)
    exact ⟨kind, type, _, Graph.backwardUses_before forward m (.var w.weight),
      fun u => Graph.mem_backwardUses, inputs ▸ walk.gives_all formed nodes (trained _ has)⟩
  · have size : g₁.size = forward.size + gradients.length := by
      rw [Graph.size, ← Array.length_toList, gradientNodes, List.length_append, Array.length_toList]
      rfl
    rw [← weightGradients_eq rfl (size ▸ places)]
    exact all
  · intro u hu
    obtain ⟨w, hw, rest⟩ := velocities u hu
    exact ⟨w.weight, List.mem_map_of_mem hw, rest⟩
  · intro w v hv other u hu called
    obtain ⟨w', hw', v', hv', name, -⟩ := velocities u hu
    have same : v'.name = v.name := String.append_left_inj _ |>.mp (name.symm.trans called)
    exact other (sound.distinct _ _ v' v hv' hv same ▸ List.mem_map_of_mem hw')

theorem residualModule_sound : residualModule.Sound :=
  .of_list (by decide +kernel) (by decide +kernel)

theorem residualModule_laidOut : residualModule.Sound ∧ residualGraph.Made ∧
    residualModule.graph? ⟨0⟩ = some residualGraph ∧ ∃ train m' visits reached gradients sums updates,
      Yields (Build.trainingGraph ⟨0⟩ ⟨1, 0, 0⟩) residualModule train m' ∧
        residualGraph.LaidOut ⟨1, 0, 0⟩ residualModule m' train visits reached gradients sums
          updates := by
  obtain ⟨train, m', trains⟩ := residualModule_trains
  obtain ⟨visits, reached, gradients, sums, updates, laidOut⟩ :=
    Build.trainingGraph_laidOut residualModule_sound residualGraph_made rfl trains
  exact ⟨residualModule_sound, residualGraph_made, rfl, train, m', visits, reached, gradients, sums,
    updates, trains, laidOut⟩

/-- The sum for the weight has an input for each of its uses, first that by the later node. -/
example : residualGraph.backwardUses residualModule (.var ⟨1⟩) = [⟨⟨1⟩, 1⟩, ⟨⟨0⟩, 1⟩] := by
  decide +kernel

end NeuralGraph
