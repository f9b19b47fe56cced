import NeuralGraph.Proofs.Gradient.Pass
import NeuralGraph.Proofs.Yields

/-!
# The parts of a training graph

A training graph is the graph itself, the gradient nodes of the backward pass, one sum for each
variable that is reached, and one update for each of these.  `Build.trainingGraph_eq_ok` takes a
successful construction apart; the lemmas before it say what the sums and the updates add.
-/

namespace NeuralGraph
set_option autoImplicit false
variable {α : Type} [Scalar α]

/-- The node that sums the gradients of a variable, which has the type of the variable. -/
structure WeightGradient.Totals (m : Module α) (g : Graph α) (cs : List Contribution)
    (w : WeightGradient) (v : Variable α) (n : Node α) : Prop where
  weight : m.var? w.weight = some v
  total : g.node? w.total = some n
  kind : n.kind = .gradientSum
  inputs : n.inputs = contributionsTo cs (.var w.weight)
  type : n.type = some v.type
  reached : contributionsTo cs (.var w.weight) ≠ []

variable {m m' : Module α} {forward g g' : Graph α} {cs : List Contribution}

omit [Scalar α] in
theorem WeightGradient.Totals.mono {w : WeightGradient} {v : Variable α} {n : Node α}
    (h : w.Totals m g cs v n) (covers : m'.Covers m) (extends' : g'.Extends g) :
    ∃ v', w.Totals m' g' cs v' n ∧ v'.Alike v := by
  obtain ⟨v', hv', alike⟩ := covers _ _ h.weight
  exact ⟨v', ⟨hv', extends' _ n h.total, h.kind, h.inputs, by rw [h.type, alike.type], h.reached⟩,
    alike⟩

/-! ## Sums -/

/-- The sum for one variable, if there are gradients for it. -/
def weightSum (m : Module α) (cs : List Contribution) (id : VarId) :
    Emit α (Option WeightGradient) :=
  match contributionsTo cs (.var id) with
  | [] => return none
  | parts => do
    let v ← m.var id
    let g ← get
    let (g', total) ← g.push (v.name ++ ".grad") .gradientSum parts (some v.type)
    set g'
    return some ⟨id, total⟩

omit [Scalar α] in
theorem weightSums_eq (m : Module α) (cs : List Contribution) :
    weightSums m cs = ((List.range m.vars.size).map VarId.mk).filterMapM (weightSum m cs) := rfl

/-- The sum for the variable was added, under a name made of that of the variable, and has stayed. -/
structure WeightGradient.Pushed (m : Module α) (cs : List Contribution) (g : Graph α)
    (w : WeightGradient) : Prop where
  reached : contributionsTo cs (.var w.weight) ≠ []
  added : ∃ (v : Variable α) (g₁ g₂ : Graph α), m.var? w.weight = some v ∧
    g₁.push (v.name ++ ".grad") .gradientSum (contributionsTo cs (.var w.weight)) (some v.type) =
      .ok (g₂, w.total) ∧ g.Extends g₂

omit [Scalar α] in
theorem WeightGradient.Pushed.mono {w : WeightGradient} (h : w.Pushed m cs g)
    (extends' : g'.Extends g) : w.Pushed m cs g' := by
  obtain ⟨v, g₁, g₂, hv, pushed, later⟩ := h.added
  exact ⟨h.reached, v, g₁, g₂, hv, pushed, extends'.trans later⟩

omit [Scalar α] in
theorem WeightGradient.Pushed.totals {w : WeightGradient} (h : w.Pushed m cs g) :
    ∃ v n, w.Totals m g cs v n := by
  obtain ⟨v, g₁, g₂, hv, pushed, later⟩ := h.added
  exact ⟨v, _, hv, later _ _ (Graph.push_node pushed), rfl, rfl, rfl, h.reached⟩

omit [Scalar α] in
/-- The sum for one variable: none if there are no gradients for it. -/
theorem weightSum_eq_ok {id : VarId} {sum : Option WeightGradient}
    (h : (weightSum m cs id).run g = .ok (sum, g')) : g'.Extends g ∧
      match sum with
      | none => contributionsTo cs (.var id) = []
      | some w => w.weight = id ∧ w.Pushed m cs g' := by
  rw [weightSum] at h
  split at h
  · next unreached =>
    cases h
    exact ⟨.refl _, unreached⟩
  · next reached =>
    obtain ⟨v, g₁, asked, rest⟩ := Emit.run_bind_eq_ok h
    obtain ⟨hv, rfl⟩ := Emit.run_lift asked
    obtain ⟨total, rfl, hp⟩ := Emit.run_push (k := fun total =>
      some (⟨id, total⟩ : WeightGradient)) rest
    exact ⟨Graph.push_extends hp, rfl, reached, v, _, _, Module.var_eq_ok_iff.mp hv, hp, .refl _⟩

omit [Scalar α] in
theorem weightSums_from_eq_ok {ids : List VarId} {sums : List WeightGradient}
    (h : (ids.filterMapM (weightSum m cs)).run g = .ok (sums, g')) : g'.Extends g ∧
      (∀ w ∈ sums, w.Pushed m cs g') ∧
      sums.map WeightGradient.weight =
        ids.filter fun (id : VarId) => !(contributionsTo cs (.var id)).isEmpty := by
  induction ids generalizing g sums with
  | nil =>
    cases h
    exact ⟨.refl _, by simp, rfl⟩
  | cons id ids ih =>
    rw [List.filterMapM_cons] at h
    obtain ⟨sum, g₁, first, rest⟩ := Emit.run_bind_eq_ok h
    obtain ⟨extends₁, known⟩ := weightSum_eq_ok first
    cases sum with
    | none =>
      obtain ⟨extends₂, pushed, weights⟩ := ih rest
      refine ⟨extends₂.trans extends₁, pushed, ?_⟩
      rw [weights, List.filter_cons_of_neg (by simp [known])]
    | some w =>
      obtain ⟨more, g₂, others, done⟩ := Emit.run_bind_eq_ok rest
      cases done
      obtain ⟨rfl, own⟩ := known
      obtain ⟨extends₂, pushed, weights⟩ := ih others
      refine ⟨extends₂.trans extends₁, fun u hu => ?_, ?_⟩
      · rcases List.mem_cons.mp hu with rfl | hu
        · exact own.mono extends₂
        · exact pushed u hu
      · rw [List.map_cons, weights, List.filter_cons_of_pos]
        simpa using own.reached

omit [Scalar α] in
/-- Every variable that gradients were computed for has its sum, in the order of the variables. -/
theorem weightSums_eq_ok {sums : List WeightGradient}
    (h : (weightSums m cs).run g = .ok (sums, g')) : g'.Extends g ∧
      (∀ w ∈ sums, ∃ v n, w.Totals m g' cs v n) ∧
      sums.map WeightGradient.weight = ((List.range m.vars.size).map VarId.mk).filter
        fun (id : VarId) => !(contributionsTo cs (.var id)).isEmpty := by
  obtain ⟨extends', pushed, weights⟩ := weightSums_from_eq_ok (weightSums_eq m cs ▸ h)
  exact ⟨extends', fun w hw => (pushed w hw).totals, weights⟩

section
variable {sums : List WeightGradient} (summed : (weightSums m cs).run g = .ok (sums, g'))
include summed

omit [Scalar α] in
theorem weightSums_ascending :
    (sums.map WeightGradient.weight).Pairwise fun (v w : VarId) => v.index < w.index := by
  obtain ⟨-, -, weights⟩ := weightSums_eq_ok summed
  rw [weights]
  exact List.Pairwise.filter _ (List.pairwise_map.mpr List.pairwise_lt_range)

omit [Scalar α] in
theorem weightSums_nodup : (sums.map WeightGradient.weight).Nodup :=
  (weightSums_ascending summed).imp fun lt same => absurd (same ▸ lt) (Nat.lt_irrefl _)

omit [Scalar α] in
theorem mem_weightSums {v : VarId} : v ∈ sums.map WeightGradient.weight ↔
    v.index < m.vars.size ∧ contributionsTo cs (.var v) ≠ [] := by
  obtain ⟨-, -, weights⟩ := weightSums_eq_ok summed
  rw [weights, List.mem_filter, Bool.not_eq_true', List.isEmpty_eq_false_iff]
  refine and_congr_left fun _ => ?_
  constructor
  · intro listed
    obtain ⟨i, hi, rfl⟩ := List.mem_map.mp listed
    exact List.mem_range.mp hi
  · exact fun known => List.mem_map.mpr ⟨v.index, List.mem_range.mpr known, rfl⟩

end

theorem Shaped.sum_variable (shaped : Shaped m forward g cs) {id : VarId}
    {sum : Option WeightGradient} (h : (weightSum m cs id).run g = .ok (sum, g')) :
    Shaped m forward g' cs := by
  rw [weightSum] at h
  split at h
  · cases h
    exact shaped
  · next reached =>
    obtain ⟨v, g₁, asked, rest⟩ := Emit.run_bind_eq_ok h
    obtain ⟨hv, rfl⟩ := Emit.run_lift asked
    obtain ⟨total, rfl, hp⟩ := Emit.run_push (k := fun total =>
      some (⟨id, total⟩ : WeightGradient)) rest
    have known := Module.var_eq_ok_iff.mp hv
    have typed : m.typeOf g₁ (.var id) = .ok v.type := Module.typeOf_var_iff.mpr ⟨v, known, rfl⟩
    exact shaped.push_sum typed reached hp

theorem Shaped.sum_weights (shaped : Shaped m forward g cs) {sums : List WeightGradient}
    (h : (weightSums m cs).run g = .ok (sums, g')) : Shaped m forward g' cs := by
  rw [weightSums_eq] at h
  generalize (List.range m.vars.size).map VarId.mk = ids at h
  induction ids generalizing g sums with
  | nil =>
    cases h
    exact shaped
  | cons id ids ih =>
    rw [List.filterMapM_cons] at h
    obtain ⟨sum, g₁, first, rest⟩ := Emit.run_bind_eq_ok h
    have shaped₁ := shaped.sum_variable first
    cases sum with
    | none => exact ih shaped₁ rest
    | some w =>
      obtain ⟨more, g₂, others, done⟩ := Emit.run_bind_eq_ok rest
      cases done
      exact ih shaped₁ others

/-! ## Updates -/

/-- Velocities are added to the module and updates to the graph, one for each sum. -/
structure AddsUpdates (rule : UpdateRule α) (sums : List WeightGradient) (m m' : Module α)
    (g g' : Graph α) : Prop where
  sound : m'.Sound
  covers : m'.Covers m
  graphs : m'.graphs = m.graphs
  ready : g'.Ready m'
  extends' : g'.Extends g
  nodes : ∀ n ∈ g'.nodes, n ∈ g.nodes ∨ ∃ w ∈ sums, ∃ velocity, n.kind = .update rule ∧
    n.inputs = [.var w.weight, .node w.total, .var velocity]

theorem AddsUpdates.refl {rule : UpdateRule α} (sound : m.Sound) (ready : g.Ready m) :
    AddsUpdates rule [] m m g g :=
  ⟨sound, .refl m, rfl, ready, .refl g, fun _ hn => .inl hn⟩

theorem AddsUpdates.trans {rule : UpdateRule α} {sums sums' : List WeightGradient} {m₁ : Module α}
    {g₁ : Graph α} (h : AddsUpdates rule sums m m₁ g g₁)
    (h' : AddsUpdates rule sums' m₁ m' g₁ g') : AddsUpdates rule (sums ++ sums') m m' g g' where
  sound := h'.sound
  covers := h'.covers.trans h.covers
  graphs := h'.graphs.trans h.graphs
  ready := h'.ready
  extends' := h'.extends'.trans h.extends'
  nodes n hn := by
    rcases h'.nodes n hn with hn | ⟨w, hw, velocity, update⟩
    · rcases h.nodes n hn with hn | ⟨w, hw, velocity, update⟩
      · exact .inl hn
      · exact .inr ⟨w, List.mem_append_left _ hw, velocity, update⟩
    · exact .inr ⟨w, List.mem_append_right _ hw, velocity, update⟩

/-- A velocity is found or declared: the graph does not change, and the velocity has the type of its
weight. -/
theorem AddsUpdates.velocity (rule : UpdateRule α) {name : String} {type : TensorType α}
    {id : VarId} (sound : m.Sound) (ready : g.Ready m)
    (comparable : type.Comparable)
    (h : m.findOrDeclare name type .hidden .untrained = .ok (m', id)) :
    AddsUpdates rule [] m m' g g ∧ ∃ v, m'.var? id = some v ∧ (v.type == type) = true := by
  rcases Module.findOrDeclare_eq_ok h with ⟨rfl, v, hv, same⟩ | declared
  · exact ⟨.refl sound ready, v, hv, same⟩
  · have known := Module.declare_var? declared
    have own := known id
    rw [if_pos rfl] at own
    refine ⟨⟨sound.declare declared, Module.declare_covers declared, ?_, ?_, .refl g,
      fun _ hn => .inl hn⟩, ⟨name, type, .hidden, .untrained, _⟩, own, comparable⟩
    · obtain ⟨-, -, rfl⟩ := Module.declare_eq_ok declared
      rfl
    · refine ⟨ready.proper.mono (Module.declare_covers declared), ready.nodes, fun i v hv => ?_⟩
      rw [known] at hv
      split at hv
      · cases hv
        exact comparable
      · exact ready.vars i v hv

/-- An update is added for a float weight, the sum of its gradients and a velocity of its type. -/
theorem AddsUpdates.update {rule : UpdateRule α} {name : String}
    {w : WeightGradient} {velocity : VarId} {u v : Variable α} {n : Node α} {id : NodeId}
    (sound : m.Sound) (ready : g.Ready m) (totals : w.Totals m g cs v n)
    (float : v.type.element = .float) (hu : m.var? velocity = some u)
    (same : (u.type == v.type) = true)
    (h : g.push name (.update rule) [.var w.weight, .node w.total, .var velocity] none =
      .ok (g', id)) : AddsUpdates rule [w] m m g g' := by
  obtain ⟨dims, element, -, -⟩ := TensorType.beq_iff.mp same
  have types : m.TypesOf g [.var w.weight, .node w.total, .var velocity]
      [v.type, v.type, u.type] :=
    .cons (Module.typeOf_var_iff.mpr ⟨v, totals.weight, rfl⟩)
      (.cons (Module.typeOf_node_iff.mpr ⟨n, totals.total, totals.type⟩)
        (.cons (Module.typeOf_var_iff.mpr ⟨u, hu, rfl⟩) .nil))
  have suits : Signature.instruction (.update rule) [v.type, v.type, u.type] = .ok () :=
    Signature.update_eq_ok_iff.mpr ⟨_, _, _, rfl, rfl, dims, float, float, element.trans float⟩
  refine ⟨sound, .refl m, rfl, ready.push h types (.update suits) ⟨⟨_, rfl⟩, ⟨_, rfl⟩⟩ (by simp),
    Graph.push_extends h, fun k hk => ?_⟩
  rcases (Graph.mem_push h).mp hk with hk | rfl
  · exact .inl hk
  · exact .inr ⟨w, List.mem_singleton_self w, velocity, rfl, rfl⟩

namespace Build
variable {β : Type} {rule : UpdateRule α}

omit [Scalar α] in
theorem yields_ask {f : Module α → Except (Error α) β} {b : β} :
    Yields (ask f) m b m' ↔ f m = .ok b ∧ m' = m := by
  rw [Yields, ask]
  constructor
  · intro h
    have same : (f m, m) = (.ok b, m') := h
    exact ⟨(Prod.mk.inj same).1, (Prod.mk.inj same).2.symm⟩
  · rintro ⟨h, rfl⟩
    show (f m', m') = _
    rw [h]

omit [Scalar α] in
theorem yields_attempt {f : Module α → Except (Error α) (Module α × β)} {b : β} :
    Yields (attempt f) m b m' ↔ f m = .ok (m', b) := by
  simp only [Yields, attempt, ExceptT.run_mk, StateT.run]
  cases f m with
  | error e =>
    constructor <;> intro h <;> cases h
  | ok r =>
    constructor <;> intro h <;> cases h <;> rfl

/-- Updates for float weights with their sums. -/
theorem addsUpdates {sums : List WeightGradient} (sound : m.Sound)
    (ready : g.Ready m) (totals : ∀ w ∈ sums, ∃ v n, w.Totals m g cs v n)
    (floats : ∀ w ∈ sums, ∀ v, m.var? w.weight = some v → v.type.element = .float)
    (h : Yields (withUpdates rule g sums) m g' m') : AddsUpdates rule sums m m' g g' := by
  induction sums generalizing m g with
  | nil =>
    obtain ⟨rfl, rfl⟩ := yields_pure.mp h
    exact .refl sound ready
  | cons w sums ih =>
    obtain ⟨v, m₁, asked, declaring⟩ := yields_bind.mp h
    obtain ⟨hv, rfl⟩ := yields_ask.mp asked
    obtain ⟨velocity, m₂, found, adding⟩ := yields_bind.mp declaring
    obtain ⟨⟨g₁, id⟩, m₃, pushed, rest⟩ := yields_bind.mp adding
    obtain ⟨hp, rfl⟩ := yields_ask.mp pushed
    have known := Module.var_eq_ok_iff.mp hv
    have comparable := ready.vars _ v known
    obtain ⟨added, u, hu, same⟩ := AddsUpdates.velocity rule sound ready comparable
      (yields_attempt.mp found)
    obtain ⟨v', n, total⟩ := totals w List.mem_cons_self
    obtain rfl : v' = v := Option.some.inj (total.weight.symm.trans known)
    obtain ⟨v₃, total₃, alike⟩ := total.mono added.covers (.refl g)
    have updated := AddsUpdates.update added.sound added.ready total₃
      (by rw [alike.type]; exact floats w List.mem_cons_self v' known) hu
      (by rw [alike.type]; exact same) hp
    have step := added.trans updated
    refine step.trans (ih step.sound step.ready ?_ ?_ rest)
    · intro u hu
      obtain ⟨v, n, total⟩ := totals u (List.mem_cons_of_mem _ hu)
      obtain ⟨v'', total', -⟩ := total.mono step.covers step.extends'
      exact ⟨v'', n, total'⟩
    · intro u hu v hv
      obtain ⟨v₀, n, total⟩ := totals u (List.mem_cons_of_mem _ hu)
      obtain ⟨v₁, hv₁, alike⟩ := step.covers _ _ total.weight
      obtain rfl : v = v₁ := Option.some.inj (hv.symm.trans hv₁)
      rw [alike.type]
      exact floats u (List.mem_cons_of_mem _ hu) v₀ total.weight

end Build

/-! ## The whole graph -/

/-- The backward pass over `forward` computes the gradients `cs`, and with the sums for the variables
the graph becomes `g`. -/
def Graph.Backpropagates (forward : Graph α) (m : Module α) (cs : List Contribution)
    (sums : List WeightGradient) (g : Graph α) : Prop :=
  ∃ order g₁, forward.evaluationOrder = .ok order ∧
    (forward.backwardPass m (forward.backwardOrder m order)).run
      { forward with name := forward.name ++ ".train" } = .ok (cs, g₁) ∧
    (weightSums m cs).run g₁ = .ok (sums, g)

theorem Graph.withGradients_eq_ok {sums : List WeightGradient}
    (h : forward.withGradients m = .ok (g, sums)) : ∃ cs, forward.Backpropagates m cs sums g := by
  cases horder : forward.evaluationOrder with
  | error e => simp [withGradients, horder, bind, Except.bind] at h
  | ok order =>
    simp only [withGradients, horder, bind, Except.bind] at h
    split at h
    · cases h
    · split at h
      · cases h
      · next p hp =>
        cases h
        obtain ⟨cs, g₁, pass, summed⟩ := Emit.run_bind_eq_ok hp
        exact ⟨cs, order, g₁, horder, pass, summed⟩

/-- A training graph is a graph of the module with its gradients, then with updates. -/
theorem Build.trainingGraph_parts {f : GraphId} {rule : UpdateRule α} {train : Graph α}
    (h : Yields (trainingGraph f rule) m train m') : ∃ forward g sums,
      m.graph? f = some forward ∧ forward.withGradients m = .ok (g, sums) ∧
        Yields (withUpdates rule g sums) m train m' := by
  obtain ⟨⟨g, sums⟩, m₁, asked, updated⟩ := yields_bind.mp h
  obtain ⟨found, rfl⟩ := yields_ask.mp asked
  cases hg : m₁.graph f with
  | error e => simp [hg, bind, Except.bind] at found
  | ok forward =>
    simp only [hg, bind, Except.bind] at found
    exact ⟨forward, g, sums, Module.graph_eq_ok_iff.mp hg, found, updated⟩

/-- How a training graph comes about. -/
theorem Build.trainingGraph_eq_ok {f : GraphId} {rule : UpdateRule α} {train : Graph α}
    (h : Yields (trainingGraph f rule) m train m') : ∃ forward cs sums g,
      m.graph? f = some forward ∧ forward.Backpropagates m cs sums g ∧
        Yields (withUpdates rule g sums) m train m' := by
  obtain ⟨forward, g, sums, hf, gradients, updated⟩ := trainingGraph_parts h
  obtain ⟨cs, parts⟩ := Graph.withGradients_eq_ok gradients
  exact ⟨forward, cs, sums, g, hf, parts, updated⟩

/-- The backward pass starts from the graph itself, under the name of the training graph. -/
theorem Shaped.start (ready : forward.Ready m)
    (layers : ∀ n ∈ forward.nodes, n.kind.isLayer = true) :
    Shaped m forward { forward with name := forward.name ++ ".train" } [] := by
  refine ⟨⟨ready.proper.congr rfl, ready.nodes, ready.vars⟩, fun _ _ hn => hn,
    fun _ hn => .inl hn, by simp, by simp, by simp, fun n hn kind => ?_⟩
  have layer := layers n hn
  rw [kind] at layer
  cases layer

theorem Graph.Backpropagates.shaped {sums : List WeightGradient}
    (h : forward.Backpropagates m cs sums g) (ready : forward.Ready m)
    (layers : ∀ n ∈ forward.nodes, n.kind.isLayer = true) :
    Shaped m forward g cs ∧ (∀ w ∈ sums, ∃ v n, w.Totals m g cs v n) := by
  obtain ⟨order, g₁, horder, pass, summed⟩ := h
  have same := ready.proper.formed.ordered.evaluationOrder_eq
  rw [horder, Except.ok.injEq] at same
  subst same
  have shaped := (Shaped.start ready layers).visit ready.proper (fun id h => h) pass
  exact ⟨shaped.sum_weights summed, (weightSums_eq_ok summed).2.1⟩

end NeuralGraph
