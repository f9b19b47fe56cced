import Mathlib
import NeuralGraph.Proofs.Gradient.Layout

/-!
# Names that differentiation makes

Differentiation calls the sum for a weight `w` after it, `w.grad`, and its velocity `w.velocity`.  Names
of nodes are made unique by numbers; a variable that is called like the velocity is taken for it if it
has the type of the weight.  So a sum is only found under another name where a node before it has its
name, and a velocity is a new variable, hidden, at rest, and used by nothing else, unless there was one.
-/

namespace NeuralGraph
set_option autoImplicit false
variable {α : Type}

/-! ## Names of nodes -/

namespace Graph

/-- The names that are tried for `base`, in this order. -/
def numbered (base : String) : Nat → String
  | 0 => base
  | k + 1 => base ++ toString (k + 1)

/-- A node before `id` has the name. -/
def HasBefore (g : Graph α) (id : NodeId) (name : String) : Prop :=
  ∃ i < id.index, ∃ n, g.nodes[i]? = some n ∧ n.name = name

/-- The node has the first of the names `base`, `base1`, `base2`, … that no node before it has. -/
def TakesName (g : Graph α) (id : NodeId) (base : String) : Prop :=
  ∃ k n, g.node? id = some n ∧ n.name = numbered base k ∧
    (∀ j < k, g.HasBefore id (numbered base j)) ∧ ¬g.HasBefore id (numbered base k)

variable {g g' : Graph α} {base : String} {id : NodeId}

theorem candidates_eq (base : String) (count : Nat) :
    candidates base count = (List.range (count + 1)).map (numbered base) := by
  rw [candidates, List.range_succ_eq_map, List.map_cons, List.map_map]
  rfl

/-- The fresh name is the first one that is free. -/
theorem freshName_eq_numbered (g : Graph α) (base : String) : ∃ k, g.freshName base = numbered base k ∧
    (∀ j < k, g.hasName (numbered base j) = true) ∧ g.hasName (numbered base k) = false := by
  have fresh := g.freshName_fresh base
  obtain ⟨name, listed, free⟩ := g.exists_candidate base
  rw [freshName] at fresh ⊢
  rw [candidates_eq] at listed fresh ⊢
  rw [List.find?_map] at fresh ⊢
  cases found : (List.range (g.size + 1)).find?
    ((fun (name : String) => !g.hasName name) ∘ numbered base) with
  | none =>
    obtain ⟨j, hj, rfl⟩ := List.mem_map.mp listed
    have taken := List.find?_eq_none.mp found j hj
    simp [free] at taken
  | some k =>
    rw [found] at fresh
    obtain ⟨-, -, before⟩ := List.find?_range_eq_some.mp found
    exact ⟨k, rfl, fun j lt => by simpa using before j lt, fresh⟩

/-- A node that is added takes the first name that is free. -/
theorem takesName_of_push {kind : NodeKind α} {inputs : List Ref} {type : Option (TensorType α)}
    (h : g.push base kind inputs type = .ok (g', id)) : g'.TakesName id base := by
  have before : ∀ name, g'.HasBefore id name ↔ g.hasName name = true := by
    intro name
    obtain ⟨rfl, rfl⟩ := push_eq h
    rw [hasName_eq_true_iff]
    constructor
    · rintro ⟨i, lt, n, hn, named⟩
      have lt : i < g.nodes.size := lt
      rw [Array.getElem?_push, if_neg (Nat.ne_of_lt lt)] at hn
      exact ⟨n, Array.mem_of_getElem? hn, named⟩
    · rintro ⟨n, hn, named⟩
      obtain ⟨i, hi⟩ := Array.getElem?_of_mem hn
      have lt : i < g.nodes.size := (Array.getElem?_eq_some_iff.mp hi).1
      refine ⟨i, lt, n, ?_, named⟩
      rw [Array.getElem?_push, if_neg (Nat.ne_of_lt lt), hi]
  obtain ⟨k, name, taken, free⟩ := g.freshName_eq_numbered base
  refine ⟨k, _, push_node h, name, fun j lt => (before _).mpr (taken j lt), fun has => ?_⟩
  rw [(before _).mp has] at free
  cases free

theorem TakesName.mono (h : g.TakesName id base) (extends' : g'.Extends g) : g'.TakesName id base := by
  obtain ⟨k, n, hn, name, taken, free⟩ := h
  have last : id.index < g.nodes.size := (Array.getElem?_eq_some_iff.mp hn).1
  have same : ∀ i < id.index, g'.nodes[i]? = g.nodes[i]? := by
    intro i hi
    have lt : i < g.nodes.size := Nat.lt_trans hi last
    rw [Array.getElem?_eq_getElem lt]
    exact extends' _ _ (Array.getElem?_eq_getElem lt)
  have before : ∀ name, g'.HasBefore id name ↔ g.HasBefore id name := fun name =>
    exists_congr fun i => and_congr_right fun hi => by rw [same i hi]
  exact ⟨k, n, extends' _ _ hn, name, fun j hj => (before _).mpr (taken j hj),
    fun has => free ((before _).mp has)⟩

/-- A node is found under its base name if no node before it has that name. -/
theorem TakesName.find? (h : g.TakesName id base) (distinct : g.DistinctNames)
    (free : ¬g.HasBefore id base) : g.find? base = some id := by
  obtain ⟨k, n, hn, name, taken, -⟩ := h
  cases k with
  | succ k => exact absurd (taken 0 (Nat.succ_pos k)) free
  | zero =>
    have name : n.name = base := name
    obtain ⟨i, hi⟩ := Option.isSome_iff_exists.mp
      (hasName_eq_true_iff.mpr ⟨n, Array.mem_of_getElem? hn, name⟩)
    obtain ⟨j, hj, rfl⟩ := Option.map_eq_some_iff.mp hi
    obtain ⟨lt, named, -⟩ := Array.findIdx?_eq_some_iff_getElem.mp hj
    rw [hi, distinct j id.index _ n (Array.getElem?_eq_getElem lt) hn
      ((beq_iff_eq.mp named).trans name.symm)]

end Graph

/-- The sum for a weight is called after it. -/
theorem WeightGradient.Pushed.takesName {m : Module α} {cs : List Contribution} {g : Graph α}
    {w : WeightGradient} (h : w.Pushed m cs g) :
    ∃ v, m.var? w.weight = some v ∧ g.TakesName w.total (v.name ++ ".grad") := by
  obtain ⟨v, g₁, g₂, hv, pushed, later⟩ := h.added
  exact ⟨v, hv, (Graph.takesName_of_push pushed).mono later⟩

/-! ## Velocities -/

/-- Where the velocity `u` of the weight `v` comes from when the module `m` becomes `m'`: there was a
variable of that name and type, which is left as it is, or else it is new. -/
inductive Module.VelocityFrom [Scalar α] (m m' : Module α) (v : Variable α) (u : VarId) : Prop
  | reused {x : Variable α} : m.var? u = some x → m'.var? u = some x →
    x.name = v.name ++ ".velocity" → (x.type == v.type) = true → VelocityFrom m m' v u
  | created : (∀ id x, m.var? id = some x → x.name ≠ v.name ++ ".velocity") → m.var? u = none →
    m'.var? u = some ⟨v.name ++ ".velocity", v.type, .hidden, .untrained, .zeros v.type⟩ →
    VelocityFrom m m' v u

variable [Scalar α] {m m₁ m' : Module α} {u : VarId} {v : Variable α}

namespace Module.VelocityFrom

theorem name (h : m.VelocityFrom m' v u) : ∃ x, m'.var? u = some x ∧ x.name = v.name ++ ".velocity" := by
  cases h with
  | reused _ known called => exact ⟨_, known, called⟩
  | created _ _ known => exact ⟨_, known, rfl⟩

theorem of_findOrDeclare
    (h : m.findOrDeclare (v.name ++ ".velocity") v.type .hidden .untrained = .ok (m', u)) :
    m.VelocityFrom m' v u := by
  obtain ⟨x, hx, called⟩ := findOrDeclare_name h
  rcases findOrDeclare_eq_ok h with ⟨rfl, y, hy, same⟩ | declared
  · obtain rfl := Option.some.inj (hx.symm.trans hy)
    exact .reused hx hx called same
  · obtain ⟨free, new, -⟩ := declare_eq_ok declared
    have known := declare_var? declared u
    rw [if_pos rfl] at known
    refine .created (find?_eq_none_iff.mp free) ?_ known
    rw [new]
    exact Array.getElem?_eq_none (Nat.le_refl _)

/-- Variables that are added afterwards do not matter. -/
theorem later {more : List (Variable α)} (h : m.VelocityFrom m₁ v u) (gains : m₁.Gains m' more) :
    m.VelocityFrom m' v u := by
  cases h with
  | reused old known called same => exact .reused old (gains.var? known) called same
  | created free absent known => exact .created free absent (gains.var? known)

/-- Nor do variables of other names that were added before. -/
theorem earlier {more : List (Variable α)} (h : m₁.VelocityFrom m' v u) (gains : m.Gains m₁ more)
    (others : ∀ x ∈ more, x.name ≠ v.name ++ ".velocity") : m.VelocityFrom m' v u := by
  cases h with
  | reused old known called same =>
    rcases gains.old_or_new old with first | new
    · exact .reused first known called same
    · exact absurd called (others _ new)
  | created free absent known =>
    refine .created (fun id x hx => free id x (gains.var? hx)) ?_ known
    by_contra present
    obtain ⟨x, hx⟩ := Option.ne_none_iff_exists'.mp present
    rw [gains.var? hx] at absent
    cases absent

end Module.VelocityFrom

/-- Each update takes a velocity that is found or created for its weight. -/
theorem Build.withUpdates_velocities {rule : UpdateRule α} {g train : Graph α}
    {sums : List WeightGradient} (sound : m.Sound)
    (known : ∀ w ∈ sums, ∃ v, m.var? w.weight = some v)
    (distinct : (sums.map WeightGradient.weight).Nodup)
    (h : Yields (withUpdates rule g sums) m train m') :
    ∃ updates, train.nodes.toList = g.nodes.toList ++ updates ∧
      List.Forall₂ (fun (w : WeightGradient) (n : Node α) => ∃ v u, m.var? w.weight = some v ∧
        m.VelocityFrom m' v u ∧ n.IsUpdate rule w.weight w.total u) sums updates := by
  induction sums generalizing m g with
  | nil =>
    obtain ⟨rfl, rfl⟩ := yields_pure.mp h
    exact ⟨[], (List.append_nil _).symm, .nil⟩
  | cons w sums ih =>
    obtain ⟨v, m₁, asked, declaring⟩ := yields_bind.mp h
    obtain ⟨hv, rfl⟩ := yields_ask.mp asked
    obtain ⟨velocity, m₂, found, adding⟩ := yields_bind.mp declaring
    obtain ⟨⟨g₁, id⟩, m₃, pushed, rest⟩ := yields_bind.mp adding
    obtain ⟨hp, rfl⟩ := yields_ask.mp pushed
    have declared := yields_attempt.mp found
    obtain ⟨new, distinct⟩ := List.nodup_cons.mp distinct
    obtain ⟨more, gains, own⟩ := Module.findOrDeclare_gains declared
    have known' : ∀ u ∈ sums, ∃ x, m₃.var? u.weight = some x := fun u hu => by
      obtain ⟨x, hx⟩ := known u (List.mem_cons_of_mem _ hu)
      exact ⟨x, gains.var? hx⟩
    obtain ⟨later, gains', -⟩ := withUpdates_gains known' rest
    obtain ⟨updates, nodes, all⟩ := ih (sound.findOrDeclare declared) known' distinct rest
    obtain ⟨rfl, -⟩ := Graph.push_eq hp
    rw [Array.toList_push, List.append_assoc] at nodes
    have hv := Module.var_eq_ok_iff.mp hv
    have first := (Module.VelocityFrom.of_findOrDeclare declared).later gains'
    refine ⟨_, nodes, .cons ⟨v, velocity, hv, first, rfl, rfl⟩ ?_⟩
    -- The velocity of `w` is called otherwise than those of the other weights.
    have others : ∀ w' ∈ sums, ∃ x, m₁.var? w'.weight = some x ∧ x.name ≠ v.name := by
      intro w' hw'
      obtain ⟨x, hx⟩ := known w' (List.mem_cons_of_mem _ hw')
      refine ⟨x, hx, fun same => new ?_⟩
      rw [← sound.distinct _ _ x v hx hv same]
      exact List.mem_map_of_mem hw'
    refine ((List.forall₂_and_left _ _).mpr ⟨others, all⟩).imp
      fun w' n ⟨⟨x, hx, other⟩, x', u, hx', made, update⟩ => ?_
    obtain rfl := Option.some.inj ((gains.var? hx).symm.trans hx')
    refine ⟨x, u, hx, made.earlier gains fun y hy same => other ?_, update⟩
    exact String.append_left_inj _ |>.mp (same.symm.trans (own y hy).1)

/-! ## All names -/

/-- The update number `i` that differentiation adds: of the weight `w`, by the sum `d`, with the velocity
`u`. -/
def Graph.NewUpdate (forward train : Graph α) (i : Nat) (w : VarId) (d : NodeId) (u : VarId) : Prop :=
  forward.size ≤ i ∧ ∃ n rule, train.nodes[i]? = some n ∧ n.IsUpdate rule w d u

/-- What differentiation calls the sum `d` and the velocity `u` of the update of a weight, and who else
uses them. -/
structure Graph.NamesApart (forward : Graph α) (m m' : Module α) (cs : List Contribution)
    (train : Graph α) (i : Nat) (w : VarId) (d : NodeId) (u : VarId) (v : Variable α) : Prop where
  weight : m.isTrained w = true
  sum : ∃ n, WeightGradient.Totals m train cs ⟨w, d⟩ v n
  sumName : train.TakesName d (v.name ++ ".grad")
  /-- No other node is taken for the sum, if the name was free. -/
  found : ¬train.HasBefore d (v.name ++ ".grad") → train.find? (v.name ++ ".grad") = some d
  velocity : m.VelocityFrom m' v u
  /-- A new velocity is not used by the graph that is differentiated, as far as its variables exist. -/
  unused : m.var? u = none → ∀ n ∈ forward.nodes,
    (∀ x, Ref.var x ∈ n.inputs → ∃ y, m.var? x = some y) → Ref.var u ∉ n.inputs
  /-- No other update has the velocity. -/
  velocities : ∀ i' w' d' u', forward.NewUpdate train i' w' d' u' → u' = u → i' = i
  /-- Nor has any update the velocity as its weight, unless it was a trained variable before. -/
  weights : ∀ i' w' d' u', forward.NewUpdate train i' w' d' u' → w' = u → w' ≠ w ∧ m.isTrained u = true

omit [Scalar α] in
theorem Node.IsUpdate.unique {n : Node α} {rule rule' : UpdateRule α} {w w' u u' : VarId}
    {d d' : NodeId} (h : n.IsUpdate rule w d u) (h' : n.IsUpdate rule' w' d' u') :
    w = w' ∧ d = d' ∧ u = u' := by
  have inputs := h.inputs.symm.trans h'.inputs
  simp only [List.cons.injEq, Ref.var.injEq, Ref.node.injEq, and_true] at inputs
  exact inputs

section
variable {rule : UpdateRule α} {forward g train : Graph α} {sums : List WeightGradient}
  {updates : List (Node α)} {i : Nat} {w : VarId} {d : NodeId}

/-- The updates that are added come after all gradients, one for each sum. -/
theorem Graph.NewUpdate.listed (h : forward.NewUpdate train i w d u)
    (gradients : Pushes NodeKind.IsGradient { forward with name := forward.name ++ ".train" } g)
    (nodes : train.nodes.toList = g.nodes.toList ++ updates)
    (all : List.Forall₂ (fun (w : WeightGradient) (n : Node α) => ∃ v u, m.var? w.weight = some v ∧
      m.VelocityFrom m' v u ∧ n.IsUpdate rule w.weight w.total u) sums updates) :
    ∃ j v, i = g.size + j ∧ sums[j]? = some ⟨w, d⟩ ∧ m.var? w = some v ∧ m.VelocityFrom m' v u := by
  obtain ⟨late, n, rule', hn, update⟩ := h
  rw [← Array.getElem?_toList, nodes] at hn
  have after : g.nodes.toList.length ≤ i := by
    by_contra early
    rw [List.getElem?_append_left (Nat.not_le.mp early), Array.getElem?_toList] at hn
    rcases gradients.kind hn late with gradient | sum
    · rw [update.kind] at gradient
      cases gradient
    · rw [update.kind] at sum
      cases sum
  rw [List.getElem?_append_right after] at hn
  obtain ⟨j, rfl⟩ := Nat.exists_eq_add_of_le after
  rw [Nat.add_sub_cancel_left] at hn
  obtain ⟨length, related⟩ := List.forall₂_iff_get.mp all
  obtain ⟨hj, rfl⟩ := List.getElem?_eq_some_iff.mp hn
  have bound : j < sums.length := length ▸ hj
  obtain ⟨v, u', hv, velocity, update'⟩ := related j bound hj
  obtain ⟨rfl, rfl, rfl⟩ := update.unique update'
  exact ⟨j, v, rfl, List.getElem?_eq_getElem bound, hv, velocity⟩

/-- Velocities of different updates are different variables. -/
theorem Module.VelocityFrom.weight_eq {w' : VarId} {v' : Variable α} (sound : m.Sound)
    (hv : m.var? w = some v) (hv' : m.var? w' = some v') (h : m.VelocityFrom m' v u)
    (h' : m.VelocityFrom m' v' u) : w = w' := by
  obtain ⟨x, hx, name⟩ := h.name
  obtain ⟨x', hx', name'⟩ := h'.name
  obtain rfl := Option.some.inj (hx.symm.trans hx')
  exact sound.distinct _ _ v v' hv hv' (String.append_left_inj _ |>.mp (name.symm.trans name'))

/-- A weight is not its own velocity. -/
theorem Module.VelocityFrom.ne_weight (hv : m.var? w = some v) (h : m.VelocityFrom m' v u) : u ≠ w := by
  rintro rfl
  cases h with
  | reused old _ called =>
    obtain rfl := Option.some.inj (hv.symm.trans old)
    have same : v.name ++ "" = v.name ++ ".velocity" := String.append_empty.trans called
    exact absurd (String.append_right_inj _ |>.mp same) (by decide)
  | created _ absent =>
    rw [hv] at absent
    cases absent

end

/-- The names of sums and velocities, whatever the nodes and the variables of the user are called. -/
theorem Build.trainingGraph_namesApart {f : GraphId} {rule : UpdateRule α} {forward train : Graph α}
    (sound : m.Sound) (made : forward.Made) (found : m.graph? f = some forward)
    (h : Yields (trainingGraph f rule) m train m') :
    ∃ cs sums g, forward.Backpropagates m cs sums g ∧ train.Extends g ∧
      ∀ i w d u, forward.NewUpdate train i w d u →
        ∃ v, forward.NamesApart m m' cs train i w d u v := by
  obtain ⟨forward', g, sums, found', gradients, updating⟩ := trainingGraph_parts h
  obtain rfl : forward = forward' := Option.some.inj (found.symm.trans found')
  obtain ⟨g', sums', _, gradients', trains⟩ := trainingGraph_trains sound made.formed found h
  obtain ⟨rfl, rfl⟩ := Prod.mk.inj (Except.ok.inj (gradients.symm.trans gradients'))
  obtain ⟨cs, passes⟩ := Graph.withGradients_eq_ok gradients
  obtain ⟨order, g₁, -, -, summed⟩ := id passes
  obtain ⟨-, pushed, -⟩ := weightSums_from_eq_ok (weightSums_eq m cs ▸ summed)
  obtain ⟨updates, nodes, all⟩ := withUpdates_velocities sound (fun w hw => by
    obtain ⟨v, n, total⟩ := (pushed w hw).totals
    exact ⟨v, total.weight⟩) trains.distinct updating
  have grown := withUpdates_pushes updating
  have distinct := (made.trainingGraph found h).distinct
  refine ⟨cs, sums, g, passes, grown.extends', fun i w d u added => ?_⟩
  obtain ⟨j, v, rfl, listed, hv, velocity⟩ := added.listed trains.gradients nodes all
  have member : ⟨w, d⟩ ∈ sums := List.mem_of_getElem? listed
  have sum := pushed ⟨w, d⟩ member
  obtain ⟨v', hv', name⟩ := sum.takesName
  obtain rfl := Option.some.inj (hv.symm.trans hv')
  obtain ⟨v', n, total⟩ := sum.totals
  obtain rfl := Option.some.inj (hv.symm.trans total.weight)
  have name := name.mono grown.extends'
  refine ⟨v, trains.trained ⟨w, d⟩ member, ⟨n, total.weight, grown.extends' _ _ total.total, total.kind,
    total.inputs, total.type, total.reached⟩, name, name.find? distinct, velocity, ?_, ?_, ?_⟩
  · intro absent n hn known use
    obtain ⟨y, hy⟩ := known u use
    rw [absent] at hy
    cases hy
  · rintro i' w' d' u' added' rfl
    obtain ⟨j', v', rfl, listed', hv', velocity'⟩ := added'.listed trains.gradients nodes all
    obtain rfl := velocity.weight_eq sound hv hv' velocity'
    have place : ∀ {k : Nat} {d : NodeId}, sums[k]? = some ⟨w, d⟩ →
        (sums.map WeightGradient.weight)[k]? = some w := by
      intro k d hk
      rw [List.getElem?_map, hk]
      rfl
    have bound := (List.getElem?_eq_some_iff.mp (place listed)).1
    rw [(List.getElem?_inj bound trains.distinct).mp ((place listed).trans (place listed').symm)]
  · rintro i' w' d' u' added' rfl
    obtain ⟨j', v', rfl, listed', hv', velocity'⟩ := added'.listed trains.gradients nodes all
    exact ⟨velocity.ne_weight hv, trains.trained ⟨w', d'⟩ (List.mem_of_getElem? listed')⟩

/-! ## Names that are taken -/

/-- The loss of a line, saved, in a module with one more trained variable of the type of the weight. -/
def namedModule (product spare : String) : Module Int :=
  let after {β : Type} (x : Build Int β) (m : Module Int) : Module Int := (x.run.run m).2
  after (Build.attempt fun (m : Module Int) => m.addGraph "line") (.ofSeed 0)
    |> after (Build.newVariable "x" (.float [1, 2]) .exposed .untrained)
    |> after (Build.newVariable "w" (.float [2, 1]) .exposed (.constant 1))
    |> after (Build.newVariable "y" (.float [1, 1]) .exposed .untrained)
    |> after (Build.newVariable spare (.float [2, 1]) .exposed (.constant 5))
    |> after (Build.matMul ⟨0⟩ product (.var ⟨0⟩) (.var ⟨1⟩))
    |> after (Build.regression ⟨0⟩ "loss" (.node ⟨0⟩) (.var ⟨2⟩))
    |> after (Build.save ⟨0⟩ "result" (.node ⟨1⟩))

theorem namedModule_built (product spare : String) : (namedModule product spare).Built ⟨0⟩ := by
  have empty : Module.Built ⟨0⟩ (.ofSeed 0 : Module Int) := .ofSeed 0
  have graph := empty.newGraph "line"
  have x := graph.newVariable "x" (.float [1, 2]) .exposed .untrained
  have w := x.newVariable "w" (.float [2, 1]) .exposed (.constant 1)
  have y := w.newVariable "y" (.float [1, 1]) .exposed .untrained
  have declared := y.newVariable spare (.float [2, 1]) .exposed (.constant 5)
  exact .create (.create (.create declared (.matMul _ _ _)) (.regression _ _ _)) (.save _ _)

/-- The graph of the module. -/
def namedGraph (product : String) : Graph Int where
  name := "line"
  nodes := #[⟨product, .compute .matMul, [.var ⟨0⟩, .var ⟨1⟩], some (.float [1, 1])⟩,
    ⟨"loss", .regression, [.node ⟨0⟩, .var ⟨2⟩], some (.float [1, 1])⟩,
    ⟨"result", .save, [.node ⟨1⟩, .var ⟨4⟩], none⟩]
  inPlace := false

/-- Its training graph, without a step along the gradient. -/
def namedTrain (product spare : String) : Graph Int :=
  ((Build.trainingGraph ⟨0⟩ ⟨0, 1, 0⟩).run.run (namedModule product spare)).1.toOption.getD
    (namedGraph product)

/-- What becomes of the module. -/
def namedAfter (product spare : String) : Module Int :=
  ((Build.trainingGraph ⟨0⟩ ⟨0, 1, 0⟩).run.run (namedModule product spare)).2

theorem namedModule_trains (product spare : String)
    (succeeds : ((Build.trainingGraph ⟨0⟩ ⟨0, 1, 0⟩).run.run
      (namedModule product spare)).1.isOk = true) :
    Yields (Build.trainingGraph ⟨0⟩ ⟨0, 1, 0⟩) (namedModule product spare) (namedTrain product spare)
      (namedAfter product spare) := by
  obtain ⟨train, m', trains⟩ := exists_yields succeeds
  have run : (Build.trainingGraph ⟨0⟩ ⟨0, 1, 0⟩).run.run (namedModule product spare) =
    (.ok train, m') := trains
  rw [Yields, namedTrain, namedAfter, run]
  rfl

theorem Graph.NewUpdate.of_parts {forward train : Graph Int} (rule : UpdateRule Int) {i : Nat}
    {w u : VarId} {d : NodeId} (late : forward.size ≤ i)
    (h : train.nodes[i]?.map (fun (n : Node Int) => (n.kind, n.inputs)) =
      some (.update rule, [.var w, .node d, .var u])) : forward.NewUpdate train i w d u := by
  obtain ⟨n, hn, parts⟩ := Option.map_eq_some_iff.mp h
  obtain ⟨kind, inputs⟩ := Prod.mk.inj parts
  exact ⟨late, n, rule, hn, kind, inputs⟩

theorem namedModule_namesApart : (namedModule "product" "spare").Sound ∧ (namedGraph "product").Made ∧
    (namedModule "product" "spare").graph? ⟨0⟩ = some (namedGraph "product") ∧
    ∃ train m' cs v,
      Yields (Build.trainingGraph ⟨0⟩ ⟨0, 1, 0⟩) (namedModule "product" "spare") train m' ∧
      (namedGraph "product").NewUpdate train 7 ⟨1⟩ ⟨6⟩ ⟨5⟩ ∧
      (namedGraph "product").NamesApart (namedModule "product" "spare") m' cs train 7 ⟨1⟩ ⟨6⟩ ⟨5⟩ v := by
  have sound := (namedModule_built "product" "spare").proper.sound
  have made : (namedGraph "product").Made := .of_rebuild (g := namedGraph "product") (by cbv)
  have found : (namedModule "product" "spare").graph? ⟨0⟩ = some (namedGraph "product") := by cbv
  have trains := namedModule_trains "product" "spare" (by decide +kernel)
  obtain ⟨cs, sums, g, -, -, apart⟩ := Build.trainingGraph_namesApart sound made found trains
  have added : (namedGraph "product").NewUpdate (namedTrain "product" "spare") 7 ⟨1⟩ ⟨6⟩ ⟨5⟩ :=
    .of_parts ⟨0, 1, 0⟩ (by decide) (by decide +kernel)
  obtain ⟨v, names⟩ := apart 7 ⟨1⟩ ⟨6⟩ ⟨5⟩ added
  exact ⟨sound, made, found, _, _, cs, v, trains, added, names⟩

/-- A product is found under the name of the sum for the weight, and a variable that the user exposes and
trains, and that is not at rest, is taken for its velocity. -/
theorem namedModule_captured : (namedModule "w.grad" "w.velocity").Built ⟨0⟩ ∧
    (namedModule "w.grad" "w.velocity").graph? ⟨0⟩ = some (namedGraph "w.grad") ∧
    ∃ train m', Yields (Build.trainingGraph ⟨0⟩ ⟨0, 1, 0⟩) (namedModule "w.grad" "w.velocity") train m' ∧
      (namedGraph "w.grad").NewUpdate train 7 ⟨1⟩ ⟨6⟩ ⟨3⟩ ∧
      ((namedModule "w.grad" "w.velocity").var? ⟨1⟩).map Variable.name = some "w" ∧
      train.find? "w.grad" = some ⟨0⟩ ∧
      ∃ x, m'.var? ⟨3⟩ = some x ∧ x.visibility = .exposed ∧ x.isTrained = true ∧
        x.initial.array.get 0 = 5 := by
  have trains := namedModule_trains "w.grad" "w.velocity" (by decide +kernel)
  have velocity : ((namedAfter "w.grad" "w.velocity").var? ⟨3⟩).map (fun (x : Variable Int) =>
      (x.visibility, x.isTrained, x.initial.array.get 0)) = some (.exposed, true, 5) := by decide +kernel
  obtain ⟨x, hx, parts⟩ := Option.map_eq_some_iff.mp velocity
  obtain ⟨visibility, trained, initial⟩ := Prod.mk.inj parts |>.imp_right Prod.mk.inj
  exact ⟨namedModule_built _ _, by cbv, _, _, trains,
    .of_parts ⟨0, 1, 0⟩ (by decide) (by decide +kernel), by decide +kernel, by decide +kernel, x, hx,
    visibility, trained, initial⟩

end NeuralGraph
