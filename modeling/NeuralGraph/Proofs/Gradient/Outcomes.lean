import NeuralGraph.Proofs.Gradient.Layout
import NeuralGraph.Proofs.Gradient.Repetition

/-!
# When a graph can be differentiated

A graph of layers is refused for three reasons only: no loss is saved, a node of the backward set has no
rule, or a variable of another type is called like the velocity of a weight.  In particular no rule fails
that there is, since every node of the backward set is handed a gradient of the dimensions of its value.
-/

namespace NeuralGraph
set_option autoImplicit false
variable {α : Type} [Scalar α]

/-! ## Rules that there are -/

namespace Emit
variable {β : Type} {x : Emit α β} {m : Module α} {g : Graph α} {E : Error α → Prop}
  {Q : β → Graph α → Prop}

theorem Settles.exists_ok (h : Settles m x g E Q) (none : ∀ e, ¬E e) :
    ∃ b g', x.run g = .ok (b, g') := by
  cases ran : x.run g with
  | error e => exact absurd (h.fails e ran) (none e)
  | ok r => exact ⟨r.1, r.2, rfl⟩

end Emit

section
variable {m : Module α} {g : Graph α} {n : Node α}

/-- Nodes of other kinds refuse, whatever they are handed. -/
theorem Node.gradients_of_noRule (noRule : n.kind.hasRule = false) (id : NodeId) (total : Option Ref)
    (wants : Nat → Bool) :
    (n.gradients m id total wants).run g = .error (.noGradient n.kind n.name) := by
  cases kind : n.kind with
  | compute op =>
    rw [kind] at noRule
    have other : op ≠ .softmax := by
      rintro rfl
      cases noRule
    rw [gradients_operator kind other]
    cases total with
    | none => rw [kind]; rfl
    | some gradient =>
      cases op with
      | binary op => cases op <;> first | (rw [kind]; rfl) | cases noRule
      | _ => first | (rw [kind]; rfl) | cases noRule
  | reshape dims => rw [kind] at noRule; cases noRule
  | regression => rw [kind] at noRule; cases noRule
  | _ =>
    simp only [gradients, kind]
    cases total <;> rfl

end

/-! ## What rules are handed -/

variable {m m' : Module α} {forward g g' : Graph α} {cs cs' : List Contribution} {n : Node α}
  {id : NodeId}

/-- The gradients that there are for a value can be added up in a graph that knows its type. -/
theorem Shaped.exists_sum (shaped : Shaped m forward g cs) {target : Ref}
    (reached : contributionsTo cs target ≠ []) (name : String) (type : Option (TensorType α)) :
    (∃ t, m.typeOf g target = .ok t) ∧
      ∃ g' id, g.push name .gradientSum (contributionsTo cs target) type = .ok (g', id) := by
  obtain ⟨c, hc, rfl⟩ := contributionsTo_ne_nil.mp reached
  obtain ⟨_, ⟨t, ht, rfl⟩, -⟩ := shaped.fits c hc
  obtain ⟨ts, types, -⟩ := Shaped.exists_types (shaped.dimsOf_contributions ht)
  exact ⟨⟨t, ht⟩, g.exists_push (fun _ arity => by cases arity) (fun _ => types.early) name type⟩

/-- Only a loss is handed nothing, if there are gradients for all other values. -/
theorem Shaped.exists_totalGradient (shaped : Shaped m forward g cs)
    (reached : n.kind.isLoss = false → contributionsTo cs (.node id) ≠ []) :
    ∃ total g', (n.totalGradient m id cs).run g = .ok (total, g') ∧
      (total = none → n.kind.isLoss = true) := by
  rw [Node.totalGradient]
  split
  · next loss => exact ⟨none, g, rfl, fun _ => loss⟩
  · next other =>
    have reached := reached (Bool.eq_false_iff.mpr other)
    split
    · next empty => exact absurd empty reached
    · next gradient _ => exact ⟨some gradient, g, rfl, fun h => by cases h⟩
    · obtain ⟨⟨t, ht⟩, -⟩ := shaped.exists_sum reached (n.name ++ ".grad") none
      obtain ⟨-, g', sum, pushed⟩ := shaped.exists_sum reached (n.name ++ ".grad") (some t)
      refine ⟨some (.node sum), g', ?_, fun h => by cases h⟩
      rw [Emit.run_bind_of_ok (Emit.run_typeOf_of_ok ht), Emit.node,
        Emit.run_bind_of_ok (Emit.run_push_of_ok Ref.node pushed)]
      rfl

omit [Scalar α] in
/-- A backward node is a loss, or its value is used by a later backward node. -/
theorem Graph.Ordered.used_later (ordered : forward.Ordered) (found : forward.node? id = some n)
    (backward : id ∈ forward.backwardIds m) (other : n.kind.isLoss = false) :
    ∃ user ∈ forward.backwardIds m, Ref.node id ∈ forward.flows user := by
  obtain ⟨-, depends, contributes⟩ := Graph.mem_backwardIds.mp backward
  obtain ⟨loss, saved, path⟩ := Graph.contributors_sound contributes
  rcases path with rfl | path
  · obtain ⟨⟨n', found', isLoss⟩, -⟩ := Graph.mem_savedLosses.mp saved
    obtain rfl := Option.some.inj (found'.symm.trans found)
    rw [isLoss] at other
    cases other
  · exact path.backward (r := .node id) ordered depends (Graph.contributors_extend saved)

/-- The node whose turn it is has been handed gradients, unless it is a loss. -/
theorem Graph.Walk.reached {visits : List Visit} {rest : List NodeId} {g₀ : Graph α}
    (formed : forward.WellFormed) (walk : forward.Walk m [] g₀ visits cs g)
    (order : visits.map Visit.node ++ id :: rest = forward.backwardIds m)
    (found : forward.node? id = some n) (other : n.kind.isLoss = false) :
    contributionsTo cs (.node id) ≠ [] := by
  have visited : ∀ v ∈ visits, v.node ∈ forward.backwardIds m := fun v hv =>
    order ▸ List.mem_append_left _ (List.mem_map_of_mem hv)
  have backward : id ∈ forward.backwardIds m := order ▸ List.mem_append_cons_self
  obtain ⟨user, member, flow⟩ := formed.ordered.used_later found backward other
  have later : user ∈ visits.map Visit.node := by
    have decreasing := forward.backwardIds_decreasing m
    rw [← order] at member decreasing
    rcases List.mem_append.mp member with early | late
    · exact early
    · have lt := formed.ordered.flows_lt flow
      obtain ⟨-, ordered, -⟩ := List.pairwise_append.mp decreasing
      rcases List.mem_cons.mp late with rfl | late
      · exact absurd lt (Nat.lt_irrefl _)
      · exact absurd lt (Nat.not_lt.mpr (Nat.le_of_lt ((List.pairwise_cons.mp ordered).1 user late)))
  obtain ⟨v, hv, rfl⟩ := List.mem_map.mp later
  obtain ⟨use, uses⟩ := Graph.mem_flows_iff_uses.mp flow
  obtain ⟨more, same, gives⟩ := walk.gives formed visited (r := .node id) backward
  have given : 0 < more.length := by
    rw [← gives.length_eq]
    exact List.length_pos_of_mem (List.mem_flatMap.mpr ⟨v, hv, uses⟩)
  rw [same]
  exact List.append_ne_nil_of_right_ne_nil _ (List.ne_nil_of_length_pos given)

/-! ## The pass -/

omit [Scalar α] in
theorem NodeKind.IsForward.reversible {shuffle : List Nat}
    (forward : (NodeKind.compute (.transpose shuffle) : NodeKind α).IsForward) :
    ∃ inverse, inverseShuffle? shuffle = some inverse :=
  ⟨_, inverseShuffle?_of_perm forward⟩

omit [Scalar α] in
theorem NodeKind.IsForward.isLayer {kind : NodeKind α} (forward : kind.IsForward) :
    kind.isLayer = true := by
  cases kind <;> first | rfl | cases forward

omit [Scalar α] in
/-- A rule that there is does not fail on a node of a layer that is handed what it needs. -/
theorem Node.not_ruleError {total : Option Ref} (rule : n.kind.hasRule = true)
    (layer : n.kind.IsForward) (handed : total = none → n.kind.isLoss = true) (e : Error α) :
    ¬n.RuleError total e := by
  rintro (noRule | ⟨other, unreached⟩ | ⟨kind, irreversible⟩)
  · rw [rule] at noRule
    cases noRule
  · rw [handed unreached] at other
    cases other
  · rw [kind] at layer
    obtain ⟨inverse, found⟩ := layer.reversible
    rw [irreversible] at found
    cases found

/-- The visit of a node that can be handed a gradient succeeds if its kind has a rule, and refuses it
otherwise. -/
theorem Shaped.propagate_outcome (shaped : Shaped m forward g cs) (proper : forward.Proper m)
    (found : forward.node? id = some n) (backward : id ∈ forward.backwardIds m)
    (layer : n.kind.IsForward)
    (reached : n.kind.isLoss = false → contributionsTo cs (.node id) ≠ []) :
    (n.kind.hasRule = true → ∃ r, (n.propagate m id (forward.backwardIds m) cs).run g = .ok r) ∧
    (n.kind.hasRule = false →
      (n.propagate m id (forward.backwardIds m) cs).run g = .error (.noGradient n.kind n.name)) := by
  obtain ⟨total, g₁, summed, handed⟩ := shaped.exists_totalGradient reached
  obtain ⟨shaped₁, sum⟩ := shaped.totalGradient summed
  have settles := shaped₁.settles_gradients proper found backward sum
  constructor
  · intro rule
    obtain ⟨grads, g₂, computed⟩ := settles.exists_ok (Node.not_ruleError rule layer handed)
    exact ⟨_, (Emit.run_bind_of_ok summed).trans (Emit.run_bind_of_ok computed)⟩
  · intro noRule
    exact (Emit.run_bind_of_ok summed).trans
      (Emit.run_bind_of_error (Node.gradients_of_noRule noRule id total _))

namespace Graph

/-- The pass over the first nodes of the backward set. -/
def passOver (forward : Graph α) (m : Module α) (ids : List NodeId) : Emit α (List Contribution) :=
  ids.foldlM
    (fun (cs : List Contribution) (id : NodeId) => do
      let n ← forward.node id
      n.propagate m id (forward.backwardIds m) cs)
    []

/-- The graph that gradients are added to. -/
def toTrain (forward : Graph α) : Graph α := forward.withName (forward.name ++ ".train")

variable {ids rest : List NodeId}

theorem passOver_append (forward : Graph α) (m : Module α) (ids rest : List NodeId) :
    forward.passOver m (ids ++ rest) = forward.passOver m ids >>= fun (cs : List Contribution) =>
      rest.foldlM
        (fun (cs : List Contribution) (id : NodeId) => do
          let n ← forward.node id
          n.propagate m id (forward.backwardIds m) cs)
        cs := List.foldlM_append

/-- What becomes of the node whose turn it is: it depends on whether it has a rule. -/
theorem passOver_next (ready : forward.Ready m) (layers : ∀ n ∈ forward.nodes, n.kind.IsForward)
    (passed : (forward.passOver m ids).run forward.toTrain = .ok (cs, g))
    (order : ids ++ id :: rest = forward.backwardIds m) (found : forward.node? id = some n) :
    (n.kind.hasRule = true → ∃ r, (forward.passOver m (ids ++ [id])).run forward.toTrain = .ok r) ∧
    (n.kind.hasRule = false → (forward.passOver m (ids ++ id :: rest)).run forward.toTrain =
      .error (.noGradient n.kind n.name)) := by
  have proper := ready.proper
  obtain ⟨visits, rfl, walk⟩ := walk_of_fold passed
  have shaped := (Shaped.start ready fun n hn => (layers n hn).isLayer).visit proper
    (fun i hi => order ▸ List.mem_append_left _ hi) passed
  obtain ⟨succeeds, fails⟩ := shaped.propagate_outcome proper found
    (order ▸ List.mem_append_cons_self) (layers n (Array.mem_of_getElem? found))
    (walk.reached proper.formed order found)
  have known : (liftM (forward.node id) : Emit α (Node α)).run g = .ok (n, g) := by
    rw [node_eq_ok_iff.mpr found]
    rfl
  constructor
  · intro rule
    obtain ⟨r, propagated⟩ := succeeds rule
    refine ⟨r, ?_⟩
    rw [passOver_append, Emit.run_bind_of_ok passed, List.foldlM_cons, Emit.run_bind_of_ok]
    · rfl
    · rw [Emit.run_bind_of_ok known, propagated]
  · intro noRule
    rw [passOver_append, Emit.run_bind_of_ok passed, List.foldlM_cons]
    refine Emit.run_bind_of_error ?_
    rw [Emit.run_bind_of_ok known, fails noRule]

/-- The first nodes of the backward set are passed over if they all have rules. -/
theorem exists_passOver (ready : forward.Ready m) (layers : ∀ n ∈ forward.nodes, n.kind.IsForward)
    (order : ids ++ rest = forward.backwardIds m)
    (rules : ∀ id ∈ ids, ∀ n, forward.node? id = some n → n.kind.hasRule = true) :
    ∃ r, (forward.passOver m ids).run forward.toTrain = .ok r := by
  induction ids using List.reverseRecOn generalizing rest with
  | nil => exact ⟨([], forward.toTrain), rfl⟩
  | append_singleton ids id ih =>
    rw [List.append_assoc, List.singleton_append] at order
    obtain ⟨⟨cs, g⟩, passed⟩ := ih order fun i hi => rules i (List.mem_append_left _ hi)
    have member : id ∈ forward.backwardIds m := order ▸ List.mem_append_cons_self
    obtain ⟨n, found⟩ : ∃ n, forward.node? id = some n :=
      ⟨_, Array.getElem?_eq_getElem (mem_backwardIds.mp member).1⟩
    exact (passOver_next ready layers passed order found).1
      (rules id (List.mem_append_right _ (List.mem_singleton_self id)) n found)

end Graph

/-! ## Sums -/

theorem Shaped.exists_weightSum (shaped : Shaped m forward g cs) {w : VarId}
    (known : w.index < m.vars.size) : ∃ r, (weightSum m cs w).run g = .ok r := by
  rw [weightSum]
  split
  · exact ⟨(none, g), rfl⟩
  · next reached =>
    have found : m.var w = .ok m.vars[w.index] :=
      Module.var_eq_ok_iff.mpr (Array.getElem?_eq_getElem known)
    obtain ⟨-, g', sum, pushed⟩ := shaped.exists_sum reached (m.vars[w.index].name ++ ".grad")
      (some m.vars[w.index].type)
    refine ⟨(some ⟨w, sum⟩, g'), ?_⟩
    have asked : (liftM (m.var w) : Emit α (Variable α)).run g = .ok (m.vars[w.index], g) := by
      rw [found]
      rfl
    exact (Emit.run_bind_of_ok asked).trans
      (Emit.run_push_of_ok (fun total => some (⟨w, total⟩ : WeightGradient)) pushed)

/-- The gradients of variables can always be added up. -/
theorem Shaped.exists_weightSums {ids : List VarId} (shaped : Shaped m forward g cs)
    (known : ∀ w ∈ ids, w.index < m.vars.size) :
    ∃ r, (ids.filterMapM (weightSum m cs)).run g = .ok r := by
  induction ids generalizing g with
  | nil => exact ⟨([], g), rfl⟩
  | cons w ids ih =>
    obtain ⟨⟨sum, g₁⟩, first⟩ := shaped.exists_weightSum (known w List.mem_cons_self)
    obtain ⟨⟨sums, g₂⟩, rest⟩ := ih (shaped.sum_variable first) fun i hi =>
      known i (List.mem_cons_of_mem _ hi)
    rw [List.filterMapM_cons, Emit.run_bind_of_ok first]
    cases sum with
    | none => exact ⟨_, rest⟩
    | some w => exact ⟨(w :: sums, g₂), Emit.run_bind_of_ok rest⟩

/-! ## Velocities -/

/-- A variable of another type is called like the velocity of the weight. -/
def Module.VelocityTaken (m : Module α) (w : VarId) : Prop :=
  ∃ v id u, m.var? w = some v ∧ m.var? id = some u ∧ u.name = v.name ++ ".velocity" ∧
    (u.type == v.type) = false

namespace Module
variable {name : String} {type : TensorType α} {visibility : Visibility} {training : Training α}

/-- A variable is found or declared, unless one of another type is in the way. -/
theorem exists_findOrDeclare (suits : training.suits type = true)
    (free : ∀ id u, m.var? id = some u → u.name = name → (u.type == type) = true) :
    ∃ r, m.findOrDeclare name type visibility training = .ok r := by
  rw [findOrDeclare]
  cases found : m.find? name with
  | none => exact ⟨_, declare_of_free name type visibility training suits found⟩
  | some id =>
    obtain ⟨u, hu, called⟩ := find?_eq_some found
    exact ⟨(m, id), if_pos (by rw [hu]; exact free id u hu called)⟩

theorem findOrDeclare_refused (sound : m.Sound) {id : VarId} {u : Variable α}
    (hu : m.var? id = some u) (called : u.name = name) (other : (u.type == type) = false) :
    m.findOrDeclare name type visibility training = .error (.duplicateName name .vars) := by
  rw [findOrDeclare]
  cases found : m.find? name with
  | none => exact absurd called (find?_eq_none_iff.mp found id u hu)
  | some i =>
    obtain ⟨u', hu', called'⟩ := find?_eq_some found
    obtain rfl := sound.distinct i id u' u hu' hu (called'.trans called.symm)
    exact if_neg (by rw [hu, Option.any_some, other]; exact Bool.false_ne_true)

theorem VelocityTaken.mono {more : List (Variable α)} {w : VarId} (taken : m.VelocityTaken w)
    (gains : m.Gains m' more) : m'.VelocityTaken w := by
  obtain ⟨v, id, u, hv, hu, rest⟩ := taken
  exact ⟨v, id, u, gains.var? hv, gains.var? hu, rest⟩

/-- The velocity of one weight is in the way of no other. -/
theorem VelocityTaken.of_findOrDeclare {w w' velocity : VarId} {v v' : Variable α}
    (taken : m'.VelocityTaken w') (sound : m.Sound) (hv : m.var? w = some v)
    (hv' : m.var? w' = some v') (other : w' ≠ w)
    (h : m.findOrDeclare (v.name ++ ".velocity") v.type .hidden .untrained = .ok (m', velocity)) :
    m.VelocityTaken w' := by
  obtain ⟨more, gains, own⟩ := findOrDeclare_gains h
  obtain ⟨v'', id, u, hv'', hu, called, differs⟩ := taken
  obtain rfl := Option.some.inj ((gains.var? hv').symm.trans hv'')
  rcases gains.old_or_new hu with old | new
  · exact ⟨v', id, u, hv', old, called, differs⟩
  · have same : v.name = v'.name := String.append_left_inj _ |>.mp ((own u new).1.symm.trans called)
    exact absurd (sound.distinct _ _ _ _ hv' hv same.symm) other

end Module

/-! ## Updates -/

/-- The graph has these sums, for different variables of the module. -/
structure Graph.HasSums (m : Module α) (g : Graph α) (sums : List WeightGradient) : Prop where
  sound : m.Sound
  known : ∀ w ∈ sums, ∃ v, m.var? w.weight = some v
  added : ∀ w ∈ sums, w.total.index < g.size
  distinct : (sums.map WeightGradient.weight).Nodup

namespace Build
variable {rule : UpdateRule α} {w : WeightGradient} {sums : List WeightGradient}

/-- The update of a weight is added, unless a variable of another type is in the way of its velocity. -/
theorem withUpdates_next (rule : UpdateRule α) (has : Graph.HasSums m g (w :: sums))
    (free : ¬m.VelocityTaken w.weight) : ∃ g₁ m₁ more,
      (withUpdates rule g (w :: sums)).run.run m = (withUpdates rule g₁ sums).run.run m₁ ∧
      Graph.HasSums m₁ g₁ sums ∧ m.Gains m₁ more ∧
      ∀ w' ∈ sums, m₁.VelocityTaken w'.weight → m.VelocityTaken w'.weight := by
  obtain ⟨v, hv⟩ := has.known w List.mem_cons_self
  have asked : Yields (ask fun (m : Module α) => m.var w.weight) m v m :=
    yields_ask.mpr ⟨Module.var_eq_ok_iff.mpr hv, rfl⟩
  have declares : ∃ r, m.findOrDeclare (v.name ++ ".velocity") v.type .hidden .untrained = .ok r := by
    refine Module.exists_findOrDeclare rfl fun id u hu called => ?_
    by_contra differs
    exact free ⟨v, id, u, hv, hu, called, Bool.eq_false_iff.mpr differs⟩
  obtain ⟨⟨m₁, velocity⟩, declared⟩ := declares
  have pushes : ∃ g' id, g.push (v.name ++ ".sgd") (.update rule)
      [.var w.weight, .node w.total, .var velocity] none = .ok (g', id) := by
    refine g.exists_push (fun _ count => ?_) (fun id hid => ?_) _ none
    · exact Option.some.inj count
    simp only [List.mem_cons, List.not_mem_nil, Ref.node.injEq, reduceCtorEq, false_or, or_false] at hid
    rw [hid]
    exact has.added w List.mem_cons_self
  obtain ⟨g₁, id, pushed⟩ := pushes
  obtain ⟨more, gains, -⟩ := Module.findOrDeclare_gains declared
  obtain ⟨new, distinct⟩ := List.nodup_cons.mp has.distinct
  refine ⟨g₁, m₁, more, ?_, ⟨has.sound.findOrDeclare declared, fun u hu => ?_, fun u hu => ?_, distinct⟩,
    gains, fun u hu taken => ?_⟩
  · rw [withUpdates, asked.run_bind, (yields_attempt.mpr declared).run_bind,
      (yields_ask.mpr ⟨pushed, rfl⟩).run_bind]
  · obtain ⟨x, hx⟩ := has.known u (List.mem_cons_of_mem _ hu)
    exact ⟨x, gains.var? hx⟩
  · have old := has.added u (List.mem_cons_of_mem _ hu)
    obtain ⟨rfl, -⟩ := Graph.push_eq pushed
    rw [Graph.size, Array.size_push]
    exact Nat.lt_succ_of_lt old
  · obtain ⟨x, hx⟩ := has.known u (List.mem_cons_of_mem _ hu)
    exact taken.of_findOrDeclare has.sound hv hx
      (fun same => new (same ▸ List.mem_map_of_mem hu)) declared

omit [Scalar α] in
theorem run_attempt_of_error {β : Type} {f : Module α → Except (Error α) (Module α × β)} {e : Error α}
    (h : f m = .error e) : (attempt f).run.run m = (.error e, m) := by
  simp only [attempt, ExceptT.run_mk, StateT.run, h]

theorem withUpdates_refused (has : Graph.HasSums m g (w :: sums)) {v : Variable α}
    (hv : m.var? w.weight = some v) (taken : m.VelocityTaken w.weight) :
    ((withUpdates rule g (w :: sums)).run.run m).1 =
      .error (.duplicateName (v.name ++ ".velocity") .vars) := by
  obtain ⟨v', id, u, hv', hu, called, differs⟩ := taken
  obtain rfl := Option.some.inj (hv'.symm.trans hv)
  have asked : Yields (ask fun (m : Module α) => m.var w.weight) m v' m :=
    yields_ask.mpr ⟨Module.var_eq_ok_iff.mpr hv, rfl⟩
  rw [withUpdates, asked.run_bind, run_bind, run_attempt_of_error
    (Module.findOrDeclare_refused has.sound hu called differs)]

/-- The updates before the first velocity that is in the way are added. -/
theorem withUpdates_append (rule : UpdateRule α) {before after : List WeightGradient}
    (has : Graph.HasSums m g (before ++ after)) (free : ∀ w ∈ before, ¬m.VelocityTaken w.weight) :
    ∃ g₁ m₁ more, (withUpdates rule g (before ++ after)).run.run m =
      (withUpdates rule g₁ after).run.run m₁ ∧ Graph.HasSums m₁ g₁ after ∧ m.Gains m₁ more := by
  induction before generalizing m g with
  | nil => exact ⟨g, m, [], rfl, has, .refl m⟩
  | cons w before ih =>
    obtain ⟨g₁, m₁, first, ran, has₁, gains, old⟩ := withUpdates_next rule has
      (free w List.mem_cons_self)
    obtain ⟨g₂, m₂, more, ran', has₂, gains'⟩ := ih has₁ fun u hu taken =>
      free u (List.mem_cons_of_mem _ hu) (old u (List.mem_append_left _ hu) taken)
    exact ⟨g₂, m₂, first ++ more, ran.trans ran', has₂, gains.trans gains'⟩

end Build

end NeuralGraph
