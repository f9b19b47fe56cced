import NeuralGraph.Proofs.Gradient.Adjoints
import NeuralGraph.Proofs.Gradient.Training

/-!
# The backward pass keeps its balance

At every moment of the backward pass, the gradients of the values that are still to be visited are
together worth what the losses that were visited put in.  At the end no node is left, so the gradients
of the trained variables are worth what all losses put in.
-/

namespace NeuralGraph
set_option autoImplicit false
variable {α : Type}

/-- Kinds of nodes whose value is a polynomial in the values of their inputs. -/
def NodeKind.isPolynomial : NodeKind α → Bool
  | compute (.binary .add) | compute (.binary .sub) | compute (.binary .mul) | compute .matMul
  | compute .dense | compute .addToRows | compute .sumRows | compute (.transpose _) | reshape _
  | regression => true
  | _ => false

theorem NodeKind.isLoss_eq_false {kind : NodeKind α} (polynomial : kind.isPolynomial = true)
    (other : kind ≠ .regression) : kind.isLoss = false := by
  cases kind with
  | compute op => cases op <;> first | rfl | cases polynomial
  | regression => exact absurd rfl other
  | _ => rfl

variable [RingScalar α]

/-! ## Nodes -/

section
variable {m : Module α} {G : Graph α} {V : Valuation α} {D : Ref → Nat → α} {inputs : List Ref}
  {gradient : Ref} {wants : Nat → Bool} {d : TensorType α} (exact : G.Exact m V)
  (unwanted : ∀ p r, inputs[p]? = some r → wants p = false → D r = fun _ => 0)
include exact unwanted

/-- The gradients of the inputs of an operator are worth what the gradient of its value is worth. -/
theorem Operator.adjoint {op : Operator α} {name : String} {this : Ref}
    {refuse : Emit α (List InputGradient)} (polynomial : (NodeKind.compute op).isPolynomial = true)
    (count : inputs.length = op.arity) (floats : ∀ r ∈ inputs, V.FloatsAt m G r)
    (known : V.FloatsAt m G gradient) (dims : (V.array gradient).dims = (V.array this).dims)
    (has : G.Has this (.compute op) inputs d) :
    Emit.Ensures G (op.gradients m name inputs this gradient wants refuse)
      (Pays m G V D inputs wants (List.range inputs.length)
        (pairing (volume (V.array this).dims) (V.array gradient).get
          (NodeKind.tangent (.compute op) (inputs.map V.array) (inputs.map D)))) := by
  cases op with
  | binary op =>
    obtain ⟨x, y, rfl⟩ := List.length_eq_two.mp count
    cases op with
    | add => exact adjoint_add exact known unwanted has
    | sub => exact adjoint_sub exact known dims unwanted has
    | mul => exact adjoint_mul exact known dims unwanted has
    | _ => cases polynomial
  | matMul =>
    obtain ⟨x, y, rfl⟩ := List.length_eq_two.mp count
    exact adjoint_matMul exact known dims unwanted (floats x (by simp)) (floats y (by simp)) has
  | dense =>
    obtain ⟨x, w, b, rfl⟩ := List.length_eq_three.mp count
    exact adjoint_dense exact known dims (floats x (by simp)) (floats w (by simp)) unwanted has
  | addToRows =>
    obtain ⟨x, y, rfl⟩ := List.length_eq_two.mp count
    exact adjoint_addToRows exact known dims unwanted has
  | sumRows =>
    obtain ⟨x, rfl⟩ := List.length_eq_one_iff.mp count
    exact adjoint_sumRows exact dims (floats x (by simp)) unwanted has
  | transpose shuffle =>
    obtain ⟨x, rfl⟩ := List.length_eq_one_iff.mp count
    exact adjoint_transpose exact dims unwanted (floats x (by simp)) has
  | _ => cases polynomial

/-- What a node other than a loss passes on is worth what it received. -/
theorem Node.adjoint {n : Node α} {id : NodeId} (hn : G.node? id = some n) (own : n.inputs = inputs)
    (type : n.type = some d) (float : d.element = .float) (polynomial : n.kind.isPolynomial = true)
    (other : n.kind.isLoss = false) (floats : ∀ r ∈ inputs, V.FloatsAt m G r)
    (known : V.FloatsAt m G gradient)
    (dims : (V.array gradient).dims = (V.array (.node id)).dims) :
    Emit.Ensures G (n.gradients m id (some gradient) wants)
      (Pays m G V D inputs wants (List.range inputs.length)
        (pairing (volume (V.array (.node id)).dims) (V.array gradient).get
          (n.kind.tangent (inputs.map V.array) (inputs.map D)))) := by
  have has : G.Has (.node id) n.kind inputs d := ⟨id, n, rfl, hn, rfl, own, type, float⟩
  have count := exact.proper.formed.arities n (Array.mem_of_getElem? hn)
  rw [own] at count
  cases kind : n.kind with
  | compute op =>
    rw [kind] at has count polynomial other
    rw [gradients_operator kind (by rintro rfl; cases other), own]
    exact Operator.adjoint exact unwanted polynomial (count _ rfl) floats known dims has
  | reshape shape =>
    rw [kind] at has count
    obtain ⟨x, rfl⟩ := List.length_eq_one_iff.mp (count 1 rfl)
    obtain ⟨same, -⟩ := exact.reshape has
    simp only [gradients, kind, own, ← bind_assoc]
    suffices paid : Emit.Ensures G _ fun grads => True → Pays m G V D [x] wants [0] _ grads from
      Emit.ensures_mono paid fun _ h => h trivial
    rw [same]
    refine Emit.ensures_onlyIf rfl (unwanted 0 x rfl) ?_
    refine Emit.ensures_bind Emit.ensures_typeOf fun t => ?_
    refine Emit.ensures_mono (Emit.ensures_reshape exact) fun r reshaped _ _ => ?_
    obtain ⟨known', -, elements⟩ := reshaped known
    exact ⟨known', fun i _ => elements i⟩
  | regression =>
    rw [kind] at other
    cases other
  | _ =>
    rw [kind] at polynomial
    cases polynomial

end

/-- A loss puts in the difference between its input and what is expected. -/
theorem Node.adjoint_regression {m : Module α} {G : Graph α} {V : Valuation α} {D : Ref → Nat → α}
    {wants : Nat → Bool} {d : TensorType α} {n : Node α} {id : NodeId} {total : Option Ref}
    {x expected : Ref} (exact : G.Exact m V) (hn : G.node? id = some n) (kind : n.kind = .regression)
    (inputs : n.inputs = [x, expected]) (type : n.type = some d) (float : d.element = .float)
    (wanted : wants 0 = true) (floats : V.FloatsAt m G x) :
    Emit.Ensures G (n.gradients m id total wants) (Pays m G V D [x, expected] wants [0]
      (pairing (volume (V.array x).dims)
        (fun (i : Nat) => (V.array x).get i - (V.array expected).get i) (D x))) := by
  have has : G.Has (.node id) .regression [x, expected] d :=
    ⟨id, n, rfl, hn, kind, inputs, type, float⟩
  simp only [gradients, kind, inputs]
  refine Emit.ensures_bind (Emit.ensures_binary V) fun gradient => Emit.ensures_pure fun made => ?_
  obtain ⟨_, difference⟩ := made floats
  obtain ⟨dimsX, -, elements⟩ := exact.binary difference
  refine ⟨?_, ?_, ?_, ?_⟩
  · have single : contributionsFor [x, expected] [⟨0, gradient⟩] = [⟨x, gradient⟩] := rfl
    rw [single, List.map_singleton, List.sum_singleton]
    refine pairing_congr (fun i hi => ?_) fun _ _ => rfl
    rw [dimsX] at hi
    exact elements i hi
  · rintro p hp -
    obtain rfl := List.mem_singleton.mp hp
    exact ⟨_, List.mem_singleton_self _, rfl⟩
  · intro q hq
    obtain rfl := List.mem_singleton.mp hq
    exact wanted
  · intro q hq
    obtain rfl := List.mem_singleton.mp hq
    exact exact.floatsAt difference

/-- The gradient of a node is the sum of its contributions. -/
theorem Node.ensures_totalGradient {m : Module α} {G : Graph α} {V : Valuation α} {n : Node α}
    {id : NodeId} {cs : List Contribution} (exact : G.Exact m V)
    (float : ∀ t, m.typeOf G (.node id) = .ok t → t.element = .float)
    (floats : ∀ r ∈ contributionsTo cs (.node id), V.FloatsAt m G r) :
    Emit.Ensures G (n.totalGradient m id cs) fun total => ∀ gradient, total = some gradient →
      V.FloatsAt m G gradient ∧ ∀ i, i < volume (V.array gradient).dims →
        (V.array gradient).get i =
          ((contributionsTo cs (.node id)).map fun (r : Ref) => (V.array r).get i).sum := by
  rw [totalGradient]
  split
  · exact Emit.ensures_pure fun _ h => by cases h
  · split
    · exact Emit.ensures_pure fun _ h => by cases h
    · next r one =>
      refine Emit.ensures_pure fun gradient h => ?_
      cases h
      rw [one]
      exact ⟨floats r (by simp [one]), fun i _ => by simp⟩
    · refine Emit.ensures_bind Emit.ensures_typeOf fun t => ?_
      refine Emit.ensures_bind Emit.ensures_node fun r => Emit.ensures_pure fun made typed => ?_
      rintro _ ⟨⟩
      have has := made (float t typed)
      exact ⟨exact.floatsAt has, fun i hi => exact.gradientSum has hi⟩

omit [RingScalar α] in
theorem Node.totalGradient_extends {m : Module α} {n : Node α} {id : NodeId}
    {cs : List Contribution} {g g' : Graph α} {total : Option Ref}
    (h : (n.totalGradient m id cs).run g = .ok (total, g')) : g'.Extends g := by
  have only : Emit.Ensures g (n.totalGradient m id cs) fun _ => True := by
    rw [totalGradient]
    split
    · exact Emit.ensures_pure trivial
    · split
      · exact Emit.ensures_pure trivial
      · exact Emit.ensures_pure trivial
      · exact Emit.ensures_bind Emit.ensures_typeOf fun _ =>
          Emit.ensures_bind Emit.ensures_node fun _ => Emit.ensures_pure fun _ _ => trivial
  exact (only g total g' h).1

/-- Only a loss goes on without a gradient of its own value. -/
theorem Node.gradients_none {m : Module α} {n : Node α} {id : NodeId} {wants : Nat → Bool}
    {g : Graph α} {r : List InputGradient × Graph α} (plain : n.kind.isLoss = false) :
    (n.gradients m id none wants).run g ≠ .ok r := by
  intro h
  cases kind : n.kind with
  | compute op =>
    rw [kind] at plain
    rw [gradients_operator kind (by rintro rfl; cases plain)] at h
    cases h
  | regression =>
    rw [kind] at plain
    cases plain
  | _ =>
    simp only [gradients, kind] at h
    cases h

/-! ## Tangents that vanish -/

section
variable {m : Module α} {g : Graph α} {V : Valuation α} {seed : VarId → Nat → α}

/-- Where no trained variable flows in, nothing changes. -/
theorem Graph.tangents_of_not_dependent (ordered : g.Ordered)
    (still : ∀ v, m.isTrained v = false → seed v = fun _ => 0) {id : NodeId}
    (bound : id.index < g.size) (off : id ∉ g.dependents m (firstIds g.size)) :
    g.tangents V seed (.node id) = fun _ => 0 := by
  obtain ⟨k, hk⟩ : ∃ k, id.index = k := ⟨_, rfl⟩
  induction k using Nat.strongRecOn generalizing id with
  | ind k ih =>
    obtain ⟨n, hn⟩ : ∃ n, g.node? id = some n := ⟨_, Array.getElem?_eq_getElem bound⟩
    rw [tangents_node ordered hn]
    refine NodeKind.tangent_zero fun p hp d hd => ?_
    rw [List.length_map] at hp
    rw [List.getElem?_map, Option.map_eq_some_iff] at hd
    obtain ⟨r, hr, rfl⟩ := hd
    have flow : r ∈ g.flows id := by
      simp only [flows, hn]
      exact List.mem_filterMap.mpr ⟨p, hp, hr⟩
    have missed : ¬Reaches m (g.dependents m (firstIds g.size)) r := fun reaches =>
      off ((mem_dependents ordered).mpr ⟨bound, r, flow, reaches⟩)
    cases r with
    | var v =>
      rw [tangents_var]
      exact still v (by simpa [Reaches] using missed)
    | node source =>
      have before := ordered.flows_lt flow
      exact ih source.index (hk ▸ before) (Nat.lt_trans before bound) missed rfl

/-- An input of a backward node that no gradient is wanted for does not change. -/
theorem Graph.tangents_of_not_reached (ordered : g.Ordered)
    (still : ∀ v, m.isTrained v = false → seed v = fun _ => 0) {id : NodeId}
    (backward : id ∈ g.backwardIds m) {r : Ref} (flow : r ∈ g.flows id)
    (off : ¬Reaches m (g.backwardIds m) r) : g.tangents V seed r = fun _ => 0 := by
  obtain ⟨bound, -, contributes⟩ := mem_backwardIds.mp backward
  cases r with
  | var v =>
    rw [tangents_var]
    exact still v (by simpa [Reaches] using off)
  | node source =>
    have before := Nat.lt_trans (ordered.flows_lt flow) bound
    refine tangents_of_not_dependent ordered still before fun depends => off ?_
    exact mem_backwardIds.mpr ⟨before, depends, contributors_closed ordered contributes bound flow⟩

/-- The inputs of a backward node that no gradient is wanted for do not change, unless the node is a
loss. -/
theorem Graph.tangents_of_not_wanted (ordered : g.Ordered)
    (still : ∀ v, m.isTrained v = false → seed v = fun _ => 0) {id : NodeId} {n : Node α}
    (hn : g.node? id = some n) (backward : id ∈ g.backwardIds m) (plain : n.kind.isLoss = false)
    {p : Nat} {r : Ref} (hr : n.inputs[p]? = some r)
    (off : n.wants m (g.backwardIds m) p = false) : g.tangents V seed r = fun _ => 0 := by
  have position : p ∈ flowPositions n.kind n.inputs.length := by
    rw [flowPositions, plain, if_neg Bool.false_ne_true, List.mem_range]
    exact (List.getElem?_eq_some_iff.mp hr).1
  refine tangents_of_not_reached ordered still backward ((mem_flows hn).mpr ⟨p, position, hr⟩) ?_
  intro reaches
  rw [(Node.wants_eq_true hr).mpr ⟨position, reaches⟩] at off
  cases off

end

/-! ## What is still to be visited -/

/-- Variables, and the nodes that are left. -/
def awaits (left : List NodeId) : Ref → Bool
  | .var _ => true
  | .node id => left.contains id

section
variable {m : Module α} {g : Graph α} {visited left : List NodeId} {id : NodeId}
  (split : g.backwardIds m = visited ++ id :: left)
include split

omit [RingScalar α] in
theorem Graph.not_mem_left : id ∉ left := by
  have decreasing := g.backwardIds_decreasing m
  rw [split] at decreasing
  obtain ⟨-, later, -⟩ := List.pairwise_append.mp decreasing
  exact fun h => Nat.lt_irrefl _ ((List.pairwise_cons.mp later).1 id h)

omit [RingScalar α] in
/-- What flows into a node stands before it, and all nodes visited so far stand after it. -/
theorem Graph.awaits_of_flows (ordered : g.Ordered) {r : Ref} (flow : r ∈ g.flows id)
    (reaches : Reaches m (g.backwardIds m) r) : awaits left r = true := by
  cases r with
  | var v => rfl
  | node source =>
    have before := ordered.flows_lt flow
    have decreasing := g.backwardIds_decreasing m
    rw [split] at decreasing
    obtain ⟨-, -, across⟩ := List.pairwise_append.mp decreasing
    have listed : source ∈ visited ++ id :: left := split ▸ reaches
    rcases List.mem_append.mp listed with old | new
    · exact absurd (across source old id List.mem_cons_self) (Nat.lt_asymm before)
    · rcases List.mem_cons.mp new with rfl | left
      · exact absurd before (Nat.lt_irrefl _)
      · exact List.contains_iff_mem.mpr left

end

/-- What the gradients of the values that are left are worth together. -/
def Valuation.balance (V : Valuation α) (D : Ref → Nat → α) (left : List NodeId)
    (cs : List Contribution) : α :=
  ((cs.filter fun (c : Contribution) => awaits left c.target).map (V.worth D)).sum

section
variable {V : Valuation α} {D : Ref → Nat → α} {id : NodeId} {left : List NodeId}
  {cs ds : List Contribution}

/-- The gradients of one value are worth what their sum is worth. -/
theorem Valuation.sum_worth (target : Ref) :
    ((cs.filter fun (c : Contribution) => c.target == target).map (V.worth D)).sum =
      pairing (volume (V.array target).dims) (fun (i : Nat) =>
        ((contributionsTo cs target).map fun (r : Ref) => (V.array r).get i).sum) (D target) := by
  have values : ∀ i, ((contributionsTo cs target).map fun (r : Ref) => (V.array r).get i) =
      ((contributionsTo cs target).map fun (r : Ref) => (V.array r).get).map
        fun (f : Nat → α) => f i := by simp
  simp only [values, pairing_sum]
  rw [contributionsTo, List.map_map, List.map_map]
  congr 1
  refine List.map_congr_left fun c hc => ?_
  have same : c.target = target := by simpa using (List.mem_filter.mp hc).2
  rw [Valuation.worth, same]
  rfl

/-- A node is visited: its own gradients are no longer left. -/
theorem Valuation.balance_cons (fresh : id ∉ left) : V.balance D (id :: left) cs =
    V.balance D left cs +
      ((cs.filter fun (c : Contribution) => c.target == .node id).map (V.worth D)).sum := by
  induction cs with
  | nil => simp [balance]
  | cons c cs ih =>
    simp only [balance, List.filter_cons] at ih ⊢
    by_cases own : c.target = .node id
    · have left' : awaits left c.target = false := by simpa [awaits, own] using fresh
      have now : awaits (id :: left) c.target = true := by simp [awaits, own]
      rw [if_pos now, left', if_neg (by simp), if_pos (by simp [own]), List.map_cons, List.map_cons,
        List.sum_cons, List.sum_cons, ih]
      ring
    · have same : awaits (id :: left) c.target = awaits left c.target := by
        cases target : c.target with
        | var v => rfl
        | node source =>
          have other : source ≠ id := fun e => own (by rw [target, e])
          simp [awaits, other]
      have elsewhere : (c.target == Ref.node id) = false := by simpa using own
      rw [same, elsewhere, if_neg Bool.false_ne_true]
      cases awaits left c.target with
      | false => exact ih
      | true =>
        rw [if_pos rfl, if_pos rfl, List.map_cons, List.map_cons, List.sum_cons, List.sum_cons, ih]
        ring

theorem Valuation.balance_append (waiting : ∀ c ∈ ds, awaits left c.target = true) :
    V.balance D left (cs ++ ds) = V.balance D left cs + (ds.map (V.worth D)).sum := by
  rw [balance, List.filter_append, List.map_append, List.sum_append,
    List.filter_eq_self.mpr waiting]
  rfl

end

/-! ## The pass -/

/-- A graph of polynomials over floats whose losses are saved and not used otherwise, and which reads
nothing that it saves. -/
structure Graph.PolynomialNet (m : Module α) (g : Graph α) : Prop where
  polynomial : ∀ n ∈ g.nodes, n.kind = .save ∨ n.kind.isPolynomial = true
  floats : ∀ n ∈ g.nodes, ∀ t, n.type = some t ∨ (∃ r ∈ n.inputs, m.typeOf g r = .ok t) →
    t.element = .float
  losses : ∀ n ∈ g.nodes, n.kind ≠ .save → ∀ id l, Ref.node id ∈ n.inputs →
    g.node? id = some l → l.kind ≠ .regression
  kept : ∀ n ∈ g.nodes, n.kind ≠ .save → ∀ v, Ref.var v ∈ n.inputs → v ∉ g.storesInto

/-- How a loss changes along tangents: the pairing of the error of its input with the tangent of its
input. -/
def Graph.lossTangent (g : Graph α) (V : Valuation α) (seed : VarId → Nat → α) (id : NodeId) : α :=
  match g.node? id with
  | some ⟨_, .regression, [x, expected], _⟩ =>
    pairing (volume (V.array x).dims)
      (fun (i : Nat) => (V.array x).get i - (V.array expected).get i) (g.tangents V seed x)
  | _ => 0

theorem Graph.lossTangent_eq_zero {g : Graph α} {V : Valuation α} {seed : VarId → Nat → α}
    {id : NodeId} {n : Node α} (hn : g.node? id = some n) (other : n.kind ≠ .regression) :
    g.lossTangent V seed id = 0 := by
  rw [lossTangent, hn]
  split
  · next own =>
    cases own
    exact absurd rfl other
  · rfl

/-- What a node is to pass on: the worth of the gradients that wait for it, and of what it puts in if it
is a loss. -/
def Graph.owed (g : Graph α) (V : Valuation α) (seed : VarId → Nat → α) (cs : List Contribution)
    (id : NodeId) : α :=
  ((cs.filter fun (c : Contribution) => c.target == .node id).map
    (V.worth (g.tangents V seed))).sum + g.lossTangent V seed id

theorem Graph.owed_eq_pairing {g : Graph α} {V : Valuation α} {seed : VarId → Nat → α}
    {cs : List Contribution} {id : NodeId} {n : Node α} (ordered : g.Ordered)
    (hn : g.node? id = some n) (other : n.kind ≠ .regression) :
    g.owed V seed cs id = pairing (volume (V.array (.node id)).dims) (fun (i : Nat) =>
      ((contributionsTo cs (.node id)).map fun (r : Ref) => (V.array r).get i).sum)
      (n.kind.tangent (n.inputs.map V.array) (n.inputs.map (g.tangents V seed))) := by
  rw [owed, lossTangent_eq_zero hn other, add_zero, V.sum_worth, tangents_node ordered hn]

/-- The gradients `cs` after some backward nodes have been visited while others are left. -/
structure Graph.Balanced (forward : Graph α) (m : Module α) (G : Graph α) (V : Valuation α)
    (seed : VarId → Nat → α) (visited left : List NodeId) (cs : List Contribution) : Prop where
  worth : V.balance (forward.tangents V seed) left cs =
    (visited.map (forward.lossTangent V seed)).sum
  floats : ∀ c ∈ cs, V.FloatsAt m G c.gradient
  kinds : ∀ id ∈ visited, ∀ n, forward.node? id = some n → n.kind ≠ .save
  flows : ∀ c ∈ cs, ∃ id ∈ visited, c.target ∈ forward.flows id
  complete : ∀ id ∈ visited, ∀ r ∈ forward.flows id, Reaches m (forward.backwardIds m) r →
    ∃ c ∈ cs, c.target = r

theorem Graph.PolynomialNet.exists_type {m : Module α} {g : Graph α} (net : g.PolynomialNet m)
    (proper : g.Proper m) {n : Node α} (hn : n ∈ g.nodes) (kind : n.kind ≠ .save) :
    ∃ d, n.type = some d := by
  have polynomial := (net.polynomial n hn).resolve_left kind
  obtain ⟨ts, -, accepts⟩ := (proper.typed n hn).accepts
  generalize n.kind = k at accepts kind polynomial
  generalize n.type = t at accepts
  cases accepts with
  | save => exact absurd rfl kind
  | update => cases polynomial
  | _ => exact ⟨_, rfl⟩

theorem Graph.PolynomialNet.floatsAt {m : Module α} {forward G : Graph α} {V : Valuation α}
    (net : forward.PolynomialNet m) (proper : forward.Proper m) (exact : G.Exact m V)
    (part : G.Extends forward) {id : NodeId} {n : Node α} {d : TensorType α}
    (hn : forward.node? id = some n) (type : n.type = some d) :
    ∀ r ∈ n.inputs, V.FloatsAt m G r := by
  intro r hr
  have member := Array.mem_of_getElem? hn
  obtain ⟨ts, types, -⟩ := (proper.typed n member).accepts
  obtain ⟨t, ht⟩ : ∃ t, m.typeOf forward r = .ok t := by
    obtain ⟨i, hi⟩ := List.getElem?_of_mem hr
    obtain ⟨bound, rfl⟩ := List.getElem?_eq_some_iff.mp hi
    have bound' : i < ts.length := types.length_eq ▸ bound
    exact ⟨ts[i], (List.forall₂_iff_get.mp types).2 i bound bound'⟩
  have later := Module.typeOf_mono ht (.refl m) part
  exact ⟨t, later, net.floats n member t (.inr ⟨r, hr, ht⟩),
    exact.solution.input_dims (part id.index n hn) type hr later⟩

namespace Graph.Balanced
variable {m : Module α} {forward g g' G : Graph α} {V : Valuation α} {seed : VarId → Nat → α}
  {visited left : List NodeId} {cs cs' : List Contribution} {id : NodeId} {n : Node α}

/-- New gradients pay for those of the node that is visited. -/
theorem extend (balanced : forward.Balanced m G V seed visited (id :: left) cs)
    (hn : forward.node? id = some n) (fresh : id ∉ left) (kind : n.kind ≠ .save)
    (waiting : ∀ r ∈ forward.flows id, Reaches m (forward.backwardIds m) r → awaits left r = true)
    {grads : List InputGradient} (paid : Pays m G V (forward.tangents V seed) n.inputs
      (n.wants m (forward.backwardIds m)) (flowPositions n.kind n.inputs.length)
      (forward.owed V seed cs id) grads) :
    forward.Balanced m G V seed (visited ++ [id]) left (cs ++ contributionsFor n.inputs grads) := by
  have new : ∀ c ∈ contributionsFor n.inputs grads, ∃ q ∈ grads,
      n.inputs[q.position]? = some c.target ∧ c.gradient = q.gradient := by
    intro c hc
    obtain ⟨q, hq, hqc⟩ := List.mem_filterMap.mp hc
    obtain ⟨r, hr, rfl⟩ := Option.map_eq_some_iff.mp hqc
    exact ⟨q, hq, hr, rfl⟩
  have flow : ∀ c ∈ contributionsFor n.inputs grads, c.target ∈ forward.flows id ∧
      Reaches m (forward.backwardIds m) c.target := by
    intro c hc
    obtain ⟨q, hq, hr, -⟩ := new c hc
    obtain ⟨position, reaches⟩ := (Node.wants_eq_true hr).mp (paid.wanted q hq)
    exact ⟨(mem_flows hn).mpr ⟨_, position, hr⟩, reaches⟩
  refine ⟨?_, ?_, ?_, ?_, ?_⟩
  · rw [Valuation.balance_append fun c hc => waiting _ (flow c hc).1 (flow c hc).2, paid.worth, owed,
      List.map_append, List.sum_append, ← balanced.worth, Valuation.balance_cons fresh,
      List.map_singleton, List.sum_singleton, add_assoc]
  · intro c hc
    rcases List.mem_append.mp hc with hc | hc
    · exact balanced.floats c hc
    · obtain ⟨q, hq, -, made⟩ := new c hc
      rw [made]
      exact paid.floats q hq
  · intro i hi n' hn'
    rcases List.mem_append.mp hi with hi | hi
    · exact balanced.kinds i hi n' hn'
    · obtain rfl := List.mem_singleton.mp hi
      rw [hn] at hn'
      cases hn'
      exact kind
  · intro c hc
    rcases List.mem_append.mp hc with hc | hc
    · obtain ⟨i, hi, flows⟩ := balanced.flows c hc
      exact ⟨i, List.mem_append_left _ hi, flows⟩
    · exact ⟨id, List.mem_append_right _ (List.mem_singleton_self id), (flow c hc).1⟩
  · intro i hi r hr reaches
    rcases List.mem_append.mp hi with hi | hi
    · obtain ⟨c, hc, target⟩ := balanced.complete i hi r hr reaches
      exact ⟨c, List.mem_append_left _ hc, target⟩
    · obtain rfl := List.mem_singleton.mp hi
      obtain ⟨p, position, hp⟩ := (mem_flows hn).mp hr
      obtain ⟨q, hq, rfl⟩ := paid.complete p position ((Node.wants_eq_true hp).mpr ⟨position, reaches⟩)
      refine ⟨⟨r, q.gradient⟩, List.mem_append_right _ ?_, rfl⟩
      exact List.mem_filterMap.mpr ⟨q, hq, by rw [hp]; rfl⟩

/-- Nothing but saves uses a loss, so no gradient waits for it. -/
theorem none_for_loss (balanced : forward.Balanced m G V seed visited left cs)
    (net : forward.PolynomialNet m) (hn : forward.node? id = some n) (loss : n.kind = .regression) :
    (cs.filter fun (c : Contribution) => c.target == .node id) = [] := by
  refine List.filter_eq_nil_iff.mpr fun c hc own => ?_
  obtain ⟨i, hi, flow⟩ := balanced.flows c hc
  have target : c.target = .node id := by simpa using own
  rw [target] at flow
  cases hn' : forward.node? i with
  | none => simp [Graph.flows, hn'] at flow
  | some n' =>
    exact net.losses n' (Array.mem_of_getElem? hn') (balanced.kinds i hi n' hn') id n
      (flows_subset hn' flow) hn loss

section
variable {total : Option Ref} {grads : List InputGradient} {g₁ : Graph α} {d : TensorType α}
  (balanced : forward.Balanced m G V seed visited left cs) (net : forward.PolynomialNet m)
  (proper : forward.Proper m) (exact : G.Exact m V) (hn : forward.node? id = some n)
  (backward : id ∈ forward.backwardIds m) (whole : G.Extends forward) (type : n.type = some d)
  (float : d.element = .float)
include net proper exact hn backward whole type float

include balanced in
/-- A loss passes on what it puts in. -/
theorem pays_loss (loss : n.kind = .regression)
    (added : (n.gradients m id total (n.wants m (forward.backwardIds m))).run g₁ = .ok (grads, g'))
    (part : G.Extends g') :
    Pays m G V (forward.tangents V seed) n.inputs (n.wants m (forward.backwardIds m))
      (flowPositions n.kind n.inputs.length) (forward.owed V seed cs id) grads := by
  obtain ⟨x, expected, inputs⟩ := List.length_eq_two.mp
    (proper.formed.arities n (Array.mem_of_getElem? hn) 2 (by rw [loss]; rfl))
  have floats := net.floatsAt proper exact whole hn type
  have wanted := Node.wants_loss proper.formed hn backward (by rw [loss]; rfl)
  have paid := (Node.adjoint_regression (D := forward.tangents V seed) exact (whole id.index n hn)
    loss inputs type float wanted (floats x (by simp [inputs])) g₁ grads g' added).2 part
  have owed : forward.owed V seed cs id = pairing (volume (V.array x).dims)
      (fun (i : Nat) => (V.array x).get i - (V.array expected).get i)
      (forward.tangents V seed x) := by
    rw [Graph.owed, balanced.none_for_loss net hn loss, List.map_nil, List.sum_nil, zero_add,
      lossTangent, hn]
    obtain ⟨name, k, ins, ty⟩ := n
    cases loss
    cases inputs
    rfl
  have positions : flowPositions n.kind n.inputs.length = [0] := by rw [loss]; rfl
  rw [positions, inputs, owed]
  exact paid

/-- A node that is no loss passes on the worth of the sum of the gradients that wait for it. -/
theorem pays_sum (shaped : Shaped m forward g cs)
    (known : ∀ c ∈ cs, V.FloatsAt m G c.gradient)
    (still : ∀ v, m.isTrained v = false → seed v = fun _ => 0)
    (polynomial : n.kind.isPolynomial = true) (other : n.kind ≠ .regression)
    (summed : (n.totalGradient m id cs).run g = .ok (total, g₁))
    (added : (n.gradients m id total (n.wants m (forward.backwardIds m))).run g₁ = .ok (grads, g'))
    (part : G.Extends g') :
    Pays m G V (forward.tangents V seed) n.inputs (n.wants m (forward.backwardIds m))
      (flowPositions n.kind n.inputs.length) (forward.owed V seed cs id) grads := by
  have ordered := proper.formed.ordered
  have plain := NodeKind.isLoss_eq_false polynomial other
  have hnG : G.node? id = some n := whole id.index n hn
  have typed : m.typeOf G (.node id) = .ok d := Module.typeOf_node_iff.mpr ⟨n, hnG, type⟩
  cases total with
  | none => exact absurd added (Node.gradients_none plain)
  | some gradient =>
    obtain ⟨shaped₁, sum⟩ := shaped.totalGradient summed
    have part₁ := part.trans (shaped₁.gradients proper hn backward sum added).1.extends'
    obtain ⟨floats, elements⟩ := (Node.ensures_totalGradient exact (fun t ht => by
      rw [typed] at ht
      cases ht
      exact float) (fun r hr => known _ (mem_contributionsTo.mp hr)) g _ g₁ summed).2 part₁ gradient rfl
    have dims : (V.array gradient).dims = (V.array (.node id)).dims := by
      obtain ⟨dims, own, t, ht, rfl⟩ := sum gradient rfl
      have later := Module.typeOf_mono ht (.refl m) part₁
      rw [floats.dims later, exact.solution.node_dims hnG type]
      exact (own.unique (Module.typeOf_node_iff.mpr
        ⟨n, shaped₁.extends' id.index n hn, type⟩)).symm
    have paid := (Node.adjoint (D := forward.tangents V seed) exact
      (fun p r hr off => tangents_of_not_wanted ordered still hn backward plain hr off)
      hnG rfl type float polynomial plain (net.floatsAt proper exact whole hn type) floats dims
      g₁ grads g' added).2 part
    have owed : forward.owed V seed cs id = pairing (volume (V.array (.node id)).dims)
        (V.array gradient).get
        (n.kind.tangent (n.inputs.map V.array) (n.inputs.map (forward.tangents V seed))) := by
      rw [owed_eq_pairing ordered hn other]
      refine pairing_congr (fun i hi => ?_) fun _ _ => rfl
      rw [← dims] at hi
      exact (elements i hi).symm
    have positions : flowPositions n.kind n.inputs.length = List.range n.inputs.length := by
      simp [flowPositions, plain]
    rw [positions, owed]
    exact paid

end

/-- Visiting a node keeps the balance. -/
theorem propagate (balanced : forward.Balanced m G V seed visited (id :: left) cs)
    (shaped : Shaped m forward g cs) (net : forward.PolynomialNet m) (proper : forward.Proper m)
    (exact : G.Exact m V) (still : ∀ v, m.isTrained v = false → seed v = fun _ => 0)
    (hn : forward.node? id = some n) (backward : id ∈ forward.backwardIds m) (fresh : id ∉ left)
    (waiting : ∀ r ∈ forward.flows id, Reaches m (forward.backwardIds m) r → awaits left r = true)
    (h : (n.propagate m id (forward.backwardIds m) cs).run g = .ok (cs', g'))
    (whole : G.Extends forward) (part : G.Extends g') :
    forward.Balanced m G V seed (visited ++ [id]) left cs' := by
  have member : n ∈ forward.nodes := Array.mem_of_getElem? hn
  obtain ⟨total, g₁, summed, rest⟩ := Emit.run_bind_eq_ok h
  obtain ⟨grads, g₂, added, done⟩ := Emit.run_bind_eq_ok rest
  cases done
  replace added : (n.gradients m id total (n.wants m (forward.backwardIds m))).run g₁ =
    .ok (grads, g') := added
  have kind : n.kind ≠ .save := by
    intro save
    simp only [Node.gradients, save] at added
    cases total <;> cases added
  have polynomial := (net.polynomial n member).resolve_left kind
  obtain ⟨d, type⟩ := net.exists_type proper member kind
  have float := net.floats n member d (.inl type)
  refine balanced.extend hn fresh kind waiting ?_
  by_cases loss : n.kind = .regression
  · exact balanced.pays_loss net proper exact hn backward whole type float loss added part
  · exact pays_sum net proper exact hn backward whole type float shaped balanced.floats still
      polynomial loss summed added part

theorem floatsAt_target (balanced : forward.Balanced m G V seed visited left cs)
    (net : forward.PolynomialNet m) (proper : forward.Proper m) (exact : G.Exact m V)
    (whole : G.Extends forward) {c : Contribution} (hc : c ∈ cs) : V.FloatsAt m G c.target := by
  obtain ⟨id, hid, flow⟩ := balanced.flows c hc
  cases hn : forward.node? id with
  | none => simp [Graph.flows, hn] at flow
  | some n =>
    obtain ⟨d, type⟩ :=
      net.exists_type proper (Array.mem_of_getElem? hn) (balanced.kinds id hid n hn)
    exact net.floatsAt proper exact whole hn type _ (flows_subset hn flow)

end Graph.Balanced

theorem Shaped.visit_extends {m : Module α} {forward g g' : Graph α} {cs cs' : List Contribution}
    (proper : forward.Proper m) {ids : List NodeId}
    (backward : ∀ id ∈ ids, id ∈ forward.backwardIds m) (shaped : Shaped m forward g cs)
    (h : (ids.foldlM (fun (cs : List Contribution) (id : NodeId) => (do
      let n ← forward.node id
      n.propagate m id (forward.backwardIds m) cs : Emit α (List Contribution))) cs).run g =
        .ok (cs', g')) : g'.Extends g := by
  induction ids generalizing g cs with
  | nil =>
    cases h
    exact .refl _
  | cons id ids ih =>
    rw [List.foldlM_cons] at h
    obtain ⟨cs₁, g₁, visited, rest⟩ := Emit.run_bind_eq_ok h
    obtain ⟨n, g₀, found, moved⟩ := Emit.run_bind_eq_ok visited
    obtain ⟨known, rfl⟩ := Emit.run_lift found
    have hn := Graph.node_eq_ok_iff.mp known
    have here := backward id List.mem_cons_self
    have shaped₁ := shaped.propagate proper hn here moved
    refine (ih (fun id h => backward id (List.mem_cons_of_mem _ h)) shaped₁ rest).trans ?_
    obtain ⟨total, g₂, summed, passing⟩ := Emit.run_bind_eq_ok moved
    obtain ⟨grads, g₃, added, done⟩ := Emit.run_bind_eq_ok passing
    cases done
    obtain ⟨shaped₂, sum⟩ := shaped.totalGradient summed
    exact (shaped₂.gradients proper hn here sum added).1.extends'.trans
      (Node.totalGradient_extends summed)

/-- When all backward nodes have been visited, no gradient is left but those of variables. -/
theorem Graph.Balanced.visit {m : Module α} {forward g g' G : Graph α} {V : Valuation α}
    {seed : VarId → Nat → α} {visited ids : List NodeId} {cs cs' : List Contribution}
    (balanced : forward.Balanced m G V seed visited ids cs) (shaped : Shaped m forward g cs)
    (net : forward.PolynomialNet m) (proper : forward.Proper m) (exact : G.Exact m V)
    (still : ∀ v, m.isTrained v = false → seed v = fun _ => 0)
    (split : forward.backwardIds m = visited ++ ids)
    (h : (ids.foldlM (fun (cs : List Contribution) (id : NodeId) => (do
      let n ← forward.node id
      n.propagate m id (forward.backwardIds m) cs : Emit α (List Contribution))) cs).run g =
        .ok (cs', g')) (whole : G.Extends forward) (part : G.Extends g') :
    forward.Balanced m G V seed (forward.backwardIds m) [] cs' := by
  induction ids generalizing g cs visited with
  | nil =>
    cases h
    rw [split, List.append_nil]
    exact balanced
  | cons id ids ih =>
    rw [List.foldlM_cons] at h
    obtain ⟨cs₁, g₁, first, rest⟩ := Emit.run_bind_eq_ok h
    obtain ⟨n, g₀, found, moved⟩ := Emit.run_bind_eq_ok first
    obtain ⟨known, rfl⟩ := Emit.run_lift found
    have hn := Graph.node_eq_ok_iff.mp known
    have member : ∀ i ∈ id :: ids, i ∈ forward.backwardIds m := fun i hi => by
      rw [split]
      exact List.mem_append_right _ hi
    have here := member id List.mem_cons_self
    have shaped₁ := shaped.propagate proper hn here moved
    have more := shaped₁.visit_extends proper (fun i hi => member i (List.mem_cons_of_mem _ hi)) rest
    have balanced₁ := balanced.propagate shaped net proper exact still hn here
      (Graph.not_mem_left split) (fun r => Graph.awaits_of_flows split proper.formed.ordered) moved
      whole (part.trans more)
    exact ih balanced₁ shaped₁ (by rw [split, List.append_assoc]; rfl) rest

end NeuralGraph
