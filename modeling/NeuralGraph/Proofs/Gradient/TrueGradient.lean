import NeuralGraph.Proofs.Gradient.Balance
import NeuralGraph.Proofs.Gradient.Paths
import NeuralGraph.Proofs.Gradient.Sections
import NeuralGraph.Proofs.Module.Evolution

/-!
# Sums of gradients are the true gradient

The sums that a training graph computes for the trained variables pair with every choice of tangents
to what the losses change along these tangents.  A variable has a sum if and only if it flows into a
saved loss.
-/

namespace NeuralGraph
set_option autoImplicit false
variable {α : Type}

/-! ## Sums over weights -/

section
variable {M : Type} [AddCommMonoid M]

theorem List.sum_map_single {β : Type} [DecidableEq β] {xs : List β} (nodup : xs.Nodup) {b : β}
    (h : b ∈ xs) (a : M) : (xs.map fun (x : β) => if x = b then a else 0).sum = a := by
  induction xs with
  | nil => cases h
  | cons x xs ih =>
    obtain ⟨fresh, nodup⟩ := List.nodup_cons.mp nodup
    rw [List.map_cons, List.sum_cons]
    rcases List.mem_cons.mp h with rfl | h
    · have none : (xs.map fun (x : β) => if x = b then a else 0).sum = 0 := by
        refine List.sum_eq_zero fun y hy => ?_
        obtain ⟨x, hx, rfl⟩ := List.mem_map.mp hy
        rw [if_neg]
        rintro rfl
        exact fresh hx
      rw [if_pos rfl, none, add_zero]
    · rw [if_neg, zero_add, ih nodup h]
      rintro rfl
      exact fresh h

/-- Contributions to variables, variable by variable. -/
theorem sum_by_weight (f : Contribution → M) {vs : List VarId} (nodup : vs.Nodup)
    {cs : List Contribution} (listed : ∀ c ∈ cs, ∃ v ∈ vs, c.target = .var v) :
    (vs.map fun (v : VarId) =>
      ((cs.filter fun (c : Contribution) => c.target == .var v).map f).sum).sum =
        (cs.map f).sum := by
  induction cs with
  | nil => simp
  | cons c cs ih =>
    obtain ⟨v, hv, target⟩ := listed c List.mem_cons_self
    have split : ∀ u : VarId, (((c :: cs).filter fun (c : Contribution) => c.target == .var u).map
        f).sum = (if u = v then f c else 0) +
          ((cs.filter fun (c : Contribution) => c.target == .var u).map f).sum := by
      intro u
      rw [List.filter_cons, target]
      by_cases e : u = v
      · subst e
        simp
      · have other : (Ref.var v == Ref.var u) = false := by simpa using Ne.symm e
        rw [other, if_neg e, zero_add, if_neg Bool.false_ne_true]
    simp only [split, List.sum_map_add, List.map_cons, List.sum_cons]
    rw [ih fun c hc => listed c (List.mem_cons_of_mem _ hc), List.sum_map_single nodup hv]

end

variable [RingScalar α] {m : Module α} {forward g G : Graph α} {V : Valuation α}
  {seed : VarId → Nat → α} {cs : List Contribution} {sums : List WeightGradient}

/-- When no node is left, the gradients are worth what those of the variables are worth. -/
theorem Valuation.balance_nil {D : Ref → Nat → α} {vs : List VarId} (nodup : vs.Nodup)
    (listed : ∀ c ∈ cs, ∀ v, c.target = .var v → v ∈ vs) : V.balance D [] cs =
      (vs.map fun (v : VarId) =>
        ((cs.filter fun (c : Contribution) => c.target == .var v).map (V.worth D)).sum).sum := by
  have targets : ∀ c ∈ cs.filter (fun (c : Contribution) => awaits [] c.target),
      ∃ v ∈ vs, c.target = .var v := by
    intro c hc
    obtain ⟨hc, waits⟩ := List.mem_filter.mp hc
    cases target : c.target with
    | node id => simp [target, awaits] at waits
    | var v => exact ⟨v, listed c hc v target, rfl⟩
  rw [balance, ← sum_by_weight _ nodup targets]
  refine congrArg List.sum (List.map_congr_left fun v _ => ?_)
  rw [List.filter_filter]
  congr 3
  funext c
  cases target : c.target with
  | node id => rfl
  | var u => simp [awaits]

/-! ## Losses -/

/-- The losses among the backward nodes are the saved losses, as far as they change at all. -/
theorem Graph.PolynomialNet.sum_losses (net : forward.PolynomialNet m) (formed : forward.WellFormed)
    (still : ∀ v, m.isTrained v = false → seed v = fun _ => 0)
    (kinds : ∀ id ∈ forward.backwardIds m, ∀ n, forward.node? id = some n → n.kind ≠ .save) :
    ((forward.backwardIds m).map (forward.lossTangent V seed)).sum =
      ∑ loss ∈ forward.savedLosses.toFinset, forward.lossTangent V seed loss := by
  have ordered := formed.ordered
  have nodup : (forward.backwardIds m).Nodup :=
    (forward.backwardIds_decreasing m).imp fun {a b} h e => by
      subst e
      exact Nat.lt_irrefl _ h
  rw [← List.sum_toFinset _ nodup]
  have apart : ∀ id ∈ forward.backwardIds m, id ∉ forward.savedLosses →
      forward.lossTangent V seed id = 0 := by
    intro id backward unsaved
    obtain ⟨bound, depends, contributes⟩ := mem_backwardIds.mp backward
    have hn : forward.node? id = some forward.nodes[id.index] := Array.getElem?_eq_getElem bound
    refine lossTangent_eq_zero hn fun loss => ?_
    -- a loss that is not saved would have to be used by another backward node
    obtain ⟨saved, member, path⟩ := contributors_sound contributes
    rcases path with rfl | path
    · exact unsaved member
    · have reaches : Reaches m (forward.dependents m (firstIds forward.size)) (.node id) := depends
      obtain ⟨b, hb, flow⟩ := path.backward ordered reaches (contributors_extend member)
      have bound' : b.index < forward.nodes.size := lt_size_of_flows flow
      have hn' : forward.node? b = some forward.nodes[b.index] := Array.getElem?_eq_getElem bound'
      exact net.losses _ (Array.mem_of_getElem? hn') (kinds b hb _ hn') id _
        (flows_subset hn' flow) hn loss
  have silent : ∀ id ∈ forward.savedLosses, id ∉ forward.backwardIds m →
      forward.lossTangent V seed id = 0 := by
    intro id saved off
    obtain ⟨⟨n, hn, loss⟩, -⟩ := mem_savedLosses.mp saved
    have bound : id.index < forward.size := (Array.getElem?_eq_some_iff.mp hn).1
    have still' := tangents_of_not_dependent (V := V) ordered still bound fun depends =>
      off (mem_backwardIds.mpr ⟨bound, depends, contributors_extend saved⟩)
    rw [tangents_node ordered hn] at still'
    rw [lossTangent, hn]
    split
    · next own =>
      cases own
      have same : forward.tangents V seed _ = fun _ => 0 := still'
      rw [same, pairing_zero]
    · rfl
  refine Finset.sum_congr_of_eq_on_inter (fun id member off => ?_) (fun id member off => ?_)
    fun _ _ _ => rfl
  · exact apart id (List.mem_toFinset.mp member) fun h => off (List.mem_toFinset.mpr h)
  · exact silent id (List.mem_toFinset.mp member) fun h => off (List.mem_toFinset.mpr h)

/-! ## The sums of gradients -/

/-- Every trained variable that flows into a saved loss has one sum, and nothing else has.  Along every
choice of tangents of the trained variables, the sums are together worth what the losses change. -/
structure Graph.TrueGradient (forward : Graph α) (m : Module α) (V : Valuation α)
    (sums : List WeightGradient) : Prop where
  distinct : (sums.map WeightGradient.weight).Nodup
  reached : ∀ v, (∃ w ∈ sums, w.weight = v) ↔
    m.isTrained v = true ∧ ∃ loss ∈ forward.savedLosses, forward.FlowsInto (.var v) loss
  balance : ∀ seed : VarId → Nat → α, (∀ v, m.isTrained v = false → seed v = fun _ => 0) →
    (sums.map fun (w : WeightGradient) =>
      pairing (volume (V.array (.node w.total)).dims) (V.array (.node w.total)).get
        (seed w.weight)).sum =
      ∑ loss ∈ forward.savedLosses.toFinset, forward.lossTangent V seed loss

/-- The variables that are reached have gradients in the end, and only they. -/
theorem Graph.Balanced.reached_iff
    (balanced : forward.Balanced m G V seed (forward.backwardIds m) [] cs)
    (shaped : Shaped m forward g cs) (ordered : forward.Ordered) {v : VarId} :
    contributionsTo cs (.var v) ≠ [] ↔ forward.ReachedBy m v := by
  rw [contributionsTo_ne_nil, reachedBy_iff ordered]
  constructor
  · rintro ⟨c, hc, target⟩
    have reaches := shaped.targets c hc
    obtain ⟨id, backward, flow⟩ := balanced.flows c hc
    rw [target] at reaches flow
    exact ⟨reaches, id, backward, flow⟩
  · rintro ⟨trained, id, backward, flow⟩
    exact balanced.complete id backward _ flow trained

/-- The sum for a variable is worth what its parts are worth. -/
theorem Graph.Balanced.worth_total {visited left : List NodeId} {w : WeightGradient} {v : Variable α}
    {n : Node α} (balanced : forward.Balanced m G V seed visited left cs)
    (net : forward.PolynomialNet m) (proper : forward.Proper m) (exact : G.Exact m V)
    (whole : G.Extends forward) (total : w.Totals m G cs v n) :
    pairing (volume (V.array (.node w.total)).dims) (V.array (.node w.total)).get (seed w.weight) =
      ((cs.filter fun (c : Contribution) => c.target == .var w.weight).map
        (V.worth (forward.tangents V seed))).sum := by
  obtain ⟨c, hc, target⟩ := contributionsTo_ne_nil.mp total.reached
  obtain ⟨t, typed, float, dims⟩ := balanced.floatsAt_target net proper exact whole hc
  rw [target] at typed dims
  obtain ⟨u, hu, rfl⟩ := Module.typeOf_var_iff.mp typed
  obtain rfl := Option.some.inj (hu.symm.trans total.weight)
  have has : G.Has (.node w.total) .gradientSum (contributionsTo cs (.var w.weight)) u.type :=
    ⟨_, n, rfl, total.total, total.kind, total.inputs, total.type, float⟩
  have same : (V.array (.var w.weight)).dims = (V.array (.node w.total)).dims :=
    dims.trans (exact.dims has).symm
  rw [V.sum_worth, same, tangents_var]
  exact pairing_congr (fun i hi => exact.gradientSum has hi) fun _ _ => rfl

/-- The pass ends in balance. -/
theorem Graph.Backpropagates.balanced (h : forward.Backpropagates m cs sums g)
    (ready : forward.Ready m) (layers : ∀ n ∈ forward.nodes, n.kind.isLayer = true)
    (net : forward.PolynomialNet m) (exact : g.Exact m V)
    (still : ∀ v, m.isTrained v = false → seed v = fun _ => 0) :
    forward.Balanced m g V seed (forward.backwardIds m) [] cs := by
  obtain ⟨shaped, -⟩ := h.shaped ready layers
  obtain ⟨order, g₁, horder, pass, summed⟩ := h
  have same := ready.proper.formed.ordered.evaluationOrder_eq
  rw [horder, Except.ok.injEq] at same
  subst same
  have start : Shaped m forward { forward with name := forward.name ++ ".train" } [] :=
    .start ready layers
  have nothing : forward.Balanced m g V seed [] (forward.backwardIds m) [] :=
    ⟨rfl, by simp, by simp, by simp, by simp⟩
  exact nothing.visit start net ready.proper exact still rfl pass shaped.extends'
    (weightSums_eq_ok summed).1

/-- The sums for the variables are the true gradient at every solution. -/
theorem Graph.Backpropagates.gradients_exact (h : forward.Backpropagates m cs sums g)
    (ready : forward.Ready m) (layers : ∀ n ∈ forward.nodes, n.kind.isLayer = true)
    (net : forward.PolynomialNet m) (exact : g.Exact m V) : forward.TrueGradient m V sums := by
  have formed := ready.proper.formed
  obtain ⟨shaped, totals⟩ := h.shaped ready layers
  have balanced : ∀ seed : VarId → Nat → α, (∀ v, m.isTrained v = false → seed v = fun _ => 0) →
      forward.Balanced m g V seed (forward.backwardIds m) [] cs :=
    fun _ still => h.balanced ready layers net exact still
  have none := balanced (fun _ _ => 0) fun _ _ => rfl
  obtain ⟨order, g₁, -, -, summed⟩ := h
  have weights : ∀ v, v ∈ sums.map WeightGradient.weight ↔ forward.ReachedBy m v := by
    intro v
    rw [mem_weightSums summed, none.reached_iff shaped formed.ordered]
    exact and_iff_right_of_imp fun reached => Module.lt_size_of_isTrained reached.1
  refine ⟨weightSums_nodup summed, fun v => ?_, fun seed still => ?_⟩
  · rw [← List.mem_map]
    exact weights v
  · have balanced := balanced seed still
    have listed : ∀ c ∈ cs, ∀ v, c.target = .var v → v ∈ sums.map WeightGradient.weight := by
      intro c hc v target
      rw [weights, ← none.reached_iff shaped formed.ordered]
      exact contributionsTo_ne_nil.mpr ⟨c, hc, target⟩
    rw [← net.sum_losses formed still balanced.kinds, ← balanced.worth,
      Valuation.balance_nil (weightSums_nodup summed) listed, List.map_map]
    refine congrArg List.sum (List.map_congr_left fun w hw => ?_)
    obtain ⟨v, n, total⟩ := totals w hw
    exact balanced.worth_total net ready.proper exact shaped.extends' total

end NeuralGraph
