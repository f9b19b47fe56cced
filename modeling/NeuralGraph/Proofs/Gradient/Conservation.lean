import NeuralGraph.Proofs.Integers
import NeuralGraph.Proofs.Gradient.Accounts

/-!
# No gradient is lost

Differentiation hands every gradient of a value to the rule of its node, and only losses are handed
nothing.  So if no loss is passed on the way, the gradients of a trained variable stand for the paths
to it from saved losses.  The gradients of a loss whose value another node uses are lost.
-/

namespace NeuralGraph
set_option autoImplicit false
variable {α : Type}

namespace Graph
variable [Scalar α] {g forward : Graph α} {m : Module α}

/-- No loss is passed: a loss of the backward set is saved, and no backward node goes on from it. -/
def LossesLast (g : Graph α) (m : Module α) : Prop :=
  ∀ id ∈ g.backwardIds m, g.isLoss id = true →
    id ∈ g.savedLosses ∧ ∀ consumer ∈ g.backwardIds m, Ref.node id ∉ g.flows consumer

omit [Scalar α] in
theorem isLoss_of_saved {id : NodeId} (saved : id ∈ g.savedLosses) : g.isLoss id = true := by
  obtain ⟨⟨n, hn, loss⟩, -⟩ := mem_savedLosses.mp saved
  simp only [isLoss, hn, Option.any_some, loss]

omit [Scalar α] in
theorem isLoss_eq_false {id : NodeId} {n : Node α} (hn : g.node? id = some n)
    (other : n.kind.isLoss = false) : g.isLoss id = false := by
  simp only [isLoss, hn, Option.any_some, other]

omit [Scalar α] in
theorem Path.carries (last : g.LossesLast m) {source : NodeId} (saved : source ∈ g.savedLosses)
    {us : List Use} {r : Ref} (path : g.Path source us r)
    (backward : ∀ u ∈ us, u.consumer ∈ g.backwardIds m) (filled : us ≠ []) :
    g.Carries (g.backwardIds m) us r := by
  induction path with
  | nil => exact absurd rfl filled
  | @snoc us consumer u r path use ih =>
    have member : consumer ∈ g.backwardIds m := by
      rw [← consumer_of_mem_usesOf use]
      exact backward u (List.mem_append_right _ (List.mem_singleton_self _))
    have earlier : ∀ u ∈ us, u.consumer ∈ g.backwardIds m :=
      fun u hu => backward u (List.mem_append_left _ hu)
    cases path with
    | nil => exact .start member (isLoss_of_saved saved) use
    | @snoc us before u' _ path use' =>
      refine .next (ih earlier (by simp)) member (Bool.eq_false_iff.mpr fun loss => ?_) use
      refine (last consumer member loss).2 before ?_ (mem_flows_of_mem_usesOf use')
      rw [← consumer_of_mem_usesOf use']
      exact earlier u' (List.mem_append_right _ (List.mem_singleton_self _))

omit [Scalar α] in
/-- If no loss is passed, what is carried to a trained variable are the paths from saved losses. -/
theorem carries_iff_path (ordered : g.Ordered) (last : g.LossesLast m) {w : VarId}
    (trained : m.isTrained w = true) {us : List Use} :
    g.Carries (g.backwardIds m) us (.var w) ↔ ∃ loss ∈ g.savedLosses, g.Path loss us (.var w) := by
  constructor
  · intro carries
    obtain ⟨loss, member, is, path⟩ := carries.path
    exact ⟨loss, (last loss member is).1, path⟩
  · rintro ⟨loss, saved, path⟩
    exact path.carries last saved (path.backward ordered saved trained) path.ne_nil

/-- What a pass over the backward set does with the gradients of values. -/
structure Conserves (forward : Graph α) (m : Module α) (train : Graph α) (visits : List Visit) :
    Prop where
  /-- Every backward node is visited once. -/
  nodes : visits.map Visit.node = forward.backwardIds m
  visited : ∀ v ∈ visits, forward.Visited m train v
  /-- The rule of a node that is no loss is handed all gradients of its value: one for each use. -/
  hands : ∀ v ∈ visits, ∀ n, forward.node? v.node = some n → n.kind.isLoss = false →
    ∃ parts r, v.handed = some r ∧ train.Hands n.type parts r ∧
      List.Forall₂ (Visit.Gives visits) (forward.backwardUses m (.node v.node)) parts
  /-- The gradients of a trained variable stand for the paths to it from the last loss on them. -/
  paths : ∀ w, m.isTrained w = true → (forward.accounts visits.reverse (.var w)).Nodup ∧
    ∀ us, us ∈ forward.accounts visits.reverse (.var w) ↔
      forward.Carries (forward.backwardIds m) us (.var w)

theorem Backpropagates.conserves {cs : List Contribution} {sums : List WeightGradient}
    {train : Graph α} (formed : forward.WellFormed) (h : forward.Backpropagates m cs sums g)
    (extends' : train.Extends g) : ∃ visits, forward.Conserves m train visits := by
  obtain ⟨visits, g₁, nodes, walk, summed⟩ := h.walk formed.ordered
  have grown : train.Extends g₁ := extends'.trans (weightSums_eq_ok summed).1
  have decreasing := pairwise_decreasing nodes
  have backward : ∀ v ∈ visits, v.node ∈ forward.backwardIds m :=
    fun v hv => nodes ▸ List.mem_map_of_mem hv
  have hands := walk.hands formed.ordered (fun _ _ hn => hn) decreasing
  have visited : ∀ v ∈ visits, forward.Visited m train v := by
    intro v hv
    obtain ⟨n, ran⟩ := walk.ran formed backward v hv
    refine ⟨backward v hv, ⟨n, ran.mono grown⟩, ?_⟩
    cases loss : n.kind.isLoss with
    | true => simp only [isLoss, ran.found, Option.any_some, loss,
        walk.handed_loss v hv n ran.found loss, Option.isNone_none]
    | false =>
      obtain ⟨r, handed, -⟩ := hands v hv n ran.found loss
      rw [isLoss_eq_false ran.found loss, handed, Option.isNone_some]
  refine ⟨visits, nodes, visited, fun v hv n hn other => ?_, fun w trained => ?_⟩
  · obtain ⟨r, handed, hands⟩ := hands v hv n hn other
    exact ⟨_, r, handed, hands.mono grown,
      walk.gives_all (r := .node v.node) formed nodes (backward v hv)⟩
  · have reversed : ∀ v ∈ visits.reverse, forward.Visited m train v :=
      fun v hv => visited v (List.mem_reverse.mp hv)
    have increasing : visits.reverse.Pairwise fun (v w : Visit) => v.node.index < w.node.index :=
      List.pairwise_reverse.mpr decreasing
    refine ⟨accounts_nodup (r := .var w) formed.ordered reversed increasing trained, fun us => ?_⟩
    rw [mem_accounts (r := .var w) formed.ordered reversed increasing trained, List.map_reverse,
      nodes]
    exact ⟨fun carries => carries.mono (List.reverse_subset.mpr (List.Subset.refl _)),
      fun carries => carries.mono (List.subset_reverse.mpr (List.Subset.refl _))⟩

omit [Scalar α] in
theorem LossesLast.backwardUses_eq_nil (last : g.LossesLast m) {id : NodeId}
    (backward : id ∈ g.backwardIds m) (loss : g.isLoss id = true) :
    g.backwardUses m (.node id) = [] := by
  refine List.flatMap_eq_nil_iff.mpr fun consumer member => ?_
  refine List.eq_nil_iff_forall_not_mem.mpr fun u use => ?_
  exact (last id backward loss).2 consumer member (mem_flows_of_mem_usesOf use)

end Graph

variable [Scalar α] {m m' : Module α} {forward train : Graph α}

/-- Differentiation hands on every gradient of a value, except to losses.  If no loss is passed, none
is lost: only saved losses start paths, and the gradients of a trained variable stand for the paths to
it from saved losses, each path once. -/
theorem Build.trainingGraph_conserves {f : GraphId} {rule : UpdateRule α} (made : forward.Made)
    (found : m.graph? f = some forward) (h : Yields (trainingGraph f rule) m train m') :
    ∃ visits, forward.Conserves m train visits ∧
      (forward.LossesLast m →
        (∀ v ∈ visits, v.handed = none ↔ v.node ∈ forward.savedLosses) ∧
        (∀ v ∈ visits, v.handed = none → forward.backwardUses m (.node v.node) = []) ∧
        ∀ w, m.isTrained w = true → ∀ us, us ∈ forward.accounts visits.reverse (.var w) ↔
          ∃ loss ∈ forward.savedLosses, forward.Path loss us (.var w)) := by
  obtain ⟨forward', cs, sums, g, found', passes, updated⟩ := trainingGraph_eq_ok h
  obtain rfl : forward = forward' := Option.some.inj (found.symm.trans found')
  have formed := made.formed
  obtain ⟨visits, conserves⟩ := passes.conserves formed (withUpdates_pushes updated).extends'
  refine ⟨visits, conserves, fun last => ⟨fun v hv => ?_, fun v hv handed => ?_,
    fun w trained us => ?_⟩⟩
  · have own := conserves.visited v hv
    rw [← Option.isNone_iff_eq_none, own.handed]
    exact ⟨fun loss => (last v.node own.backward loss).1, Graph.isLoss_of_saved⟩
  · have own := conserves.visited v hv
    have loss : forward.isLoss v.node = true := own.handed ▸ Option.isNone_iff_eq_none.mpr handed
    exact last.backwardUses_eq_nil own.backward loss
  · rw [(conserves.paths w trained).2, Graph.carries_iff_path formed.ordered last trained]

/-! ## A value that is used twice -/

/-- A product with a weight, added to its product with the same weight. -/
def residualGraph : Graph Int where
  name := "residual"
  nodes := #[⟨"inner", .compute .matMul, [.var ⟨0⟩, .var ⟨1⟩], some (.float [1, 1])⟩,
    ⟨"outer", .compute .matMul, [.node ⟨0⟩, .var ⟨1⟩], some (.float [1, 1])⟩,
    ⟨"total", .compute (.binary .add), [.node ⟨0⟩, .node ⟨1⟩], some (.float [1, 1])⟩,
    ⟨"loss", .regression, [.node ⟨2⟩, .var ⟨2⟩], some (.float [1, 1])⟩,
    ⟨"save", .save, [.node ⟨3⟩, .var ⟨3⟩], none⟩]
  inPlace := false

/-- An input, a weight, an expected value and an output. -/
def residualModule : Module Int where
  vars := #[⟨"x", .float [1, 1], .exposed, .untrained, .full (.float [1, 1]) 2⟩,
    ⟨"w", .float [1, 1], .hidden, .constant 3, .full (.float [1, 1]) 3⟩,
    ⟨"y", .float [1, 1], .exposed, .untrained, .full (.float [1, 1]) 1⟩,
    ⟨"out", .float [1, 1], .exposed, .untrained, .zeros (.float [1, 1])⟩]
  graphs := #[residualGraph]
  generator := .ofSeed 1

theorem residualGraph_made : residualGraph.Made := .of_rebuild (g := residualGraph) (by cbv)

theorem residualModule_trains :
    ∃ train m', Yields (Build.trainingGraph ⟨0⟩ ⟨1, 0, 0⟩) residualModule train m' :=
  exists_yields (by decide +kernel)

/-- The loss reaches the weight along three paths. -/
theorem residualModule_conserves : residualGraph.Made ∧
    residualModule.graph? ⟨0⟩ = some residualGraph ∧ residualGraph.LossesLast residualModule ∧
      ∃ train m' visits, Yields (Build.trainingGraph ⟨0⟩ ⟨1, 0, 0⟩) residualModule train m' ∧
        residualGraph.Conserves residualModule train visits ∧
        (∀ v ∈ visits, v.handed = none ↔ v.node ∈ residualGraph.savedLosses) ∧
        ∀ us, us ∈ residualGraph.accounts visits.reverse (.var ⟨1⟩) ↔
          ∃ loss ∈ residualGraph.savedLosses, residualGraph.Path loss us (.var ⟨1⟩) := by
  have last : residualGraph.LossesLast residualModule := by
    unfold Graph.LossesLast
    decide +kernel
  obtain ⟨train, m', trains⟩ := residualModule_trains
  obtain ⟨visits, conserves, whole⟩ :=
    Build.trainingGraph_conserves residualGraph_made rfl trains
  obtain ⟨saved, -, paths⟩ := whole last
  exact ⟨residualGraph_made, rfl, last, train, m', visits, trains, conserves, saved,
    paths ⟨1⟩ (by decide +kernel)⟩

/-! ## A loss of a loss -/

/-- The loss of a product, expected to be the input of another loss, which alone is saved. -/
def chainedGraph : Graph Int where
  name := "chained"
  nodes := #[⟨"product", .compute .matMul, [.var ⟨0⟩, .var ⟨1⟩], some (.float [1, 1])⟩,
    ⟨"inner", .regression, [.node ⟨0⟩, .var ⟨2⟩], some (.float [1, 1])⟩,
    ⟨"outer", .regression, [.node ⟨1⟩, .var ⟨2⟩], some (.float [1, 1])⟩,
    ⟨"save", .save, [.node ⟨2⟩, .var ⟨3⟩], none⟩]
  inPlace := false

def chainedModule : Module Int := { residualModule with graphs := #[chainedGraph] }

/-- The inner loss is not saved, and its gradient is computed and then used by no node. -/
theorem chainedModule_loses : (⟨1⟩ : NodeId) ∉ chainedGraph.savedLosses ∧
    ∃ train m' n, Yields (Build.trainingGraph ⟨0⟩ ⟨1, 0, 0⟩) chainedModule train m' ∧
      train.node? ⟨4⟩ = some n ∧ n.name = "outer.grad" ∧ n.inputs = [.node ⟨1⟩, .var ⟨2⟩] ∧
      ∀ k ∈ train.nodes, Ref.node ⟨4⟩ ∉ k.inputs := by
  refine ⟨by decide +kernel, ?_⟩
  have loses : ((Build.trainingGraph ⟨0⟩ ⟨1, 0, 0⟩).run.run chainedModule).1.toOption.any
      (fun (train : Graph Int) => ((train.node? ⟨4⟩).any fun (n : Node Int) =>
        n.name == "outer.grad" && n.inputs == [.node ⟨1⟩, .var ⟨2⟩]) &&
          train.nodes.all fun (k : Node Int) => !k.inputs.contains (.node ⟨4⟩)) = true := by
    decide +kernel
  obtain ⟨train, m', trains⟩ : ∃ train m',
      Yields (Build.trainingGraph ⟨0⟩ ⟨1, 0, 0⟩) chainedModule train m' :=
    exists_yields (by decide +kernel)
  rw [Yields] at trains
  simp only [trains, Except.toOption, Option.any_some, Bool.and_eq_true, Array.all_eq_true_iff_forall_mem,
    Bool.not_eq_true', List.contains_eq_mem, decide_eq_false_iff_not] at loses
  cases found : train.node? ⟨4⟩ with
  | none => simp [found] at loses
  | some n =>
    simp only [found, Option.any_some, Bool.and_eq_true, beq_iff_eq] at loses
    exact ⟨train, m', n, trains, found, loses.1.1, loses.1.2, loses.2⟩

end NeuralGraph
