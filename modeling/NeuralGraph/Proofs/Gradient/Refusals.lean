import Mathlib
import NeuralGraph.Proofs.Gradient.Outcomes
import NeuralGraph.Proofs.Gradient.WellShaped

/-!
# Refusals

`Graph.DifferentiationError`: the errors that differentiation can end with, each with the reason for it
in terms of the graph and the variables of its module.  A graph made by layers is refused for one of
these reasons if there is one, and is differentiated otherwise.
-/

namespace NeuralGraph
set_option autoImplicit false
variable {α : Type}

/-! ## Reasons -/

/-- The value of the node, which is a loss, is saved. -/
def Graph.SavesLoss (g : Graph α) (id : NodeId) : Prop :=
  (∃ n, g.node? id = some n ∧ (n.kind = .compute .softmax ∨ n.kind = .regression)) ∧
    ∃ s ∈ g.nodes, s.kind = .save ∧ s.inputs.head? = some (.node id)

/-- The node stands between a trained variable and a saved loss, and its kind has no rule. -/
structure Graph.LacksRule (g : Graph α) (m : Module α) (id : NodeId) (n : Node α) : Prop where
  found : g.node? id = some n
  noRule : n.kind.hasRule = false
  contributes : ∃ loss, g.SavesLoss loss ∧ (id = loss ∨ g.FlowsInto (.node id) loss)
  depends : ∃ w, m.isTrained w = true ∧ g.FlowsInto (.var w) id

/-- How the differentiation of a graph of the module fails.  Of several nodes without rules the last one
is named, and of several velocities that are in the way that of the first weight. -/
inductive Graph.DifferentiationError [Scalar α] (g : Graph α) (m : Module α) : Error α → Prop
  | noLoss : (∀ id, ¬g.SavesLoss id) → DifferentiationError g m (.noLoss g.name)
  | noGradient {id : NodeId} {n : Node α} : g.LacksRule m id n →
    (∀ id' n', g.LacksRule m id' n' → id'.index ≤ id.index) →
    DifferentiationError g m (.noGradient n.kind n.name)
  | duplicateName {w : VarId} {v : Variable α} : (∀ id n, ¬g.LacksRule m id n) →
    g.ReachedBy m w → m.VelocityTaken w → m.var? w = some v →
    (∀ w', g.ReachedBy m w' → m.VelocityTaken w' → w.index ≤ w'.index) →
    DifferentiationError g m (.duplicateName (v.name ++ ".velocity") .vars)

namespace Graph
variable {m : Module α} {g : Graph α} {id : NodeId} {n : Node α}

theorem isLoss_iff {kind : NodeKind α} :
    kind.isLoss = true ↔ kind = .compute .softmax ∨ kind = .regression := by
  unfold NodeKind.isLoss
  split <;> simp_all

theorem savesLoss_iff : g.SavesLoss id ↔ id ∈ g.savedLosses := by
  simp only [SavesLoss, mem_savedLosses, isLoss_iff]

theorem lacksRule_iff (ordered : g.Ordered) (found : g.node? id = some n) :
    g.LacksRule m id n ↔ id ∈ g.backwardIds m ∧ n.kind.hasRule = false := by
  simp only [mem_backwardIds_iff_flowsInto ordered, ← savesLoss_iff]
  constructor
  · rintro ⟨-, noRule, contributes, depends⟩
    exact ⟨⟨contributes, depends⟩, noRule⟩
  · rintro ⟨⟨contributes, depends⟩, noRule⟩
    exact ⟨found, noRule, contributes, depends⟩

/-- Of the nodes without rules there is a last one. -/
theorem LacksRule.exists_last (lacks : g.LacksRule m id n) : ∃ id n, g.LacksRule m id n ∧
    ∀ id' n', g.LacksRule m id' n' → id'.index ≤ id.index := by
  classical
  have bound : ∀ {id n}, g.LacksRule m id n → id.index ≤ g.size := fun lacks =>
    Nat.le_of_lt (Array.getElem?_eq_some_iff.mp lacks.found).1
  obtain ⟨n', last⟩ := Nat.findGreatest_spec (P := fun (i : Nat) => ∃ n, g.LacksRule m ⟨i⟩ n)
    (bound lacks) ⟨n, lacks⟩
  exact ⟨_, n', last, fun id' n'' lacks' => Nat.le_findGreatest (bound lacks') ⟨n'', lacks'⟩⟩

end Graph

/-! ## Gradients -/

variable [Scalar α] {m m' : Module α} {forward g : Graph α} {id : NodeId} {n : Node α}

namespace Graph

theorem withGradients_noLoss (ordered : forward.Ordered) (unsaved : ∀ id, ¬forward.SavesLoss id) :
    forward.withGradients m = .error (.noLoss forward.name) := by
  have empty : forward.savedLosses = [] := List.eq_nil_iff_forall_not_mem.mpr fun id saved =>
    unsaved id (savesLoss_iff.mpr saved)
  simp [withGradients, ordered.evaluationOrder_eq, empty, bind, Except.bind]

/-- If a loss is saved, the outcome is that of the pass and of the sums after it. -/
theorem withGradients_of_savesLoss (ordered : forward.Ordered) {loss : NodeId}
    (saved : forward.SavesLoss loss) : forward.withGradients m = (do
      let (sums, g) ← (forward.passOver m (forward.backwardIds m) >>= weightSums m).run forward.toTrain
      Except.ok (g, sums)) := by
  have losses : ¬forward.savedLosses.isEmpty = true := by
    simpa using List.ne_nil_of_mem (savesLoss_iff.mp saved)
  rw [withGradients, ordered.evaluationOrder_eq]
  exact if_neg losses

/-- The pass stops at the last node without a rule. -/
theorem withGradients_noGradient (ready : forward.Ready m)
    (layers : ∀ n ∈ forward.nodes, n.kind.IsForward) (lacks : forward.LacksRule m id n)
    (last : ∀ id' n', forward.LacksRule m id' n' → id'.index ≤ id.index) :
    forward.withGradients m = .error (.noGradient n.kind n.name) := by
  have ordered := ready.proper.formed.ordered
  obtain ⟨member, noRule⟩ := (lacksRule_iff ordered lacks.found).mp lacks
  obtain ⟨before, after, order⟩ := List.append_of_mem member
  have decreasing := forward.backwardIds_decreasing m
  rw [order] at decreasing
  have rules : ∀ i ∈ before, ∀ n, forward.node? i = some n → n.kind.hasRule = true := by
    intro i hi n' found
    by_contra lacking
    have lt := (List.pairwise_append.mp decreasing).2.2 i hi id List.mem_cons_self
    refine absurd (last i n' ((lacksRule_iff ordered found).mpr ⟨?_, Bool.eq_false_iff.mpr lacking⟩))
      (Nat.not_le.mpr lt)
    exact order ▸ List.mem_append_left _ hi
  obtain ⟨⟨cs, g⟩, passed⟩ := exists_passOver ready layers order.symm rules
  have stops := (passOver_next ready layers passed order.symm lacks.found).2 noRule
  obtain ⟨loss, saved, -⟩ := lacks.contributes
  rw [withGradients_of_savesLoss ordered saved, order, Emit.run_bind_of_error stops]
  rfl

theorem exists_withGradients (ready : forward.Ready m)
    (layers : ∀ n ∈ forward.nodes, n.kind.IsForward) {loss : NodeId} (saved : forward.SavesLoss loss)
    (rules : ∀ id n, ¬forward.LacksRule m id n) : ∃ r, forward.withGradients m = .ok r := by
  have ordered := ready.proper.formed.ordered
  obtain ⟨⟨cs, g⟩, passed⟩ := exists_passOver ready layers (List.append_nil (forward.backwardIds m))
    fun id member n found => by
      by_contra lacking
      exact rules id n ((lacksRule_iff ordered found).mpr ⟨member, Bool.eq_false_iff.mpr lacking⟩)
  have shaped := (Shaped.start ready fun n hn => (layers n hn).isLayer).visit ready.proper
    (fun _ h => h) passed
  have known : ∀ w ∈ (List.range m.vars.size).map VarId.mk, w.index < m.vars.size := by
    intro w hw
    obtain ⟨i, hi, rfl⟩ := List.mem_map.mp hw
    exact List.mem_range.mp hi
  obtain ⟨⟨sums, g'⟩, summed⟩ := shaped.exists_weightSums known
  refine ⟨(g', sums), ?_⟩
  rw [withGradients_of_savesLoss ordered saved, Emit.run_bind_of_ok passed, weightSums_eq, summed]
  rfl

namespace Backpropagates
variable {cs : List Contribution} {sums : List WeightGradient}

theorem weights_ascending (passes : forward.Backpropagates m cs sums g) :
    (sums.map WeightGradient.weight).Pairwise fun (v w : VarId) => v.index < w.index := by
  obtain ⟨order, g₁, -, -, summed⟩ := passes
  exact weightSums_ascending summed

theorem mem_weights (passes : forward.Backpropagates m cs sums g) (formed : forward.WellFormed)
    {w : VarId} : w ∈ sums.map WeightGradient.weight ↔ forward.ReachedBy m w := by
  have targets := passes.targets formed
  obtain ⟨visits, g₁, nodes, walk, summed⟩ := passes.walk formed.ordered
  refine walk.mem_summed formed nodes (fun w has => ?_) summed
  obtain ⟨c, hc, target⟩ := contributionsTo_ne_nil.mp has
  have reaches := (targets c hc).1
  rwa [target] at reaches

theorem hasSums (passes : forward.Backpropagates m cs sums g) (sound : m.Sound) :
    HasSums m g sums := by
  have ascending := passes.weights_ascending
  obtain ⟨order, g₁, -, -, summed⟩ := passes
  obtain ⟨-, totals, -⟩ := weightSums_eq_ok summed
  refine ⟨sound, fun w hw => ?_, fun w hw => ?_, ascending.imp fun lt same => ?_⟩
  · obtain ⟨v, n, total⟩ := totals w hw
    exact ⟨v, total.weight⟩
  · obtain ⟨v, n, total⟩ := totals w hw
    exact (Array.getElem?_eq_some_iff.mp total.total).1
  · exact absurd (same ▸ lt) (Nat.lt_irrefl _)

end Backpropagates
end Graph

/-! ## Updates -/

namespace Build
variable {f : GraphId} {rule : UpdateRule α} {sums : List WeightGradient}

theorem run_trainingGraph_of_error (found : m.graph? f = some forward) {e : Error α}
    (h : forward.withGradients m = .error e) :
    ((trainingGraph f rule).run.run m).1 = .error e := by
  have asked : ((ask fun (m : Module α) => do
      let forward ← m.graph f
      forward.withGradients m).run.run m) = (.error e, m) := by
    simp [ask, ExceptT.run_mk, StateT.run, Module.graph_eq_ok_iff.mpr found, h, bind, Except.bind]
  rw [trainingGraph, run_bind, asked]

theorem run_trainingGraph_of_ok (found : m.graph? f = some forward)
    (h : forward.withGradients m = .ok (g, sums)) :
    (trainingGraph f rule).run.run m = (withUpdates rule g sums).run.run m := by
  have asked : Yields (ask fun (m : Module α) => do
      let forward ← m.graph f
      forward.withGradients m) m (g, sums) m := by
    refine yields_ask.mpr ⟨?_, rfl⟩
    simp [Module.graph_eq_ok_iff.mpr found, h, bind, Except.bind]
  rw [trainingGraph, asked.run_bind]

/-- The updates stop at the first velocity that is in the way. -/
theorem trainingGraph_duplicateName (sound : m.Sound) (formed : forward.WellFormed)
    (found : m.graph? f = some forward) (gradients : forward.withGradients m = .ok (g, sums))
    {w : VarId} {v : Variable α} (reached : forward.ReachedBy m w) (taken : m.VelocityTaken w)
    (hv : m.var? w = some v)
    (first : ∀ w', forward.ReachedBy m w' → m.VelocityTaken w' → w.index ≤ w'.index) :
    ((trainingGraph f rule).run.run m).1 =
      .error (.duplicateName (v.name ++ ".velocity") .vars) := by
  obtain ⟨cs, passes⟩ := Graph.withGradients_eq_ok gradients
  obtain ⟨s, hs, rfl⟩ := List.mem_map.mp ((passes.mem_weights formed).mpr reached)
  obtain ⟨before, after, rfl⟩ := List.append_of_mem hs
  have free : ∀ u ∈ before, ¬m.VelocityTaken u.weight := by
    intro u hu taken'
    have ascending := List.pairwise_map.mp passes.weights_ascending
    have lt := (List.pairwise_append.mp ascending).2.2 u hu s List.mem_cons_self
    refine absurd (first u.weight ?_ taken') (Nat.not_le.mpr lt)
    exact (passes.mem_weights formed).mp (List.mem_map_of_mem (List.mem_append_left _ hu))
  obtain ⟨g₁, m₁, more, ran, has, gains⟩ := withUpdates_append rule (passes.hasSums sound) free
  rw [run_trainingGraph_of_ok found gradients, ran]
  exact withUpdates_refused has (gains.var? hv) (taken.mono gains)

theorem exists_trainingGraph (sound : m.Sound) (formed : forward.WellFormed)
    (found : m.graph? f = some forward) (gradients : forward.withGradients m = .ok (g, sums))
    (free : ∀ w, forward.ReachedBy m w → ¬m.VelocityTaken w) :
    ∃ train, ((trainingGraph f rule).run.run m).1 = .ok train := by
  obtain ⟨cs, passes⟩ := Graph.withGradients_eq_ok gradients
  have has : Graph.HasSums m g (sums ++ []) := (List.append_nil sums).symm ▸ passes.hasSums sound
  obtain ⟨g₁, m₁, more, ran, -⟩ := withUpdates_append rule has fun u hu =>
    free _ ((passes.mem_weights formed).mp (List.mem_map_of_mem hu))
  rw [List.append_nil] at ran
  rw [run_trainingGraph_of_ok found gradients, ran]
  exact ⟨g₁, rfl⟩

end Build

/-! ## All outcomes -/

namespace Graph
variable {f : GraphId} {rule : UpdateRule α}

/-- Whatever reason there is, differentiation fails for it. -/
theorem DifferentiationError.refuses {e : Error α} (h : forward.DifferentiationError m e)
    (sound : m.Sound) (ready : forward.Ready m) (layers : ∀ n ∈ forward.nodes, n.kind.IsForward)
    (found : m.graph? f = some forward) :
    ((Build.trainingGraph f rule).run.run m).1 = .error e := by
  have formed := ready.proper.formed
  cases h with
  | noLoss unsaved =>
    exact Build.run_trainingGraph_of_error found (withGradients_noLoss formed.ordered unsaved)
  | noGradient lacks last =>
    exact Build.run_trainingGraph_of_error found (withGradients_noGradient ready layers lacks last)
  | duplicateName rules reached taken hv first =>
    obtain ⟨loss, saved, -⟩ := reached.2
    obtain ⟨⟨g, sums⟩, gradients⟩ :=
      exists_withGradients ready layers (savesLoss_iff.mpr saved) rules
    exact Build.trainingGraph_duplicateName sound formed found gradients reached taken hv first

/-- Of the velocities that are in the way there is a first one. -/
theorem exists_first_taken {w : VarId} (reached : forward.ReachedBy m w) (taken : m.VelocityTaken w) :
    ∃ w v, forward.ReachedBy m w ∧ m.VelocityTaken w ∧ m.var? w = some v ∧
      ∀ w', forward.ReachedBy m w' → m.VelocityTaken w' → w.index ≤ w'.index := by
  classical
  have any : ∃ i, forward.ReachedBy m ⟨i⟩ ∧ m.VelocityTaken ⟨i⟩ := ⟨w.index, reached, taken⟩
  obtain ⟨reached, taken⟩ := Nat.find_spec any
  obtain ⟨v, -, -, hv, -⟩ := id taken
  exact ⟨_, v, reached, taken, hv, fun w' reached' taken' => Nat.find_min' any ⟨reached', taken'⟩⟩

/-- If there is no reason to fail, all that a differentiation needs is there. -/
theorem not_differentiationError_iff : (∀ e, ¬forward.DifferentiationError m e) ↔
    (∃ id, forward.SavesLoss id) ∧ (∀ id n, ¬forward.LacksRule m id n) ∧
      ∀ w, forward.ReachedBy m w → ¬m.VelocityTaken w := by
  constructor
  · intro unrefused
    have rules : ∀ id n, ¬forward.LacksRule m id n := by
      intro id n lacks
      obtain ⟨id, n, lacks, last⟩ := lacks.exists_last
      exact unrefused _ (.noGradient lacks last)
    refine ⟨?_, rules, fun w reached taken => ?_⟩
    · by_contra unsaved
      exact unrefused _ (.noLoss (not_exists.mp unsaved))
    · obtain ⟨w, v, reached, taken, hv, first⟩ := exists_first_taken reached taken
      exact unrefused _ (.duplicateName rules reached taken hv first)
  · rintro ⟨⟨id, saved⟩, rules, free⟩ e reason
    cases reason with
    | noLoss unsaved => exact unsaved id saved
    | noGradient lacks => exact rules _ _ lacks
    | duplicateName _ reached taken => exact free _ reached taken

end Graph

/-- A graph made by layers is differentiated unless no loss is saved, a node between a trained variable
and a saved loss has no rule, or the velocity of a weight that is reached is taken; and then it is
refused for the first of these reasons that there is. -/
theorem Module.Built.trainingGraph_error_iff {f : GraphId} (built : m.Built f)
    (found : m.graph? f = some forward) (rule : UpdateRule α)
    (vars : ∀ id v, m.var? id = some v → v.type.Comparable)
    (nodes : ∀ n ∈ forward.nodes, ∀ t, n.type = some t → t.Comparable) :
    (∀ e, ((Build.trainingGraph f rule).run.run m).1 = .error e ↔
      forward.DifferentiationError m e) ∧
    ((∃ train, ((Build.trainingGraph f rule).run.run m).1 = .ok train) ↔
      (∃ id, forward.SavesLoss id) ∧ (∀ id n, ¬forward.LacksRule m id n) ∧
        ∀ w, forward.ReachedBy m w → ¬m.VelocityTaken w) := by
  have proper := built.proper
  have ready : forward.Ready m := ⟨proper.graph forward found, nodes, vars⟩
  have layers := built.forward forward found
  have refuses : ∀ e, forward.DifferentiationError m e →
      ((Build.trainingGraph f rule).run.run m).1 = .error e := fun e h =>
    h.refuses proper.sound ready layers found
  have succeeds : (∀ e, ¬forward.DifferentiationError m e) →
      ∃ train, ((Build.trainingGraph f rule).run.run m).1 = .ok train := by
    intro reasons
    obtain ⟨⟨id, saved⟩, rules, free⟩ := Graph.not_differentiationError_iff.mp reasons
    obtain ⟨⟨g, sums⟩, gradients⟩ := Graph.exists_withGradients ready layers saved rules
    exact Build.exists_trainingGraph proper.sound ready.proper.formed found gradients free
  refine ⟨fun e => ⟨fun failed => ?_, refuses e⟩, ?_⟩
  · by_cases reason : ∃ e', forward.DifferentiationError m e'
    · obtain ⟨e', h⟩ := reason
      rw [refuses e' h] at failed
      cases failed
      exact h
    · obtain ⟨train, done⟩ := succeeds (not_exists.mp reason)
      rw [done] at failed
      cases failed
  · rw [← Graph.not_differentiationError_iff]
    refine ⟨fun ⟨train, done⟩ e h => ?_, succeeds⟩
    rw [refuses e h] at done
    cases done

theorem lineModule_trainingGraph_error_iff : ∃ forward, lineModule.Built ⟨0⟩ ∧
    lineModule.graph? ⟨0⟩ = some forward ∧
    (∀ e, ((Build.trainingGraph ⟨0⟩ ⟨1, 0, 0⟩).run.run lineModule).1 = .error e ↔
      forward.DifferentiationError lineModule e) ∧
    (∃ id, forward.SavesLoss id) ∧ (∀ id n, ¬forward.LacksRule lineModule id n) ∧
      ∀ w, forward.ReachedBy lineModule w → ¬lineModule.VelocityTaken w := by
  obtain ⟨forward, found⟩ := Option.isSome_iff_exists.mp
    (by decide +kernel : (lineModule.graph? ⟨0⟩).isSome = true)
  obtain ⟨train, m', trains⟩ := exists_yields
    (by decide +kernel : ((Build.trainingGraph ⟨0⟩ ⟨1, 0, 0⟩).run.run lineModule).1.isOk = true)
  obtain ⟨refused, succeeds⟩ := lineModule_built.trainingGraph_error_iff found ⟨1, 0, 0⟩
    (fun _ v _ => v.type.comparable) (fun _ _ t _ => t.comparable)
  exact ⟨forward, lineModule_built, found, refused,
    succeeds.mp ⟨train, congrArg Prod.fst trains⟩⟩

/-- Before it is saved, the loss is not differentiated. -/
example : ((Build.trainingGraph ⟨0⟩ ⟨1, 0, 0⟩).run.run lineLoss).1 = .error (.noLoss "line") := by cbv

end NeuralGraph
