import NeuralGraph.Proofs.Gradient.TrueGradient
import NeuralGraph.Proofs.Gradient.WellShaped
import NeuralGraph.Proofs.Lowering.Realization

/-!
# Accumulators hold the true gradient

When the program of a training graph has come past its gradients, the activations of the sums hold the
true gradient at the values that the graph has.
-/

namespace NeuralGraph
set_option autoImplicit false
variable {α : Type}

/-! ## Training graphs without activation functions -/

theorem Graph.PolynomialNet.hasValue {m : Module α} {forward : Graph α}
    (net : forward.PolynomialNet m) {n : Node α} (hn : n ∈ forward.nodes) (kind : n.kind ≠ .save) :
    n.kind.hasValue = true := by
  have polynomial := (net.polynomial n hn).resolve_left kind
  generalize n.kind = k at polynomial
  cases k <;> first | rfl | cases polynomial

theorem Graph.PolynomialNet.not_unary {m : Module α} {forward : Graph α}
    (net : forward.PolynomialNet m) {n : Node α} (hn : n ∈ forward.nodes) (op : UnaryOp) :
    n.kind ≠ .compute (.unary op) := by
  intro kind
  have polynomial := net.polynomial n hn
  rw [kind] at polynomial
  rcases polynomial with save | polynomial
  · cases save
  · cases polynomial

section
variable [Scalar α] {m m' : Module α} {forward g train : Graph α} {cs : List Contribution}
  {sums : List WeightGradient} {rule : UpdateRule α}

theorem AddsUpdates.keepsInputs (added : AddsUpdates rule sums m m' g train)
    (shaped : Shaped m forward g cs)
    (plain : ∀ n ∈ forward.nodes, ∀ op, n.kind ≠ .compute (.unary op)) : train.KeepsInputs := by
  intro n hn op kind
  rcases added.nodes n hn with hn | ⟨w, -, velocity, update, -⟩
  · rcases shaped.added n hn with hn | ⟨rule | sum, -⟩
    · exact absurd kind (plain n hn op)
    · rw [kind] at rule
      cases rule
    · rw [kind] at sum
      cases sum
  · rw [kind] at update
    cases update

/-- The instructions of the updates write homes of variables that are updated. -/
theorem AddsUpdates.writes_homes (added : AddsUpdates rule sums m m' g train) {s : Lowering α}
    {k : Memory α} {is : List (Instruction α)}
    (emitted : Emitted s.place g.size (train.nodes.toList.drop g.size) is)
    (suits : ∀ i ∈ is, i.Suits k) {i : Instruction α} (hi : i ∈ is) {value : Value}
    (hv : value ∈ i.written) : ∃ id n v, train.node? id = some n ∧ g.size ≤ id.index ∧
      v ∈ n.storesInto ∧ s.place (.var v) = some value := by
  have listed : ∀ {j : Nat} {n : Node α}, (train.nodes.toList.drop g.size)[j]? = some n →
      train.node? ⟨g.size + j⟩ = some n := by
    intro j n hj
    rwa [List.getElem?_drop, Array.getElem?_toList] at hj
  have late : ∀ n ∈ train.nodes.toList.drop g.size, ∃ j, train.node? ⟨g.size + j⟩ = some n := by
    intro n hn
    obtain ⟨j, hj⟩ := List.getElem?_of_mem hn
    exact ⟨j, listed hj⟩
  have stores : ∀ n ∈ train.nodes.toList.drop g.size, n.StoresIntoVariables := by
    intro n hn
    obtain ⟨j, hj⟩ := late n hn
    exact (added.ready.proper.typed n (Array.mem_of_getElem? hj)).stores
  rcases emitted.written stores suits hi hv with ⟨j, n, hj, valued, -⟩ | ⟨n, hn, v, stored, home⟩
  · obtain ⟨w, -, velocity, update, -⟩ := added.update_of_le (listed hj) (Nat.le_add_right _ _)
    rw [update] at valued
    cases valued
  · obtain ⟨j, hj⟩ := late n hn
    exact ⟨_, n, v, hj, Nat.le_add_right _ _, stored, home⟩

/-- The instructions of the updates leave activations alone. -/
theorem AddsUpdates.keeps_activation (added : AddsUpdates rule sums m m' g train)
    {s : Lowering α} {k : Nat} {is : List (Instruction α)} {start memory : Memory α}
    (tidy : s.Tidy train k)
    (emitted : Emitted s.place g.size (train.nodes.toList.drop g.size) is)
    (suits : ∀ i ∈ is, i.Suits start) (id : LocationId) :
    (execute is memory).memory.locate? (.activation id) = memory.locate? (.activation id) := by
  refine execute_frame fun i hi written => ?_
  obtain ⟨_, _, u, -, -, -, home⟩ := added.writes_homes emitted suits hi written
  obtain ⟨_, own, -⟩ := tidy.vars u _ home
  cases own

end

variable [RingScalar α] {m m' : Module α} {forward g train : Graph α} {cs : List Contribution}
  {V : Valuation α}

theorem Graph.PolynomialNet.trains_floats (net : forward.PolynomialNet m)
    (shaped : Shaped m forward g cs) {w : WeightGradient} {v : Variable α} {n : Node α}
    (total : w.Totals m g cs v n) {u : Variable α} (hu : m.var? w.weight = some u) :
    u.type.element = .float := by
  obtain ⟨c, hc, target⟩ := contributionsTo_ne_nil.mp total.reached
  obtain ⟨n, hn, used⟩ := shaped.uses c hc
  rw [target] at used
  exact net.floats n hn u.type (.inr ⟨_, used, Module.typeOf_var_iff.mpr ⟨u, hu, rfl⟩⟩)

/-- The values of a graph of polynomials with its gradients are exact. -/
theorem Shaped.exact (shaped : Shaped m forward g cs) (net : forward.PolynomialNet m)
    {vars : VarId → Option (Tensor α)} (evaluated : g.evaluate vars = .ok V)
    (typed : ∀ v t u, vars v = some t → m.var? v = some u → t.type.SameShape u.type) :
    g.Exact m V := by
  have early : ∀ {i : Nat} {n : Node α}, g.nodes[i]? = some n → i < forward.size →
      n ∈ forward.nodes := by
    intro i n hn bound
    have known := shaped.extends'.node?_of_lt (i := ⟨i⟩) bound
    exact Array.mem_of_getElem? (known.symm.trans hn)
  refine ⟨shaped.ready.proper, .of_evaluate evaluated shaped.ready.proper typed ?_ ?_⟩
  · intro n hn
    obtain ⟨i, hi⟩ := Array.getElem?_of_mem hn
    by_cases bound : i < forward.size
    · by_cases kind : n.kind = .save
      · exact .inr kind
      · exact .inl (net.hasValue (early hi bound) kind)
    · exact .inl (shaped.hasValue_of_le (i := ⟨i⟩) hi (Nat.not_lt.mp bound))
  · refine List.pairwise_iff_getElem.mpr fun i j hi hj before h v used stored => ?_
    have at_i : g.nodes[i]? = some g.nodes.toList[i] := by
      rw [← Array.getElem?_toList, List.getElem?_eq_getElem hi]
    have at_j : g.nodes[j]? = some g.nodes.toList[j] := by
      rw [← Array.getElem?_toList, List.getElem?_eq_getElem hj]
    by_cases bound : j < forward.size
    · have kind : g.nodes.toList[i].kind ≠ .save := by
        intro save
        rw [save] at h
        cases h
      refine net.kept _ (early at_i (Nat.lt_trans before bound)) kind v used ?_
      exact List.mem_flatMap.mpr ⟨_, Array.mem_toList_iff.mpr (early at_j bound), stored⟩
    · have late := shaped.hasValue_of_le (i := ⟨j⟩) at_j (Nat.not_lt.mp bound)
      rw [Node.storesInto_of_hasValue late] at stored
      cases stored

/-- If the program of a training graph comes past the gradients, then it has computed the true
gradient, at the values that its weights give to the graph. -/
theorem Module.Built.accumulators_exact [EquivBEq α] {f : GraphId} {rule : UpdateRule α}
    {store store' : WeightStorage α} {p : Program α} {memory : Memory α} (built : m.Built f)
    (hf : m.graph? f = some forward) (net : forward.PolynomialNet m)
    (differentiated : (Build.trainingGraph f rule).run.run m = (.ok train, m'))
    (sound : store.Sound) (labelled : store.Labelled m')
    (lowered : train.lower m' store = (.ok p, store'))
    (contents : memory.Covers (p.memory store'.arena)) :
    ∃ g sums, forward.withGradients m = .ok (g, sums) ∧ train.Extends g ∧
      (train.firstInstruction g.size ≤ (execute p.instructions.toList memory).executed →
        ∃ V, g.evaluate (store'.contents memory.weights) = .ok V ∧
          (∀ w ∈ sums, ∃ n id l, g.node? w.total = some n ∧ n.kind = .gradientSum ∧
            p.activations.find? n.name = some id ∧
            (execute p.instructions.toList memory).memory.activations.get? id = some l ∧
            V.nodes w.total = some l.payload) ∧
          forward.TrueGradient m V sums) := by
  obtain ⟨forward', g, sums, hf', gradients, updated⟩ := Build.trainingGraph_parts differentiated
  obtain rfl := Option.some.inj (hf.symm.trans hf')
  obtain ⟨cs, passed⟩ := Graph.withGradients_eq_ok gradients
  have proper := built.proper
  have ready : forward.Ready m := ⟨proper.graph forward hf, fun _ _ t _ => t.comparable,
    fun _ v _ => v.type.comparable⟩
  have layers := proper.layers forward hf
  obtain ⟨shaped, totals⟩ := passed.shaped ready layers
  have floats : ∀ w ∈ sums, ∀ v, m.var? w.weight = some v → v.type.element = .float := by
    intro w hw v hv
    obtain ⟨_, _, total⟩ := totals w hw
    exact net.trains_floats shaped total hv
  have added := Build.addsUpdates proper.sound shaped.ready totals floats updated
  have formed := added.ready.proper.formed
  have keeps : train.KeepsInputs := added.keepsInputs shaped fun _ hn => net.not_unary hn
  refine ⟨g, sums, gradients, added.extends', fun past => ?_⟩
  have labelled' := (train.lower_allocates m' store).labelled labelled
  rw [lowered] at labelled'
  obtain ⟨s, rfl, rfl, tidy, -, emitted⟩ := Graph.lower_eq_ok formed sound lowered
  obtain ⟨first, rest, V, split, -, later, success, evaluated, shown⟩ :=
    (Shows.start tidy contents).passes tidy keeps formed emitted tidy.suited added.extends'
      (fun n hn => (shaped.ready.proper.typed n hn).stores) past
  have exact : g.Exact m V := shaped.exact net evaluated fun v t u ht hu =>
    labelled'.shape (Memory.covers_iff.mp contents).2 added.covers ht hu
  refine ⟨V, evaluated, fun w hw => ?_, passed.gradients_exact ready layers net exact⟩
  obtain ⟨v, n, total⟩ := totals w hw
  have valued : n.kind.hasValue = true := by rw [total.kind]; rfl
  have hn : train.node? w.total = some n := added.extends' w.total.index n total.total
  obtain ⟨js, self, -, -, own, -⟩ := emitted.lowersTo (j := w.total.index) (n := n)
    (by rw [Array.getElem?_toList]; exact hn)
  rw [Nat.zero_add] at own
  have placed : s.place (.node w.total) = some self := own valued
  obtain ⟨-, -, id, -, rfl, -⟩ := tidy.nodes _ _ placed
  obtain ⟨n', l, hn', hl, name, -⟩ := (tidy.apart keeps).named w.total id placed
  obtain rfl := Option.some.inj (hn.symm.trans hn')
  have bound : w.total.index < g.size := (Array.getElem?_eq_some_iff.mp total.total).1
  obtain ⟨k, hk, hV⟩ := shown.nodes w.total _ bound placed
  refine ⟨n, id, k, total.total, total.kind, name ▸ tidy.distinct.find? hl, ?_, hV⟩
  rw [split, execute_append, success]
  exact (added.keeps_activation tidy later
    (fun i hi => tidy.suited i (split ▸ List.mem_append_right _ hi)) id).trans hk

/-! ## The line -/

def lineGraph : Graph Int where
  name := "line"
  nodes := #[⟨"product", .compute .matMul, [.var ⟨0⟩, .var ⟨1⟩], some (.float [1, 1])⟩,
    ⟨"loss", .regression, [.node ⟨0⟩, .var ⟨2⟩], some (.float [1, 1])⟩,
    ⟨"result", .save, [.node ⟨1⟩, .var ⟨3⟩], none⟩]
  inPlace := false

theorem lineModule_graph : lineModule.graph? ⟨0⟩ = some lineGraph := by cbv

theorem lineGraph_polynomialNet : lineGraph.PolynomialNet lineModule := by
  have listed : ∀ n ∈ lineGraph.nodes, n ∈ lineGraph.nodes.toList := fun _ hn =>
    Array.mem_toList_iff.mpr hn
  have floats : ∀ r t, lineModule.typeOf lineGraph r = .ok t → t.element = .float := by
    intro r t ht
    cases r with
    | var id =>
      obtain ⟨v, hv, rfl⟩ := Module.typeOf_var_iff.mp ht
      exact lineModule_floats id v hv
    | node id =>
      obtain ⟨n, hn, hnt⟩ := Module.typeOf_node_iff.mp ht
      have member := listed n (Array.mem_of_getElem? hn)
      simp only [lineGraph, List.mem_cons, List.not_mem_nil, or_false] at member
      rcases member with rfl | rfl | rfl <;> cases hnt <;> rfl
  constructor
  · intro n hn
    have member := listed n hn
    simp only [lineGraph, List.mem_cons, List.not_mem_nil, or_false] at member
    rcases member with rfl | rfl | rfl
    · exact .inr rfl
    · exact .inr rfl
    · exact .inl rfl
  · rintro n hn t (type | ⟨r, -, ht⟩)
    · have member := listed n hn
      simp only [lineGraph, List.mem_cons, List.not_mem_nil, or_false] at member
      rcases member with rfl | rfl | rfl <;> cases type <;> rfl
    · exact floats r t ht
  · intro n hn other id l used hl
    have member := listed n hn
    simp only [lineGraph, List.mem_cons, List.not_mem_nil, or_false] at member
    rcases member with rfl | rfl | rfl
    · simp at used
    · simp only [List.mem_cons, Ref.node.injEq, reduceCtorEq, List.not_mem_nil, or_false] at used
      subst used
      cases hl
      nofun
    · exact absurd rfl other
  · intro n hn other v used stored
    have only : lineGraph.storesInto = [⟨3⟩] := rfl
    rw [only, List.mem_singleton] at stored
    subst stored
    have member := listed n hn
    simp only [lineGraph, List.mem_cons, List.not_mem_nil, or_false] at member
    rcases member with rfl | rfl | rfl
    · simp at used
    · simp at used
    · exact other rfl

/-- Whether the program of a training graph comes past the gradients of `forward`. -/
def Graph.passesGradients (train forward : Graph Int) (m m' : Module Int) : Bool :=
  match forward.withGradients m, train.lower m' .empty with
  | .ok (g, _), (.ok p, s) => Nat.ble (train.firstInstruction g.size) (p.run s.arena).executed
  | _, _ => false

theorem lineModule_accumulators_exact : ∃ train m' p store g sums V,
    (Build.trainingGraph ⟨0⟩ ⟨1, 0, 0⟩).run.run lineModule = (.ok train, m') ∧
      train.lower m' .empty = (.ok p, store) ∧ lineGraph.withGradients lineModule = .ok (g, sums) ∧
      g.evaluate (store.contents store.arena) = .ok V ∧
      lineGraph.TrueGradient lineModule V sums := by
  have passes : (match (Build.trainingGraph ⟨0⟩ ⟨1, 0, 0⟩).run.run lineModule with
      | (.ok train, m') => train.passesGradients lineGraph lineModule m'
      | _ => false) = true := by decide +kernel
  generalize trained : (Build.trainingGraph ⟨0⟩ ⟨1, 0, 0⟩).run.run lineModule = r at passes
  obtain ⟨result, m'⟩ := r
  cases result with
  | error e => cases passes
  | ok train =>
    simp only [Graph.passesGradients] at passes
    split at passes
    · next g sums p store gradients lowered =>
      obtain ⟨g', sums', gradients', -, past⟩ := lineModule_built.accumulators_exact
        lineModule_graph lineGraph_polynomialNet trained .empty (by
          intro v l home
          cases home) lowered (.refl (p.memory store.arena))
      rw [gradients] at gradients'
      cases gradients'
      obtain ⟨V, evaluated, -, exact⟩ := past (Nat.le_of_ble_eq_true passes)
      exact ⟨train, m', p, store, g, sums, V, rfl, lowered, gradients, evaluated, exact⟩
    · cases passes

end NeuralGraph
