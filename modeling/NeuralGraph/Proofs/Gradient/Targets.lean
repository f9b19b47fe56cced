import NeuralGraph.Proofs.Gradient.Training

/-!
# What gradients are computed for

Every gradient is for an input of a node of the graph, and no variable is given gradients that is not
trained.  This needs no types: it holds of every differentiation that succeeds.
-/

namespace NeuralGraph
set_option autoImplicit false
variable {α : Type}

namespace Emit
variable {β : Type} {wants : Nat → Bool} {positions : List Nat}

/-- If the computation succeeds, it has computed one gradient for each of the positions that is
wanted, in the order of the positions. -/
def Answers (wants : Nat → Bool) (positions : List Nat) (x : Emit α (List InputGradient)) : Prop :=
  ∀ g grads g', x.run g = .ok (grads, g') →
    grads.map InputGradient.position = positions.filter wants

theorem answers_throw (e : Error α) :
    Answers wants positions (throw e : Emit α (List InputGradient)) := by
  intro g grads g' h
  cases h

theorem answers_bind {x : Emit α β} {k : β → Emit α (List InputGradient)}
    (h : ∀ b, Answers wants positions (k b)) : Answers wants positions (x >>= k) := by
  intro g grads g' run
  obtain ⟨b, g₁, -, rest⟩ := run_bind_eq_ok run
  exact h b g₁ grads g' rest

theorem answers_single {position : Nat} (wanted : wants position = true) (r : Ref) :
    Answers wants [position] (pure [⟨position, r⟩] : Emit α (List InputGradient)) := by
  intro g grads g' h
  cases h
  simp [wanted]

theorem answers_unwanted {position : Nat} (unwanted : ¬wants position = true) :
    Answers wants [position] (pure [] : Emit α (List InputGradient)) := by
  intro g grads g' h
  cases h
  simp [unwanted]

theorem answers_wanted (position : Nat) {x : Emit α Ref} :
    Answers wants [position] (if wants position then do
      let r ← x
      return [⟨position, r⟩]
    else return []) := by
  split
  · next wanted => exact answers_bind fun r => answers_single wanted r
  · next unwanted => exact answers_unwanted unwanted

theorem answers_append {x y : Emit α (List InputGradient)} {first second : List Nat}
    (hx : Answers wants first x) (hy : Answers wants second y) :
    Answers wants (first ++ second) (do
      let toFirst ← x
      let toSecond ← y
      return toFirst ++ toSecond) := by
  intro g grads g' run
  obtain ⟨toFirst, g₁, ran, rest⟩ := run_bind_eq_ok run
  obtain ⟨toSecond, g₂, ran', done⟩ := run_bind_eq_ok rest
  cases done
  rw [List.map_append, List.filter_append, hx g toFirst g₁ ran, hy g₁ toSecond g' ran']

theorem answers_append_three {x y z : Emit α (List InputGradient)} {first second third : List Nat}
    (hx : Answers wants first x) (hy : Answers wants second y) (hz : Answers wants third z) :
    Answers wants (first ++ second ++ third) (do
      let toFirst ← x
      let toSecond ← y
      let toThird ← z
      return toFirst ++ toSecond ++ toThird) := by
  intro g grads g' run
  obtain ⟨toFirst, g₁, ran, rest⟩ := run_bind_eq_ok run
  obtain ⟨toSecond, g₂, ran', rest⟩ := run_bind_eq_ok rest
  obtain ⟨toThird, g₃, ran'', done⟩ := run_bind_eq_ok rest
  cases done
  rw [List.map_append, List.map_append, List.filter_append, List.filter_append,
    hx g toFirst g₁ ran, hy g₁ toSecond g₂ ran', hz g₂ toThird g' ran'']

/-- No gradient is computed that is not wanted. -/
theorem Answers.wanted {x : Emit α (List InputGradient)} (h : Answers wants positions x)
    {g g' : Graph α} {grads : List InputGradient} (run : x.run g = .ok (grads, g'))
    {q : InputGradient} (hq : q ∈ grads) : wants q.position = true := by
  have listed := List.mem_map_of_mem (f := InputGradient.position) hq
  rw [h g grads g' run] at listed
  exact (List.mem_filter.mp listed).2

end Emit

open Emit
variable [Scalar α] {m : Module α}

theorem Operator.answers_gradients (op : Operator α) (name : String) (inputs : List Ref)
    (this g : Ref) (wants : Nat → Bool) (e : Error α) :
    Answers wants (flowPositions (.compute op : NodeKind α) inputs.length)
      (op.gradients m name inputs this g wants (throw e)) := by
  unfold Operator.gradients
  dsimp only
  split
  · exact answers_bind fun t =>
      answers_append_three (answers_wanted 0) (answers_wanted 1) (answers_wanted 2)
  · exact answers_append (answers_wanted 0) (answers_wanted 1)
  · exact answers_append (answers_wanted 0) (answers_wanted 1)
  · exact answers_wanted 0
  · exact answers_append (answers_wanted 0) (answers_wanted 1)
  · exact answers_append (answers_wanted 0) (answers_wanted 1)
  · exact answers_append (answers_wanted 0) (answers_wanted 1)
  · exact answers_wanted 0
  · exact answers_wanted 0
  · exact answers_wanted 0
  · exact answers_wanted 0
  · exact answers_append_three (answers_wanted 0) (answers_wanted 1) (answers_wanted 2)
  · exact answers_wanted 0
  · exact answers_wanted 0
  · exact answers_wanted 0
  · exact answers_throw e

/-- A loss gives a gradient to its first input, whether it is wanted or not. -/
theorem Node.answers_gradients (n : Node α) (id : NodeId) (gradient : Option Ref)
    {wants : Nat → Bool} (loss : n.kind.isLoss = true → wants 0 = true) :
    Answers wants (flowPositions n.kind n.inputs.length) (n.gradients m id gradient wants) := by
  unfold Node.gradients
  dsimp only
  split
  · next kind _ =>
    rw [kind] at loss ⊢
    exact answers_bind fun t => answers_bind fun g => answers_single (loss rfl) g
  · next kind _ =>
    rw [kind] at loss ⊢
    exact answers_bind fun g => answers_single (loss rfl) g
  · split
    · exact answers_throw _
    · split
      · next kind =>
        rw [kind]
        exact Operator.answers_gradients _ _ _ _ _ _ _
      · next kind inputs =>
        rw [kind, inputs]
        split
        · next wanted =>
          exact answers_bind fun t => answers_bind fun gx => answers_single wanted gx
        · next unwanted => exact answers_unwanted unwanted
      · exact answers_throw _

/-- The target is an input of a node of the graph, and, if it is a variable, trained. -/
def Contribution.IsFor (m : Module α) (forward : Graph α) (c : Contribution) : Prop :=
  Graph.Reaches m (forward.backwardIds m) c.target ∧ ∃ n ∈ forward.nodes, c.target ∈ n.inputs

variable {forward g g' : Graph α} {cs cs' : List Contribution}

theorem Node.propagate_targets {n : Node α} {id : NodeId} (formed : forward.WellFormed)
    (hn : forward.node? id = some n) (backward : id ∈ forward.backwardIds m)
    (targets : ∀ c ∈ cs, c.IsFor m forward)
    (h : (n.propagate m id (forward.backwardIds m) cs).run g = .ok (cs', g')) :
    ∀ c ∈ cs', c.IsFor m forward := by
  obtain ⟨total, g₁, -, rest⟩ := Emit.run_bind_eq_ok h
  obtain ⟨grads, g₂, computed, done⟩ := Emit.run_bind_eq_ok rest
  cases done
  have answers := n.answers_gradients (m := m) id total (Node.wants_loss formed hn backward)
  intro c hc
  rcases List.mem_append.mp hc with hc | hc
  · exact targets c hc
  · obtain ⟨q, hq, hqc⟩ := List.mem_filterMap.mp hc
    cases hr : n.inputs[q.position]? with
    | none => simp [hr] at hqc
    | some r =>
      rw [hr, Option.map_some] at hqc
      cases hqc
      exact ⟨((Node.wants_eq_true hr).mp (answers.wanted computed hq)).2, n, Array.mem_of_getElem? hn,
        List.mem_of_getElem? hr⟩

/-- By induction over the nodes that are visited. -/
theorem Graph.visit_targets {ids : List NodeId} (formed : forward.WellFormed)
    (backward : ∀ id ∈ ids, id ∈ forward.backwardIds m) (targets : ∀ c ∈ cs, c.IsFor m forward)
    (h : (ids.foldlM (fun (cs : List Contribution) (id : NodeId) => (do
      let n ← forward.node id
      n.propagate m id (forward.backwardIds m) cs : Emit α (List Contribution))) cs).run g =
        .ok (cs', g')) : ∀ c ∈ cs', c.IsFor m forward := by
  induction ids generalizing g cs with
  | nil =>
    cases h
    exact targets
  | cons id ids ih =>
    rw [List.foldlM_cons] at h
    obtain ⟨cs₁, g₁, visited, rest⟩ := Emit.run_bind_eq_ok h
    obtain ⟨n, g₀, found, moved⟩ := Emit.run_bind_eq_ok visited
    obtain ⟨known, rfl⟩ := Emit.run_lift found
    refine ih (fun id h => backward id (List.mem_cons_of_mem _ h)) ?_ rest
    exact Node.propagate_targets formed (Graph.node_eq_ok_iff.mp known)
      (backward id List.mem_cons_self) targets moved

/-- The gradients that a differentiation computes are for trained variables and for nodes, all of them
inputs of nodes of the graph. -/
theorem Graph.Backpropagates.targets {sums : List WeightGradient} (formed : forward.WellFormed)
    (h : forward.Backpropagates m cs sums g) : ∀ c ∈ cs, c.IsFor m forward := by
  obtain ⟨order, g₁, horder, pass, -⟩ := h
  have same := formed.ordered.evaluationOrder_eq
  rw [horder, Except.ok.injEq] at same
  subst same
  exact visit_targets formed (fun _ h => h) (by simp) pass

end NeuralGraph
