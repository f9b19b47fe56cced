import NeuralGraph.Proofs.Gradient.Parts
import NeuralGraph.Proofs.Lowering.Realization

/-!
# Training steps

What the run of a program of a training graph does with variables.  The graph that was differentiated
is evaluated as it would be alone; then come the gradients, which store into no variable, and the
updates, none of which can fail.  So weights change all together or not at all.
-/

namespace NeuralGraph
set_option autoImplicit false
variable {α : Type} [Scalar α]

omit [Scalar α] in
theorem Valuation.vars_eq_of_read {V V' : Valuation α} {v : VarId}
    (h : V'.read (.var v) = V.read (.var v)) : V'.vars v = V.vars v := by
  cases hv : V.vars v with
  | some t => exact Valuation.read_var_eq_ok.mp (h.trans (Valuation.read_var_eq_ok.mpr hv))
  | none =>
    cases hv' : V'.vars v with
    | none => rfl
    | some t =>
      have held := Valuation.read_var_eq_ok.mp (h.symm.trans (Valuation.read_var_eq_ok.mpr hv'))
      exact absurd (hv.symm.trans held) (by simp)

/-- No weight of `h` is saved into by `g`, and no velocity is an input. -/
structure Graph.KeepsApart (g h : Graph α) : Prop where
  weights : ∀ v, g.Saves v → ∀ w d u, h.Updates w d u → v ≠ w
  velocities : ∀ v, g.References v → ∀ w d, ¬h.Updates w d v

namespace Graph.Trains
variable {rule : UpdateRule α} {m m' : Module α} {g s h : Graph α} {sums : List WeightGradient}
  {updates : List (Node α)} {V W : Valuation α} {vars : VarId → Option (Tensor α)}

/-! ## Evaluation -/

theorem stores (trains : g.Trains rule m m' s h sums updates)
    (stores : ∀ n ∈ g.nodes, n.StoresIntoVariables) : ∀ n ∈ h.nodes, n.StoresIntoVariables := by
  intro n hn
  rcases trains.mem_nodes.mp hn with early | late
  · rcases trains.gradients.mem early with old | gradient
    · exact stores n old
    · have valued := gradient.hasValue
      unfold Node.StoresIntoVariables
      split
      · next kind _ => simp [kind, NodeKind.hasValue] at valued
      · next kind _ => simp [kind, NodeKind.hasValue] at valued
      · trivial
  · obtain ⟨rule', w, d, u, update⟩ := trains.allUpdates n late
    simp [Node.StoresIntoVariables, update.kind, update.inputs]

theorem storesInto (trains : g.Trains rule m m' s h sums updates)
    (layers : ∀ n ∈ g.nodes, n.kind.isLayer = true) {v : VarId} (hv : v ∈ h.storesInto) :
    g.Saves v ∨ ∃ w d u, h.Updates w d u ∧ (v = w ∨ v = u) := by
  obtain ⟨n, hn, stored⟩ := List.mem_flatMap.mp hv
  rcases trains.mem_nodes.mp (Array.mem_toList_iff.mp hn) with early | late
  · exact .inl (trains.saves_of_storesInto layers early stored)
  · obtain ⟨rule', w, d, u, update⟩ := trains.allUpdates n late
    rw [update.storesInto, List.mem_cons, List.mem_singleton] at stored
    exact .inr ⟨w, d, u, trains.updates_of_mem late update, stored⟩

/-- The updates come last. -/
theorem evaluate_updates (trains : g.Trains rule m m' s h sums updates)
    (evaluated : h.evaluate vars = .ok W) :
    ∃ V, s.evaluate vars = .ok V ∧ evaluateFrom s.nodes.toList.length updates V = .ok W := by
  rw [evaluate, trains.nodes, evaluateFrom_append, Nat.zero_add] at evaluated
  rw [evaluate]
  cases early : evaluateFrom 0 s.nodes.toList (.start vars) with
  | error e => simp [early] at evaluated
  | ok V => exact ⟨V, rfl, by simpa [early] using evaluated⟩

/-- The gradients come after the graph itself, and change no variable. -/
theorem evaluate_forward (trains : g.Trains rule m m' s h sums updates)
    (evaluated : s.evaluate vars = .ok V) :
    ∃ U, g.evaluate vars = .ok U ∧ V.vars = U.vars := by
  have extends' : s.Extends g := trains.gradients.extends'
  rw [evaluate, extends'.nodes_eq, evaluateFrom_append, Nat.zero_add] at evaluated
  rw [evaluate]
  cases early : evaluateFrom 0 g.nodes.toList (.start vars) with
  | error e => simp [early] at evaluated
  | ok U =>
    have rest : evaluateFrom g.nodes.toList.length (s.nodes.toList.drop g.size) U = .ok V := by
      simpa [early] using evaluated
    have valued : ∀ n ∈ s.nodes.toList.drop g.size, n.kind.hasValue = true := by
      intro n hn
      obtain ⟨j, hj⟩ := List.getElem?_of_mem hn
      rw [List.getElem?_drop, Array.getElem?_toList] at hj
      exact (trains.gradients.kind hj (Nat.le_add_right _ _)).hasValue
    refine ⟨U, rfl, funext fun v => Valuation.vars_eq_of_read ?_⟩
    refine evaluateFrom_read rest (fun n hn => .inl (valued n hn)) (fun k same => by cases same) ?_
    intro v _ n hn
    rw [Node.storesInto_of_hasValue (valued n hn)]
    exact List.not_mem_nil

/-- Before the updates, variables that the graph does not save into are what they were. -/
theorem evaluate_vars (trains : g.Trains rule m m' s h sums updates)
    (layers : ∀ n ∈ g.nodes, n.kind.isLayer = true) (evaluated : s.evaluate vars = .ok V)
    {v : VarId} (kept : ¬g.Saves v) : V.vars v = vars v := by
  have plain : ∀ n ∈ s.nodes.toList, n.kind.hasValue = true ∨ n.kind = .save := fun n hn =>
    (trains.plain layers (Array.mem_toList_iff.mp hn)).imp_right And.right
  refine Valuation.vars_eq_of_read
    (evaluateFrom_read evaluated plain (fun k same => by cases same) fun u same n hn stored => ?_)
  cases same
  exact kept (trains.saves_of_storesInto layers (Array.mem_toList_iff.mp hn) stored)

/-! ## Runs -/

variable {p q : Program α} {t : WeightStorage α}

theorem velocity_ne (trains : g.Trains rule m m' s h sums updates)
    (layers : ∀ n ∈ g.nodes, n.kind.isLayer = true) (apart : g.KeepsApart h) {w u : VarId}
    {d : NodeId} (update : h.Updates w d u) : w ≠ u := by
  obtain ⟨n, hn, rule', is⟩ := id update
  obtain ⟨-, -, sum, hsum, rfl, -⟩ := trains.update_mem layers hn is
  rintro rfl
  exact apart.velocities _ (trains.referenced sum hsum) _ _ update

/-- A run that succeeds makes every weight and every velocity take a step along the gradient that the
graph gives for what variables held before. -/
theorem run_descends (trains : g.Trains rule m m' s h sums updates)
    (layers : ∀ n ∈ g.nodes, n.kind.isLayer = true) (apart : g.KeepsApart h)
    (computes : p.Computes h t) (formed : h.WellFormed)
    (stores : ∀ n ∈ g.nodes, n.StoresIntoVariables) (success : (p.run t.arena).failure = none) :
    ∃ V, s.evaluate (t.contents t.arena) = .ok V ∧ ∀ w d u, h.Updates w d u →
      ∃ weight gradient velocity weight' velocity',
        t.contents t.arena w = some weight ∧ V.nodes d = some gradient ∧
        t.contents t.arena u = some velocity ∧
        rule.Descends weight gradient velocity weight' velocity' ∧
        t.contents (p.run t.arena).memory.weights w = some weight' ∧
        t.contents (p.run t.arena).memory.weights u = some velocity' := by
  obtain ⟨succeeds, ends⟩ := computes.agrees formed (trains.stores stores)
  obtain ⟨W, evaluated⟩ := succeeds success
  obtain ⟨-, held, typed⟩ := ends W evaluated
  obtain ⟨V, gradients, updating⟩ := trains.evaluate_updates evaluated
  refine ⟨V, gradients, fun w d u update => ?_⟩
  obtain ⟨n, hn, rule', is⟩ := id update
  obtain ⟨listed, rfl, sum, hsum, -, rfl⟩ := trains.update_mem layers hn is
  obtain ⟨weight, gradient, velocity, weight', velocity', hw, hd, hu, makes, hw', hu'⟩ :=
    evaluateFrom_updates trains.allUpdates (trains.separate apart.velocities) updating listed is
      (trains.velocity_ne layers apart update)
  have unsaved : ¬g.Saves w := fun saved => apart.weights w saved w _ u update rfl
  have unsaved' : ¬g.Saves u := fun saved => apart.velocities u saved.references _ _ update
  rw [trains.evaluate_vars layers gradients unsaved] at hw
  rw [trains.evaluate_vars layers gradients unsaved'] at hu
  -- the types are those of the operands of the instruction, which are numbers
  obtain ⟨a, b, x, type, ha, hb, hx, htype, fw, fd, fu⟩ := computes.update_floats hn is
  obtain rfl := Option.some.inj (hw.symm.trans ha)
  obtain rfl := Option.some.inj (hu.symm.trans hb)
  have fg : gradient.type.element = .float := by
    obtain ⟨total, known, kind⟩ := trains.totals sum hsum
    obtain rfl := Option.some.inj (hx.symm.trans (trains.extends' _ _ known))
    obtain ⟨y, hy, same⟩ := typed _ x hx (by rw [kind]; rfl)
    rw [(evaluateFrom_updates_frame trains.allUpdates updating).1, hd] at hy
    cases hy
    rw [htype] at same
    exact Option.some.inj same ▸ fd
  obtain ⟨l, home⟩ := WeightStorage.home_of_contents hw
  obtain ⟨l', home'⟩ := WeightStorage.home_of_contents hu
  exact ⟨weight, gradient, velocity, weight', velocity', hw, hd, hu, makes.descends fw fg fu,
    (held w l home).trans hw', (held u l' home').trans hu'⟩

/-- Variables that are neither saved into nor updated are left alone. -/
theorem run_keeps (trains : g.Trains rule m m' s h sums updates)
    (layers : ∀ n ∈ g.nodes, n.kind.isLayer = true) (computes : p.Computes h t)
    (stores : ∀ n ∈ g.nodes, n.StoresIntoVariables) {v : VarId} (unsaved : ¬g.Saves v)
    (other : ∀ w d u, h.Updates w d u → v ≠ w ∧ v ≠ u) :
    t.contents (p.run t.arena).memory.weights v = t.contents t.arena v := by
  refine WeightStorage.contents_congr fun l home =>
    computes.frame (trains.stores stores) fun v' stored home' => ?_
  obtain rfl := computes.sound.separate _ _ _ home home'
  rcases trains.storesInto layers stored with saved | ⟨w, d, u, update, own⟩
  · exact unsaved saved
  · rcases own with rfl | rfl
    · exact (other _ d u update).1 rfl
    · exact (other w d _ update).2 rfl

/-- After a run that fails, only variables that are saved into can have changed. -/
theorem run_fails (trains : g.Trains rule m m' s h sums updates)
    (layers : ∀ n ∈ g.nodes, n.kind.isLayer = true) (computes : p.Computes h t)
    (stores : ∀ n ∈ g.nodes, n.StoresIntoVariables) (failed : (p.run t.arena).failure ≠ none)
    {v : VarId} (unsaved : ¬g.Saves v) :
    t.contents (p.run t.arena).memory.weights v = t.contents t.arena v := by
  refine WeightStorage.contents_congr fun l home => computes.frame_of_failure trains.nodes
    trains.allUpdates (fun n hn => ?_) failed fun n hn v' stored home' => ?_
  · exact trains.stores stores n (trains.mem_nodes.mpr (.inl (Array.mem_toList_iff.mp hn)))
  · obtain rfl := computes.sound.separate _ _ _ home home'
    exact unsaved (trains.saves_of_storesInto layers (Array.mem_toList_iff.mp hn) stored)

/-- Where a run of the training graph succeeds, so does a run of the graph alone, and it leaves the same
in every location that is not the home of a weight or a velocity. -/
theorem run_forward (trains : g.Trains rule m m' s h sums updates)
    (layers : ∀ n ∈ g.nodes, n.kind.isLayer = true) (computes : p.Computes h t)
    (computes' : q.Computes g t) (formed : g.WellFormed) (formed' : h.WellFormed)
    (stores : ∀ n ∈ g.nodes, n.StoresIntoVariables) (success : (p.run t.arena).failure = none) :
    (q.run t.arena).failure = none ∧ ∀ l,
      (∀ w d u, h.Updates w d u → t.home? w ≠ some l ∧ t.home? u ≠ some l) →
      ((p.run t.arena).memory.weights.get? l).map Location.payload =
        ((q.run t.arena).memory.weights.get? l).map Location.payload := by
  obtain ⟨succeeds, ends⟩ := computes.agrees formed' (trains.stores stores)
  obtain ⟨W, evaluated⟩ := succeeds success
  obtain ⟨-, held, -⟩ := ends W evaluated
  obtain ⟨V, gradients, updating⟩ := trains.evaluate_updates evaluated
  obtain ⟨U, forward, same⟩ := trains.evaluate_forward gradients
  obtain ⟨success', held', -⟩ := (computes'.agrees formed stores).2 U forward
  refine ⟨success', fun l other => ?_⟩
  by_cases saved : ∃ v, g.Saves v ∧ t.home? v = some l
  · obtain ⟨v, -, home⟩ := saved
    rw [← WeightStorage.contents_of_home home, ← WeightStorage.contents_of_home home,
      held v l home, held' v l home, ← same]
    refine (evaluateFrom_updates_frame trains.allUpdates updating).2 v fun n hn stored => ?_
    obtain ⟨rule', w, d, u, update⟩ := trains.allUpdates n hn
    obtain ⟨weight, velocity⟩ := other w d u (trains.updates_of_mem hn update)
    rw [update.storesInto, List.mem_cons, List.mem_singleton] at stored
    rcases stored with rfl | rfl
    · exact weight home
    · exact velocity home
  · -- neither run stores anything here
    have alone : ∀ v ∈ g.storesInto, t.home? v ≠ some l := by
      intro v stored home
      obtain ⟨n, hn, hv⟩ := List.mem_flatMap.mp stored
      obtain ⟨i, hi⟩ := List.getElem?_of_mem hn
      rw [Array.getElem?_toList] at hi
      have listed : n ∈ s.nodes := Array.mem_of_getElem? (trains.gradients.extends' i n hi)
      exact saved ⟨v, trains.saves_of_storesInto layers listed hv, home⟩
    have training : ∀ v ∈ h.storesInto, t.home? v ≠ some l := by
      intro v stored home
      rcases trains.storesInto layers stored with hv | ⟨w, d, u, update, rfl | rfl⟩
      · exact saved ⟨v, hv, home⟩
      · exact (other _ d u update).1 home
      · exact (other w d _ update).2 home
    rw [computes.frame (trains.stores stores) training, computes'.frame stores alone]

end Graph.Trains
end NeuralGraph
