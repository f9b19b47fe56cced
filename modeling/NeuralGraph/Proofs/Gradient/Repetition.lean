import NeuralGraph.Proofs.Gradient.Parts

/-!
# Differentiating once more

A training graph depends on the nodes of the graph, and on the names, types and training of the variables
that they refer to.  So a graph that is differentiated again, in a module that has gained variables and
graphs, gets the nodes that it got before, and the velocities that were declared then are found.
-/

namespace NeuralGraph
set_option autoImplicit false
variable {α : Type}

/-! ## Computations that are repeated -/

namespace Emit
variable {β γ : Type} {x y : Emit α β} {m m' : Module α} {g g' : Graph α}

/-- If `x` succeeds, so does `y`, with the same result and nodes, whatever the graph is called. -/
def Repeats (x y : Emit α β) : Prop :=
  ∀ g b g' name, x.run g = .ok (b, g') → y.run (g.withName name) = .ok (b, g'.withName name)

theorem repeats_pure (b : β) : Repeats (pure b : Emit α β) (pure b) := by
  intro g c g' name h
  cases h
  rfl

theorem repeats_lift {a a' : Except (Error α) β} (h : ∀ b, a = .ok b → a' = .ok b) :
    Repeats (liftM a : Emit α β) (liftM a') := by
  intro g b g' name ran
  obtain ⟨same, rfl⟩ := run_lift ran
  rw [h b same]
  rfl

theorem repeats_bind {k k' : β → Emit α γ} (hx : Repeats x y)
    (hk : ∀ g b g', x.run g = .ok (b, g') → Repeats (k b) (k' b)) :
    Repeats (x >>= k) (y >>= k') := by
  intro g c g'' name h
  obtain ⟨b, g', first, second⟩ := run_bind_eq_ok h
  rw [run_bind_of_ok (hx g b g' name first)]
  exact hk g b g' first g' c g'' name second

/-- A rule asks for types that last. -/
theorem Uniform.repeats {x : Module α → Emit α β} (h : Uniform x) (covers : m'.Covers m) :
    Repeats (x m) (x m') := by
  induction h with
  | pure b => exact repeats_pure b
  | throw e => exact fun g b g' name h => by cases h
  | typeOf r =>
    intro g t g' name h
    obtain ⟨ht, rfl⟩ := run_typeOf h
    exact run_typeOf_of_ok (Module.typeOf_mono ht covers fun _ _ hn => hn)
  | node gradient name inputs type =>
    intro g r g' called h
    obtain ⟨id, rfl, pushed⟩ := run_node h
    exact run_push_of_ok Ref.node (Graph.push_withName pushed called)
  | bind _ _ hx hk => exact repeats_bind hx fun _ b _ _ => hk b

theorem repeats_foldlM {f f' : γ → β → Emit α γ} {bs : List β}
    (h : ∀ b ∈ bs, ∀ c, Repeats (f c b) (f' c b)) (c : γ) :
    Repeats (bs.foldlM f c) (bs.foldlM f' c) := by
  induction bs generalizing c with
  | nil => exact repeats_pure c
  | cons b bs ih =>
    rw [List.foldlM_cons, List.foldlM_cons]
    exact repeats_bind (h b List.mem_cons_self c) fun _ c' _ _ =>
      ih (fun b' hb => h b' (List.mem_cons_of_mem _ hb)) c'

theorem repeats_filterMapM {f f' : β → Emit α (Option γ)} (h : ∀ b, Repeats (f b) (f' b))
    (bs : List β) : Repeats (bs.filterMapM f) (bs.filterMapM f') := by
  induction bs with
  | nil => exact repeats_pure []
  | cons b bs ih =>
    rw [List.filterMapM_cons, List.filterMapM_cons]
    refine repeats_bind (h b) fun _ found _ _ => ?_
    cases found with
    | none => exact ih
    | some c => exact repeats_bind ih fun _ rest _ _ => repeats_pure _

end Emit

/-! ## The backward set -/

/-- Both modules train the same of the variables that the graph refers to. -/
def Graph.TrainsAlike (g : Graph α) (m m' : Module α) : Prop :=
  ∀ v, g.References v → m'.isTrained v = m.isTrained v

section
variable {g : Graph α} {m m' : Module α}

theorem Graph.TrainsAlike.flows (alike : g.TrainsAlike m m') {id : NodeId} {v : VarId}
    (h : Ref.var v ∈ g.flows id) : m'.isTrained v = m.isTrained v := by
  cases hn : g.node? id with
  | none => simp [Graph.flows, hn] at h
  | some n => exact alike v ⟨n, Array.mem_of_getElem? hn, Graph.flows_subset hn h⟩

theorem Graph.TrainsAlike.dependents (alike : g.TrainsAlike m m') (order : List NodeId) :
    g.dependents m' order = g.dependents m order := by
  unfold Graph.dependents
  congr 1
  funext found id
  refine congrArg (fun (depends : Bool) => if depends then id :: found else found) ?_
  rw [Bool.eq_iff_iff, List.any_eq_true, List.any_eq_true]
  refine exists_congr fun r => and_congr_right fun hr => ?_
  cases r with
  | var v =>
    show m'.isTrained v = true ↔ m.isTrained v = true
    rw [alike.flows hr]
  | node source => rfl

theorem Graph.TrainsAlike.backwardOrder (alike : g.TrainsAlike m m') (order : List NodeId) :
    g.backwardOrder m' order = g.backwardOrder m order := by
  simp only [Graph.backwardOrder, alike.dependents]

theorem Graph.TrainsAlike.wants (alike : g.TrainsAlike m m') {n : Node α} (hn : n ∈ g.nodes)
    (backward : List NodeId) : n.wants m' backward = n.wants m backward := by
  funext i
  rw [Node.wants, Node.wants]
  congr 1
  cases hr : n.inputs[i]? with
  | none => rfl
  | some r =>
    cases r with
    | var v => exact alike v ⟨n, hn, List.mem_of_getElem? hr⟩
    | node source => rfl

end

/-! ## The pass and the sums -/

open Emit
variable [Scalar α] {m m' : Module α} {forward g g' : Graph α} {cs : List Contribution}

theorem Node.repeats_propagate {n : Node α} (covers : m'.Covers m) {backward : List NodeId}
    (same : n.wants m' backward = n.wants m backward) (id : NodeId) (cs : List Contribution) :
    Repeats (n.propagate m id backward cs) (n.propagate m' id backward cs) := by
  show Repeats _ (do
    let total ← n.totalGradient m' id cs
    let grads ← n.gradients m' id total (n.wants m' backward)
    return cs ++ grads.filterMap fun (q : InputGradient) =>
      n.inputs[q.position]?.map fun (r : Ref) => ⟨r, q.gradient⟩)
  rw [same]
  exact repeats_bind ((n.uniform_totalGradient id cs).repeats covers) fun _ total _ _ =>
    repeats_bind ((n.uniform_gradients id total _).repeats covers) fun _ _ _ _ => repeats_pure _

theorem Graph.repeats_backwardPass (covers : m'.Covers m) (alike : forward.TrainsAlike m m')
    (name : String) (backward : List NodeId) :
    Repeats (forward.backwardPass m backward) ((forward.withName name).backwardPass m' backward) := by
  refine repeats_foldlM (fun id _ cs => repeats_bind (repeats_lift fun n known => ?_)
    fun _ n _ ran => ?_) []
  · have found : forward.node? id = some n := node_eq_ok_iff.mp known
    exact node_eq_ok_iff.mpr found
  · have known := node_eq_ok_iff.mp (run_lift ran).1
    exact Node.repeats_propagate covers (alike.wants (Array.mem_of_getElem? known) backward) id cs

omit [Scalar α] in
theorem repeats_weightSum (covers : m'.Covers m) (cs : List Contribution) (id : VarId) :
    Repeats (weightSum m cs id) (weightSum m' cs id) := by
  cases parts : contributionsTo cs (.var id) with
  | nil =>
    simp only [weightSum, parts]
    exact repeats_pure none
  | cons r rest =>
    simp only [weightSum, parts]
    intro g sum g' name h
    obtain ⟨v, g₁, asked, pushing⟩ := run_bind_eq_ok h
    obtain ⟨hv, rfl⟩ := run_lift asked
    obtain ⟨total, rfl, pushed⟩ := run_push (k := fun total =>
      some (⟨id, total⟩ : WeightGradient)) pushing
    obtain ⟨v', hv', alike⟩ := covers id v (Module.var_eq_ok_iff.mp hv)
    have asked' : (liftM (m'.var id) : Emit α (Variable α)).run (g₁.withName name) =
        .ok (v', g₁.withName name) := by
      rw [Module.var_eq_ok_iff.mpr hv']
      rfl
    rw [run_bind_of_ok asked', alike.name, alike.type]
    exact run_push_of_ok (fun total => some (⟨id, total⟩ : WeightGradient))
      (Graph.push_withName pushed name)

omit [Scalar α] in
/-- Variables without gradients have no sums, wherever they stand. -/
theorem run_weightSums_append {ids more : List VarId} {sums : List WeightGradient}
    (unreached : ∀ id ∈ more, contributionsTo cs (.var id) = [])
    (h : (ids.filterMapM (weightSum m cs)).run g = .ok (sums, g')) :
    ((ids ++ more).filterMapM (weightSum m cs)).run g = .ok (sums, g') := by
  induction ids generalizing g sums with
  | nil =>
    cases h
    induction more with
    | nil => rfl
    | cons id more ih =>
      have first : (weightSum m cs id).run g' = .ok (none, g') := by
        simp only [weightSum, unreached id List.mem_cons_self]
        rfl
      rw [List.nil_append, List.filterMapM_cons, run_bind_of_ok first]
      exact ih fun id' hid => unreached id' (List.mem_cons_of_mem _ hid)
  | cons id ids ih =>
    rw [List.filterMapM_cons] at h
    rw [List.cons_append, List.filterMapM_cons]
    obtain ⟨sum, g₁, first, rest⟩ := run_bind_eq_ok h
    rw [run_bind_of_ok first]
    cases sum with
    | none => exact ih rest
    | some w =>
      obtain ⟨others, g₂, summed, done⟩ := run_bind_eq_ok rest
      cases done
      rw [run_bind_of_ok (ih summed)]
      rfl

omit [Scalar α] in
/-- Variables that were added since do not matter, as no gradient is for them. -/
theorem repeats_weightSums (covers : m'.Covers m)
    (known : ∀ c ∈ cs, ∀ v, c.target = .var v → v.index < m.vars.size) :
    Repeats (weightSums m cs) (weightSums m' cs) := by
  obtain ⟨count, more⟩ := Nat.exists_eq_add_of_le covers.size_le
  have unreached : ∀ id ∈ (List.range count).map (fun (i : Nat) => VarId.mk (m.vars.size + i)),
      contributionsTo cs (.var id) = [] := by
    intro id hid
    obtain ⟨i, -, rfl⟩ := List.mem_map.mp hid
    refine List.eq_nil_iff_forall_not_mem.mpr fun r hr => ?_
    exact absurd (known _ (mem_contributionsTo.mp hr) _ rfl) (by simp)
  have ids : (List.range m'.vars.size).map VarId.mk = (List.range m.vars.size).map VarId.mk ++
      (List.range count).map fun (i : Nat) => VarId.mk (m.vars.size + i) := by
    rw [more, List.range_add, List.map_append, List.map_map]
    rfl
  rw [weightSums_eq, weightSums_eq, ids]
  intro g sums g' name h
  exact run_weightSums_append unreached
    (repeats_filterMapM (repeats_weightSum covers cs) _ g sums g' name h)

/-! ## The whole graph -/

theorem Graph.Backpropagates.withGradients {sums : List WeightGradient}
    (h : forward.Backpropagates m cs sums g) (losses : forward.savedLosses ≠ []) :
    forward.withGradients m = .ok (g, sums) := by
  obtain ⟨order, g₁, horder, pass, summed⟩ := h
  have ran := (run_bind_of_ok (k := fun cs => weightSums m cs) pass).trans summed
  simp only [bind] at ran
  simp only [Graph.withGradients, horder, bind, Except.bind]
  rw [if_neg (by simpa using losses), ran]

/-- The gradients of a graph, in a module that trains the same of its variables. -/
theorem Graph.withGradients_repeats {sums : List WeightGradient} (formed : forward.WellFormed)
    (covers : m'.Covers m) (alike : forward.TrainsAlike m m')
    (h : forward.withGradients m = .ok (g, sums)) (name : String) :
    (forward.withName name).withGradients m' = .ok (g.withName (name ++ ".train"), sums) := by
  obtain ⟨cs, passes⟩ := withGradients_eq_ok h
  have known : ∀ c ∈ cs, ∀ v, c.target = .var v → v.index < m.vars.size := by
    intro c hc v same
    have reaches := (passes.targets formed c hc).1
    rw [same] at reaches
    exact Module.lt_size_of_isTrained reaches
  obtain ⟨order, g₁, horder, pass, summed⟩ := passes
  have ordered : (forward.withName name).Ordered := formed.ordered
  have order' : (forward.withName name).evaluationOrder = .ok order :=
    (ordered.evaluationOrder_eq.trans formed.ordered.evaluationOrder_eq.symm).trans horder
  have backward : (forward.withName name).backwardOrder m' order = forward.backwardOrder m order :=
    alike.backwardOrder order
  have losses : forward.savedLosses ≠ [] := by
    intro empty
    simp [withGradients, horder, empty, bind, Except.bind] at h
  have pass' := repeats_backwardPass covers alike name _ _ _ _ (name ++ ".train") pass
  have summed' := repeats_weightSums covers known _ _ _ (name ++ ".train") summed
  exact Backpropagates.withGradients ⟨order, _, order', backward ▸ pass', summed'⟩ losses

/-! ## Velocities -/

variable {m₁ m₂ m₃ : Module α}

/-- The same variables are trained. -/
def Module.TrainsSame (m m' : Module α) : Prop := ∀ v, m'.isTrained v = m.isTrained v

instance Module.trainsSame_isPreorder : IsPreorder (Module α) Module.TrainsSame where
  refl _ _ := rfl
  trans _ _ _ h h' v := (h' v).trans (h v)

theorem Module.trainsSame_of_findOrDeclare {name : String} {type : TensorType α}
    {visibility : Visibility} {id : VarId}
    (h : m.findOrDeclare name type visibility .untrained = .ok (m', id)) : m.TrainsSame m' := by
  rcases findOrDeclare_eq_ok h with ⟨rfl, -⟩ | declared
  · exact fun _ => rfl
  · obtain ⟨-, rfl, -⟩ := declare_eq_ok declared
    intro v
    rw [isTrained, isTrained, declare_var? declared]
    split
    · next own =>
      have absent : m.var? v = none := own ▸ Array.getElem?_eq_none (Nat.le_refl _)
      rw [absent]
      rfl
    · rfl

/-- No velocity is trained. -/
theorem Build.trainsSame_trainingGraph (f : GraphId) (rule : UpdateRule α) :
    Leads Module.TrainsSame (trainingGraph f rule) :=
  leads_differentiation
    (fun _ _ => leads_attempt fun _ _ _ => Module.trainsSame_of_findOrDeclare) f rule

/-- The variable that was found or declared is found from then on. -/
theorem Module.findOrDeclare_again {name : String} {type type' : TensorType α}
    {visibility visibility' : Visibility} {training training' : Training α} {id id' : VarId}
    (sound : m₂.Sound) (covers : m₂.Covers m₁)
    (h : m.findOrDeclare name type visibility training = .ok (m₁, id))
    (h' : m₂.findOrDeclare name type' visibility' training' = .ok (m₃, id')) :
    m₃ = m₂ ∧ id' = id := by
  obtain ⟨u, hu, called⟩ := findOrDeclare_name h
  obtain ⟨u', hu', alike⟩ := covers id u hu
  rw [findOrDeclare] at h'
  cases found : m₂.find? name with
  | none => exact absurd (alike.name.trans called) (find?_eq_none_iff.mp found id u' hu')
  | some i =>
    obtain ⟨v, hv, named⟩ := find?_eq_some found
    obtain rfl := sound.distinct _ _ v u' hv hu' (named.trans (alike.name.trans called).symm)
    simp only [found] at h'
    split at h'
    · cases h'
      exact ⟨rfl, rfl⟩
    · cases h'

/-- The same updates are added once more, and no velocity is. -/
theorem Build.withUpdates_again {rule : UpdateRule α} {train train' : Graph α}
    {sums : List WeightGradient} {name : String} (sound : m₂.Sound) (covers : m₂.Covers m₁)
    (h : Yields (withUpdates rule g sums) m train m₁)
    (h' : Yields (withUpdates rule (g.withName name) sums) m₂ train' m₃) :
    m₃ = m₂ ∧ train' = train.withName name := by
  induction sums generalizing m g with
  | nil =>
    obtain ⟨rfl, rfl⟩ := yields_pure.mp h
    obtain ⟨rfl, rfl⟩ := yields_pure.mp h'
    exact ⟨rfl, rfl⟩
  | cons w sums ih =>
    obtain ⟨v, m₄, asked, declaring⟩ := yields_bind.mp h
    obtain ⟨hv, rfl⟩ := yields_ask.mp asked
    obtain ⟨velocity, m₅, found, adding⟩ := yields_bind.mp declaring
    obtain ⟨⟨g₁, id⟩, m₆, pushed, rest⟩ := yields_bind.mp adding
    obtain ⟨hp, rfl⟩ := yields_ask.mp pushed
    obtain ⟨v', m₇, asked', declaring'⟩ := yields_bind.mp h'
    obtain ⟨hv', rfl⟩ := yields_ask.mp asked'
    obtain ⟨velocity', m₈, found', adding'⟩ := yields_bind.mp declaring'
    obtain ⟨⟨g₁', id'⟩, m₉, pushed', rest'⟩ := yields_bind.mp adding'
    obtain ⟨hp', rfl⟩ := yields_ask.mp pushed'
    have declared := yields_attempt.mp found
    have later : m₁.Covers m₆ := by
      have evolves := leads_withUpdates (R := Module.Evolves)
        (fun _ _ => leads_attempt fun _ _ _ => Module.findOrDeclare_evolves) rule g₁ sums m₆
      rw [Yields] at rest
      rw [rest] at evolves
      exact evolves.covers
    have covers' := covers.trans (later.trans (Module.findOrDeclare_evolves declared).covers)
    obtain ⟨u, hu, alike⟩ := covers' _ v (Module.var_eq_ok_iff.mp hv)
    obtain rfl := Option.some.inj (hu.symm.trans (Module.var_eq_ok_iff.mp hv'))
    have redeclared := yields_attempt.mp found'
    rw [alike.name] at redeclared
    obtain ⟨rfl, rfl⟩ :=
      Module.findOrDeclare_again sound (covers.trans later) declared redeclared
    rw [alike.name] at hp'
    obtain ⟨⟩ := (Graph.push_withName hp name).symm.trans hp'
    exact ih rest rest'

/-- The training graph is the same once more, and the module is as it was. -/
theorem Build.trainingGraph_again {f : GraphId} {rule : UpdateRule α} {train train' : Graph α}
    {name : String} (formed : forward.WellFormed) (sound : m₂.Sound) (covers : m₂.Covers m₁)
    (found : m.graph? f = some forward) (found' : m₂.graph? f = some (forward.withName name))
    (alike : forward.TrainsAlike m m₂) (h : Yields (trainingGraph f rule) m train m₁)
    (h' : Yields (trainingGraph f rule) m₂ train' m₃) :
    m₃ = m₂ ∧ train' = train.withName (name ++ ".train") := by
  obtain ⟨g₀, g, sums, hg₀, gradients, updated⟩ := trainingGraph_parts h
  obtain rfl := Option.some.inj (found.symm.trans hg₀)
  obtain ⟨g₁, g', sums', hg₁, gradients', updated'⟩ := trainingGraph_parts h'
  obtain rfl := Option.some.inj (found'.symm.trans hg₁)
  have first : m₁.Covers m := by
    have evolves := leads_trainingGraph f rule m
    rw [Yields] at h
    rw [h] at evolves
    exact evolves.covers
  have again := Graph.withGradients_repeats formed (covers.trans first) alike gradients name
  obtain ⟨⟩ := again.symm.trans gradients'
  exact withUpdates_again sound covers updated updated'

end NeuralGraph
