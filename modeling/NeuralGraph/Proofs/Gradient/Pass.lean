import NeuralGraph.Gradient.Training
import NeuralGraph.Proofs.Gradient.BackwardSet
import NeuralGraph.Proofs.Gradient.Rules

/-!
# The backward pass keeps graphs well shaped

`Shaped` is the invariant of the pass: the graph in the making is proper, every gradient has the
dimensions of the value it is for, and every sum adds gradients of one value and has its dimensions.
Visiting one node keeps it, and so does the whole pass; the sums for the variables come last.
-/

namespace NeuralGraph
set_option autoImplicit false
variable {α : Type}

/-! ## Contributions -/

theorem mem_contributionsTo {cs : List Contribution} {target r : Ref} :
    r ∈ contributionsTo cs target ↔ ⟨target, r⟩ ∈ cs := by
  simp only [contributionsTo, List.mem_map, List.mem_filter, beq_iff_eq]
  constructor
  · rintro ⟨c, ⟨hc, rfl⟩, rfl⟩
    exact hc
  · exact fun h => ⟨_, ⟨h, rfl⟩, rfl⟩

theorem contributionsTo_ne_nil {cs : List Contribution} {target : Ref} :
    contributionsTo cs target ≠ [] ↔ ∃ c ∈ cs, c.target = target := by
  constructor
  · intro reached
    obtain ⟨r, hr⟩ := List.exists_mem_of_ne_nil _ reached
    exact ⟨_, mem_contributionsTo.mp hr, rfl⟩
  · rintro ⟨c, hc, rfl⟩
    exact List.ne_nil_of_mem (mem_contributionsTo.mpr hc)

theorem contributionsTo_append (cs ds : List Contribution) (target : Ref) :
    contributionsTo (cs ++ ds) target = contributionsTo cs target ++ contributionsTo ds target := by
  simp [contributionsTo]

/-! ## Wanted gradients -/

/-- The positions of a node whose inputs are given gradients. -/
def Node.wants (n : Node α) (m : Module α) (backward : List NodeId) (i : Nat) : Bool :=
  (flowPositions n.kind n.inputs.length).contains i &&
    match n.inputs[i]? with
    | some (.var v) => m.isTrained v
    | some (.node source) => backward.contains source
    | none => false

theorem Node.wants_eq_true {n : Node α} {m : Module α} {backward : List NodeId} {i : Nat} {r : Ref}
    (hr : n.inputs[i]? = some r) : n.wants m backward i = true ↔
      i ∈ flowPositions n.kind n.inputs.length ∧ Graph.Reaches m backward r := by
  rw [wants, hr, Bool.and_eq_true, List.contains_iff_mem]
  cases r with
  | var v => rfl
  | node source => exact and_congr_right fun _ => List.contains_iff_mem

/-- A loss wants the gradient of the one value that flows into it. -/
theorem Node.wants_loss {n : Node α} {m : Module α} {forward : Graph α} {id : NodeId}
    (formed : forward.WellFormed) (hn : forward.node? id = some n)
    (backward : id ∈ forward.backwardIds m) (loss : n.kind.isLoss = true) :
    n.wants m (forward.backwardIds m) 0 = true := by
  obtain ⟨r, hr⟩ : ∃ r, n.inputs[0]? = some r := by
    have two : n.inputs.length = 2 := by
      apply formed.arities n (Array.mem_of_getElem? hn) 2
      generalize n.kind = kind at loss
      unfold NodeKind.isLoss at loss
      split at loss
      · rfl
      · rfl
      · cases loss
    exact ⟨_, List.getElem?_eq_getElem (two ▸ Nat.zero_lt_two)⟩
  have positions : flowPositions n.kind n.inputs.length = [0] := if_pos loss
  have only : forward.flows id = [r] := by simp [Graph.flows, hn, positions, hr]
  refine (wants_eq_true hr).mpr ⟨by simp [positions], ?_⟩
  exact Graph.backwardIds_flow formed.ordered backward only

/-! ## The invariant -/

variable [Scalar α]

/-- The node adds gradients of one value and has the dimensions of that value. -/
def Node.SumsGradients (m : Module α) (g : Graph α) (cs : List Contribution) (n : Node α) : Prop :=
  n.inputs ≠ [] ∧ ∃ target t,
    n.inputs <+: contributionsTo cs target ∧ n.type = some t ∧ m.DimsOf g target t.dims

/-- The graph `g`, which goes on from `forward`, is proper, and the gradients in it are well shaped. -/
structure Shaped (m : Module α) (forward g : Graph α) (cs : List Contribution) : Prop where
  ready : g.Ready m
  extends' : g.Extends forward
  added : ∀ n ∈ g.nodes, n ∈ forward.nodes ∨
    (n.kind.isRule = true ∨ n.kind = .gradientSum) ∧ ∃ t, n.type = some t ∧ m.Derives forward t
  fits : ∀ c ∈ cs, ∃ dims, m.DimsOf g c.target dims ∧ m.DimsOf g c.gradient dims
  targets : ∀ c ∈ cs, Graph.Reaches m (forward.backwardIds m) c.target
  uses : ∀ c ∈ cs, ∃ n ∈ forward.nodes, c.target ∈ n.inputs
  sums : ∀ n ∈ g.nodes, n.kind = .gradientSum → n.SumsGradients m g cs

namespace Shaped
variable {m : Module α} {forward g g' : Graph α} {cs : List Contribution}

theorem types (shaped : Shaped m forward g cs) :
    ∀ n ∈ g.nodes, n ∈ forward.nodes ∨ ∃ t, n.type = some t ∧ m.Derives forward t :=
  fun n hn => (shaped.added n hn).imp_right And.right

theorem grow (shaped : Shaped m forward g cs) (grows : g.Grows m g') : Shaped m forward g' cs := by
  refine ⟨grows.ready, grows.extends'.trans shaped.extends', ?_, ?_, shaped.targets, shaped.uses,
    ?_⟩
  · intro n hn
    rcases grows.added n hn with hn | ⟨rule, t, type, derives⟩
    · exact shaped.added n hn
    · exact .inr ⟨.inl rule, t, type, derives.of_added shaped.types⟩
  · intro c hc
    obtain ⟨dims, ht, hg⟩ := shaped.fits c hc
    exact ⟨dims, grows.dimsOf ht, grows.dimsOf hg⟩
  · intro n hn kind
    rcases grows.added n hn with hn | ⟨rule, -⟩
    · obtain ⟨filled, target, t, inputs, type, hd⟩ := shaped.sums n hn kind
      exact ⟨filled, target, t, inputs, type, grows.dimsOf hd⟩
    · rw [kind] at rule
      cases rule

omit [Scalar α] in
theorem exists_types {rs : List Ref} {dims : List Nat} (h : ∀ r ∈ rs, m.DimsOf g r dims) :
    ∃ ts, m.TypesOf g rs ts ∧ ∀ t ∈ ts, t.dims = dims := by
  induction rs with
  | nil => exact ⟨[], .nil, by simp⟩
  | cons r rs ih =>
    obtain ⟨t, ht, dimsT⟩ := h r List.mem_cons_self
    obtain ⟨ts, hts, all⟩ := ih fun r hr => h r (List.mem_cons_of_mem _ hr)
    refine ⟨t :: ts, .cons ht hts, ?_⟩
    intro u hu
    rcases List.mem_cons.mp hu with rfl | hu
    · exact dimsT
    · exact all u hu

theorem dimsOf_contributions (shaped : Shaped m forward g cs) {target : Ref} {t : TensorType α}
    (ht : m.typeOf g target = .ok t) : ∀ r ∈ contributionsTo cs target, m.DimsOf g r t.dims := by
  intro r hr
  obtain ⟨dims, hd, hr⟩ := shaped.fits _ (mem_contributionsTo.mp hr)
  rwa [hd.unique ht]

theorem push_sum (shaped : Shaped m forward g cs) {name : String} {target : Ref}
    {t : TensorType α} {id : NodeId} (ht : m.typeOf g target = .ok t)
    (reached : contributionsTo cs target ≠ [])
    (h : g.push name .gradientSum (contributionsTo cs target) (some t) = .ok (g', id)) :
    Shaped m forward g' cs := by
  obtain ⟨ts, types, all⟩ := exists_types (shaped.dimsOf_contributions ht)
  have extends' := Graph.push_extends h
  have dimsOf : ∀ {r dims}, m.DimsOf g r dims → m.DimsOf g' r dims := by
    rintro r dims ⟨u, hu, rfl⟩
    exact ⟨u, Module.typeOf_mono hu (.refl m) extends', rfl⟩
  refine ⟨?_, extends'.trans shaped.extends', ?_, ?_, shaped.targets, shaped.uses, ?_⟩
  · refine shaped.ready.push h types (.gradientSum all) trivial ?_
    rintro u hu
    cases hu
    exact shaped.ready.comparable ht
  · intro n hn
    rcases (Graph.mem_push h).mp hn with hn | rfl
    · exact shaped.added n hn
    · exact .inr ⟨.inr rfl, t, rfl, (Module.Derives.of_typeOf ht).of_added shaped.types⟩
  · intro c hc
    obtain ⟨dims, ht, hg⟩ := shaped.fits c hc
    exact ⟨dims, dimsOf ht, dimsOf hg⟩
  · intro n hn kind
    rcases (Graph.mem_push h).mp hn with hn | rfl
    · obtain ⟨filled, target, u, inputs, type, hd⟩ := shaped.sums n hn kind
      exact ⟨filled, target, u, inputs, type, dimsOf hd⟩
    · exact ⟨reached, target, t, List.prefix_rfl, rfl, dimsOf ⟨t, ht, rfl⟩⟩

/-! ## One node -/

variable {n : Node α} {id : NodeId}

theorem totalGradient (shaped : Shaped m forward g cs) {total : Option Ref}
    (h : (n.totalGradient m id cs).run g = .ok (total, g')) :
    Shaped m forward g' cs ∧ ∀ gradient, total = some gradient →
      ∃ dims, m.DimsOf g' (.node id) dims ∧ m.DimsOf g' gradient dims := by
  rw [Node.totalGradient] at h
  split at h
  · cases h
    exact ⟨shaped, fun _ h => by cases h⟩
  · split at h
    · cases h
      exact ⟨shaped, fun _ h => by cases h⟩
    · next gradient hone =>
      cases h
      refine ⟨shaped, fun _ h => ?_⟩
      cases h
      have mem : gradient ∈ contributionsTo cs (.node id) := by simp [hone]
      exact shaped.fits _ (mem_contributionsTo.mp mem)
    · next reached _ =>
      obtain ⟨t, g₁, typed, rest⟩ := Emit.run_bind_eq_ok h
      obtain ⟨ht, rfl⟩ := Emit.run_typeOf typed
      obtain ⟨r, g₂, added, done⟩ := Emit.run_bind_eq_ok rest
      obtain ⟨sum, rfl, hp⟩ := Emit.run_node added
      cases done
      refine ⟨shaped.push_sum ht reached hp, fun _ h => ?_⟩
      cases h
      exact ⟨t.dims, ⟨t, Module.typeOf_mono ht (.refl m) (Graph.push_extends hp), rfl⟩,
        ⟨t, Module.typeOf_node_iff.mpr ⟨_, Graph.push_node hp, rfl⟩, rfl⟩⟩

theorem join (shaped : Shaped m forward g cs) (member : n ∈ forward.nodes) {wants : Nat → Bool}
    {grads : List InputGradient}
    (fit : m.GradientsFit g n.inputs wants grads)
    (reaches : ∀ i r, wants i = true → n.inputs[i]? = some r →
      Graph.Reaches m (forward.backwardIds m) r) :
    Shaped m forward g (cs ++ grads.filterMap fun (q : InputGradient) =>
      n.inputs[q.position]?.map fun (r : Ref) => ⟨r, q.gradient⟩) := by
  have new : ∀ c ∈ grads.filterMap (fun (q : InputGradient) =>
      n.inputs[q.position]?.map fun (r : Ref) => (⟨r, q.gradient⟩ : Contribution)),
      Graph.Reaches m (forward.backwardIds m) c.target ∧ c.target ∈ n.inputs ∧
        ∃ dims, m.DimsOf g c.target dims ∧ m.DimsOf g c.gradient dims := by
    intro c hc
    obtain ⟨q, hq, hqc⟩ := List.mem_filterMap.mp hc
    obtain ⟨hw, r, dims, hr, hd, hg⟩ := fit q hq
    rw [hr, Option.map_some] at hqc
    cases hqc
    exact ⟨reaches _ r hw hr, List.mem_of_getElem? hr, dims, hd, hg⟩
  refine ⟨shaped.ready, shaped.extends', shaped.added, fun c hc => ?_, fun c hc => ?_,
    fun c hc => ?_, fun n hn kind => ?_⟩
  · rcases List.mem_append.mp hc with hc | hc
    · exact shaped.fits c hc
    · exact (new c hc).2.2
  · rcases List.mem_append.mp hc with hc | hc
    · exact shaped.targets c hc
    · exact (new c hc).1
  · rcases List.mem_append.mp hc with hc | hc
    · exact shaped.uses c hc
    · exact ⟨n, member, (new c hc).2.1⟩
  · obtain ⟨filled, target, t, inputs, type, hd⟩ := shaped.sums n hn kind
    refine ⟨filled, target, t, ?_, type, hd⟩
    rw [contributionsTo_append]
    exact inputs.trans (List.prefix_append _ _)

/-- The gradients of a backward node are added to the graph, and they fit; or else its rule fails. -/
theorem settles_gradients (shaped : Shaped m forward g cs) (proper : forward.Proper m)
    (hn : forward.node? id = some n) (backward : id ∈ forward.backwardIds m) {total : Option Ref}
    (sum : ∀ gradient, total = some gradient →
      ∃ dims, m.DimsOf g (.node id) dims ∧ m.DimsOf g gradient dims) :
    Emit.Settles m (n.gradients m id total (n.wants m (forward.backwardIds m))) g (n.RuleError total)
      fun grads g' => m.GradientsFit g' n.inputs (n.wants m (forward.backwardIds m)) grads := by
  have member : n ∈ forward.nodes := Array.mem_of_getElem? hn
  obtain ⟨ts, types, accepts⟩ := (proper.typed n member).accepts
  have value : ∀ d, n.type = some d → m.typeOf g (.node id) = .ok d := fun d hd =>
    Module.typeOf_node_iff.mpr ⟨n, shaped.extends' id.index n hn, hd⟩
  exact Node.settles_gradients shaped.ready (Node.wants_loss proper.formed hn backward)
    (proper.formed.arities n member) (types.mono (.refl m) shaped.extends') accepts
    (fun d hd => ⟨d, value d hd, rfl⟩)
    (fun d gradient hd htotal => by
      obtain ⟨dims, same, hg⟩ := sum gradient htotal
      rwa [same.unique (value d hd)])

theorem gradients (shaped : Shaped m forward g cs) (proper : forward.Proper m)
    (hn : forward.node? id = some n) (backward : id ∈ forward.backwardIds m) {total : Option Ref}
    (sum : ∀ gradient, total = some gradient →
      ∃ dims, m.DimsOf g (.node id) dims ∧ m.DimsOf g gradient dims)
    {grads : List InputGradient}
    (h : (n.gradients m id total (n.wants m (forward.backwardIds m))).run g = .ok (grads, g')) :
    g.Grows m g' ∧ m.GradientsFit g' n.inputs (n.wants m (forward.backwardIds m)) grads :=
  (shaped.settles_gradients proper hn backward sum).adds grads g' h

/-- Visiting a backward node keeps the graph well shaped. -/
theorem propagate (shaped : Shaped m forward g cs) (proper : forward.Proper m)
    (hn : forward.node? id = some n) (backward : id ∈ forward.backwardIds m)
    {cs' : List Contribution}
    (h : (n.propagate m id (forward.backwardIds m) cs).run g = .ok (cs', g')) :
    Shaped m forward g' cs' := by
  obtain ⟨total, g₁, summed, rest⟩ := Emit.run_bind_eq_ok h
  obtain ⟨grads, g₂, added, done⟩ := Emit.run_bind_eq_ok rest
  cases done
  obtain ⟨shaped₁, sum⟩ := shaped.totalGradient summed
  obtain ⟨grows, fit⟩ := shaped₁.gradients proper hn backward sum added
  exact (shaped₁.grow grows).join (Array.mem_of_getElem? hn) fit fun i r wants hr =>
    ((Node.wants_eq_true hr).mp wants).2

/-! ## The whole pass -/

theorem visit (proper : forward.Proper m) {ids : List NodeId}
    (backward : ∀ id ∈ ids, id ∈ forward.backwardIds m) (shaped : Shaped m forward g cs)
    {cs' : List Contribution}
    (h : (ids.foldlM (fun (cs : List Contribution) (id : NodeId) => (do
      let n ← forward.node id
      n.propagate m id (forward.backwardIds m) cs : Emit α (List Contribution))) cs).run g =
        .ok (cs', g')) : Shaped m forward g' cs' := by
  induction ids generalizing g cs with
  | nil =>
    cases h
    exact shaped
  | cons id ids ih =>
    rw [List.foldlM_cons] at h
    obtain ⟨cs₁, g₁, visited, rest⟩ := Emit.run_bind_eq_ok h
    obtain ⟨n, g₀, found, moved⟩ := Emit.run_bind_eq_ok visited
    refine ih (fun id h => backward id (List.mem_cons_of_mem _ h)) ?_ rest
    obtain ⟨known, rfl⟩ := Emit.run_lift found
    have hn := Graph.node_eq_ok_iff.mp known
    exact shaped.propagate proper hn (backward id List.mem_cons_self) moved

end Shaped
end NeuralGraph
