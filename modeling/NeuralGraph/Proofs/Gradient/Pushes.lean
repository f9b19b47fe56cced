import NeuralGraph.Proofs.Gradient.Training
import NeuralGraph.Proofs.Graph.Made

/-!
# Differentiation only adds nodes

Whatever graph is differentiated, its training graph is the graph with more nodes: first nodes of
gradients, which have values and none of which is an activation function, then updates.
-/

namespace NeuralGraph
set_option autoImplicit false
variable {α : Type}

namespace Emit
variable {β γ : Type} {m : Module α} {name : String}

/-! ## Rules in general -/

/-- Computations that do the same for every module: they ask for types and add nodes of gradients. -/
inductive Uniform : {β : Type} → (Module α → Emit α β) → Prop
  | pure {β : Type} (b : β) : Uniform fun _ => pure b
  | throw {β : Type} (e : Error α) : Uniform fun _ => (throw e : Emit α β)
  | typeOf (r : Ref) : Uniform fun m => typeOf m r
  | node {kind : NodeKind α} (gradient : kind.IsGradient) (name : String) (inputs : List Ref)
      (type : TensorType α) : Uniform fun _ => node name kind inputs type
  | bind {β γ : Type} {x : Module α → Emit α β} {k : Module α → β → Emit α γ} : Uniform x →
      (∀ b, Uniform fun m => k m b) → Uniform fun m => x m >>= k m

namespace Uniform

theorem typeOfRank (r : Ref) (bound : RankBound) : Uniform fun (m : Module α) =>
    typeOfRank m name r bound := by
  refine .bind (.typeOf r) fun t => ?_
  cases bound
  all_goals
    dsimp only
    split
    · exact .pure t
    · exact .throw _

theorem binary (op : BinaryOp) (lhs rhs : Ref) : Uniform fun (m : Module α) =>
    binary m name op lhs rhs :=
  .bind (.typeOf lhs) fun _ => .node (.inl rfl) _ _ _

theorem splat (type : TensorType α) (x : α) : Uniform fun _ => splat name type x :=
  .node (.inl rfl) _ _ _

theorem transposeMatrix (input : Ref) : Uniform fun (m : Module α) => transposeMatrix m name input :=
  .bind (.typeOfRank input _) fun _ => .node (.inl rfl) _ _ _

theorem matMul (lhs rhs : Ref) : Uniform fun (m : Module α) => matMul m name lhs rhs :=
  .bind (.typeOfRank lhs _) fun _ => .bind (.typeOfRank rhs _) fun _ => .node (.inl rfl) _ _ _

theorem reshape (input : Ref) (dims : List Nat) : Uniform fun (m : Module α) =>
    reshape m name input dims := by
  refine .bind (.typeOf input) fun t => ?_
  split
  · exact .pure input
  · exact .node (.inl rfl) _ _ _

theorem sumRows (input : Ref) : Uniform fun (m : Module α) => sumRows m name input :=
  .bind (.typeOfRank input _) fun _ => .node (.inl rfl) _ _ _

theorem wanted {wanted : Bool} {position : Nat} {x : Module α → Emit α Ref} (h : Uniform x) :
    Uniform fun (m : Module α) => (if wanted then do
      let r ← x m
      return [⟨position, r⟩]
    else return [] : Emit α (List InputGradient)) := by
  cases wanted with
  | true => exact .bind h fun r => .pure _
  | false => exact .pure _

theorem both {x y : Module α → Emit α (List InputGradient)} (hx : Uniform x) (hy : Uniform y) :
    Uniform fun (m : Module α) => (do
      let first ← x m
      let second ← y m
      return first ++ second) :=
  .bind hx fun _ => .bind hy fun _ => .pure _

end Uniform
end Emit

open Emit
variable [Scalar α]

theorem Operator.uniform_gradients (op : Operator α) (name : String) (inputs : List Ref) (this g : Ref)
    (wants : Nat → Bool) {refuse : Emit α (List InputGradient)} (refused : Uniform fun _ => refuse) :
    Uniform fun (m : Module α) => op.gradients m name inputs this g wants refuse := by
  unfold Operator.gradients
  dsimp only
  split
  · refine .bind (.typeOfRank _ _) fun t => ?_
    refine .bind (.wanted ?_) fun toInput => ?_
    · exact .bind (.transposeMatrix _) fun wt => .bind (.matMul _ _) fun gx => .reshape _ _
    refine .bind (.wanted ?_) fun toWeights => ?_
    · exact .bind (.reshape _ _) fun flat => .bind (.transposeMatrix _) fun xt => .matMul _ _
    exact .bind (.wanted (.sumRows _)) fun _ => .pure _
  · refine .both (.wanted ?_) (.wanted ?_)
    · exact .bind (.transposeMatrix _) fun bt => .matMul _ _
    · exact .bind (.transposeMatrix _) fun at' => .matMul _ _
  · exact .both (.wanted (.pure _)) (.wanted (.sumRows _))
  · refine .wanted (.bind (.typeOf _) fun t => ?_)
    exact .bind (.splat _ _) fun zero => .node (.inl rfl) _ _ _
  · exact .both (.wanted (.pure _)) (.wanted (.pure _))
  · refine .both (.wanted (.pure _)) (.wanted ?_)
    exact .bind (.typeOf _) fun t => .bind (.splat _ _) fun zero => .binary _ _ _
  · exact .both (.wanted (.binary _ _ _)) (.wanted (.binary _ _ _))
  · exact .wanted (.bind (.typeOf _) fun t => .node (.inl rfl) _ _ _)
  · refine .wanted (.bind (.typeOf _) fun t => ?_)
    exact .bind (.splat _ _) fun one => .bind (.binary _ _ _) fun rest =>
      .bind (.binary _ _ _) fun slope => .binary _ _ _
  · refine .wanted (.bind (.typeOf _) fun t => ?_)
    exact .bind (.splat _ _) fun one => .bind (.binary _ _ _) fun square =>
      .bind (.binary _ _ _) fun slope => .binary _ _ _
  · refine .wanted (.bind (.typeOfRank _ _) fun t => ?_)
    split
    · exact .node (.inl rfl) _ _ _
    · exact .throw _
  · refine .bind (.wanted ?_) fun toInput => ?_
    · exact .bind (.typeOf _) fun t => .node (.inl rfl) _ _ _
    refine .bind (.wanted ?_) fun toFilter => ?_
    · exact .bind (.typeOf _) fun t => .node (.inl rfl) _ _ _
    refine .bind (.wanted ?_) fun toBias => .pure _
    exact .bind (.typeOfRank _ _) fun t => .bind (.reshape _ _) fun flat => .sumRows _
  · exact .wanted (.bind (.typeOf _) fun t => .node (.inl rfl) _ _ _)
  · exact .wanted (.bind (.typeOf _) fun t => .node (.inl rfl) _ _ _)
  · exact .wanted (.bind (.typeOf _) fun t => .node (.inl rfl) _ _ _)
  · exact refused

theorem Node.uniform_gradients (n : Node α) (id : NodeId) (gradient : Option Ref)
    (wants : Nat → Bool) : Uniform fun (m : Module α) => n.gradients m id gradient wants := by
  unfold Node.gradients
  dsimp only
  split
  · exact .bind (.typeOf _) fun t => .bind (.node (.inl rfl) _ _ _) fun g => .pure _
  · exact .bind (.binary _ _ _) fun g => .pure _
  · split
    · exact .throw _
    · split
      · exact Operator.uniform_gradients _ _ _ _ _ _ (.throw _)
      · split
        · exact .bind (.typeOf _) fun t => .bind (.reshape _ _) fun gx => .pure _
        · exact .pure _
      · exact .throw _

omit [Scalar α] in
theorem Node.uniform_totalGradient (n : Node α) (id : NodeId) (cs : List Contribution) :
    Uniform fun (m : Module α) => n.totalGradient m id cs := by
  unfold Node.totalGradient
  split
  · exact .pure none
  · split
    · exact .pure none
    · exact .pure _
    · exact .bind (.typeOf _) fun t => .bind (.node (.inr rfl) _ _ _) fun total => .pure _

/-! ## What is added -/

section
omit [Scalar α]
variable {β γ : Type} {m : Module α}

namespace Emit

/-- If the computation succeeds, it has added nodes of gradients. -/
def Pushes (x : Emit α β) : Prop :=
  ∀ g b g', x.run g = .ok (b, g') → g.Pushes NodeKind.IsGradient g'

theorem pushes_pure (b : β) : Pushes (pure b : Emit α β) := by
  intro g c g' h
  cases h
  exact .refl g

theorem pushes_lift (x : Except (Error α) β) : Pushes (liftM x : Emit α β) := by
  intro g b g' h
  rw [(run_lift h).2]
  exact .refl g

theorem pushes_bind {x : Emit α β} {k : β → Emit α γ} (hx : Pushes x) (hk : ∀ b, Pushes (k b)) :
    Pushes (x >>= k) := by
  intro g c g'' h
  obtain ⟨b, g', h1, h2⟩ := run_bind_eq_ok h
  exact (hx g b g' h1).trans (hk b g' c g'' h2)

theorem Uniform.pushes {x : Module α → Emit α β} (h : Uniform x) (m : Module α) : Pushes (x m) := by
  induction h with
  | pure b => exact pushes_pure b
  | throw e => exact fun g b g' h => by cases h
  | typeOf r =>
    intro g t g' h
    rw [(run_typeOf h).2]
    exact .refl g
  | node gradient name inputs type =>
    intro g r g' h
    obtain ⟨id, -, pushed⟩ := run_node h
    exact .push (.refl g) gradient pushed
  | bind _ _ hx hk => exact pushes_bind hx hk

end Emit
end

variable {m : Module α}

theorem Node.pushes_propagate (n : Node α) (id : NodeId) (backward : List NodeId)
    (cs : List Contribution) : Pushes (n.propagate m id backward cs) := by
  unfold Node.propagate
  exact pushes_bind ((n.uniform_totalGradient id cs).pushes m) fun total =>
    pushes_bind ((n.uniform_gradients _ _ _).pushes m) fun grads => pushes_pure _

omit [Scalar α] in
theorem Emit.pushes_foldlM {β γ : Type} {f : γ → β → Emit α γ} (h : ∀ c b, Pushes (f c b)) (bs : List β)
    (c : γ) : Pushes (bs.foldlM f c) := by
  induction bs generalizing c with
  | nil => exact pushes_pure c
  | cons b bs ih =>
    rw [List.foldlM_cons]
    exact pushes_bind (h c b) fun c' => ih c'

omit [Scalar α] in
theorem Emit.pushes_filterMapM {β γ : Type} {f : β → Emit α (Option γ)} (h : ∀ b, Pushes (f b))
    (bs : List β) : Pushes (bs.filterMapM f) := by
  induction bs with
  | nil => exact pushes_pure []
  | cons b bs ih =>
    rw [List.filterMapM_cons]
    refine pushes_bind (h b) fun found => ?_
    cases found with
    | none => exact ih
    | some c => exact pushes_bind ih fun rest => pushes_pure _

theorem pushes_backwardPass (forward : Graph α) (backward : List NodeId) :
    Pushes (forward.backwardPass m backward) :=
  pushes_foldlM (fun cs id => pushes_bind (pushes_lift _) fun n => n.pushes_propagate id backward cs)
    backward []

omit [Scalar α] in
theorem pushes_weightSums (cs : List Contribution) : Pushes (weightSums m cs) := by
  rw [weightSums_eq]
  refine pushes_filterMapM (fun id => ?_) _
  unfold weightSum
  split
  · exact pushes_pure none
  · refine pushes_bind (pushes_lift _) fun v => ?_
    intro g sum g' h
    obtain ⟨total, -, pushed⟩ := run_push (k := fun total =>
      some (⟨id, total⟩ : WeightGradient)) h
    exact .push (.refl g) (.inr rfl) pushed

theorem Graph.withGradients_pushes {forward g : Graph α} {sums : List WeightGradient}
    (h : forward.withGradients m = .ok (g, sums)) :
    Graph.Pushes NodeKind.IsGradient { forward with name := forward.name ++ ".train" } g := by
  obtain ⟨cs, order, g₁, -, pass, summed⟩ := withGradients_eq_ok h
  exact (pushes_backwardPass forward _ _ _ _ pass).trans (pushes_weightSums cs _ _ _ summed)

theorem Build.withUpdates_pushes {rule : UpdateRule α} {g train : Graph α}
    {sums : List WeightGradient} {m' : Module α}
    (h : Yields (withUpdates rule g sums) m train m') :
    g.Pushes (fun (kind : NodeKind α) => kind = .update rule) train := by
  induction sums generalizing m g with
  | nil =>
    obtain ⟨rfl, -⟩ := yields_pure.mp h
    exact .refl g
  | cons w sums ih =>
    obtain ⟨v, m₁, -, declaring⟩ := yields_bind.mp h
    obtain ⟨velocity, m₂, -, adding⟩ := yields_bind.mp declaring
    obtain ⟨⟨g₁, id⟩, m₃, pushed, rest⟩ := yields_bind.mp adding
    obtain ⟨hp, rfl⟩ := yields_ask.mp pushed
    exact .trans (.push (.refl g) rfl hp) (ih rest)

/-- A training graph is the graph it is for, under another name, with more nodes, none of which is an
activation function. -/
theorem Build.trainingGraph_pushes {f : GraphId} {rule : UpdateRule α} {train forward : Graph α}
    {m' : Module α} (hf : m.graph? f = some forward) (h : Yields (trainingGraph f rule) m train m') :
    Graph.Pushes (fun (kind : NodeKind α) => ∀ op, kind ≠ .compute (.unary op))
      { forward with name := forward.name ++ ".train" } train := by
  obtain ⟨g₀, g, sums, hg₀, gradients, updated⟩ := trainingGraph_parts h
  obtain rfl := Option.some.inj (hf.symm.trans hg₀)
  refine ((Graph.withGradients_pushes gradients).mono fun kind => ?_).trans
    ((withUpdates_pushes updated).mono fun kind => ?_)
  · exact NodeKind.IsGradient.not_unary
  · rintro rfl op update
    cases update

theorem Graph.Made.trainingGraph {f : GraphId} {rule : UpdateRule α} {train forward : Graph α}
    {m' : Module α} (made : forward.Made) (hf : m.graph? f = some forward)
    (h : Yields (Build.trainingGraph f rule) m train m') : train.Made := by
  have renamed : Made { forward with name := forward.name ++ ".train" } := made.relabel rfl
  exact renamed.pushes (Build.trainingGraph_pushes hf h)

end NeuralGraph
