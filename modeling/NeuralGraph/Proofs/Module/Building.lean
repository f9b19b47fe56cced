import NeuralGraph.Module.Layers
import NeuralGraph.Proofs.Module.Proper
import NeuralGraph.Proofs.Yields

/-!
# Building proper graphs

Whatever a layer does, and also where it fails halfway, it leaves a proper module: the checks of the
layers are those that `NodeKind.Accepts` states.  `Module.Built` are the modules in which one graph
was made by layers only; what happened to the other graphs does not matter.
-/

namespace NeuralGraph
set_option autoImplicit false
variable {α : Type}

namespace Build
variable {β γ : Type}

/-- Whatever its outcome, the computation leaves a module with the property. -/
def Leaves (x : Build α β) (m : Module α) (P : Module α → Prop) : Prop := P (x.run.run m).2

section
variable {x : Build α β} {k : β → Build α γ} {m : Module α} {P : Module α → Prop}

theorem leaves_bind (h : ∀ b m', x.run.run m = (.ok b, m') → (k b).Leaves m' P)
    (h' : ∀ e m', x.run.run m = (.error e, m') → P m') : (x >>= k).Leaves m P := by
  have run : (x >>= k).run.run m =
      match x.run.run m with
      | (.ok b, m') => (k b).run.run m'
      | (.error e, m') => (.error e, m') := by
    simp only [ExceptT.run_bind, StateT.run_bind]
    generalize x.run.run m = r
    obtain ⟨r, m'⟩ := r
    cases r <;> rfl
  rw [Leaves, run]
  rcases hx : x.run.run m with ⟨r, m'⟩
  cases r with
  | ok b => exact h b m' hx
  | error e => exact h' e m' hx

theorem leaves_then (hx : x.Leaves m P) (hk : ∀ b m', P m' → (k b).Leaves m' P) :
    (x >>= k).Leaves m P := by
  refine leaves_bind (fun b m' h => hk b m' ?_) (fun e m' h => ?_)
  all_goals
    rw [Leaves, h] at hx
    exact hx

theorem leaves_pure {b : β} (hm : P m) : (pure b : Build α β).Leaves m P := hm

theorem leaves_invalid {name : String} {fault : NodeFault α} (hm : P m) :
    (invalid name fault : Build α β).Leaves m P := hm

theorem leaves_require {condition : Bool} {name : String} {fault : NodeFault α}
    {k : Unit → Build α γ} (hm : P m) (h : condition = true → (k ()).Leaves m P) :
    (require condition name fault >>= k).Leaves m P := by
  cases condition with
  | false => exact hm
  | true => exact h rfl

theorem leaves_ask {f : Module α → Except (Error α) β} (hm : P m)
    (h : ∀ b, f m = .ok b → (k b).Leaves m P) : (ask f >>= k).Leaves m P := by
  refine leaves_bind (fun b m' hb => ?_) (fun e m' he => ?_)
  · have same : (f m, m) = (.ok b, m') := hb
    obtain ⟨answer, rfl⟩ := Prod.mk.inj same
    exact h b answer
  · have same : (f m, m) = (.error e, m') := he
    obtain ⟨-, rfl⟩ := Prod.mk.inj same
    exact hm

theorem leaves_attempt {f : Module α → Except (Error α) (Module α × β)} (hm : P m)
    (h : ∀ b m', f m = .ok (m', b) → P m') : (attempt f).Leaves m P := by
  show P (attempt f |>.run.run m).2
  simp only [attempt, ExceptT.run_mk, StateT.run]
  cases hf : f m with
  | error e => exact hm
  | ok r => exact h r.2 r.1 hf

theorem leaves_typeOf {f : GraphId} {r : Ref} {k : TensorType α → Build α γ} (hm : P m)
    (h : ∀ t, m.Sees f r t → (k t).Leaves m P) : (typeOf f r >>= k).Leaves m P := by
  refine leaves_ask hm fun t ht => h t ?_
  cases hg : m.graph f with
  | error e => simp [hg, bind, Except.bind] at ht
  | ok g =>
    refine ⟨g, Module.graph_eq_ok_iff.mp hg, ?_⟩
    simpa [hg, bind, Except.bind] using ht

end

variable [Scalar α] {f : GraphId} {m : Module α} {name : String}

theorem leaves_newVariable {type : TensorType α} {visibility : Visibility} {training : Training α}
    {k : VarId → Build α γ} (hm : m.Proper f)
    (h : ∀ id m', m'.Proper f → (k id).Leaves m' (Module.Proper · f)) :
    (newVariable name type visibility training >>= k).Leaves m (Module.Proper · f) :=
  leaves_then (leaves_attempt hm fun _ _ hd => hm.declare hd) h

theorem leaves_node {kind : NodeKind α} {inputs : List Ref} {type : Option (TensorType α)}
    {ts : List (TensorType α)} (hm : m.Proper f) (layer : kind.isLayer = true)
    (sees : List.Forall₂ (m.Sees f) inputs ts) (accepts : kind.Accepts ts type)
    (stores : (⟨name, kind, inputs, type⟩ : Node α).StoresIntoVariables) :
    (node f name kind inputs type).Leaves m (Module.Proper · f) := by
  refine leaves_attempt hm fun id m' h => ?_
  cases hu : unknownInput? m inputs with
  | some v => simp [hu] at h
  | none =>
    cases hg : m.graph f with
    | error e => simp [hu, hg, bind, Except.bind] at h
    | ok g =>
      simp only [hu, hg, bind, Except.bind] at h
      split at h
      · cases h
      · next r hr =>
        cases h
        have known := Module.graph_eq_ok_iff.mp hg
        have types : m.TypesOf g inputs ts := sees.imp fun r t ⟨g', hg', ht⟩ => by
          rw [known] at hg'
          cases hg'
          exact ht
        refine hm.putGraph known ((hm.graph g known).push hr types accepts stores) fun n hn => ?_
        rcases (Graph.mem_push hr).mp hn with hn | rfl
        · exact hm.layers g known n hn
        · exact layer

theorem leaves_value {kind : NodeKind α} {inputs : List Ref} {type : TensorType α}
    {ts : List (TensorType α)} (hm : m.Proper f) (layer : kind.isLayer = true)
    (sees : List.Forall₂ (m.Sees f) inputs ts) (accepts : kind.Accepts ts (some type))
    (stores : (⟨name, kind, inputs, some type⟩ : Node α).StoresIntoVariables) :
    (value f name kind inputs type).Leaves m (Module.Proper · f) :=
  leaves_then (leaves_node hm layer sees accepts stores) fun _ _ hm' => leaves_pure hm'

/-- A node of an operator; activation functions have a rule of their own. -/
theorem leaves_compute {op : Operator α} {inputs : List Ref} {type : TensorType α}
    {ts : List (TensorType α)} (hm : m.Proper f) (sees : List.Forall₂ (m.Sees f) inputs ts)
    (other : ∀ u, op ≠ .unary u) (suits : Signature.operator op (type :: ts) = .ok ()) :
    (value f name (.compute op) inputs type).Leaves m (Module.Proper · f) :=
  leaves_value hm rfl sees (.compute other suits) trivial

end Build
end NeuralGraph
