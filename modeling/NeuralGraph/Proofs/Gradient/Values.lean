import NeuralGraph.Proofs.Exact.Values
import NeuralGraph.Proofs.Gradient.Emission

/-!
# The values of gradient nodes

`x.Ensures G Q`: whatever graph the computation `x` starts from, if the graph that it leaves is part of
`G`, its result has the property `Q`.  The properties are about `G`, which is evaluated after all
nodes were added, so a value is known by what the nodes of `G` hold in the end.
-/

namespace NeuralGraph
set_option autoImplicit false
variable {α : Type}

namespace Emit
variable {β γ : Type} {m : Module α} {G : Graph α}

/-- Nodes are only added, and the result has a property if all of them are nodes of `G`. -/
def Ensures (G : Graph α) (x : Emit α β) (Q : β → Prop) : Prop :=
  ∀ g b g', x.run g = .ok (b, g') → g'.Extends g ∧ (G.Extends g' → Q b)

section
variable {x : Emit α β} {k : β → Emit α γ} {P : β → Prop} {Q : γ → Prop}

theorem ensures_pure {b : β} (h : P b) : Ensures G (pure b : Emit α β) P := by
  intro g c g' hrun
  cases hrun
  exact ⟨.refl g, fun _ => h⟩

theorem ensures_throw {e : Error α} : Ensures G (throw e : Emit α β) P := by
  intro g c g' hrun
  cases hrun

theorem ensures_bind (hx : Ensures G x P) (hk : ∀ b, Ensures G (k b) fun c => P b → Q c) :
    Ensures G (x >>= k) Q := by
  intro g c g'' hrun
  obtain ⟨b, g', first, second⟩ := run_bind_eq_ok hrun
  obtain ⟨more, hb⟩ := hx g b g' first
  obtain ⟨more', hc⟩ := hk b g' c g'' second
  exact ⟨more'.trans more, fun part => hc part (hb (part.trans more'))⟩

theorem ensures_mono {P' : β → Prop} (hx : Ensures G x P) (h : ∀ b, P b → P' b) :
    Ensures G x P' := by
  intro g b g' hrun
  obtain ⟨more, hb⟩ := hx g b g' hrun
  exact ⟨more, fun part => h b (hb part)⟩

end

/-! ## Steps -/

section
variable {name : String} {r : Ref}

theorem ensures_typeOf : Ensures G (typeOf m r) fun t => m.typeOf G r = .ok t := by
  intro g t g' hrun
  obtain ⟨ht, rfl⟩ := run_typeOf hrun
  exact ⟨.refl _, fun part => Module.typeOf_mono ht (.refl m) part⟩

theorem ensures_typeOfRank {bound : RankBound} :
    Ensures G (typeOfRank m name r bound) fun t => m.typeOf G r = .ok t := by
  refine ensures_bind ensures_typeOf fun t => ?_
  cases bound
  all_goals
    dsimp only
    split
    · exact ensures_pure fun h => h
    · exact ensures_throw

theorem ensures_node {kind : NodeKind α} {inputs : List Ref} {t : TensorType α} :
    Ensures G (node name kind inputs t) fun r => t.element = .float → G.Has r kind inputs t := by
  intro g r g' hrun
  obtain ⟨id, rfl, hp⟩ := run_node hrun
  exact ⟨Graph.push_extends hp, fun part float =>
    ⟨id, _, rfl, part _ _ (Graph.push_node hp), rfl, rfl, rfl, float⟩⟩

end

/-! ## Nodes of floats -/

section
variable [RingScalar α] (V : Valuation α) {name : String} {lhs rhs input : Ref}

theorem ensures_binary {op : BinaryOp} :
    Ensures G (binary m name op lhs rhs) fun r =>
      V.FloatsAt m G lhs → ∃ d, G.Has r (.compute (.binary op)) [lhs, rhs] d :=
  ensures_bind ensures_typeOf fun t => ensures_mono ensures_node fun _ has ht floats =>
    ⟨t, has (floats.element ht)⟩

theorem ensures_transposeMatrix :
    Ensures G (transposeMatrix m name input) fun r =>
      V.FloatsAt m G input → ∃ d, G.Has r (.compute (.transpose [1, 0])) [input] d := by
  refine ensures_bind ensures_typeOfRank fun _ => ensures_mono ensures_node fun _ has ht floats => ?_
  have float := floats.element ht
  exact ⟨_, has float⟩

theorem ensures_matMul :
    Ensures G (matMul m name lhs rhs) fun r =>
      V.FloatsAt m G lhs → ∃ d, G.Has r (.compute .matMul) [lhs, rhs] d := by
  refine ensures_bind ensures_typeOfRank fun _ => ensures_bind ensures_typeOfRank fun _ => ?_
  refine ensures_mono ensures_node fun _ has _ ht floats => ?_
  have float := floats.element ht
  exact ⟨_, has float⟩

theorem ensures_sumRows :
    Ensures G (sumRows m name input) fun r =>
      V.FloatsAt m G input → ∃ d, G.Has r (.compute .sumRows) [input] d := by
  refine ensures_bind ensures_typeOfRank fun _ => ensures_mono ensures_node fun _ has ht floats => ?_
  have float := floats.element ht
  exact ⟨_, has float⟩

variable {V}

/-- Reshaping gives the same elements, in a new node or in the old one. -/
theorem ensures_reshape {dims : List Nat} (exact : G.Exact m V) :
    Ensures G (reshape m name input dims) fun r => V.FloatsAt m G input →
      V.FloatsAt m G r ∧ (V.array r).dims = dims ∧
        ∀ i, (V.array r).get i = (V.array input).get i := by
  refine ensures_bind ensures_typeOf fun t => ?_
  split
  · next same => exact ensures_pure fun ht floats => ⟨floats, (floats.dims ht).trans same, fun _ => rfl⟩
  · refine ensures_mono ensures_node fun r has ht floats => ?_
    have float := floats.element ht
    have has := has float
    exact ⟨exact.floatsAt has, exact.dims has, (exact.reshape has).2⟩

end
end Emit
end NeuralGraph
