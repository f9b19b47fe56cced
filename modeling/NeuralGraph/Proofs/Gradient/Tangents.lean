import Mathlib
import NeuralGraph.Gradient.Training
import NeuralGraph.Proofs.Exact.Kernels
import NeuralGraph.Proofs.Graph.Solutions

/-!
# Tangents

Forward-mode differentiation.  Every variable is given a tangent, and the tangent of a node follows
from the tangents of its inputs by the rule of its kind, at the values that the inputs have.
-/

namespace NeuralGraph
set_option autoImplicit false
variable {α : Type} [RingScalar α]

/-! ## Rules -/

/-- The product rule for matrices, the rows of the first flattened. -/
def productTangent (x y : DenseArray α) (dx dy : Nat → α) (i : Nat) : α :=
  ∑ t ∈ Finset.range x.rowSize,
    (dx (i / y.rowSize * x.rowSize + t) * y.get (t * y.rowSize + i % y.rowSize) +
      x.get (i / y.rowSize * x.rowSize + t) * dy (t * y.rowSize + i % y.rowSize))

/-- The tangent of a value, from the values of the inputs and their tangents. -/
def NodeKind.tangent (kind : NodeKind α) (xs : List (DenseArray α)) (dxs : List (Nat → α)) :
    Nat → α :=
  match kind, xs, dxs with
  | .compute (.binary .add), _, [dx, dy] => fun (i : Nat) => dx i + dy i
  | .compute (.binary .sub), _, [dx, dy] => fun (i : Nat) => dx i - dy i
  | .compute (.binary .mul), [x, y], [dx, dy] =>
    fun (i : Nat) => dx i * y.get i + x.get i * dy i
  | .compute .matMul, [x, y], [dx, dy] => productTangent x y dx dy
  | .compute .dense, [x, w, _], [dx, dw, db] =>
    fun (i : Nat) => productTangent x w dx dw i + db (i % w.rowSize)
  | .compute .addToRows, [_, s], [dx, ds] => fun (i : Nat) => dx i + ds (i % s.size)
  | .compute .sumRows, [x], [dx] =>
    fun (j : Nat) => ∑ r ∈ Finset.range x.rows, dx (r * x.rowSize + j)
  | .compute (.transpose shuffle), [x], [dx] =>
    fun (i : Nat) => dx (shuffledPosition x.dims shuffle i)
  | .reshape _, _, [dx] => dx
  | .regression, _, [dx, _] => dx
  | _, _, _ => fun _ => 0

/-- Nothing changes where no input changes. -/
theorem NodeKind.tangent_zero {kind : NodeKind α} {xs : List (DenseArray α)}
    {dxs : List (Nat → α)}
    (h : ∀ i ∈ flowPositions kind dxs.length, ∀ d, dxs[i]? = some d → d = fun _ => 0) :
    kind.tangent xs dxs = fun _ => 0 := by
  have first : ∀ (d : Nat → α), 0 < dxs.length → dxs[0]? = some d → d = fun _ => 0 := by
    intro d some' hd
    refine h 0 ?_ d hd
    rw [flowPositions]
    split
    · exact List.mem_singleton_self 0
    · exact List.mem_range.mpr some'
  have others : kind.isLoss = false → ∀ (i : Nat) (d : Nat → α), dxs[i]? = some d → d = fun _ => 0 := by
    intro plain i d hd
    refine h i ?_ d hd
    rw [flowPositions, if_neg (by rw [plain]; exact Bool.false_ne_true), List.mem_range]
    exact (List.getElem?_eq_some_iff.mp hd).1
  unfold NodeKind.tangent
  split
  · rw [others rfl 0 _ rfl, others rfl 1 _ rfl]
    simp
  · rw [others rfl 0 _ rfl, others rfl 1 _ rfl]
    simp
  · rw [others rfl 0 _ rfl, others rfl 1 _ rfl]
    simp
  · rw [others rfl 0 _ rfl, others rfl 1 _ rfl]
    funext i
    simp [productTangent]
  · rw [others rfl 0 _ rfl, others rfl 1 _ rfl, others rfl 2 _ rfl]
    funext i
    simp [productTangent]
  · rw [others rfl 0 _ rfl, others rfl 1 _ rfl]
    simp
  · rw [others rfl 0 _ rfl]
    simp
  · rw [others rfl 0 _ rfl]
  · exact others rfl 0 _ rfl
  · exact first _ (by simp) rfl
  · rfl

/-! ## Graphs -/

/-- Tangents of references, updated node by node; the first of the nodes is node `i`. -/
def tangentsFrom (V : Valuation α) (i : Nat) (ns : List (Node α)) (D : Ref → Nat → α) :
    Ref → Nat → α :=
  match ns with
  | [] => D
  | n :: rest => tangentsFrom V (i + 1) rest fun (r : Ref) =>
      if r = .node ⟨i⟩ then n.kind.tangent (n.inputs.map V.array) (n.inputs.map D) else D r

/-- The tangents of all values of a graph, when the variables have the tangents `seed`. -/
def Graph.tangents (g : Graph α) (V : Valuation α) (seed : VarId → Nat → α) : Ref → Nat → α :=
  tangentsFrom V 0 g.nodes.toList fun (r : Ref) =>
    match r with
    | .var v => seed v
    | .node _ => fun _ => 0

theorem tangentsFrom_of_lt {V : Valuation α} {i : Nat} {ns : List (Node α)} {D : Ref → Nat → α}
    {r : Ref} (h : ∀ k, r = .node k → k.index < i) : tangentsFrom V i ns D r = D r := by
  induction ns generalizing i D with
  | nil => rfl
  | cons n ns ih =>
    rw [tangentsFrom, ih fun k hk => Nat.lt_succ_of_lt (h k hk), if_neg]
    rintro rfl
    exact absurd (h _ rfl) (Nat.lt_irrefl i)

theorem tangentsFrom_node {V : Valuation α} {i : Nat} {ns : List (Node α)} {D : Ref → Nat → α}
    {j : Nat} {n : Node α} (hn : ns[j]? = some n)
    (ordered : ∀ j n, ns[j]? = some n → ∀ k, Ref.node k ∈ n.inputs → k.index < i + j) :
    tangentsFrom V i ns D (.node ⟨i + j⟩) =
      n.kind.tangent (n.inputs.map V.array) (n.inputs.map (tangentsFrom V i ns D)) := by
  induction ns generalizing i j D with
  | nil => simp at hn
  | cons n' ns ih =>
    cases j with
    | zero =>
      cases hn
      have own : tangentsFrom V i (n :: ns) D (.node ⟨i⟩) =
          n.kind.tangent (n.inputs.map V.array) (n.inputs.map D) := by
        rw [tangentsFrom, tangentsFrom_of_lt, if_pos rfl]
        rintro k hk
        cases hk
        exact Nat.lt_succ_self i
      have same : n.inputs.map (tangentsFrom V i (n :: ns) D) = n.inputs.map D := by
        refine List.map_congr_left fun r hr => tangentsFrom_of_lt ?_
        rintro k rfl
        exact ordered 0 n rfl k hr
      rw [Nat.add_zero, own, same]
    | succ j =>
      have later := ih (D := fun (r : Ref) => if r = .node ⟨i⟩ then
        n'.kind.tangent (n'.inputs.map V.array) (n'.inputs.map D) else D r) (i := i + 1) hn
        fun l a ha k hk => by
          have := ordered (l + 1) a ha k hk
          omega
      rw [Nat.add_right_comm, Nat.add_assoc] at later
      exact later

variable {g : Graph α} {V : Valuation α} {seed : VarId → Nat → α}

@[simp] theorem Graph.tangents_var (v : VarId) : g.tangents V seed (.var v) = seed v :=
  tangentsFrom_of_lt (by simp)

theorem Graph.tangents_node (ordered : g.Ordered) {id : NodeId} {n : Node α}
    (hn : g.node? id = some n) : g.tangents V seed (.node id) =
      n.kind.tangent (n.inputs.map V.array) (n.inputs.map (g.tangents V seed)) := by
  have listed : g.nodes.toList[id.index]? = some n := by rwa [Array.getElem?_toList]
  have before : ∀ j n, g.nodes.toList[j]? = some n → ∀ k, Ref.node k ∈ n.inputs →
      k.index < 0 + j := by
    intro j n hj k hk
    rw [Array.getElem?_toList] at hj
    rw [Nat.zero_add]
    exact ordered j n hj k (Graph.mem_nodeInputs.mpr hk)
  have at_ := tangentsFrom_node (V := V) (D := fun (r : Ref) => match r with
    | .var v => seed v
    | .node _ => fun _ => 0) listed before
  rwa [Nat.zero_add] at at_

end NeuralGraph
