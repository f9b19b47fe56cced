import NeuralGraph.Binary32.Scalar
import NeuralGraph.Proofs.Gradient.Rules
import NeuralGraph.Proofs.Gradient.Values
import NeuralGraph.Proofs.Kernel.Results

/-!
# The parts of a layer

A fully connected layer flattens its input, multiplies it by the weights and adds the bias to the
rows.  Its parts do the same for every batch, and so does the layer, except for a batch without rows
whose rows would have elements: it is flattened to rows without elements, which the weights do not
fit.  The gradients of the layer are those of its parts.
-/

namespace NeuralGraph
set_option autoImplicit false
variable {α : Type}

/-! ## Arrays -/

theorem volume_nonzero_pos (dims : List Nat) :
    0 < volume (dims.filter fun (d : Nat) => d != 0) := by
  induction dims with
  | nil => exact Nat.one_pos
  | cons d dims ih =>
    by_cases zero : d = 0
    · rwa [List.filter_cons_of_neg (by simp [zero])]
    · rw [List.filter_cons_of_pos (by simp [zero]), volume_cons]
      exact Nat.mul_pos (Nat.pos_of_ne_zero zero) ih

theorem volume_le_nonzero (dims : List Nat) :
    volume dims ≤ volume (dims.filter fun (d : Nat) => d != 0) := by
  induction dims with
  | nil => exact le_rfl
  | cons d dims ih =>
    by_cases zero : d = 0
    · rw [zero, volume_cons, Nat.zero_mul]
      exact Nat.zero_le _
    · rw [List.filter_cons_of_pos (by simp [zero]), volume_cons, volume_cons]
      exact Nat.mul_le_mul_left d ih

theorem addressable_iff {dims : List Nat} :
    addressable dims = true ↔ volume (dims.filter fun (d : Nat) => d != 0) < 2 ^ 63 :=
  Iff.of_eq Nat.blt_eq

/-- What can have dimensions can have its rows flattened. -/
theorem addressable_flat {n : Nat} {slice : List Nat} (room : addressable (n :: slice) = true) :
    addressable [n, volume slice] = true := by
  rw [addressable_iff] at room ⊢
  refine lt_of_le_of_lt ?_ room
  have positive := volume_nonzero_pos slice
  have bound := volume_le_nonzero slice
  by_cases rows : n = 0 <;> by_cases empty : volume slice = 0
  · simp [rows, empty]
    omega
  · simpa [rows, empty] using bound
  · simpa [rows, empty] using Nat.le_mul_of_pos_right n positive
  · simpa [rows, empty] using Nat.mul_le_mul_left n bound

namespace Kernel
variable [Scalar α] {x w b : DenseArray α} {n m : Nat} {slice : List Nat}

/-- What the parts of a layer make of its input. -/
def inParts (x w b : DenseArray α) (n k : Nat) : Kernel α (DenseArray α) := do
  let flat ← reshape x [n, k]
  let sums ← matMul flat w
  addToRows sums b

theorem inParts_eq (hx : x.dims = n :: slice) (hw : w.dims = [volume slice, m]) (hb : b.dims = [m])
    (room : addressable x.dims = true) : inParts x w b n (volume slice) =
      .ok (.ofFn [n, m] fun (i : Nat) =>
        (product n (volume slice) m x w).get i + b.get (i % m)) := by
  have same : volume x.dims = volume [n, volume slice] := by
    rw [hx, volume_cons, volume_cons, volume_cons, volume_nil, Nat.mul_one]
  have flattened := reshape_eq same (addressable_flat (hx ▸ room))
  have size : b.size = m := by
    rw [DenseArray.size, b.size_eq, hb, volume_cons, volume_nil, Nat.mul_one]
  have multiplied : matMul (x.withDims [n, volume slice] same) w =
      .ok (product n (volume slice) m x w) := matMul_eq rfl hw
  have added : addToRows (product n (volume slice) m x w) b = _ :=
    addToRows_eq (List.cons_ne_nil n [m]) hb.symm
  rw [size] at added
  simp only [inParts, flattened, multiplied, bind, Except.bind]
  exact added

theorem dense_eq_inParts (hx : x.dims = n :: slice) (hw : w.dims = [volume slice, m])
    (hb : b.dims = [m]) (room : addressable x.dims = true) (rows : n = 0 → volume slice = 0) :
    dense x w b = inParts x w b n (volume slice) := by
  have leading : x.rows = n := by rw [DenseArray.rows, hx]; rfl
  have row : x.rowSize = volume slice := by rw [DenseArray.rowSize, hx]; rfl
  rw [inParts_eq hx hw hb room, dense_eq (by simp [hx]) (row ▸ hw) hb (by rwa [leading, row]),
    leading, row]

end Kernel

/-! ## Gradients -/

/-- The reference is to a node of this kind with these inputs. -/
def Graph.Applies (G : Graph α) (r : Ref) (kind : NodeKind α) (inputs : List Ref) : Prop :=
  ∃ id n, r = .node id ∧ G.node? id = some n ∧ n.kind = kind ∧ n.inputs = inputs

/-- The reference is to the value in these dimensions, to the value itself if it has them. -/
def Graph.Reshapes (G : Graph α) (m : Module α) (r input : Ref) (dims : List Nat) : Prop :=
  r = input ∧ (∃ t, m.typeOf G input = .ok t ∧ t.dims = dims) ∨ G.Applies r (.reshape dims) [input]

/-- The gradient of a product for its first factor. -/
def Graph.LeftGradient (G : Graph α) (rhs gradient toLhs : Ref) : Prop :=
  ∃ transposed, G.Applies transposed (.compute (.transpose [1, 0])) [rhs] ∧
    G.Applies toLhs (.compute .matMul) [gradient, transposed]

/-- The gradient of a product for its second factor. -/
def Graph.RightGradient (G : Graph α) (lhs gradient toRhs : Ref) : Prop :=
  ∃ transposed, G.Applies transposed (.compute (.transpose [1, 0])) [lhs] ∧
    G.Applies toRhs (.compute .matMul) [transposed, gradient]

/-- The gradients of a layer: to the flattened input and the weights as to the factors of a product,
from there to the input in its own dimensions, and to the bias the sum of the rows. -/
def Graph.LayerGradients (G : Graph α) (m : Module α) (input weights gradient : Ref)
    (grads : List InputGradient) : Prop :=
  ∃ t flat toFlat toInput toWeights toBias, m.typeOf G input = .ok t ∧
    grads = [⟨0, toInput⟩, ⟨1, toWeights⟩, ⟨2, toBias⟩] ∧
    G.Reshapes m flat input [t.rows, t.rowSize] ∧
    G.LeftGradient weights gradient toFlat ∧ G.RightGradient flat gradient toWeights ∧
    G.Reshapes m toInput toFlat t.dims ∧ G.Applies toBias (.compute .sumRows) [gradient]

namespace Emit
variable {m : Module α} {G : Graph α} {name : String} {input lhs rhs : Ref}

theorem ensures_applies {kind : NodeKind α} {inputs : List Ref} {t : TensorType α} :
    Ensures G (node name kind inputs t) fun r => G.Applies r kind inputs := by
  intro g r g' hrun
  obtain ⟨id, rfl, hp⟩ := run_node hrun
  exact ⟨Graph.push_extends hp, fun part => ⟨id, _, rfl, part _ _ (Graph.push_node hp), rfl, rfl⟩⟩

theorem applies_transposeMatrix : Ensures G (transposeMatrix m name input) fun r =>
    G.Applies r (.compute (.transpose [1, 0])) [input] :=
  ensures_bind ensures_typeOfRank fun _ => ensures_mono ensures_applies fun _ applies _ => applies

theorem applies_matMul : Ensures G (matMul m name lhs rhs) fun r =>
    G.Applies r (.compute .matMul) [lhs, rhs] :=
  ensures_bind ensures_typeOfRank fun _ => ensures_bind ensures_typeOfRank fun _ =>
    ensures_mono ensures_applies fun _ applies _ _ => applies

theorem leftGradient_matMul {name' : String} {gradient : Ref} :
    Ensures G (do
      let transposed ← transposeMatrix m name rhs
      matMul m name' gradient transposed) fun toLhs => G.LeftGradient rhs gradient toLhs :=
  ensures_bind applies_transposeMatrix fun transposed =>
    ensures_mono applies_matMul fun _ product reversed => ⟨transposed, reversed, product⟩

theorem rightGradient_matMul {name' : String} {gradient : Ref} :
    Ensures G (do
      let transposed ← transposeMatrix m name lhs
      matMul m name' transposed gradient) fun toRhs => G.RightGradient lhs gradient toRhs :=
  ensures_bind applies_transposeMatrix fun transposed =>
    ensures_mono applies_matMul fun _ product reversed => ⟨transposed, reversed, product⟩

theorem applies_sumRows : Ensures G (sumRows m name input) fun r =>
    G.Applies r (.compute .sumRows) [input] :=
  ensures_bind ensures_typeOfRank fun _ => ensures_mono ensures_applies fun _ applies _ => applies

theorem reshapes_reshape {dims : List Nat} : Ensures G (reshape m name input dims) fun r =>
    G.Reshapes m r input dims := by
  refine ensures_bind ensures_typeOf fun t => ?_
  split
  · next same => exact ensures_pure fun typed => .inl ⟨rfl, t, typed, same⟩
  · exact ensures_mono ensures_applies fun _ applies _ => .inr applies

theorem ensures_wanted {wants : Nat → Bool} {position : Nat} {emit : Emit α Ref} {P : Ref → Prop}
    (wanted : wants position = true) (h : Ensures G emit P) :
    Ensures G (if wants position then (do let r ← emit; return [⟨position, r⟩]) else return [])
      fun (grads : List InputGradient) => ∃ r, grads = [⟨position, r⟩] ∧ P r := by
  rw [if_pos wanted]
  exact ensures_bind h fun r => ensures_pure fun known => ⟨r, rfl, known⟩

end Emit

section
open Emit
variable [Scalar α] {m : Module α} {G : Graph α} {name : String} {this gradient : Ref}
  {wants : Nat → Bool} {refuse : Emit α (List InputGradient)} (wanted : ∀ p, wants p = true)
include wanted

theorem Operator.gradients_matMul (lhs rhs : Ref) :
    Ensures G (gradients .matMul m name [lhs, rhs] this gradient wants refuse) fun grads =>
      ∃ toLhs toRhs, grads = [⟨0, toLhs⟩, ⟨1, toRhs⟩] ∧
        G.LeftGradient rhs gradient toLhs ∧ G.RightGradient lhs gradient toRhs := by
  refine ensures_bind (ensures_wanted (wanted 0) leftGradient_matMul) fun first => ?_
  refine ensures_bind (ensures_wanted (wanted 1) rightGradient_matMul) fun second => ensures_pure ?_
  rintro ⟨toRhs, rfl, right⟩ ⟨toLhs, rfl, left⟩
  exact ⟨toLhs, toRhs, rfl, left, right⟩

theorem Operator.gradients_addToRows (batch slice : Ref) :
    Ensures G (gradients .addToRows m name [batch, slice] this gradient wants refuse) fun grads =>
      ∃ toSlice, grads = [⟨0, gradient⟩, ⟨1, toSlice⟩] ∧
        G.Applies toSlice (.compute .sumRows) [gradient] := by
  refine ensures_bind (ensures_wanted (wanted 0) (ensures_pure rfl)) fun first => ?_
  refine ensures_bind (ensures_wanted (wanted 1) applies_sumRows) fun second => ensures_pure ?_
  rintro ⟨toSlice, rfl, sum⟩ ⟨r, rfl, rfl⟩
  exact ⟨toSlice, rfl, sum⟩

theorem Node.gradients_reshape (dims : List Nat) (input : Ref) (type : Option (TensorType α))
    (id : NodeId) :
    Ensures G (gradients ⟨name, .reshape dims, [input], type⟩ m id (some gradient) wants)
      fun grads => ∃ t toInput, m.typeOf G input = .ok t ∧ grads = [⟨0, toInput⟩] ∧
        G.Reshapes m toInput gradient t.dims := by
  rw [gradients]
  simp only [wanted 0, if_true]
  refine ensures_bind ensures_typeOf fun t => ensures_bind reshapes_reshape fun toInput => ?_
  exact ensures_pure fun reshaped typed => ⟨t, toInput, typed, rfl, reshaped⟩

theorem Operator.gradients_dense (input weights bias : Ref) :
    Ensures G (gradients .dense m name [input, weights, bias] this gradient wants refuse)
      (G.LayerGradients m input weights gradient) := by
  refine ensures_bind ensures_typeOfRank fun t => ?_
  have toInput : Ensures G (do
      let wt ← transposeMatrix m (name ++ ".weights_t") weights
      let gx ← Emit.matMul m (name ++ ".input_grad") gradient wt
      reshape m (name ++ ".input_grad.reshape") gx t.dims) fun r =>
        ∃ toFlat, G.LeftGradient weights gradient toFlat ∧ G.Reshapes m r toFlat t.dims :=
    ensures_bind applies_transposeMatrix fun transposed => ensures_bind applies_matMul fun toFlat =>
      ensures_mono reshapes_reshape fun _ reshaped product reversed =>
        ⟨toFlat, ⟨transposed, reversed, product⟩, reshaped⟩
  have toWeights : Ensures G (do
      let flat ← reshape m (name ++ ".input_2d") input [t.rows, t.rowSize]
      let xt ← transposeMatrix m (name ++ ".input_t") flat
      Emit.matMul m (name ++ ".weights_grad") xt gradient) fun r =>
        ∃ flat, G.Reshapes m flat input [t.rows, t.rowSize] ∧ G.RightGradient flat gradient r :=
    ensures_bind reshapes_reshape fun flat =>
      ensures_mono rightGradient_matMul fun _ right reshaped => ⟨flat, reshaped, right⟩
  refine ensures_bind (ensures_wanted (wanted 0) toInput) fun first => ?_
  refine ensures_bind (ensures_wanted (wanted 1) toWeights) fun second => ?_
  refine ensures_bind (ensures_wanted (wanted 2) applies_sumRows) fun third => ensures_pure ?_
  rintro ⟨toBias, rfl, sum⟩ ⟨r, rfl, flat, flattened, right⟩ ⟨r', rfl, toFlat, left, reshaped⟩ typed
  exact ⟨t, flat, toFlat, r', r, toBias, typed, rfl, flattened, left, right, reshaped, sum⟩

theorem Operator.run_gradients_dense {input weights bias : Ref} {n l : Nat} {slice : List Nat}
    (ready : G.Ready m) (wide : slice ≠ []) (hx : m.DimsOf G input (n :: slice))
    (hw : m.DimsOf G weights [volume slice, l]) (hb : m.DimsOf G bias [l])
    (hg : m.DimsOf G gradient [n, l]) : ∃ grads G',
      (gradients .dense m name [input, weights, bias] this gradient wants refuse).run G =
        .ok (grads, G') ∧ G'.LayerGradients m input weights gradient grads := by
  obtain ⟨tx, typedX, dimsX⟩ := hx
  obtain ⟨tw, typedW, dimsW⟩ := hw
  obtain ⟨tb, typedB, dimsB⟩ := hb
  obtain ⟨d, typedD, dimsD⟩ := hg
  have rank : 2 ≤ tx.rank := by
    rw [TensorType.rank, dimsX]
    exact Nat.succ_le_succ (List.length_pos_iff.mpr wide)
  have suits : Signature.operator .dense [d, tx, tw, tb] = .ok () := by
    simp [Signature.operator, Signature.require, rank, dimsX, dimsW, dimsB, dimsD,
      TensorType.rows, TensorType.rowSize]
  have settled : Settles m
      (gradients .dense m name [input, weights, bias] this gradient wants refuse) G
      (fun _ => False) _ := settles_dense ready typedX typedW typedB suits ⟨d, typedD, rfl⟩
  cases ran : (gradients .dense m name [input, weights, bias] this gradient wants refuse).run G with
  | error e => exact (settled.fails e ran).elim
  | ok result =>
    exact ⟨result.1, result.2, rfl,
      (gradients_dense wanted input weights bias G result.1 result.2 ran).2 (.refl _)⟩

end

/-- Only a batch without rows, but of rows with elements, tells a layer from its parts.  Its
gradients, which every layer of fitting dimensions has, are those of the parts. -/
theorem dense_parts [Scalar α] {x w b : DenseArray α} {n m : Nat} {slice : List Nat}
    (hx : x.dims = n :: slice) (hw : w.dims = [volume slice, m]) (hb : b.dims = [m])
    (room : addressable x.dims = true) :
    (∃ y, Kernel.inParts x w b n (volume slice) = .ok y ∧ y.dims = [n, m] ∧
      (n ≠ 0 ∨ volume slice = 0 → Kernel.dense x w b = .ok y) ∧
      (n = 0 ∧ volume slice ≠ 0 → Kernel.dense x w b = .error (.layer x.dims w.dims b.dims))) ∧
    ∀ (M : Module α) (G : Graph α) (name : String) (input weights bias : Ref)
      (flat sums this gradient : Ref) (id : NodeId) (type : Option (TensorType α))
      (dims : List Nat) (wants : Nat → Bool) (refuse : Emit α (List InputGradient)),
      (∀ p, wants p = true) →
      (G.Ready M → slice ≠ [] → M.DimsOf G input x.dims → M.DimsOf G weights w.dims →
        M.DimsOf G bias b.dims → M.DimsOf G gradient [n, m] → ∃ grads G',
        (Operator.gradients .dense M name [input, weights, bias] this gradient wants refuse).run G =
          .ok (grads, G') ∧ G'.LayerGradients M input weights gradient grads) ∧
      Emit.Ensures G (Operator.gradients .dense M name [input, weights, bias] this gradient wants
        refuse) (G.LayerGradients M input weights gradient) ∧
      Emit.Ensures G (Operator.gradients .addToRows M name [sums, bias] this gradient wants refuse)
        (fun grads => ∃ toBias, grads = [⟨0, gradient⟩, ⟨1, toBias⟩] ∧
          G.Applies toBias (.compute .sumRows) [gradient]) ∧
      Emit.Ensures G (Operator.gradients .matMul M name [flat, weights] this gradient wants refuse)
        (fun grads => ∃ toFlat toWeights, grads = [⟨0, toFlat⟩, ⟨1, toWeights⟩] ∧
          G.LeftGradient weights gradient toFlat ∧ G.RightGradient flat gradient toWeights) ∧
      Emit.Ensures G
        (Node.gradients ⟨name, .reshape dims, [input], type⟩ M id (some gradient) wants)
        (fun grads => ∃ t toInput, M.typeOf G input = .ok t ∧ grads = [⟨0, toInput⟩] ∧
          G.Reshapes M toInput gradient t.dims) := by
  refine ⟨⟨_, Kernel.inParts_eq hx hw hb room, rfl, fun fits => ?_,
    fun ⟨empty, elements⟩ => ?_⟩, ?_⟩
  · rw [Kernel.dense_eq_inParts hx hw hb room fun empty => fits.resolve_left (absurd empty),
      Kernel.inParts_eq hx hw hb room]
  · have leading : x.rows = n := by rw [DenseArray.rows, hx]; rfl
    have row : x.rowSize = volume slice := by rw [DenseArray.rowSize, hx]; rfl
    exact Kernel.dense_refuses (by simp [hx]) (row ▸ hw) (leading.trans empty) (row ▸ elements)
  · intro M G name input weights bias flat sums this gradient id type dims wants refuse wanted
    refine ⟨fun ready wide typedX typedW typedB typedD => ?_, ?_⟩
    · rw [hx] at typedX
      rw [hw] at typedW
      rw [hb] at typedB
      exact Operator.run_gradients_dense wanted ready wide typedX typedW typedB typedD
    · exact ⟨Operator.gradients_dense wanted input weights bias,
        Operator.gradients_addToRows wanted sums bias,
        Operator.gradients_matMul wanted flat weights,
        Node.gradients_reshape wanted dims input type id⟩

/-- Two rows of two elements, the second axis of dimension one. -/
def twoRows : DenseArray Int := ⟨[2, 1, 2], #[1, 2, 3, 4], rfl⟩

def twoWeights : DenseArray Int := ⟨[2, 3], #[1, 0, 2, 0, 1, 1], rfl⟩

def twoBias : DenseArray Int := ⟨[3], #[5, 6, 7], rfl⟩

/-- Variables for the rows, the weights, the bias and a gradient of the layer. -/
def layerModule : Module Int where
  vars := #[⟨"x", .float [2, 1, 2], .exposed, .untrained, .zeros (.float [2, 1, 2])⟩,
    ⟨"w", .float [2, 3], .exposed, .untrained, .zeros (.float [2, 3])⟩,
    ⟨"b", .float [3], .exposed, .untrained, .zeros (.float [3])⟩,
    ⟨"g", .float [2, 3], .exposed, .untrained, .zeros (.float [2, 3])⟩]
  graphs := #[.empty "layer"]
  generator := .ofSeed 7

theorem twoRows_parts : twoRows.dims = [2, 1, 2] ∧ twoWeights.dims = [volume [1, 2], 3] ∧
    twoBias.dims = [3] ∧ addressable twoRows.dims = true ∧
    (∃ y, Kernel.inParts twoRows twoWeights twoBias 2 (volume [1, 2]) = .ok y ∧ y.dims = [2, 3] ∧
      Kernel.dense twoRows twoWeights twoBias = .ok y) ∧
    ∃ grads G', (Operator.gradients .dense layerModule "layer" [.var ⟨0⟩, .var ⟨1⟩, .var ⟨2⟩]
        (.node ⟨0⟩) (.var ⟨3⟩) (fun _ => true) (return [])).run (.empty "train") = .ok (grads, G') ∧
      G'.LayerGradients layerModule (.var ⟨0⟩) (.var ⟨1⟩) (.var ⟨3⟩) grads := by
  have room : addressable twoRows.dims = true := by decide
  have ready : (Graph.empty "train").Ready layerModule :=
    ⟨.empty layerModule "train", fun _ hn => absurd hn (by simp [Graph.empty]),
      fun _ _ _ => TensorType.comparable _⟩
  obtain ⟨⟨y, parts, dims, fused, -⟩, rules⟩ :=
    dense_parts (x := twoRows) (w := twoWeights) (b := twoBias) rfl rfl rfl room
  obtain ⟨emits, -⟩ := rules layerModule (.empty "train") "layer" (.var ⟨0⟩) (.var ⟨1⟩) (.var ⟨2⟩)
    (.var ⟨0⟩) (.var ⟨3⟩) (.node ⟨0⟩) (.var ⟨3⟩) ⟨0⟩ none [] (fun _ => true) (return [])
    (fun _ => rfl)
  exact ⟨rfl, rfl, rfl, room, ⟨y, parts, dims, fused (.inl (by decide))⟩,
    emits ready (by decide) ⟨_, rfl, rfl⟩ ⟨_, rfl, rfl⟩ ⟨_, rfl, rfl⟩ ⟨_, rfl, rfl⟩⟩

/-- No row, of three elements. -/
def noRows : DenseArray Float32 := .zeros [0, 3]

theorem noRows_dense : ∃ y, Kernel.inParts noRows (.zeros [3, 2]) (.zeros [2]) 0 3 = .ok y ∧
    y.dims = [0, 2] ∧ ∀ z, Kernel.dense noRows (.zeros [3, 2]) (.zeros [2]) ≠ .ok z := by
  have parts := Kernel.inParts_eq (x := noRows) (w := .zeros [3, 2]) (b := .zeros [2]) (n := 0)
    (m := 2) rfl rfl rfl (by decide)
  refine ⟨_, parts, rfl, fun z computed => ?_⟩
  rw [Kernel.dense_refuses (List.cons_ne_nil 0 [3]) rfl rfl (by decide)] at computed
  cases computed

end NeuralGraph
