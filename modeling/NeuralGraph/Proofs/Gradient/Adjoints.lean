import NeuralGraph.Proofs.Exact.Pairing
import NeuralGraph.Proofs.Gradient.Tangents
import NeuralGraph.Proofs.Gradient.Values

/-!
# Gradient rules are adjoint to tangent rules

A gradient is worth its pairing with the tangent of the value it is for.  For each rule: the gradients
of the inputs are together worth what the gradient of the value is worth.
-/

namespace NeuralGraph
set_option autoImplicit false
variable {α : Type} [RingScalar α]

/-! ## Products and transposes -/

namespace Graph.Exact
variable {m : Module α} {G : Graph α} {V : Valuation α} {x y z r : Ref} {d e : TensorType α}
  {n k l : Nat} (exact : G.Exact m V)
include exact

theorem transposeMatrix (has : G.Has r (.compute (.transpose [1, 0])) [x] d)
    (dims : (V.array x).dims = [n, k]) : (V.array r).dims = [k, n] ∧
      ∀ t i, t < k → i < n → (V.array r).get (t * n + i) = (V.array x).get (i * k + t) := by
  obtain ⟨-, reversed, elements⟩ := exact.transpose has
  rw [dims] at reversed elements
  have shape : (V.array r).dims = [k, n] := reversed
  refine ⟨shape, fun t i ht hi => ?_⟩
  rw [elements, shuffledPosition_matrix hi]
  rw [shape]
  simpa using cell_lt ht hi

theorem gradient_left {wt : Ref} (transposed : G.Has wt (.compute (.transpose [1, 0])) [y] d)
    (product : G.Has r (.compute .matMul) [z, wt] e) (dimsY : (V.array y).dims = [k, l])
    (dimsZ : (V.array z).dims = [n, l]) : (V.array r).dims = [n, k] ∧
      ∀ c, c < n * k → (V.array r).get c = ∑ j ∈ Finset.range l,
        (V.array z).get (c / k * l + j) * (V.array y).get (c % k * l + j) := by
  obtain ⟨dimsT, elementsT⟩ := exact.transposeMatrix transposed dimsY
  obtain ⟨n', l', k', dims, dims', dimsR, elements⟩ := exact.matMul product
  rw [dimsZ, List.cons.injEq, List.cons.injEq] at dims
  obtain ⟨rfl, rfl, -⟩ := dims
  rw [dimsT, List.cons.injEq, List.cons.injEq] at dims'
  obtain ⟨-, rfl, -⟩ := dims'
  refine ⟨dimsR, forall_cells fun i t hi ht => ?_⟩
  rw [elements i t hi ht, cell_div ht, cell_mod ht]
  refine Finset.sum_congr rfl fun j hj => ?_
  rw [elementsT j t (Finset.mem_range.mp hj) ht]

theorem gradient_right {xt : Ref} (transposed : G.Has xt (.compute (.transpose [1, 0])) [x] d)
    (product : G.Has r (.compute .matMul) [xt, z] e) (dimsX : (V.array x).dims = [n, k])
    (dimsZ : (V.array z).dims = [n, l]) : (V.array r).dims = [k, l] ∧
      ∀ c, c < k * l → (V.array r).get c = ∑ i ∈ Finset.range n,
        (V.array x).get (i * k + c / l) * (V.array z).get (i * l + c % l) := by
  obtain ⟨dimsT, elementsT⟩ := exact.transposeMatrix transposed dimsX
  obtain ⟨k', n', l', dims, dims', dimsR, elements⟩ := exact.matMul product
  rw [dimsT, List.cons.injEq, List.cons.injEq] at dims
  obtain ⟨rfl, rfl, -⟩ := dims
  rw [dimsZ, List.cons.injEq, List.cons.injEq] at dims'
  obtain ⟨-, rfl, -⟩ := dims'
  refine ⟨dimsR, forall_cells fun t j ht hj => ?_⟩
  rw [elements t j ht hj, cell_div hj, cell_mod hj]
  refine Finset.sum_congr rfl fun i hi => ?_
  rw [elementsT t i ht (Finset.mem_range.mp hi)]

theorem gradient_rows {slice : List Nat} (sum : G.Has r (.compute .sumRows) [z] d)
    (dims : (V.array z).dims = n :: slice) (j : Nat) (hj : j < volume slice) :
    (V.array r).get j = ∑ i ∈ Finset.range n, (V.array z).get (i * volume slice + j) := by
  obtain ⟨n', dims', elements⟩ := exact.sumRows sum
  rw [dims, List.cons.injEq] at dims'
  obtain ⟨rfl, same⟩ := dims'
  rw [← same] at elements
  exact elements j hj

end Graph.Exact

theorem pairing_productTangent {x y : DenseArray α} {k l : Nat} (n : Nat) (hx : x.rowSize = k)
    (hy : y.rowSize = l) (f dx dy : Nat → α) :
    pairing (n * l) f (productTangent x y dx dy) =
      pairing (n * k) (fun (c : Nat) =>
        ∑ j ∈ Finset.range l, f (c / k * l + j) * y.get (c % k * l + j)) dx +
      pairing (k * l) (fun (c : Nat) =>
        ∑ i ∈ Finset.range n, x.get (i * k + c / l) * f (i * l + c % l)) dy := by
  subst hx hy
  rw [← pairing_product_left, ← pairing_product_right, ← pairing_add]
  refine pairing_congr (fun _ _ => rfl) fun i _ => ?_
  rw [productTangent, Finset.sum_add_distrib]

/-! ## Worth -/

/-- What a gradient is worth if values change along tangents. -/
def Valuation.worth (V : Valuation α) (D : Ref → Nat → α) (c : Contribution) : α :=
  pairing (volume (V.array c.target).dims) (V.array c.gradient).get (D c.target)

/-- The gradients of inputs as gradients of the values that the inputs are. -/
def contributionsFor (inputs : List Ref) (grads : List InputGradient) : List Contribution :=
  grads.filterMap fun (q : InputGradient) =>
    inputs[q.position]?.map fun (r : Ref) => ⟨r, q.gradient⟩

/-- Gradients of floats for positions that want one, among them one for each of these positions that
does, together worth `total`. -/
structure Pays (m : Module α) (G : Graph α) (V : Valuation α) (D : Ref → Nat → α)
    (inputs : List Ref) (wants : Nat → Bool) (positions : List Nat) (total : α)
    (grads : List InputGradient) : Prop where
  worth : ((contributionsFor inputs grads).map (V.worth D)).sum = total
  complete : ∀ p ∈ positions, wants p = true → ∃ q ∈ grads, q.position = p
  wanted : ∀ q ∈ grads, wants q.position = true
  floats : ∀ q ∈ grads, V.FloatsAt m G q.gradient

section
variable {m : Module α} {G : Graph α} {V : Valuation α} {D : Ref → Nat → α} {inputs : List Ref}
  {wants : Nat → Bool} {ps qs rs : List Nat} {a b c : α} {grads grads' : List InputGradient}

theorem Pays.append (h : Pays m G V D inputs wants ps a grads)
    (h' : Pays m G V D inputs wants qs b grads') :
    Pays m G V D inputs wants (ps ++ qs) (a + b) (grads ++ grads') := by
  refine ⟨?_, fun p hp wanted => ?_, fun q hq => ?_, fun q hq => ?_⟩
  · rw [contributionsFor, List.filterMap_append, List.map_append, List.sum_append]
    exact congrArg₂ (· + ·) h.worth h'.worth
  · rcases List.mem_append.mp hp with hp | hp
    · obtain ⟨q, hq, same⟩ := h.complete p hp wanted
      exact ⟨q, List.mem_append_left _ hq, same⟩
    · obtain ⟨q, hq, same⟩ := h'.complete p hp wanted
      exact ⟨q, List.mem_append_right _ hq, same⟩
  · rcases List.mem_append.mp hq with hq | hq
    · exact h.wanted q hq
    · exact h'.wanted q hq
  · rcases List.mem_append.mp hq with hq | hq
    · exact h.floats q hq
    · exact h'.floats q hq

namespace Emit

/-- The gradient for one position, if it is wanted; otherwise there is nothing to pay. -/
theorem ensures_paid {C : Prop} {position : Nat} {r : Ref} {emit : Emit α Ref}
    (hr : inputs[position]? = some r) (unwanted : wants position = false → a = 0)
    (h : Ensures G emit fun gradient => C →
      V.FloatsAt m G gradient ∧ V.worth D ⟨r, gradient⟩ = a) :
    Ensures G (if wants position then (do let gradient ← emit; return [⟨position, gradient⟩])
      else return []) fun grads => C → Pays m G V D inputs wants [position] a grads := by
  split
  · next on =>
    refine ensures_bind h fun gradient => ensures_pure fun paid given => ?_
    obtain ⟨floats, worth⟩ := paid given
    refine ⟨?_, ?_, ?_, ?_⟩
    · have single : contributionsFor inputs [⟨position, gradient⟩] = [⟨r, gradient⟩] := by
        simp [contributionsFor, hr]
      rw [single, List.map_singleton, List.sum_singleton, worth]
    · rintro p hp -
      obtain rfl := List.mem_singleton.mp hp
      exact ⟨_, List.mem_singleton_self _, rfl⟩
    · intro q hq
      obtain rfl := List.mem_singleton.mp hq
      exact on
    · intro q hq
      obtain rfl := List.mem_singleton.mp hq
      exact floats
  · next h =>
    have off : wants position = false := by simpa using h
    refine ensures_pure fun _ => ⟨(unwanted off).symm, ?_, by simp, by simp⟩
    intro p hp wanted
    obtain rfl := List.mem_singleton.mp hp
    rw [off] at wanted
    cases wanted

/-- A gradient that is known element by element, for an input that changes only if it is wanted. -/
theorem ensures_onlyIf {C : Prop} {position : Nat} {r : Ref} {emit : Emit α Ref} {f : Nat → α}
    (hr : inputs[position]? = some r) (unwanted : wants position = false → D r = fun _ => 0)
    (h : Ensures G emit fun gradient => C → V.FloatsAt m G gradient ∧
      ∀ i, i < volume (V.array r).dims → (V.array gradient).get i = f i) :
    Ensures G (if wants position then (do let gradient ← emit; return [⟨position, gradient⟩])
      else return []) fun grads => C →
        Pays m G V D inputs wants [position] (pairing (volume (V.array r).dims) f (D r)) grads := by
  refine ensures_paid hr (fun off => by rw [unwanted off, pairing_zero]) ?_
  refine ensures_mono h fun gradient paid given => ?_
  obtain ⟨floats, elements⟩ := paid given
  exact ⟨floats, pairing_congr elements fun _ _ => rfl⟩

theorem ensures_only {position : Nat} {r : Ref} {emit : Emit α Ref} {f : Nat → α}
    (hr : inputs[position]? = some r) (unwanted : wants position = false → D r = fun _ => 0)
    (h : Ensures G emit fun gradient => V.FloatsAt m G gradient ∧
      ∀ i, i < volume (V.array r).dims → (V.array gradient).get i = f i) :
    Ensures G (if wants position then (do let gradient ← emit; return [⟨position, gradient⟩])
      else return [])
      (Pays m G V D inputs wants [position] (pairing (volume (V.array r).dims) f (D r))) :=
  ensures_mono (ensures_onlyIf hr unwanted (ensures_mono h fun _ h (_ : True) => h))
    fun _ h => h trivial

theorem ensures_two {x y : Emit α (List InputGradient)}
    (hx : Ensures G x (Pays m G V D inputs wants ps a))
    (hy : Ensures G y (Pays m G V D inputs wants qs b)) :
    Ensures G (do let a ← x; let b ← y; return a ++ b)
      (Pays m G V D inputs wants (ps ++ qs) (a + b)) :=
  ensures_bind hx fun _ => ensures_bind hy fun _ =>
    ensures_pure fun second first => first.append second

theorem ensures_three {C : Prop} {x y z : Emit α (List InputGradient)}
    (hx : Ensures G x fun grads => C → Pays m G V D inputs wants ps a grads)
    (hy : Ensures G y fun grads => C → Pays m G V D inputs wants qs b grads)
    (hz : Ensures G z fun grads => C → Pays m G V D inputs wants rs c grads) :
    Ensures G (do let a ← x; let b ← y; let c ← z; return a ++ b ++ c) fun grads =>
      C → Pays m G V D inputs wants (ps ++ qs ++ rs) (a + b + c) grads :=
  ensures_bind hx fun _ => ensures_bind hy fun _ => ensures_bind hz fun _ =>
    ensures_pure fun third second first given =>
      ((first given).append (second given)).append (third given)

end Emit
end

/-! ## Rules -/

namespace Operator
open Emit
variable {m : Module α} {G : Graph α} {V : Valuation α} {D : Ref → Nat → α} {name : String}
  {this gradient x y : Ref} {wants : Nat → Bool} {refuse : Emit α (List InputGradient)}
  {d : TensorType α} (exact : G.Exact m V) (known : V.FloatsAt m G gradient)
  (dims : (V.array gradient).dims = (V.array this).dims)

section
variable (unwanted : ∀ p r, [x, y][p]? = some r → wants p = false → D r = fun _ => 0)
include exact known unwanted

theorem adjoint_add (has : G.Has this (.compute (.binary .add)) [x, y] d) :
    Ensures G (gradients (.binary .add) m name [x, y] this gradient wants refuse)
      (Pays m G V D [x, y] wants [0, 1] (pairing (volume (V.array this).dims) (V.array gradient).get
        (NodeKind.tangent (.compute (.binary .add)) [V.array x, V.array y] [D x, D y]))) := by
  obtain ⟨dimsX, dimsY, -⟩ := exact.binary has
  have split : pairing (volume (V.array this).dims) (V.array gradient).get
      (NodeKind.tangent (.compute (.binary .add)) [V.array x, V.array y] [D x, D y]) =
        pairing (volume (V.array x).dims) (V.array gradient).get (D x) +
        pairing (volume (V.array y).dims) (V.array gradient).get (D y) := by
    rw [dimsX, dimsY]
    exact pairing_add
  rw [split]
  exact ensures_two
    (ensures_only rfl (unwanted 0 x rfl) (ensures_pure ⟨known, fun _ _ => rfl⟩))
    (ensures_only rfl (unwanted 1 y rfl) (ensures_pure ⟨known, fun _ _ => rfl⟩))

include dims

theorem adjoint_sub (has : G.Has this (.compute (.binary .sub)) [x, y] d) :
    Ensures G (gradients (.binary .sub) m name [x, y] this gradient wants refuse)
      (Pays m G V D [x, y] wants [0, 1] (pairing (volume (V.array this).dims) (V.array gradient).get
        (NodeKind.tangent (.compute (.binary .sub)) [V.array x, V.array y] [D x, D y]))) := by
  obtain ⟨dimsX, dimsY, -⟩ := exact.binary has
  have split : pairing (volume (V.array this).dims) (V.array gradient).get
      (NodeKind.tangent (.compute (.binary .sub)) [V.array x, V.array y] [D x, D y]) =
        pairing (volume (V.array x).dims) (V.array gradient).get (D x) +
        pairing (volume (V.array y).dims) (fun (i : Nat) => 0 - (V.array gradient).get i) (D y) := by
    rw [dimsX, dimsY]
    exact pairing_sub
  rw [split]
  refine ensures_two
    (ensures_only rfl (unwanted 0 x rfl) (ensures_pure ⟨known, fun _ _ => rfl⟩))
    (ensures_only rfl (unwanted 1 y rfl) ?_)
  refine ensures_bind ensures_typeOf fun t => ensures_bind ensures_node fun zero => ?_
  refine ensures_mono (ensures_binary V) fun r difference splat ht => ?_
  have zeros := splat (known.element ht)
  obtain ⟨e, has⟩ := difference (exact.floatsAt zeros)
  obtain ⟨dimsZ, dimsG, elements⟩ := exact.binary has
  refine ⟨exact.floatsAt has, fun i hi => ?_⟩
  rw [dimsY, ← dims, dimsG] at hi
  rw [elements i hi, exact.splat zeros (by rwa [dimsZ])]
  rfl

theorem adjoint_mul (has : G.Has this (.compute (.binary .mul)) [x, y] d) :
    Ensures G (gradients (.binary .mul) m name [x, y] this gradient wants refuse)
      (Pays m G V D [x, y] wants [0, 1] (pairing (volume (V.array this).dims) (V.array gradient).get
        (NodeKind.tangent (.compute (.binary .mul)) [V.array x, V.array y] [D x, D y]))) := by
  obtain ⟨dimsX, dimsY, -⟩ := exact.binary has
  have split : pairing (volume (V.array this).dims) (V.array gradient).get
      (NodeKind.tangent (.compute (.binary .mul)) [V.array x, V.array y] [D x, D y]) =
        pairing (volume (V.array x).dims)
          (fun (i : Nat) => (V.array gradient).get i * (V.array y).get i) (D x) +
        pairing (volume (V.array y).dims)
          (fun (i : Nat) => (V.array gradient).get i * (V.array x).get i) (D y) := by
    rw [dimsX, dimsY]
    exact pairing_mul
  have factor : ∀ other r, (∃ e, G.Has r (.compute (.binary .mul)) [gradient, other] e) →
      V.FloatsAt m G r ∧ ∀ i, i < volume (V.array this).dims →
        (V.array r).get i = (V.array gradient).get i * (V.array other).get i := by
    rintro other r ⟨e, has⟩
    obtain ⟨dimsG, -, elements⟩ := exact.binary has
    refine ⟨exact.floatsAt has, fun i hi => ?_⟩
    rw [← dims, dimsG] at hi
    exact elements i hi
  rw [split]
  refine ensures_two (ensures_only rfl (unwanted 0 x rfl) ?_) (ensures_only rfl (unwanted 1 y rfl) ?_)
  · rw [dimsX]
    exact ensures_mono (ensures_binary V) fun r has => factor y r (has known)
  · rw [dimsY]
    exact ensures_mono (ensures_binary V) fun r has => factor x r (has known)

theorem adjoint_matMul (fx : V.FloatsAt m G x) (fy : V.FloatsAt m G y)
    (has : G.Has this (.compute .matMul) [x, y] d) :
    Ensures G (gradients .matMul m name [x, y] this gradient wants refuse)
      (Pays m G V D [x, y] wants [0, 1] (pairing (volume (V.array this).dims) (V.array gradient).get
        (NodeKind.tangent (.compute .matMul) [V.array x, V.array y] [D x, D y]))) := by
  obtain ⟨n, k, l, dimsX, dimsY, dimsT, -⟩ := exact.matMul has
  have dimsG : (V.array gradient).dims = [n, l] := dims.trans dimsT
  have rowX : (V.array x).rowSize = k := by rw [DenseArray.rowSize, dimsX]; simp
  have rowY : (V.array y).rowSize = l := by rw [DenseArray.rowSize, dimsY]; simp
  have split := pairing_productTangent n rowX rowY (V.array gradient).get (D x) (D y)
  rw [← volume_matrix n l, ← volume_matrix n k, ← volume_matrix k l, ← dimsX, ← dimsY, ← dimsT]
    at split
  rw [NodeKind.tangent, split]
  refine ensures_two (ensures_only rfl (unwanted 0 x rfl) ?_) (ensures_only rfl (unwanted 1 y rfl) ?_)
  · refine ensures_bind (ensures_transposeMatrix V) fun yt => ?_
    refine ensures_mono (ensures_matMul V) fun r product transposed => ?_
    obtain ⟨_, hp⟩ := product known
    obtain ⟨_, ht⟩ := transposed fy
    refine ⟨exact.floatsAt hp, ?_⟩
    rw [dimsX, volume_matrix]
    exact (exact.gradient_left ht hp dimsY dimsG).2
  · refine ensures_bind (ensures_transposeMatrix V) fun xt => ?_
    refine ensures_mono (ensures_matMul V) fun r product transposed => ?_
    obtain ⟨_, ht⟩ := transposed fx
    obtain ⟨_, hp⟩ := product (exact.floatsAt ht)
    refine ⟨exact.floatsAt hp, ?_⟩
    rw [dimsY, volume_matrix]
    exact (exact.gradient_right ht hp dimsX dimsG).2

theorem adjoint_addToRows (has : G.Has this (.compute .addToRows) [x, y] d) :
    Ensures G (gradients .addToRows m name [x, y] this gradient wants refuse)
      (Pays m G V D [x, y] wants [0, 1] (pairing (volume (V.array this).dims) (V.array gradient).get
        (NodeKind.tangent (.compute .addToRows) [V.array x, V.array y] [D x, D y]))) := by
  obtain ⟨n, dimsX, dimsT, -⟩ := exact.addToRows has
  have size : (V.array y).size = volume (V.array y).dims := (V.array y).size_eq
  have split : pairing (volume (V.array this).dims) (V.array gradient).get
      (NodeKind.tangent (.compute .addToRows) [V.array x, V.array y] [D x, D y]) =
        pairing (volume (V.array x).dims) (V.array gradient).get (D x) +
        pairing (volume (V.array y).dims) (fun (j : Nat) => ∑ i ∈ Finset.range n,
          (V.array gradient).get (i * volume (V.array y).dims + j)) (D y) := by
    rw [dimsT, dimsX, volume_cons, ← pairing_eachRow, ← pairing_add, NodeKind.tangent, size]
  rw [split]
  refine ensures_two
    (ensures_only rfl (unwanted 0 x rfl) (ensures_pure ⟨known, fun _ _ => rfl⟩))
    (ensures_only rfl (unwanted 1 y rfl) ?_)
  refine ensures_mono (ensures_sumRows V) fun r sum => ?_
  obtain ⟨_, sum⟩ := sum known
  exact ⟨exact.floatsAt sum, exact.gradient_rows sum (dims.trans dimsT)⟩

end

include exact known dims

theorem adjoint_dense {w b : Ref} (fx : V.FloatsAt m G x) (fw : V.FloatsAt m G w)
    (unwanted : ∀ p r, [x, w, b][p]? = some r → wants p = false → D r = fun _ => 0)
    (has : G.Has this (.compute .dense) [x, w, b] d) :
    Ensures G (gradients .dense m name [x, w, b] this gradient wants refuse)
      (Pays m G V D [x, w, b] wants [0, 1, 2]
        (pairing (volume (V.array this).dims) (V.array gradient).get (NodeKind.tangent
          (.compute .dense) [V.array x, V.array w, V.array b] [D x, D w, D b]))) := by
  obtain ⟨n, slice, l, dimsX, dimsW, dimsB, dimsT, -⟩ := exact.dense has
  have dimsG : (V.array gradient).dims = [n, l] := dims.trans dimsT
  have rowX : (V.array x).rowSize = volume slice := by rw [DenseArray.rowSize, dimsX]; rfl
  have rowW : (V.array w).rowSize = l := by rw [DenseArray.rowSize, dimsW]; simp
  have split : pairing (volume (V.array this).dims) (V.array gradient).get (NodeKind.tangent
      (.compute .dense) [V.array x, V.array w, V.array b] [D x, D w, D b]) =
        pairing (volume (V.array x).dims) (fun (c : Nat) => ∑ j ∈ Finset.range l,
          (V.array gradient).get (c / volume slice * l + j) *
            (V.array w).get (c % volume slice * l + j)) (D x) +
        pairing (volume (V.array w).dims) (fun (c : Nat) => ∑ i ∈ Finset.range n,
          (V.array x).get (i * volume slice + c / l) * (V.array gradient).get (i * l + c % l)) (D w) +
        pairing (volume (V.array b).dims) (fun (j : Nat) => ∑ i ∈ Finset.range n,
          (V.array gradient).get (i * volume [l] + j)) (D b) := by
    rw [dimsT, dimsX, dimsW, dimsB, volume_matrix, volume_matrix, volume_cons,
      ← pairing_productTangent n rowX rowW, ← pairing_eachRow, volume_cons, volume_nil, Nat.mul_one,
      ← pairing_add, NodeKind.tangent, rowW]
  rw [split]
  refine ensures_bind ensures_typeOfRank fun t => ensures_three
    (ensures_onlyIf rfl (unwanted 0 x rfl) ?_) (ensures_onlyIf rfl (unwanted 1 w rfl) ?_)
    (ensures_onlyIf rfl (unwanted 2 b rfl) ?_)
  · refine ensures_bind (ensures_transposeMatrix V) fun wt => ?_
    refine ensures_bind (ensures_matMul V) fun gx => ?_
    refine ensures_mono (ensures_reshape exact) fun r reshaped product transposed _ => ?_
    obtain ⟨_, hp⟩ := product known
    obtain ⟨_, ht⟩ := transposed fw
    obtain ⟨floats, -, same⟩ := reshaped (exact.floatsAt hp)
    refine ⟨floats, fun c hc => ?_⟩
    rw [dimsX, volume_cons] at hc
    rw [same, (exact.gradient_left ht hp dimsW dimsG).2 c hc]
  · refine ensures_bind (ensures_reshape exact) fun flat => ?_
    refine ensures_bind (ensures_transposeMatrix V) fun xt => ?_
    refine ensures_mono (ensures_matMul V) fun r product transposed reshaped typed => ?_
    obtain ⟨floats, dimsF, same⟩ := reshaped fx
    obtain ⟨_, ht⟩ := transposed floats
    obtain ⟨_, hp⟩ := product (exact.floatsAt ht)
    refine ⟨exact.floatsAt hp, fun c hc => ?_⟩
    have dimsX' := (fx.dims typed).symm.trans dimsX
    rw [TensorType.rows, TensorType.rowSize, dimsX', List.headD_cons, List.tail_cons] at dimsF
    rw [dimsW, volume_matrix] at hc
    simp only [(exact.gradient_right ht hp dimsF dimsG).2 c hc, same]
  · refine ensures_mono (ensures_sumRows V) fun r sum _ => ?_
    obtain ⟨_, sum⟩ := sum known
    rw [dimsB]
    exact ⟨exact.floatsAt sum, exact.gradient_rows sum dimsG⟩

omit known in
theorem adjoint_sumRows (fx : V.FloatsAt m G x)
    (unwanted : ∀ p r, [x][p]? = some r → wants p = false → D r = fun _ => 0)
    (has : G.Has this (.compute .sumRows) [x] d) :
    Ensures G (gradients .sumRows m name [x] this gradient wants refuse)
      (Pays m G V D [x] wants [0] (pairing (volume (V.array this).dims) (V.array gradient).get
        (NodeKind.tangent (.compute .sumRows) [V.array x] [D x]))) := by
  obtain ⟨n, dimsX, -⟩ := exact.sumRows has
  have rows : (V.array x).rows = n := by rw [DenseArray.rows, dimsX]; rfl
  have rowSize : (V.array x).rowSize = volume (V.array this).dims := by
    rw [DenseArray.rowSize, dimsX]; rfl
  rw [NodeKind.tangent, rows, rowSize, pairing_sumRows, ← volume_cons, ← dimsX]
  refine ensures_only rfl (unwanted 0 x rfl) ?_
  refine ensures_bind ensures_typeOf fun t => ensures_bind ensures_node fun zero => ?_
  refine ensures_mono ensures_node fun r copied splat typed => ?_
  have zeros := splat (fx.element typed)
  have copied := copied (fx.element typed)
  obtain ⟨n', dimsZ, -, elements⟩ := exact.addToRows copied
  have dimsZ' : (V.array zero).dims = (V.array x).dims :=
    (exact.dims zeros).trans (fx.dims typed).symm
  rw [dims] at elements dimsZ
  obtain ⟨rfl, -⟩ := List.cons.inj (dimsX.symm.trans (dimsZ'.symm.trans dimsZ))
  refine ⟨exact.floatsAt copied, ?_⟩
  rw [dimsX, volume_cons]
  refine forall_cells fun i j hi hj => ?_
  have inside : i * volume (V.array this).dims + j < volume (V.array zero).dims := by
    rw [dimsZ]
    exact cell_lt hi hj
  rw [elements i j hi hj, exact.splat zeros inside, zero_add, cell_mod hj]

omit known in
theorem adjoint_transpose {shuffle : List Nat}
    (unwanted : ∀ p r, [x][p]? = some r → wants p = false → D r = fun _ => 0)
    (fx : V.FloatsAt m G x) (has : G.Has this (.compute (.transpose shuffle)) [x] d) :
    Ensures G (gradients (.transpose shuffle) m name [x] this gradient wants refuse)
      (Pays m G V D [x] wants [0] (pairing (volume (V.array this).dims) (V.array gradient).get
        (NodeKind.tangent (.compute (.transpose shuffle)) [V.array x] [D x]))) := by
  obtain ⟨rank, dimsT, -⟩ := exact.transpose has
  suffices paid : Ensures G (gradients (.transpose shuffle) m name [x] this gradient wants refuse)
      fun grads => True → Pays m G V D [x] wants [0] (pairing (volume (V.array this).dims)
        (V.array gradient).get
          (NodeKind.tangent (.compute (.transpose shuffle)) [V.array x] [D x])) grads from
    ensures_mono paid fun _ h => h trivial
  refine ensures_paid rfl (fun off => ?_) ?_
  · rw [unwanted 0 x rfl off]
    exact pairing_zero
  · refine ensures_bind ensures_typeOfRank fun t => ?_
    split
    · next inverse hi =>
      refine ensures_mono ensures_node fun r back typed _ => ?_
      have back := back (fx.element typed)
      have undoes := undoes_of_inverseShuffle? hi
      rw [rank] at undoes
      obtain ⟨-, dimsR, elements⟩ := exact.transpose back
      rw [dims, dimsT] at dimsR elements
      rw [undoes.shuffled_shuffled] at dimsR
      refine ⟨exact.floatsAt back, ?_⟩
      rw [NodeKind.tangent, dimsT, pairing_shuffled undoes]
      refine pairing_congr (fun i hi => elements i ?_) fun _ _ => rfl
      rwa [dimsR]
    · exact ensures_throw

end Operator
end NeuralGraph
