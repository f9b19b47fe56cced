import NeuralGraph.Proofs.Exact.Kernels
import NeuralGraph.Proofs.Graph.Solutions

/-!
# Exact values

What nodes of float types hold after an exact evaluation of a proper graph, element by element.
-/

namespace NeuralGraph
set_option autoImplicit false
variable {α : Type}

/-- The reference is to a node of this kind, with these inputs and this type of floats. -/
def Graph.Has (g : Graph α) (r : Ref) (kind : NodeKind α) (inputs : List Ref) (d : TensorType α) :
    Prop := ∃ id n, r = .node id ∧ g.node? id = some n ∧ n.kind = kind ∧ n.inputs = inputs ∧
      n.type = some d ∧ d.element = .float

/-- A proper graph, and a valuation that solves it. -/
structure Graph.Exact [Scalar α] (m : Module α) (g : Graph α) (V : Valuation α) : Prop where
  proper : g.Proper m
  solution : g.Solution m V

/-- A reference to floats, and a value of their dimensions. -/
def Valuation.FloatsAt [Scalar α] (V : Valuation α) (m : Module α) (g : Graph α) (r : Ref) : Prop :=
  ∃ t, m.typeOf g r = .ok t ∧ t.element = .float ∧ (V.array r).dims = t.dims

namespace Valuation.FloatsAt
variable [Scalar α] {V : Valuation α} {m : Module α} {g : Graph α} {r : Ref} {t : TensorType α}

theorem element (h : V.FloatsAt m g r) (ht : m.typeOf g r = .ok t) : t.element = .float := by
  obtain ⟨u, hu, float, -⟩ := h
  rw [ht] at hu
  cases hu
  exact float

theorem dims (h : V.FloatsAt m g r) (ht : m.typeOf g r = .ok t) : (V.array r).dims = t.dims := by
  obtain ⟨u, hu, -, dims⟩ := h
  rw [ht] at hu
  cases hu
  exact dims

end Valuation.FloatsAt

/-- The elements that an operator puts somewhere are those that its kernel computes. -/
theorem Operator.compute_of_apply [Scalar α] {op : Operator α} {dims : List Nat}
    {xs : List (PlacedArray α)} {a : PlacedArray α} (h : op.apply dims xs = .ok a) :
    op.compute dims xs = .ok a.array := by
  rw [apply] at h
  cases hc : op.compute dims xs with
  | error e => simp [hc, bind, Except.bind] at h
  | ok c =>
    simp only [hc, bind, Except.bind] at h
    split at h
    · split at h
      · cases h
        rfl
      · cases h
    · cases h
      rfl

/-! ## Sums of gradients -/

section
variable [RingScalar α] {n : Node α} {type : TensorType α} {total t : Tensor α} {i : Nat}

theorem Node.addTo_get {x : Tensor α} (h : n.addTo type total x = .ok t)
    (float : type.element = .float) (hi : i < volume type.dims) :
    t.decoded.array.get i = total.decoded.array.get i + x.decoded.array.get i := by
  obtain ⟨a, dims, made, rfl⟩ := keepResult_eq_ok h
  rw [Tensor.decoded_encoded dims float]
  have added : Kernel.zipWith BinaryOp.add.apply total.decoded.array x.decoded.array =
      .ok a.array := Operator.compute_of_apply made
  refine Kernel.zipWith_get added ?_
  have same : a.array.dims = type.dims := dims
  rwa [same]

theorem Node.foldlM_addTo_get {xs : List (Tensor α)} (h : xs.foldlM (n.addTo type) total = .ok t)
    (float : type.element = .float) (hi : i < volume type.dims) :
    t.decoded.array.get i =
      total.decoded.array.get i + (xs.map fun (x : Tensor α) => x.decoded.array.get i).sum := by
  induction xs generalizing total with
  | nil =>
    cases h
    simp
  | cons x xs ih =>
    rw [List.foldlM_cons] at h
    cases hx : n.addTo type total x with
    | error e => simp [hx, bind, Except.bind] at h
    | ok u =>
      rw [ih (by simpa [hx, bind, Except.bind] using h), addTo_get hx float hi, List.map_cons,
        List.sum_cons, add_assoc]

end

namespace Graph.Exact

section
variable [Scalar α] {m : Module α} {g : Graph α} {V : Valuation α} {r : Ref} {d : TensorType α}
  {inputs : List Ref} {kind : NodeKind α}

theorem dims (exact : g.Exact m V) (has : g.Has r kind inputs d) : (V.array r).dims = d.dims := by
  obtain ⟨id, n, rfl, hn, -, -, type, -⟩ := has
  exact exact.solution.node_dims hn type

theorem floatsAt (exact : g.Exact m V) (has : g.Has r kind inputs d) : V.FloatsAt m g r := by
  have dims := exact.dims has
  obtain ⟨id, n, rfl, hn, -, -, type, float⟩ := has
  exact ⟨d, Module.typeOf_node_iff.mpr ⟨n, hn, type⟩, float, dims⟩

theorem types (exact : g.Exact m V) (has : g.Has r kind inputs d) :
    ∃ ts, m.TypesOf g inputs ts ∧ kind.Accepts ts (some d) ∧
      ts.map TensorType.dims = inputs.map fun (x : Ref) => (V.array x).dims := by
  obtain ⟨id, n, rfl, hn, rfl, rfl, type, -⟩ := has
  obtain ⟨ts, types, accepts⟩ := (exact.proper.typed n (Array.mem_of_getElem? hn)).accepts
  rw [type] at accepts
  refine ⟨ts, types, accepts, ?_⟩
  have listed := (List.forall₂_and_left _ _).mpr ⟨fun (x : Ref) (hx : x ∈ n.inputs) => hx, types⟩
  have dims := listed.imp fun (x : Ref) (t : TensorType α) h =>
    exact.solution.input_dims hn type h.1 h.2
  clear listed accepts types
  generalize n.inputs = rs at dims
  induction dims with
  | nil => rfl
  | cons h _ ih => rw [List.map_cons, List.map_cons, ih, h]

theorem numbers (exact : g.Exact m V) (has : g.Has r kind inputs d) (other : kind ≠ .gradientSum) :
    ∃ a, kind.numbers d.dims (inputs.map V.placed) = .ok a ∧ V.array r = a.array := by
  obtain ⟨id, n, rfl, hn, rfl, rfl, type, float⟩ := has
  exact exact.solution.numbers hn type float other

theorem compute {op : Operator α} (exact : g.Exact m V) (has : g.Has r (.compute op) inputs d) :
    op.compute d.dims (inputs.map V.placed) = .ok (V.array r) := by
  obtain ⟨a, made, same⟩ := exact.numbers has (by nofun)
  rw [same]
  exact Operator.compute_of_apply made

end

section
variable [RingScalar α] {m : Module α} {g : Graph α} {V : Valuation α} {r x y : Ref}
  {d : TensorType α} (exact : g.Exact m V)
include exact

theorem matMul (has : g.Has r (.compute .matMul) [x, y] d) : ∃ n k l,
    (V.array x).dims = [n, k] ∧ (V.array y).dims = [k, l] ∧ (V.array r).dims = [n, l] ∧
      ∀ i j, i < n → j < l → (V.array r).get (i * l + j) =
        ∑ t ∈ Finset.range k, (V.array x).get (i * k + t) * (V.array y).get (t * l + j) := by
  obtain ⟨ts, types, accepts, dims⟩ := exact.types has
  obtain ⟨a, b, rfl, -, -⟩ := types.two
  have computed := exact.compute has
  cases accepts with
  | compute _ suits =>
    obtain ⟨n, k, l, ha, hb, hd⟩ := Signature.matMul_eq_ok suits
    simp only [List.map_cons, List.map_nil, List.cons.injEq, and_true, ha, hb] at dims
    exact ⟨n, k, l, dims.1.symm, dims.2.symm, (exact.dims has).trans hd, fun i j hi hj =>
      Kernel.matMul_get dims.1.symm dims.2.symm computed hi hj⟩

theorem dense {w : Ref} (has : g.Has r (.compute .dense) [x, w, y] d) : ∃ n slice l,
    (V.array x).dims = n :: slice ∧ (V.array w).dims = [volume slice, l] ∧
      (V.array y).dims = [l] ∧ (V.array r).dims = [n, l] ∧
      ∀ i j, i < n → j < l → (V.array r).get (i * l + j) =
        ∑ t ∈ Finset.range (volume slice),
          (V.array x).get (i * volume slice + t) * (V.array w).get (t * l + j) +
            (V.array y).get j := by
  obtain ⟨ts, types, accepts, dims⟩ := exact.types has
  obtain ⟨a, b, c, rfl, -, -, -⟩ := types.three
  have computed := exact.compute has
  cases accepts with
  | compute _ suits =>
    obtain ⟨n, slice, l, ha, -, hb, hc, hd⟩ := Signature.dense_eq_ok suits
    simp only [List.map_cons, List.map_nil, List.cons.injEq, and_true, ha, hb, hc] at dims
    exact ⟨n, slice, l, dims.1.symm, dims.2.1.symm, dims.2.2.symm, (exact.dims has).trans hd,
      fun i j hi hj => Kernel.dense_get dims.1.symm dims.2.1.symm dims.2.2.symm computed hi hj⟩

theorem addToRows (has : g.Has r (.compute .addToRows) [x, y] d) : ∃ n,
    (V.array x).dims = n :: (V.array y).dims ∧ (V.array r).dims = n :: (V.array y).dims ∧
      ∀ i j, i < n → j < volume (V.array y).dims →
        (V.array r).get (i * volume (V.array y).dims + j) =
          (V.array x).get (i * volume (V.array y).dims + j) + (V.array y).get j := by
  obtain ⟨ts, types, accepts, dims⟩ := exact.types has
  obtain ⟨a, b, rfl, -, -⟩ := types.two
  have computed := exact.compute has
  cases accepts with
  | compute _ suits =>
    obtain ⟨n, ha, hd⟩ := Signature.addToRows_eq_ok suits
    simp only [List.map_cons, List.map_nil, List.cons.injEq, and_true, ha] at dims
    have whole : (V.array x).dims = n :: (V.array y).dims := by rw [← dims.1, dims.2]
    exact ⟨n, whole, by rw [exact.dims has, hd, dims.2], fun i j hi hj =>
      Kernel.addToRows_get whole rfl computed hi hj⟩

theorem sumRows (has : g.Has r (.compute .sumRows) [x] d) : ∃ n,
    (V.array x).dims = n :: (V.array r).dims ∧
      ∀ j, j < volume (V.array r).dims → (V.array r).get j =
        ∑ i ∈ Finset.range n, (V.array x).get (i * volume (V.array r).dims + j) := by
  obtain ⟨ts, types, accepts, dims⟩ := exact.types has
  obtain ⟨a, rfl, -⟩ := types.one
  have computed := exact.compute has
  cases accepts with
  | compute _ suits =>
    obtain ⟨n, ha⟩ := Signature.sumRows_eq_ok suits
    simp only [List.map_cons, List.map_nil, List.cons.injEq, and_true, ha] at dims
    have whole : (V.array x).dims = n :: (V.array r).dims := by rw [exact.dims has, ← dims]
    exact ⟨n, whole, fun j hj => Kernel.sumRows_get whole computed hj⟩

theorem binary {op : BinaryOp} (has : g.Has r (.compute (.binary op)) [x, y] d) :
    (V.array x).dims = (V.array r).dims ∧ (V.array y).dims = (V.array r).dims ∧
      ∀ i, i < volume (V.array r).dims →
        (V.array r).get i = op.apply ((V.array x).get i) ((V.array y).get i) := by
  obtain ⟨ts, types, accepts, dims⟩ := exact.types has
  obtain ⟨a, b, rfl, -, -⟩ := types.two
  have computed := exact.compute has
  cases accepts with
  | compute _ suits =>
    simp only [Signature.operator, Signature.sameDims_eq_ok_iff, List.forall_mem_cons] at suits
    simp only [List.map_cons, List.map_nil, List.cons.injEq, and_true, suits.1, suits.2.1] at dims
    rw [exact.dims has]
    refine ⟨dims.1.symm, dims.2.symm, fun i hi => ?_⟩
    rw [← exact.dims has] at hi
    exact Kernel.zipWith_get computed hi

theorem transpose {shuffle : List Nat} (has : g.Has r (.compute (.transpose shuffle)) [x] d) :
    shuffle.length = (V.array x).dims.length ∧
      (V.array r).dims = shuffled shuffle (V.array x).dims ∧
      ∀ i, i < volume (V.array r).dims →
        (V.array r).get i = (V.array x).get (shuffledPosition (V.array x).dims shuffle i) := by
  obtain ⟨ts, types, accepts, dims⟩ := exact.types has
  obtain ⟨a, rfl, -⟩ := types.one
  have computed := exact.compute has
  cases accepts with
  | compute _ suits =>
    obtain ⟨rank, hd⟩ := Signature.transpose_eq_ok suits
    simp only [List.map_cons, List.map_nil, List.cons.injEq, and_true] at dims
    refine ⟨by rw [← dims, rank]; rfl, ?_, fun i hi => Kernel.transpose_get computed hi⟩
    rw [exact.dims has, ← hd, dims]
    rfl

theorem reshape {dims : List Nat} (has : g.Has r (.reshape dims) [x] d) :
    volume (V.array r).dims = volume (V.array x).dims ∧
      ∀ i, (V.array r).get i = (V.array x).get i := by
  obtain ⟨ts, types, accepts, same⟩ := exact.types has
  obtain ⟨a, made, result⟩ := exact.numbers has (by nofun)
  cases accepts with
  | reshape volumes =>
    simp only [List.map_cons, List.map_nil, List.cons.injEq, and_true] at same
    refine ⟨by rw [exact.dims has, volumes, same], fun i => ?_⟩
    have kept : (Kernel.reshape (V.placed x).array d.dims).map PlacedArray.byRows = .ok a := made
    cases hk : Kernel.reshape (V.placed x).array d.dims with
    | error e => simp [hk, Except.map] at kept
    | ok c =>
      simp only [hk, Except.map, Except.ok.injEq] at kept
      subst kept
      rw [result]
      exact Kernel.reshape_get hk i

theorem splat {a : α} (has : g.Has r (.splat a) [] d) {i : Nat}
    (hi : i < volume (V.array r).dims) : (V.array r).get i = a := by
  obtain ⟨b, made, result⟩ := exact.numbers has (by nofun)
  cases made
  rw [exact.dims has] at hi
  rw [result]
  exact DenseArray.get_fill _ a hi

theorem gradientSum {rs : List Ref} (has : g.Has r .gradientSum rs d) {i : Nat}
    (hi : i < volume (V.array r).dims) :
    (V.array r).get i = (rs.map fun (x : Ref) => (V.array x).get i).sum := by
  rw [exact.dims has] at hi
  obtain ⟨id, n, rfl, hn, kind, rfl, type, float⟩ := has
  obtain ⟨t, ⟨xs, u, hu, reads, value⟩, ht⟩ := exact.solution.nodes id n d hn type
  obtain rfl := Option.some.inj (hu.symm.trans type)
  have dims : (PlacedArray.byRows (DenseArray.fill u.dims (0 : α))).dims = u.dims := rfl
  simp only [Node.value, kind, n.keep_of_dims dims, bind, Except.bind] at value
  have parts : (n.inputs.map fun (x : Ref) => (V.array x).get i) =
      xs.map fun (x : Tensor α) => x.decoded.array.get i := by
    have placed := congrArg (List.map fun (a : PlacedArray α) => a.array.get i)
      (Valuation.map_placed reads)
    rwa [List.map_map, List.map_map] at placed
  rw [Valuation.array_of_read (Valuation.read_node_eq_ok.mpr ht), parts,
    Node.foldlM_addTo_get value float hi, Tensor.decoded_encoded dims float]
  have start : (PlacedArray.byRows (DenseArray.fill u.dims (0 : α))).array.get i = 0 :=
    DenseArray.get_fill _ 0 hi
  rw [start, zero_add]

theorem regression (has : g.Has r .regression [x, y] d) :
    (V.array x).dims = (V.array y).dims ∧ V.array r = V.array x := by
  obtain ⟨ts, types, accepts, dims⟩ := exact.types has
  obtain ⟨b, made, result⟩ := exact.numbers has (by nofun)
  cases accepts with
  | regression same =>
    simp only [List.map_cons, List.map_nil, List.cons.injEq, and_true] at dims
    cases made
    exact ⟨by rw [← dims.1, ← dims.2, same], result⟩

end
end Graph.Exact
end NeuralGraph
