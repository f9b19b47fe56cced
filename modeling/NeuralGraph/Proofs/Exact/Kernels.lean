import NeuralGraph.Proofs.Exact.Axes

/-!
# Exact kernels

The elements that kernels compute over a commutative ring, matrices by row and column.
-/

namespace NeuralGraph
set_option autoImplicit false

/-! ## Rows and columns -/

theorem cell_lt {n m r j : Nat} (hr : r < n) (hj : j < m) : r * m + j < n * m := by
  calc r * m + j < r * m + m := Nat.add_lt_add_left hj _
    _ = (r + 1) * m := (Nat.succ_mul r m).symm
    _ ≤ n * m := Nat.mul_le_mul_right m hr

theorem cell_div {m r j : Nat} (hj : j < m) : (r * m + j) / m = r := by
  rw [Nat.mul_comm, Nat.mul_add_div (Nat.zero_lt_of_lt hj), Nat.div_eq_of_lt hj, Nat.add_zero]

theorem cell_mod {m r j : Nat} (hj : j < m) : (r * m + j) % m = j := by
  rw [Nat.mul_comm, Nat.mul_add_mod, Nat.mod_eq_of_lt hj]

theorem volume_matrix (n m : Nat) : volume [n, m] = n * m := by simp

/-- What holds of every cell of a matrix. -/
theorem forall_cells {n m : Nat} {P : Nat → Prop} (h : ∀ r j, r < n → j < m → P (r * m + j))
    (c : Nat) (hc : c < n * m) : P c := by
  have pos : 0 < m := Nat.pos_of_mul_pos_left (Nat.zero_lt_of_lt hc)
  have cell := h (c / m) (c % m) (Nat.div_lt_of_lt_mul (Nat.mul_comm n m ▸ hc)) (Nat.mod_lt c pos)
  rwa [Nat.mul_comm, Nat.div_add_mod] at cell

/-- The first axis becomes the second. -/
theorem shuffledPosition_matrix {k m t j : Nat} (ht : t < k) :
    shuffledPosition [k, m] [1, 0] (j * k + t) = t * m + j := by
  simp only [shuffledPosition, shuffled, List.map_cons, List.map_nil, List.getD_cons_succ,
    List.getD_cons_zero, DenseArray.coordinates, DenseArray.strides, DenseArray.position,
    volume_cons, volume_nil, Nat.mul_one, Nat.div_one, cell_div ht, cell_mod ht, Nat.add_zero]
  exact Nat.add_comm _ _

namespace Kernel
variable {α : Type} [RingScalar α] {n k m r j : Nat}

theorem product_get (a b : DenseArray α) (hr : r < n) (hj : j < m) :
    (product n k m a b).get (r * m + j) =
      ∑ t ∈ Finset.range k, a.get (r * k + t) * b.get (t * m + j) := by
  have bound : r * m + j < volume [n, m] := by simpa using cell_lt hr hj
  rw [product, DenseArray.get_ofFn _ _ bound, Scalar.dot_eq]
  simp only [cell_div hj, cell_mod hj]

variable {x w b c s : DenseArray α} {slice : List Nat}

theorem matMul_get {a : DenseArray α} (ha : a.dims = [n, k]) (hb : b.dims = [k, m])
    (h : matMul a b = .ok c) (hr : r < n) (hj : j < m) :
    c.get (r * m + j) = ∑ t ∈ Finset.range k, a.get (r * k + t) * b.get (t * m + j) := by
  rw [matMul_eq ha hb] at h
  cases h
  exact product_get a b hr hj

theorem dense_get (hx : x.dims = n :: slice) (hw : w.dims = [volume slice, m]) (hb : b.dims = [m])
    (h : dense x w b = .ok c) (hr : r < n) (hj : j < m) :
    c.get (r * m + j) = ∑ t ∈ Finset.range (volume slice),
      x.get (r * volume slice + t) * w.get (t * m + j) + b.get j := by
  have some' : x.dims ≠ [] := by simp [hx]
  have rows : x.rows = n := by rw [DenseArray.rows, hx]; rfl
  have rowSize : x.rowSize = volume slice := by rw [DenseArray.rowSize, hx]; rfl
  have bound : r * m + j < volume [n, m] := by simpa using cell_lt hr hj
  rw [dense_eq some' (by rw [rowSize, hw]) hb (by rw [rows]; omega), rows, rowSize] at h
  cases h
  rw [DenseArray.get_ofFn _ _ bound, product_get x w hr hj, cell_mod hj]

theorem addToRows_get (hx : x.dims = n :: slice) (hs : s.dims = slice)
    (h : addToRows x s = .ok c) (hr : r < n) (hj : j < volume slice) :
    c.get (r * volume slice + j) = x.get (r * volume slice + j) + s.get j := by
  have bound : r * volume slice + j < volume x.dims := by
    rw [hx]
    exact cell_lt hr hj
  have size : s.size = volume slice := by rw [DenseArray.size, s.size_eq, hs]
  rw [addToRows_eq (by simp [hx]) (by rw [hx, hs]; rfl)] at h
  cases h
  rw [DenseArray.get_ofFn _ _ bound, size, cell_mod hj]

theorem sumRows_get {order : SumOrder} (hx : x.dims = n :: slice) (h : sumRows order x = .ok c)
    (hj : j < volume slice) :
    c.get j = ∑ r ∈ Finset.range n, x.get (r * volume slice + j) := by
  rw [sumRows_eq order hx] at h
  cases h
  rw [DenseArray.get_ofFn _ _ hj, Scalar.sumIn_eq]

theorem zipWith_get {f : α → α → α} {y : DenseArray α} {i : Nat} (h : zipWith f x y = .ok c)
    (hi : i < volume c.dims) : c.get i = f (x.get i) (y.get i) := by
  rw [zipWith_dims h] at hi
  rw [zipWith] at h
  split at h
  · cases h
    exact DenseArray.get_ofFn _ _ hi
  · cases h

theorem transpose_get {shuffle : List Nat} {i : Nat} (h : transpose x shuffle = .ok c)
    (hi : i < volume c.dims) : c.get i = x.get (shuffledPosition x.dims shuffle i) := by
  obtain ⟨-, rfl⟩ := transpose_eq_ok_iff.mp h
  exact permuteAxes_get x shuffle hi

theorem reshape_get {dims : List Nat} (h : reshape x dims = .ok c) (i : Nat) :
    c.get i = x.get i := by
  simp only [reshape, DenseArray.reshape?] at h
  split at h
  · next a ha =>
    split at ha
    · cases ha
      split at h
      · cases h
        rfl
      · cases h
    · cases ha
  · cases h

end Kernel
end NeuralGraph
