import NeuralGraph.Proofs.Exact.Kernels

/-!
# Pairing

The pairing of two arrays is the sum of the products of corresponding elements.  A linear operation
on one side of a pairing can be moved to the other side, where it becomes its adjoint: for a product
of matrices a product with the transpose, for a value that is added to all rows the sum of the rows.
-/

namespace NeuralGraph
set_option autoImplicit false
variable {α : Type} [RingScalar α]

/-- The sum of the products of corresponding elements. -/
def pairing (size : Nat) (f h : Nat → α) : α := ∑ i ∈ Finset.range size, f i * h i

section
variable {size : Nat} {f f' h h' : Nat → α}

theorem pairing_congr (hf : ∀ i, i < size → f i = f' i) (hh : ∀ i, i < size → h i = h' i) :
    pairing size f h = pairing size f' h' := by
  refine Finset.sum_congr rfl fun i hi => ?_
  rw [hf i (Finset.mem_range.mp hi), hh i (Finset.mem_range.mp hi)]

theorem pairing_zero : pairing size f (fun _ => 0) = 0 := by
  simp [pairing]

theorem pairing_add : pairing size f (fun (i : Nat) => h i + h' i) =
    pairing size f h + pairing size f h' := by
  simp only [pairing, mul_add, Finset.sum_add_distrib]

theorem pairing_sub : pairing size f (fun (i : Nat) => h i - h' i) =
    pairing size f h + pairing size (fun (i : Nat) => 0 - f i) h' := by
  simp only [pairing, ← Finset.sum_add_distrib]
  exact Finset.sum_congr rfl fun i _ => by ring

theorem pairing_mul {x y : Nat → α} :
    pairing size f (fun (i : Nat) => h i * y i + x i * h' i) =
      pairing size (fun (i : Nat) => f i * y i) h + pairing size (fun (i : Nat) => f i * x i) h' := by
  simp only [pairing, ← Finset.sum_add_distrib]
  exact Finset.sum_congr rfl fun i _ => by ring

theorem pairing_sum {fs : List (Nat → α)} :
    pairing size (fun (i : Nat) => (fs.map fun (f : Nat → α) => f i).sum) h =
      (fs.map fun (f : Nat → α) => pairing size f h).sum := by
  induction fs with
  | nil => simp [pairing]
  | cons f fs ih =>
    simp only [List.map_cons, List.sum_cons, ← ih]
    simp only [pairing, add_mul, Finset.sum_add_distrib]

end

/-! ## Matrices -/

theorem pairing_cells (n k : Nat) (f h : Nat → α) : pairing (n * k) f h =
    ∑ i ∈ Finset.range n, ∑ t ∈ Finset.range k, f (i * k + t) * h (i * k + t) :=
  sum_blocks n k _

/-- A pairing with a function of the cells of a matrix. -/
theorem pairing_ofCells {n k : Nat} {a : Nat → Nat → α} {f : Nat → α} :
    pairing (n * k) (fun (c : Nat) => a (c / k) (c % k)) f =
      ∑ i ∈ Finset.range n, ∑ t ∈ Finset.range k, a i t * f (i * k + t) := by
  rw [pairing_cells]
  refine Finset.sum_congr rfl fun i _ => Finset.sum_congr rfl fun t ht => ?_
  rw [cell_div (Finset.mem_range.mp ht), cell_mod (Finset.mem_range.mp ht)]

theorem pairing_comm (size : Nat) (f h : Nat → α) : pairing size f h = pairing size h f :=
  Finset.sum_congr rfl fun _ _ => mul_comm _ _

section
variable (n k l : Nat) (f x y : Nat → α)

theorem pairing_product_left (dx : Nat → α) :
    pairing (n * l) f (fun (c : Nat) =>
        ∑ t ∈ Finset.range k, dx (c / l * k + t) * y (t * l + c % l)) =
      pairing (n * k) (fun (c : Nat) =>
        ∑ j ∈ Finset.range l, f (c / k * l + j) * y (c % k * l + j)) dx := by
  rw [pairing_comm, pairing_ofCells (a := fun (i j : Nat) =>
      ∑ t ∈ Finset.range k, dx (i * k + t) * y (t * l + j)),
    pairing_ofCells (a := fun (i t : Nat) => ∑ j ∈ Finset.range l, f (i * l + j) * y (t * l + j))]
  refine Finset.sum_congr rfl fun i _ => ?_
  simp only [Finset.sum_mul]
  rw [Finset.sum_comm]
  refine Finset.sum_congr rfl fun t _ => Finset.sum_congr rfl fun j _ => ?_
  ring

theorem pairing_product_right (dy : Nat → α) :
    pairing (n * l) f (fun (c : Nat) =>
        ∑ t ∈ Finset.range k, x (c / l * k + t) * dy (t * l + c % l)) =
      pairing (k * l) (fun (c : Nat) =>
        ∑ i ∈ Finset.range n, x (i * k + c / l) * f (i * l + c % l)) dy := by
  rw [pairing_comm, pairing_ofCells (a := fun (i j : Nat) =>
      ∑ t ∈ Finset.range k, x (i * k + t) * dy (t * l + j)),
    pairing_ofCells (a := fun (t j : Nat) => ∑ i ∈ Finset.range n, x (i * k + t) * f (i * l + j))]
  simp only [Finset.sum_mul]
  calc ∑ i ∈ Finset.range n, ∑ j ∈ Finset.range l, ∑ t ∈ Finset.range k,
          x (i * k + t) * dy (t * l + j) * f (i * l + j)
      = ∑ i ∈ Finset.range n, ∑ t ∈ Finset.range k, ∑ j ∈ Finset.range l,
          x (i * k + t) * dy (t * l + j) * f (i * l + j) :=
        Finset.sum_congr rfl fun i _ => Finset.sum_comm
    _ = ∑ t ∈ Finset.range k, ∑ i ∈ Finset.range n, ∑ j ∈ Finset.range l,
          x (i * k + t) * dy (t * l + j) * f (i * l + j) := Finset.sum_comm
    _ = ∑ t ∈ Finset.range k, ∑ j ∈ Finset.range l, ∑ i ∈ Finset.range n,
          x (i * k + t) * dy (t * l + j) * f (i * l + j) :=
        Finset.sum_congr rfl fun t _ => Finset.sum_comm
    _ = ∑ t ∈ Finset.range k, ∑ j ∈ Finset.range l, ∑ i ∈ Finset.range n,
          x (i * k + t) * f (i * l + j) * dy (t * l + j) := by
        refine Finset.sum_congr rfl fun t _ => Finset.sum_congr rfl fun j _ =>
          Finset.sum_congr rfl fun i _ => ?_
        ring

theorem pairing_eachRow (ds : Nat → α) :
    pairing (n * k) f (fun (c : Nat) => ds (c % k)) =
      pairing k (fun (j : Nat) => ∑ i ∈ Finset.range n, f (i * k + j)) ds := by
  rw [pairing_comm, pairing_ofCells (a := fun (_ j : Nat) => ds j), Finset.sum_comm]
  refine Finset.sum_congr rfl fun j _ => ?_
  rw [Finset.sum_mul]
  exact Finset.sum_congr rfl fun i _ => mul_comm _ _

theorem pairing_sumRows (dx : Nat → α) :
    pairing k f (fun (j : Nat) => ∑ i ∈ Finset.range n, dx (i * k + j)) =
      pairing (n * k) (fun (c : Nat) => f (c % k)) dx := by
  rw [pairing_comm, ← pairing_eachRow, pairing_comm]

end

/-! ## Axes -/

theorem pairing_shuffled {dims shuffle inverse : List Nat}
    (undoes : Undoes dims.length shuffle inverse) (f dx : Nat → α) :
    pairing (volume (shuffled shuffle dims)) f (fun (i : Nat) =>
        dx (shuffledPosition dims shuffle i)) =
      pairing (volume dims) (fun (i : Nat) =>
        f (shuffledPosition (shuffled shuffle dims) inverse i)) dx := sum_shuffled undoes f dx

end NeuralGraph
