import NeuralGraph.Kernel.Fault

/-!
# Products

The product of two matrices, and the fully connected layer, which multiplies flattened rows by a
weight matrix and adds a bias.
-/

namespace NeuralGraph.Kernel
set_option autoImplicit false
variable {α : Type} [Scalar α]

/-- The number of rows and columns of a matrix. -/
def matrixDims (role : MatrixRole) (a : DenseArray α) : Kernel α (Nat × Nat) :=
  match a.dims with
  | [rows, columns] => .ok (rows, columns)
  | dims => .error (.notMatrix role dims)

/-- The product of an `n × k` and a `k × m` matrix. -/
def product (n k m : Nat) (a b : DenseArray α) : DenseArray α :=
  .ofFn [n, m] fun (i : Nat) =>
    Scalar.dot k (fun (t : Nat) => a.get (i / m * k + t)) fun (t : Nat) => b.get (t * m + i % m)

def matMul (lhs rhs : DenseArray α) : Kernel α (DenseArray α) := do
  let (n, k) ← matrixDims .lhs lhs
  let (k', m) ← matrixDims .rhs rhs
  if k ≠ k' then .error (.product lhs.dims rhs.dims) else .ok (product n k m lhs rhs)

/-- Each row of the batch, flattened, times the weights plus the bias. -/
def dense (input weights bias : DenseArray α) : Kernel α (DenseArray α) := do
  let n : Nat := input.rows
  let k : Nat := if n = 0 then 0 else input.size / n
  if input.size ≠ n * k then .error (.flatten input.dims n k)
  else
    let (rows, m) ← matrixDims .weights weights
    if k ≠ rows ∨ bias.size ≠ m then .error (.layer input.dims weights.dims bias.dims)
    else
      let sums : DenseArray α := product n k m input weights
      .ok (.ofFn [n, m] fun (i : Nat) => sums.get i + bias.get (i % m))

end NeuralGraph.Kernel
