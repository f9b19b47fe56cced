import NeuralGraph.Kernel.Fault

/-!
# Rows

Operations along the leading dimension: adding to every row, summing the rows, picking rows.
-/

namespace NeuralGraph.Kernel
set_option autoImplicit false
variable {α : Type} [Scalar α]

/-- Adds `slice` to every row of `batch`. -/
def addToRows (batch slice : DenseArray α) : Kernel α (DenseArray α) :=
  if batch.dims.isEmpty || batch.dims.tail != slice.dims then .error (.slice slice.dims batch.dims)
  else .ok (.ofFn batch.dims fun (i : Nat) => batch.get i + slice.get (i % slice.size))

/-- The sum of the rows. -/
def sumRows (order : SumOrder) (batch : DenseArray α) : Kernel α (DenseArray α) :=
  match batch.dims with
  | [] => .error .reduceScalar
  | n :: slice => .ok (.ofFn slice fun (j : Nat) =>
      Scalar.sumIn order n fun (r : Nat) => batch.get (r * volume slice + j))

/-! ## Picking rows -/

/-- The position that a scalar stands for, which must be below `bound`. -/
def readIndex (value : α) (bound : Nat) : Kernel α Nat :=
  match Scalar.toNat? value with
  | some n => if n < bound then .ok n else .error (.index value bound)
  | none => .error (.index value bound)

/-- The rows of `data` that `indices` names. -/
def gather (data indices : DenseArray α) : Kernel α (DenseArray α) :=
  match data.dims with
  | [] => .error .gatherScalar
  | rows :: slice => do
    let picked ← indices.data.toList.mapM fun (value : α) => readIndex value rows
    let row : Nat := volume slice
    let source : Array Nat := picked.toArray
    .ok (.ofFn (indices.dims ++ slice) fun (i : Nat) =>
      data.get (source.getD (i / row) 0 * row + i % row))

end NeuralGraph.Kernel
