import NeuralGraph.Kernel.Fault

/-!
# Axes

The same elements in another arrangement: other dimensions, or the axes in another order.
-/

namespace NeuralGraph.Kernel
set_option autoImplicit false
variable {α : Type} [Scalar α]

/-- Whether each axis is in range and, when its turn comes, has not been seen yet. -/
def eachFresh : List Bool → List Nat → Bool
  | _, [] => true
  | seen, axis :: shuffle =>
    decide (axis < seen.length) && !seen.getD axis false && eachFresh (seen.set axis true) shuffle

/-- Whether every axis `0 … rank - 1` is listed exactly once. -/
def isPermutation (rank : Nat) (shuffle : List Nat) : Bool :=
  shuffle.length == rank && eachFresh (List.replicate rank false) shuffle

/-- Marks an axis as seen, if it is in range and has not been seen yet. -/
def markAxis (seen : List Bool) (axis : Nat) : Option (List Bool) :=
  if axis ≥ seen.length ∨ seen.getD axis false then none else some (seen.set axis true)

/-- Dimension `i` of the result is dimension `shuffle[i]` of the array. -/
def permuteAxes (a : DenseArray α) (shuffle : List Nat) : DenseArray α :=
  let dims : List Nat := shuffle.map fun (axis : Nat) => a.dims.getD axis 0
  let steps : List Nat := shuffle.map fun (axis : Nat) => (DenseArray.strides a.dims).getD axis 0
  .ofFn dims fun (i : Nat) => a.get (DenseArray.position (DenseArray.coordinates dims i) steps)

/-- The axes in another order, once all of them are seen. -/
def transpose (a : DenseArray α) (shuffle : List Nat) : Kernel α (DenseArray α) :=
  match shuffle.foldlM markAxis (List.replicate a.rank false) with
  | none => .error (.permutation shuffle a.dims)
  | some _ =>
    if shuffle.length ≠ a.rank then .error (.permutation shuffle a.dims)
    else .ok (permuteAxes a shuffle)

/-- Other dimensions, which an array must be able to have. -/
def reshape (a : DenseArray α) (dims : List Nat) : Kernel α (DenseArray α) :=
  match a.reshape? dims with
  | some b => if addressable dims then .ok b else .error (.reshape a.dims dims)
  | none => .error (.reshape a.dims dims)

end NeuralGraph.Kernel
