import NeuralGraph.Kernel.Rows

/-!
# Softmax

Scores turned into probabilities row by row, and the gradient of the loss that compares them with
labels.
-/

namespace NeuralGraph.Kernel
set_option autoImplicit false
variable {α : Type} [Scalar α]

/-- Each row through the exponential, shifted by its maximum, then divided by its sum. -/
def softmax (order : SumOrder) (input : DenseArray α) : Kernel α (DenseArray α) :=
  match input.dims with
  | [n, c] =>
    let peaks : DenseArray α := .ofFn [n] fun (r : Nat) =>
      (List.range c).foldl (fun (m : α) (j : Nat) => Scalar.max m (input.get (r * c + j)))
        Scalar.negInfinity
    let powers : DenseArray α := .ofFn [n, c] fun (i : Nat) =>
      Scalar.exp (input.get i - peaks.get (i / c))
    let totals : DenseArray α := .ofFn [n] fun (r : Nat) =>
      Scalar.sumIn order c fun (j : Nat) => powers.get (r * c + j)
    .ok (.ofFn [n, c] fun (i : Nat) => powers.get i / totals.get (i / c))
  | _ => .error .softmaxInput

/-- The output less one at the label of each row. -/
def softmaxGradient (output labels : DenseArray α) : Kernel α (DenseArray α) :=
  match output.dims with
  | [n, c] =>
    if labels.size ≠ n then .error (.labels labels.size n)
    else do
      let picked ← labels.data.toList.mapM fun (value : α) => readIndex value c
      .ok (picked.zipIdx.foldl
        (fun (a : DenseArray α) (p : Nat × Nat) => a.addAt (p.2 * c + p.1) (-1)) output)
  | _ => .error .softmaxOutput

end NeuralGraph.Kernel
