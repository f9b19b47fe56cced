import NeuralGraph.Kernel.Fault

/-!
# The update of a weight

One step of gradient descent with momentum.  The decay is part of the gradient:
`velocity' = momentum * velocity - learningRate * (gradient + decay * weight)` and
`weight' = weight + velocity'`.
-/

namespace NeuralGraph
set_option autoImplicit false

/-- The parameters of a descent step. -/
structure UpdateRule (α : Type) where
  learningRate : α
  momentum : α
  decay : α
  deriving DecidableEq

/-- A weight and its velocity after a step. -/
structure Updated (α : Type) where
  weight : DenseArray α
  velocity : DenseArray α

variable {α : Type} [Scalar α]

/-- A learning rate of one hundredth and nothing else. -/
def UpdateRule.standard : UpdateRule α := ⟨0.01, 0, 0⟩

namespace UpdateRule

def nextVelocity (u : UpdateRule α) (weight gradient velocity : α) : α :=
  u.momentum * velocity - u.learningRate * (gradient + u.decay * weight)

end UpdateRule

namespace Kernel

def update (u : UpdateRule α) (weight gradient velocity : DenseArray α) :
    Kernel α (Updated α) :=
  if weight.dims ≠ gradient.dims ∨ weight.dims ≠ velocity.dims then
    .error (.updateShapes weight.dims gradient.dims velocity.dims)
  else
    let next : DenseArray α := .ofFn weight.dims fun (i : Nat) =>
      u.nextVelocity (weight.get i) (gradient.get i) (velocity.get i)
    .ok ⟨.ofFn weight.dims fun (i : Nat) => weight.get i + next.get i, next⟩

end Kernel

/-- The new weight and the new velocity, and where they lie. -/
def UpdateRule.apply (u : UpdateRule α) (weight gradient velocity : PlacedArray α) :
    Kernel α (List (PlacedArray α)) := do
  let updated ← Kernel.update u weight.array gradient.array velocity.array
  let next : Layout := .combined weight.dims [weight.layout, gradient.layout, velocity.layout]
  .ok [⟨updated.weight, .combined weight.dims [weight.layout, next]⟩, ⟨updated.velocity, next⟩]

end NeuralGraph
