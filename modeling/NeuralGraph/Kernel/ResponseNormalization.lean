import NeuralGraph.Kernel.Sliding

/-!
# Local response normalization

Each element of an image is divided by a power of the mean square of its neighbours along the
channels.
-/

namespace NeuralGraph
set_option autoImplicit false

/-- The parameters of a local response normalization: an element is scaled by `s ^ -beta`, where
`s` is `k` plus `alpha` times the mean square over `halfWindow` channels to either side. -/
structure ResponseParams (α : Type) where
  halfWindow : Nat
  alpha : α
  beta : α
  k : α
  deriving DecidableEq

namespace ResponseParams
variable {α : Type} [Scalar α]

/-- The number of channels in a window that is not cut off at an edge. -/
def width (p : ResponseParams α) : Nat := 2 * p.halfWindow + 1

/-- The weight of one squared neighbour. -/
def share (p : ResponseParams α) : α := p.alpha / (p.width : α)

/-- The first channel of the window around a channel. -/
def first (p : ResponseParams α) (channel : Nat) : Nat := channel - p.halfWindow

/-- The last channel of the window around one of `channels` channels. -/
def last (p : ResponseParams α) (channels channel : Nat) : Nat :=
  Nat.min (channel + p.halfWindow) (channels - 1)

end ResponseParams

namespace Kernel
variable {α : Type} [Scalar α]

/-- The sum of `f` over the window around a channel, `base` being the position of channel 0. -/
def windowSum (p : ResponseParams α) (channels base channel : Nat) (f : Nat → α) : α :=
  Scalar.sumFrom (-0) (p.last channels channel + 1 - p.first channel) fun (t : Nat) =>
    f (base + p.first channel + t)

/-- What each element is divided by a power of. -/
def responseScale (p : ResponseParams α) (channels : Nat) (input : DenseArray α) : DenseArray α :=
  .ofFn input.dims fun (i : Nat) =>
    p.k + p.share * windowSum p channels (i / channels * channels) (i % channels)
      fun (j : Nat) => input.get j * input.get j

def responseNormalization (p : ResponseParams α) (input : DenseArray α) :
    Kernel α (DenseArray α) := do
  let (_, _, _, channels) ← imageDims .normalizationInput input.dims
  let scale : DenseArray α := responseScale p channels input
  .ok (.ofFn input.dims fun (i : Nat) => input.get i * Scalar.pow (scale.get i) (-p.beta))

def responseNormalizationGradient (p : ResponseParams α) (input output gradient : DenseArray α) :
    Kernel α (DenseArray α) := do
  if input.dims ≠ output.dims ∨ input.dims ≠ gradient.dims then
    .error (.normalizationShapes input.dims output.dims gradient.dims)
  else
    let (_, _, _, channels) ← imageDims .normalizationInput input.dims
    let scale : DenseArray α := responseScale p channels input
    let ratio : DenseArray α := .ofFn input.dims fun (i : Nat) =>
      gradient.get i * output.get i / scale.get i
    .ok (.ofFn input.dims fun (i : Nat) =>
      gradient.get i * Scalar.pow (scale.get i) (-p.beta)
        - ((2 : Nat) : α) * p.share * p.beta * input.get i
          * windowSum p channels (i / channels * channels) (i % channels) ratio.get)

end Kernel
end NeuralGraph
