import NeuralGraph.Kernel.Fault

/-!
# Sliding windows

The geometry that pooling and convolution share: an image stored by batch, row, column and channel,
and a window with at least one position along each side.
-/

namespace NeuralGraph
set_option autoImplicit false

structure Sliding where
  batch : Nat
  height : Nat
  width : Nat
  channels : Nat
  outHeight : Nat
  outWidth : Nat
  window : Window
  deriving DecidableEq, Repr

namespace Sliding

/-- The geometry of a window over an image, if the window fits. -/
def over? (batch height width channels : Nat) (window : Window) : Option Sliding := do
  let outHeight ← window.positions? height
  let outWidth ← window.positions? width
  some ⟨batch, height, width, channels, outHeight, outWidth, window⟩

/-- The dimensions of the image. -/
def inputDims (s : Sliding) : List Nat := [s.batch, s.height, s.width, s.channels]

/-- The dimensions of an image with one pixel per window position. -/
def outputDims (s : Sliding) (depth : Nat) : List Nat := [s.batch, s.outHeight, s.outWidth, depth]

/-- The position of an image element. -/
def inputOffset (s : Sliding) (b y x c : Nat) : Nat :=
  ((b * s.height + y) * s.width + x) * s.channels + c

/-- The image row under row `ky` of the window at output row `oy`. -/
def row? (s : Sliding) (oy ky : Nat) : Option Nat :=
  s.window.pixel? s.height (oy * s.window.stride + ky)

/-- The image column under column `kx` of the window at output column `ox`. -/
def column? (s : Sliding) (ox kx : Nat) : Option Nat :=
  s.window.pixel? s.width (ox * s.window.stride + kx)

end Sliding

namespace Kernel
variable {α : Type}

/-- The dimensions of an array that has to be an image or a filter. -/
def imageDims (role : ImageRole) (dims : List Nat) :
    Kernel α (Nat × Nat × Nat × Nat) :=
  match dims with
  | [a, b, c, d] => .ok (a, b, c, d)
  | dims => .error (.notImage role dims)

end Kernel
end NeuralGraph
