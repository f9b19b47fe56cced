import NeuralGraph.Kernel.Sliding

/-!
# Pooling

Each channel of each window position becomes one output element: the largest element under the
window, or the sum of the elements divided by the area of the window, padding included.
The gradient of the largest goes to the first place that holds it; the gradient of the mean is
spread evenly.
-/

namespace NeuralGraph
set_option autoImplicit false

inductive Pooling where
  | max
  | average
  deriving DecidableEq, Repr

/-- An output element of a pooling: batch, row, column, channel. -/
structure PoolSite where
  batch : Nat
  row : Nat
  column : Nat
  channel : Nat
  deriving DecidableEq, Repr

namespace Sliding

/-- The image elements under the window of an output element, padding left out. -/
def taps (s : Sliding) (site : PoolSite) : List Nat :=
  (List.range (s.window.kernel * s.window.kernel)).filterMap fun (tap : Nat) => do
    let y ← s.row? site.row (tap / s.window.kernel)
    let x ← s.column? site.column (tap % s.window.kernel)
    some (s.inputOffset site.batch y x site.channel)

/-- The output element at a position of the pooled image. -/
def site (s : Sliding) (i : Nat) : PoolSite where
  batch := i / s.channels / s.outWidth / s.outHeight
  row := i / s.channels / s.outWidth % s.outHeight
  column := i / s.channels % s.outWidth
  channel := i % s.channels

/-- The number of elements under a window, padding included. -/
def area (s : Sliding) : Nat := s.window.kernel * s.window.kernel

/-- The dimensions of the pooled image. -/
def pooledDims (s : Sliding) : List Nat := s.outputDims s.channels

end Sliding

namespace Kernel
variable {α : Type} [Scalar α]

def poolingGeometry (input : List Nat) (window : Window) : Kernel α Sliding := do
  let (batch, height, width, channels) ← imageDims .poolingInput input
  match Sliding.over? batch height width channels window with
  | some s => .ok s
  | none => .error (.window window input)

/-- The largest of the scalars, the least finite scalar if none is larger. -/
def largest (xs : List α) : α :=
  xs.foldl (fun (best x : α) => if Scalar.lt best x then x else best) Scalar.lowest

/-- The sum of the scalars over `area`. -/
def mean (area : Nat) (xs : List α) : α :=
  xs.foldl (fun (acc x : α) => acc + x) 0 / (area : α)

def pool (op : Pooling) (input : DenseArray α) (window : Window) : Kernel α (DenseArray α) := do
  let s ← poolingGeometry input.dims window
  .ok (.ofFn s.pooledDims fun (i : Nat) =>
    let covered : List α := (s.taps (s.site i)).map input.get
    match op with
    | .max => largest covered
    | .average => mean s.area covered)

/-- The gradient of the output must have the dimensions of the pooled image. -/
def checkPoolingGradient (s : Sliding) (gradient : DenseArray α) : Kernel α Unit :=
  if gradient.dims = s.pooledDims then .ok ()
  else .error (.poolingGradient gradient.dims s.pooledDims)

/-- The first of the positions that holds the largest element. -/
def firstLargest (a : DenseArray α) (positions : List Nat) : Option Nat :=
  positions.foldl
    (fun (best : Option Nat) (i : Nat) =>
      match best with
      | none => some i
      | some j => if Scalar.lt (a.get j) (a.get i) then some i else some j)
    none

/-- Each gradient goes to the first largest element under its window. -/
def maxPoolGradient (input gradient : DenseArray α) (window : Window) :
    Kernel α (DenseArray α) := do
  let s ← poolingGeometry input.dims window
  checkPoolingGradient s gradient
  .ok ((List.range (volume s.pooledDims)).foldl
    (fun (image : DenseArray α) (i : Nat) =>
      match firstLargest input (s.taps (s.site i)) with
      | some j => image.addAt j (gradient.get i)
      | none => image)
    (.zeros input.dims))

/-- Each gradient is spread over the area of its window. -/
def averagePoolGradient (inputDims : List Nat) (gradient : DenseArray α) (window : Window) :
    Kernel α (DenseArray α) := do
  let s ← poolingGeometry inputDims window
  checkPoolingGradient s gradient
  let share : α := 1 / (s.area : α)
  .ok ((List.range (volume s.pooledDims)).foldl
    (fun (image : DenseArray α) (i : Nat) =>
      (s.taps (s.site i)).foldl
        (fun (image : DenseArray α) (j : Nat) => image.addAt j (gradient.get i * share)) image)
    (.zeros inputDims))

end Kernel
end NeuralGraph
