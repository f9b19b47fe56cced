import NeuralGraph.Kernel.Sliding
import NeuralGraph.Kernel.Product

/-!
# Convolution

Every window position becomes a row of a patch matrix, one column per filter element, with zeros for
the padding; the convolution is the product of that matrix with the filters.  The gradients run
over the same taps: the one for the input adds the patch matrix back into the image, the one for the
filter multiplies by the patch matrix.
-/

namespace NeuralGraph
set_option autoImplicit false

/-- One element of the patch matrix that lies inside the image. -/
structure PatchTap where
  row : Nat
  column : Nat
  offset : Nat
  deriving DecidableEq, Repr

namespace Sliding

/-- The number of window positions in the whole batch. -/
def patches (s : Sliding) : Nat := s.batch * s.outHeight * s.outWidth

/-- The number of elements under one window. -/
def patchSize (s : Sliding) : Nat := s.window.kernel * s.window.kernel * s.channels

/-- The taps under one window row. -/
def patchRow (s : Sliding) (b oy ox ky y : Nat) : List PatchTap :=
  (List.range s.window.kernel).flatMap fun (kx : Nat) =>
    (s.column? ox kx).toList.flatMap fun (x : Nat) =>
      (List.range s.channels).map fun (c : Nat) =>
        { row := (b * s.outHeight + oy) * s.outWidth + ox
          column := (ky * s.window.kernel + kx) * s.channels + c
          offset := s.inputOffset b y x c }

/-- The taps of one window position. -/
def patch (s : Sliding) (b oy ox : Nat) : List PatchTap :=
  (List.range s.window.kernel).flatMap fun (ky : Nat) =>
    (s.row? oy ky).toList.flatMap fun (y : Nat) => s.patchRow b oy ox ky y

/-- The taps of all window positions. -/
def patchTaps (s : Sliding) : List PatchTap :=
  (List.range s.batch).flatMap fun (b : Nat) =>
    (List.range s.outHeight).flatMap fun (oy : Nat) =>
      (List.range s.outWidth).flatMap fun (ox : Nat) => s.patch b oy ox

end Sliding

namespace Kernel
variable {α : Type} [Scalar α]

/-- The number of filters and the geometry of a convolution. -/
def convolutionGeometry (input filter : List Nat) (window : Window) :
    Kernel α (Nat × Sliding) := do
  let (batch, height, width, channels) ← imageDims .convolutionInput input
  let (depth, rows, columns, filterChannels) ← imageDims .convolutionFilter filter
  if rows ≠ window.kernel ∨ columns ≠ window.kernel ∨ filterChannels ≠ channels then
    .error (.filter filter input window)
  else
    match Sliding.over? batch height width channels window with
    | some s => .ok (depth, s)
    | none => .error (.window window input)

/-- The image as a patch matrix. -/
def patchMatrix (s : Sliding) (image : DenseArray α) : DenseArray α :=
  s.patchTaps.foldl
    (fun (m : DenseArray α) (t : PatchTap) =>
      m.set (t.row * s.patchSize + t.column) (image.get t.offset))
    (.zeros [s.patches, s.patchSize])

/-- A patch matrix added back into an image. -/
def addPatches (s : Sliding) (patches : DenseArray α) : DenseArray α :=
  s.patchTaps.foldl
    (fun (m : DenseArray α) (t : PatchTap) =>
      m.addAt t.offset (patches.get (t.row * s.patchSize + t.column)))
    (.zeros s.inputDims)

/-- There must be an array that can hold the patch matrix. -/
def checkPatches (s : Sliding) : Kernel α Unit :=
  if addressable [s.patches, s.patchSize] then .ok () else .error (.unaddressable .patchMatrix)

/-- The gradient of the output must have one pixel per window position and one channel per
filter. -/
def checkConvolutionGradient (s : Sliding) (depth : Nat) (gradient : DenseArray α) :
    Kernel α Unit :=
  if gradient.dims = s.outputDims depth then .ok ()
  else .error (.convolutionGradient gradient.dims (s.outputDims depth))

/-- Whether the product of patches and filters is stored by columns, which happens when both factors
are single columns and the product is not. -/
def storedByColumns (s : Sliding) (depth : Nat) : Bool :=
  s.patchSize == 1 && Nat.blt 1 depth && Nat.blt 1 s.patches

/-- The image as seen through each filter, plus the bias of the filter. -/
def convolution (input filter bias : DenseArray α) (window : Window) : Kernel α (DenseArray α) := do
  let (depth, s) ← convolutionGeometry input.dims filter.dims window
  if bias.size ≠ depth then .error (.bias bias.dims depth)
  else if storedByColumns s depth then .error .columnMajor
  else do
    checkPatches s
    let patches : DenseArray α := patchMatrix s input
    let k : Nat := s.patchSize
    .ok (.ofFn (s.outputDims depth) fun (i : Nat) =>
      Scalar.dot k (fun (t : Nat) => patches.get (i / depth * k + t))
        (fun (t : Nat) => filter.get (i % depth * k + t)) + bias.get (i % depth))

/-- The gradient for the image: gradient times filters, added back patch by patch. -/
def convolutionInputGradient (inputDims : List Nat) (filter gradient : DenseArray α)
    (window : Window) : Kernel α (DenseArray α) := do
  let (depth, s) ← convolutionGeometry inputDims filter.dims window
  checkConvolutionGradient s depth gradient
  .ok (addPatches s (product s.patches depth s.patchSize gradient filter))

/-- The gradient for the filters: transposed gradient times patches. -/
def convolutionFilterGradient (input : DenseArray α) (filterDims : List Nat)
    (gradient : DenseArray α) (window : Window) : Kernel α (DenseArray α) := do
  let (depth, s) ← convolutionGeometry input.dims filterDims window
  checkConvolutionGradient s depth gradient
  checkPatches s
  let patches : DenseArray α := patchMatrix s input
  let k : Nat := s.patchSize
  .ok (.ofFn filterDims fun (i : Nat) =>
    Scalar.dot s.patches (fun (p : Nat) => gradient.get (p * depth + i / k))
      fun (p : Nat) => patches.get (p * k + i % k))

end Kernel
end NeuralGraph
