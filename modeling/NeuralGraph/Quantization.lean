import NeuralGraph.Tensor

/-!
# Quantization

A stored integer `q` stands for `scale * (q - offset)`.  Kernels see only such numbers: operands are
turned into numbers before, results are rounded to stored integers after.
-/

namespace NeuralGraph
set_option autoImplicit false
variable {α : Type} [Scalar α]

namespace TensorType

/-- The number that a stored element stands for. -/
def decode (t : TensorType α) (stored : α) : α :=
  if t.isQuantized then t.scale * (stored - (t.offset : α)) else stored

/-- The stored integer nearest to a number, between -128 and 127. -/
def quantize (t : TensorType α) (value : α) : α :=
  Scalar.clamp ((-128 : Int) : α) ((127 : Int) : α)
    (Scalar.round (value / t.scale + (t.offset : α)))

/-- The element that is stored for a number. -/
def encode (t : TensorType α) (value : α) : α := if t.isQuantized then t.quantize value else value

end TensorType

/-- The numbers that the elements of a tensor stand for. -/
def Tensor.decoded (t : Tensor α) : PlacedArray α := ⟨t.array.map t.type.decode, t.layout⟩

/-- Numbers as the elements of a type. -/
def TensorType.encodeAll (t : TensorType α) (a : DenseArray α) : DenseArray α := a.map t.encode

/-- The tensor that stores numbers, which stay where they lie. -/
def Tensor.encoded (type : TensorType α) (a : PlacedArray α) (h : a.dims = type.dims) : Tensor α :=
  ⟨type, type.encodeAll a.array, a.layout, h⟩

@[simp] theorem Tensor.decoded_dims (t : Tensor α) : t.decoded.dims = t.type.dims := t.fits

@[simp] theorem Tensor.encoded_type (type : TensorType α) (a : PlacedArray α)
    (h : a.dims = type.dims) : (Tensor.encoded type a h).type = type := rfl

@[simp] theorem TensorType.encodeAll_dims (t : TensorType α) (a : DenseArray α) :
    (t.encodeAll a).dims = a.dims := rfl

end NeuralGraph
