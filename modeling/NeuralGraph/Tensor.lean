import NeuralGraph.Layout

/-!
# Tensors

A type together with an array of its dimensions and where that array lies.  Quantized and position
elements are integral scalars.  Tensors are made from elements, overwritten by a tensor of an equal
type, or overwritten row by row from a tensor with rows of the same kind; what is overwritten stays
where it lies.
-/

namespace NeuralGraph
set_option autoImplicit false

structure Tensor (α : Type) where
  type : TensorType α
  array : DenseArray α
  layout : Layout
  fits : array.dims = type.dims

/-- Why a tensor cannot be made or overwritten. -/
inductive TensorFault (α : Type) where
  | elementCount (type : TensorType α) (got : Nat)
  /-- No array has these dimensions. -/
  | unaddressable
  | arrayShape (shape : List Nat) (type : TensorType α)
  | copy (source target : TensorType α)
  | rows (source target : TensorType α)
  | emptySource

namespace TensorType
variable {α : Type} [Scalar α]

/-- Whether rows of `source` can be written into `target`: neither is a scalar, and they agree on
everything but the leading dimension. -/
def acceptsRows (target source : TensorType α) : Bool :=
  !target.dims.isEmpty && source.rank == target.rank && source.dims.tail == target.dims.tail
    && source.sameElements target

end TensorType

namespace Tensor
variable {α : Type}

/-- The tensor whose element at position `i` is `f i`. -/
def ofFn (type : TensorType α) (f : Nat → α) : Tensor α :=
  ⟨type, .ofFn type.dims f, .rowMajor type.dims, rfl⟩

def full (type : TensorType α) (value : α) : Tensor α := ofFn type fun _ => value

/-- The tensor with the elements `f i` instead. -/
def refillWith (t : Tensor α) (f : Nat → α) : Tensor α :=
  ⟨t.type, .ofFn t.type.dims f, t.layout, rfl⟩

/-- The tensor with `value` everywhere. -/
def refill (t : Tensor α) (value : α) : Tensor α := t.refillWith fun _ => value

@[simp] theorem full_type (type : TensorType α) (value : α) : (full type value).type = type := rfl

@[simp] theorem refillWith_type (t : Tensor α) (f : Nat → α) : (t.refillWith f).type = t.type := rfl

@[simp] theorem refill_type (t : Tensor α) (value : α) : (t.refill value).type = t.type := rfl

variable [Scalar α]

def zeros (type : TensorType α) : Tensor α := full type 0

/-- The tensor of these elements in row-major order. -/
def ofData (type : TensorType α) (data : Array α) : Except (TensorFault α) (Tensor α) :=
  if h : data.size = volume type.dims then
    if addressable type.dims then .ok ⟨type, ⟨type.dims, data, h⟩, .rowMajor type.dims, rfl⟩
    else .error .unaddressable
  else .error (.elementCount type data.size)

/-- The position tensor of these natural numbers. -/
def ofIndices (dims : List Nat) (values : Array Nat) : Except (TensorFault α) (Tensor α) :=
  ofData (.index dims) (values.map fun (n : Nat) => (n : α))

/-- The array as a tensor of a type with its dimensions. -/
def ofArray (type : TensorType α) (array : DenseArray α) : Except (TensorFault α) (Tensor α) :=
  if h : array.dims = type.dims then .ok ⟨type, array, .rowMajor type.dims, h⟩
  else .error (.arrayShape array.dims type)

def data (t : Tensor α) : Array α := t.array.data

def dims (t : Tensor α) : List Nat := t.type.dims

/-- The elements of `source` under the type of `t`. -/
def assign (t source : Tensor α) : Except (TensorFault α) (Tensor α) :=
  if h : (t.type == source.type) = true then
    .ok ⟨t.type, source.array, t.layout, source.fits.trans (TensorType.dims_eq_of_beq h).symm⟩
  else .error (.copy source.type t.type)

/-- Row `r` becomes row `start + r` of `source`, counted around its end. -/
def assignRows (t source : Tensor α) (start : Nat) : Except (TensorFault α) (Tensor α) :=
  if !t.type.acceptsRows source.type then .error (.rows source.type t.type)
  else if source.type.rows = 0 then .error .emptySource
  else
    let row : Nat := t.type.rowSize
    .ok (t.refillWith fun (i : Nat) =>
      source.array.get ((start + i / row) % source.type.rows * row + i % row))

/-- The element at these coordinates. -/
def at? (t : Tensor α) (coords : List Nat) : Option α := t.array.at? coords

/-- The tensor with the element at these coordinates replaced, if they are in range. -/
def set? (t : Tensor α) (coords : List Nat) (value : α) : Option (Tensor α) :=
  (DenseArray.offset? t.array.dims coords).map fun (i : Nat) =>
    ⟨t.type, t.array.set i value, t.layout, t.fits⟩

/-- Equal types and equal elements. -/
instance : BEq (Tensor α) where
  beq s t := s.type == t.type && s.array.sameAs t.array

@[simp] theorem zeros_type (type : TensorType α) : (zeros type).type = type := rfl

theorem assign_type {t source u : Tensor α} (h : t.assign source = .ok u) :
    u.type = t.type := by
  simp only [assign] at h
  split at h
  · cases h
    rfl
  · cases h

theorem assignRows_type {t source u : Tensor α} {start : Nat}
    (h : t.assignRows source start = .ok u) : u.type = t.type := by
  simp only [assignRows] at h
  split at h
  · cases h
  · split at h
    · cases h
    · cases h
      rfl

end Tensor

/-! ## Text -/

/-- What a tensor fault says. -/
def TensorFault.message : TensorFault Float32 → String
  | .elementCount type got =>
    s!"tensor of type {type.text} needs {type.size} elements, got {got}"
  | .unaddressable => s!"failed to build tensor: {overflowText}"
  | .arrayShape shape type => s!"array of shape {listText shape} does not fit type {type.text}"
  | .copy source target =>
    s!"cannot copy tensor of type {source.text} into tensor of type {target.text}"
  | .rows source target => s!"cannot slice rows of {source.text} into {target.text}"
  | .emptySource => "cannot slice rows of an empty tensor"

end NeuralGraph
