import NeuralGraph.Scalar
import NeuralGraph.Binary32.Text

/-!
# Tensor types

The kind of the elements, the dimensions, and for quantized elements the scale and offset that turn
a stored integer `q` into the number `scale * (q - offset)`.
-/

namespace NeuralGraph
set_option autoImplicit false

/-- What the elements of a tensor stand for. -/
inductive ElementKind where
  /-- Numbers. -/
  | float
  /-- Signed 8-bit integers with a scale and an offset. -/
  | quantized
  /-- Positions: labels and row numbers. -/
  | index
  deriving DecidableEq, Repr

/-- The number of elements of an array with these dimensions. -/
def volume (dims : List Nat) : Nat := dims.foldr (· * ·) 1

/-- Whether an array can have these dimensions: those that are not zero must multiply to less than
`2 ^ 63`, even if there is no element. -/
def addressable (dims : List Nat) : Bool :=
  Nat.blt (volume (dims.filter fun (d : Nat) => d != 0)) (Nat.pow 2 63)

@[simp] theorem volume_nil : volume [] = 1 := rfl

@[simp] theorem volume_cons (d : Nat) (dims : List Nat) :
    volume (d :: dims) = d * volume dims := rfl

theorem volume_append (xs ys : List Nat) : volume (xs ++ ys) = volume xs * volume ys := by
  induction xs with
  | nil => simp
  | cons d xs ih => simp [ih, Nat.mul_assoc]

/-- The type of a value: element kind, dimensions and quantization. -/
structure TensorType (α : Type) where
  element : ElementKind
  dims : List Nat
  scale : α
  offset : Int

namespace TensorType
variable {α : Type}

/-- A type without quantization. -/
def plain [Scalar α] (element : ElementKind) (dims : List Nat) : TensorType α :=
  ⟨element, dims, 1, 0⟩

/-- The type of number tensors. -/
def float [Scalar α] (dims : List Nat) : TensorType α := plain .float dims

/-- The type of position tensors. -/
def index [Scalar α] (dims : List Nat) : TensorType α := plain .index dims

/-- The same elements in other dimensions. -/
def withDims (t : TensorType α) (dims : List Nat) : TensorType α := { t with dims := dims }

def rank (t : TensorType α) : Nat := t.dims.length

/-- The number of elements. -/
def size (t : TensorType α) : Nat := volume t.dims

/-- The leading dimension, 0 for a scalar. -/
def rows (t : TensorType α) : Nat := t.dims.headD 0

/-- The number of elements of one row along the leading dimension. -/
def rowSize (t : TensorType α) : Nat := volume t.dims.tail

def isQuantized (t : TensorType α) : Bool := t.element == .quantized

/-- Whether the elements mean the same: kind, scale and offset agree. -/
def sameElements [Scalar α] (s t : TensorType α) : Bool :=
  s.element == t.element && s.scale == t.scale && s.offset == t.offset

/-- Types are compared with the comparison of scalars, so a type whose scale differs from itself
differs from itself. -/
instance [Scalar α] : BEq (TensorType α) where
  beq s t := s.dims == t.dims && s.sameElements t

@[simp] theorem withDims_dims (t : TensorType α) (dims : List Nat) :
    (t.withDims dims).dims = dims := rfl

@[simp] theorem float_dims [Scalar α] (dims : List Nat) :
    (float dims : TensorType α).dims = dims := rfl

@[simp] theorem index_dims [Scalar α] (dims : List Nat) :
    (index dims : TensorType α).dims = dims := rfl

theorem dims_eq_of_beq [Scalar α] {s t : TensorType α} (h : (s == t) = true) :
    s.dims = t.dims := by
  have h' : (s.dims == t.dims && s.sameElements t) = true := h
  simp only [Bool.and_eq_true, beq_iff_eq] at h'
  exact h'.1

end TensorType

/-! ## Text -/

/-- The name of an element kind. -/
def ElementKind.text : ElementKind → String
  | .float => "float"
  | .quantized => "i8q"
  | .index => "index"

/-- Numbers in brackets, separated by commas. -/
def listText (xs : List Nat) : String := "[" ++ ", ".intercalate (xs.map toString) ++ "]"

/-- How dimensions that no array has are reported. -/
def overflowText : String := "ShapeError/Overflow: arithmetic overflow"

/-- The kind, then the dimensions in angle brackets, and the quantization if there is one. -/
def TensorType.text (t : TensorType Float32) : String :=
  let quantization : String :=
    if t.isQuantized then s!"; scale={Binary32.text t.scale}, offset={t.offset}" else ""
  t.element.text ++ "<" ++ " x ".intercalate (t.dims.map toString) ++ quantization ++ ">"

end NeuralGraph
