import NeuralGraph.TensorType

/-!
# Dense arrays

An array of scalars with dimensions, stored in row-major order: the last coordinate varies fastest.
Elements are addressed by their position in that order; `offset?` and `coordinates` go between
positions and coordinates.
-/

namespace NeuralGraph
set_option autoImplicit false

/-- A dense array: as many elements as its dimensions call for. -/
structure DenseArray (α : Type) where
  dims : List Nat
  data : Array α
  size_eq : data.size = volume dims

namespace DenseArray
variable {α : Type}

/-- The array whose element at position `i` is `f i`. -/
def ofFn (dims : List Nat) (f : Nat → α) : DenseArray α where
  dims := dims
  data := Array.ofFn fun (i : Fin (volume dims)) => f i
  size_eq := Array.size_ofFn

/-- The array of these elements in row-major order, if their number fits. -/
def ofData? (dims : List Nat) (data : Array α) : Option (DenseArray α) :=
  if h : data.size = volume dims then some ⟨dims, data, h⟩ else none

/-- The array with one value everywhere. -/
def fill (dims : List Nat) (value : α) : DenseArray α := ofFn dims fun _ => value

/-- The array of zeros. -/
def zeros [Zero α] (dims : List Nat) : DenseArray α := fill dims 0

def size (a : DenseArray α) : Nat := a.data.size

def rank (a : DenseArray α) : Nat := a.dims.length

/-- The leading dimension, 0 for a scalar. -/
def rows (a : DenseArray α) : Nat := a.dims.headD 0

/-- The number of elements of one row along the leading dimension. -/
def rowSize (a : DenseArray α) : Nat := volume a.dims.tail

/-- The element at position `i`, zero past the end. -/
def get [Zero α] (a : DenseArray α) (i : Nat) : α := a.data.getD i 0

/-- The array with `f` applied to every element. -/
def map {β : Type} (f : α → β) (a : DenseArray α) : DenseArray β where
  dims := a.dims
  data := a.data.map f
  size_eq := by rw [Array.size_map, a.size_eq]

/-- The same elements under other dimensions of the same volume. -/
def withDims (a : DenseArray α) (dims : List Nat) (h : volume a.dims = volume dims) :
    DenseArray α where
  dims := dims
  data := a.data
  size_eq := by rw [a.size_eq, h]

/-- The same elements under other dimensions, if the volumes agree. -/
def reshape? (a : DenseArray α) (dims : List Nat) : Option (DenseArray α) :=
  if h : volume a.dims = volume dims then some (a.withDims dims h) else none

/-- The array with the element at position `i` replaced; nothing happens past the end. -/
def set (a : DenseArray α) (i : Nat) (value : α) : DenseArray α where
  dims := a.dims
  data := a.data.setIfInBounds i value
  size_eq := by rw [Array.size_setIfInBounds, a.size_eq]

/-- The array with `value` added to the element at position `i`. -/
def addAt [Scalar α] (a : DenseArray α) (i : Nat) (value : α) : DenseArray α :=
  a.set i (a.get i + value)

/-- Equal dimensions and equal elements, in the comparison of scalars. -/
def sameAs [BEq α] (a b : DenseArray α) : Bool :=
  a.dims == b.dims && (a.data.toList.zip b.data.toList).all fun (p : α × α) => p.1 == p.2

@[simp] theorem ofFn_dims (dims : List Nat) (f : Nat → α) : (ofFn dims f).dims = dims := rfl

@[simp] theorem fill_dims (dims : List Nat) (value : α) : (fill dims value).dims = dims := rfl

@[simp] theorem zeros_dims [Zero α] (dims : List Nat) :
    (zeros dims : DenseArray α).dims = dims := rfl

@[simp] theorem map_dims {β : Type} (f : α → β) (a : DenseArray α) : (a.map f).dims = a.dims := rfl

@[simp] theorem withDims_dims (a : DenseArray α) (dims : List Nat)
    (h : volume a.dims = volume dims) : (a.withDims dims h).dims = dims := rfl

@[simp] theorem set_dims (a : DenseArray α) (i : Nat) (value : α) :
    (a.set i value).dims = a.dims := rfl

@[simp] theorem addAt_dims [Scalar α] (a : DenseArray α) (i : Nat) (value : α) :
    (a.addAt i value).dims = a.dims := rfl

theorem get_ofFn [Zero α] (dims : List Nat) (f : Nat → α) {i : Nat} (h : i < volume dims) :
    (ofFn dims f).get i = f i := by
  simp [get, ofFn, Array.getD, h]

theorem get_fill [Zero α] (dims : List Nat) (value : α) {i : Nat} (h : i < volume dims) :
    (fill dims value).get i = value := get_ofFn dims _ h

theorem get_map [Zero α] (f : α → α) (a : DenseArray α) {i : Nat} (h : i < volume a.dims) :
    (a.map f).get i = f (a.get i) := by
  have hd : i < a.data.size := by rw [a.size_eq]; exact h
  simp [get, map, Array.getD, hd]

@[simp] theorem get_withDims [Zero α] (a : DenseArray α) (dims : List Nat)
    (h : volume a.dims = volume dims) (i : Nat) : (a.withDims dims h).get i = a.get i := rfl

/-- Two arrays with the same dimensions and the same elements are equal. -/
theorem ext_get [Zero α] {a b : DenseArray α} (hd : a.dims = b.dims)
    (h : ∀ i, i < volume a.dims → a.get i = b.get i) : a = b := by
  cases a with
  | mk da xa ha =>
    cases b with
    | mk db xb hb =>
      simp only at hd
      subst hd
      have hx : xa = xb := by
        apply Array.ext
        · rw [ha, hb]
        · intro i h1 h2
          have hi := h i (by rw [← ha]; exact h1)
          simpa [get, Array.getD, h1, h2] using hi
      subst hx
      rfl

/-! ## Coordinates -/

/-- How far apart neighbours along each dimension are. -/
def strides : List Nat → List Nat
  | [] => []
  | _ :: dims => volume dims :: strides dims

/-- The position with these coordinates when neighbours along the dimensions are `steps` apart. -/
def position : List Nat → List Nat → Nat
  | c :: coords, step :: steps => c * step + position coords steps
  | _, _ => 0

/-- The position of these coordinates, if there are as many as dimensions and each is in range. -/
def offset? : List Nat → List Nat → Option Nat
  | [], [] => some 0
  | d :: dims, c :: coords =>
    if c < d then (offset? dims coords).map fun (rest : Nat) => c * volume dims + rest else none
  | _, _ => none

/-- The coordinates of a position. -/
def coordinates : List Nat → Nat → List Nat
  | [], _ => []
  | _ :: dims, i => i / volume dims :: coordinates dims (i % volume dims)

/-- The element at these coordinates. -/
def at? (a : DenseArray α) (coords : List Nat) : Option α :=
  (offset? a.dims coords).bind fun (i : Nat) => a.data[i]?

end DenseArray
end NeuralGraph
