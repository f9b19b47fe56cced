import NeuralGraph.DenseArray

/-!
# Layouts

Where the elements of an array lie in memory: one stride for each axis.  Arrays are addressed by
position whatever their layout, but a sum over neighbours in memory is interleaved and any other sum
goes from left to right, so the layout of an array decides how its sums are rounded.  Here are the
two standard layouts, the layouts of arrays that are computed from others, and the order of sums.
-/

namespace NeuralGraph
set_option autoImplicit false

/-- How far apart in memory neighbours along each axis lie. -/
structure Layout where
  strides : List Nat
  deriving DecidableEq, Repr

namespace Layout

/-- The last axis varies fastest.  Where there is no element there is no distance either. -/
def rowMajor (dims : List Nat) : Layout :=
  if dims.contains 0 then ⟨dims.map fun _ => 0⟩ else ⟨DenseArray.strides dims⟩

/-- The first axis varies fastest. -/
def columnMajor (dims : List Nat) : Layout := ⟨(rowMajor dims.reverse).strides.reverse⟩

/-- Whether the elements of an array of these dimensions follow each other in row-major order.  The
stride of an axis of length one is never used. -/
def isRowMajor (l : Layout) (dims : List Nat) : Bool :=
  dims.contains 0 ||
    (dims.zip (l.strides.zip (DenseArray.strides dims))).all fun (p : Nat × Nat × Nat) =>
      p.1 == 1 || p.2.1 == p.2.2

theorem isRowMajor_rowMajor (dims : List Nat) : (rowMajor dims).isRowMajor dims = true := by
  have diagonal : ∀ (ds steps : List Nat),
      (ds.zip (steps.zip steps)).all
        (fun (p : Nat × Nat × Nat) => p.1 == 1 || p.2.1 == p.2.2) = true := by
    intro ds steps
    induction ds generalizing steps with
    | nil => simp
    | cons d ds ih =>
      cases steps with
      | nil => simp
      | cons step steps => simp [ih steps]
  by_cases h : dims.contains 0 = true
  · rw [isRowMajor, h, Bool.true_or]
  · rw [isRowMajor, rowMajor, if_neg h, diagonal, Bool.or_true]

/-! ## Arrays computed from others -/

/-- A row-major array stays as it is, any other is rearranged. -/
def standardized (l : Layout) (dims : List Nat) : Layout :=
  if l.isRowMajor dims then l else rowMajor dims

/-- The axes in another order: axis `i` is axis `shuffle[i]` of the layout. -/
def permuted (l : Layout) (shuffle : List Nat) : Layout :=
  ⟨shuffle.map fun (axis : Nat) => l.strides.getD axis 0⟩

@[simp] theorem standardized_of_isRowMajor {l : Layout} {dims : List Nat}
    (h : l.isRowMajor dims = true) : l.standardized dims = l := by
  rw [standardized, if_pos h]

theorem isRowMajor_standardized (l : Layout) (dims : List Nat) :
    (l.standardized dims).isRowMajor dims = true := by
  rw [standardized]
  split
  · assumption
  · exact isRowMajor_rowMajor dims

/-- Arrays combined element by element: column-major if most of them are not row-major. -/
def combined (dims : List Nat) (operands : List Layout) : Layout :=
  if operands.length < 2 * operands.countP fun (l : Layout) => !l.isRowMajor dims then
    columnMajor dims
  else rowMajor dims

/-- Whether elements one row apart are neighbours. -/
def joinsRows (l : Layout) : Bool := l.strides.head? == some 1

/-- The product of two matrices: column-major if in both factors elements one row apart are
neighbours. -/
def product (dims : List Nat) (lhs rhs : Layout) : Layout :=
  if lhs.joinsRows && rhs.joinsRows then columnMajor dims else rowMajor dims

/-! ## The order of sums -/

/-- The order of a sum along the first axis, which is interleaved if no other stride is as small. -/
def firstAxisOrder (l : Layout) : SumOrder :=
  match l.strides with
  | [] => .sequential
  | step :: steps =>
    if steps.all fun (other : Nat) => Nat.blt step other then .interleaved else .sequential

/-- The order of a sum along the last axis, which is interleaved if it joins neighbours. -/
def lastAxisOrder (l : Layout) : SumOrder :=
  if l.strides.getLast? == some 1 then .interleaved else .sequential

end Layout

/-! ## Placed arrays -/

/-- An array together with where its elements lie. -/
structure PlacedArray (α : Type) where
  array : DenseArray α
  layout : Layout

namespace PlacedArray
variable {α : Type}

def dims (a : PlacedArray α) : List Nat := a.array.dims

/-- The array in row-major order. -/
def byRows (a : DenseArray α) : PlacedArray α := ⟨a, .rowMajor a.dims⟩

/-- The array with `f` applied to every element, in the same place. -/
def map {β : Type} (f : α → β) (a : PlacedArray α) : PlacedArray β := ⟨a.array.map f, a.layout⟩

@[simp] theorem byRows_dims (a : DenseArray α) : (byRows a).dims = a.dims := rfl

@[simp] theorem map_dims {β : Type} (f : α → β) (a : PlacedArray α) : (a.map f).dims = a.dims := rfl

end PlacedArray
end NeuralGraph
