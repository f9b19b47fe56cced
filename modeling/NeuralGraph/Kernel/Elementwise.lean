import NeuralGraph.Kernel.Fault

/-!
# Elementwise kernels

One scalar function applied at every position.  Arrays that are combined must have equal dimensions.
-/

namespace NeuralGraph
set_option autoImplicit false

/-- Activations. -/
inductive UnaryOp where
  | relu
  | sigmoid
  | tanh
  deriving DecidableEq, Repr

/-- Arithmetic on two operands. -/
inductive BinaryOp where
  | add
  | sub
  | mul
  | div
  | max
  | min
  deriving DecidableEq, Repr

variable {α : Type} [Scalar α]

def UnaryOp.apply : UnaryOp → α → α
  | .relu, x => Scalar.max x 0
  | .sigmoid, x => 1 / (1 + Scalar.exp (-x))
  | .tanh, x => Scalar.tanh x

def BinaryOp.apply : BinaryOp → α → α → α
  | .add, x, y => x + y
  | .sub, x, y => x - y
  | .mul, x, y => x * y
  | .div, x, y => x / y
  | .max, x, y => Scalar.max x y
  | .min, x, y => Scalar.min x y

namespace Kernel

/-- The values of `f` at every position of two arrays with equal dimensions. -/
def zipWith (f : α → α → α) (a b : DenseArray α) : Kernel α (DenseArray α) :=
  if a.dims = b.dims then .ok (.ofFn a.dims fun (i : Nat) => f (a.get i) (b.get i))
  else .error (.shapes a.dims b.dims)

def unary (op : UnaryOp) (a : DenseArray α) : DenseArray α := a.map op.apply

def binary (op : BinaryOp) (a b : DenseArray α) : Kernel α (DenseArray α) := zipWith op.apply a b

/-- Takes `lhs` where the condition differs from zero, `rhs` elsewhere. -/
def select (condition lhs rhs : DenseArray α) : Kernel α (DenseArray α) :=
  if condition.dims ≠ lhs.dims then .error (.shapes condition.dims lhs.dims)
  else if lhs.dims ≠ rhs.dims then .error (.shapes lhs.dims rhs.dims)
  else .ok (.ofFn condition.dims fun (i : Nat) =>
    if condition.get i == 0 then rhs.get i else lhs.get i)

/-- The gradient passes where the output of the activation is positive. -/
def reluGradient (output gradient : DenseArray α) : Kernel α (DenseArray α) :=
  zipWith (fun (y g : α) => if Scalar.lt 0 y then g else 0) output gradient

theorem zipWith_dims {f : α → α → α} {a b c : DenseArray α} (h : zipWith f a b = .ok c) :
    c.dims = a.dims := by
  simp only [zipWith] at h
  split at h
  · cases h
    rfl
  · cases h

end Kernel
end NeuralGraph
