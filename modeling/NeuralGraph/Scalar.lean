/-!
# Scalars

The numbers that tensors hold.  `Scalar` lists the operations the kernels use and asks for no law,
so that the same kernels run over binary32 and can be read over a ring or a field.
Derived here: the larger and the smaller of two scalars, clamping, and the three ways of summing
that the kernels use.
-/

namespace NeuralGraph
set_option autoImplicit false

/-- The order in which the terms of a sum are added. -/
inductive SumOrder where
  | sequential
  /-- With eight accumulators that take turns. -/
  | interleaved
  deriving DecidableEq, Repr

/-- The operations on tensor elements. -/
class Scalar (α : Type) extends Zero α, One α, Add α, Sub α, Mul α, Div α, Neg α, NatCast α,
    IntCast α, OfScientific α, BEq α where
  /-- Strict comparison. -/
  lt : α → α → Bool
  /-- The exponential. -/
  exp : α → α
  /-- The hyperbolic tangent. -/
  tanh : α → α
  /-- The power: `pow x y` is `x` to the power `y`. -/
  pow : α → α → α
  /-- The nearest integer, a half going away from zero. -/
  round : α → α
  /-- The least finite scalar. -/
  lowest : α
  /-- Below every other scalar. -/
  negInfinity : α
  /-- The natural number that a scalar is equal to, if there is one. -/
  toNat? : α → Option Nat
  /-- The uniform initial weight for a fan-in that one random word selects. -/
  xavier : Nat → UInt32 → α

namespace Scalar
variable {α : Type} [Scalar α]

/-- The larger of two scalars; one that differs from itself loses. -/
def max (a b : α) : α := if lt a b then b else if a == a then a else b

/-- The smaller of two scalars; one that differs from itself loses. -/
def min (a b : α) : α := if lt b a then b else if a == a then a else b

/-- Moves `x` into the interval from `lo` to `hi`; a scalar that compares with nothing stays. -/
def clamp (lo hi x : α) : α := if lt x lo then lo else if lt hi x then hi else x

/-! ## Sums -/

/-- The sum `init + f 0 + … + f (n - 1)`, from left to right. -/
def sumFrom (init : α) (n : Nat) (f : Nat → α) : α :=
  (List.range n).foldl (fun (acc : α) (i : Nat) => acc + f i) init

@[simp] theorem sumFrom_zero (init : α) (f : Nat → α) : sumFrom init 0 f = init := rfl

theorem sumFrom_succ (init : α) (n : Nat) (f : Nat → α) :
    sumFrom init (n + 1) f = sumFrom init n f + f n := by
  simp [sumFrom, List.range_succ]

/-- How many products are accumulated before the running total is set aside. -/
def blockSize : Nat := 256

/-- The inner product of `f` and `g` over `0 … n - 1`: blocks of `blockSize` products are summed
each on its own, then the block sums in order. -/
def dot (n : Nat) (f g : Nat → α) : α :=
  sumFrom 0 ((n + (blockSize - 1)) / blockSize) fun (b : Nat) =>
    sumFrom 0 (Nat.min blockSize (n - blockSize * b)) fun (i : Nat) =>
      f (blockSize * b + i) * g (blockSize * b + i)

/-- The sum of `f 0 … f (n - 1)` with eight interleaved accumulators over the complete groups of
eight, paired at the end, and the remaining elements in order. -/
def unrolledSum (n : Nat) (f : Nat → α) : α :=
  let lane : Nat → α := fun (j : Nat) => sumFrom 0 (n / 8) fun (i : Nat) => f (8 * i + j)
  let total : α := sumFrom 0 4 fun (j : Nat) => lane j + lane (j + 4)
  sumFrom total (n % 8) fun (i : Nat) => f (8 * (n / 8) + i)

/-- The sum of `f 0 … f (n - 1)` in the given order. -/
def sumIn (order : SumOrder) (n : Nat) (f : Nat → α) : α :=
  match order with
  | .sequential => sumFrom 0 n f
  | .interleaved => unrolledSum n f

end Scalar
end NeuralGraph
