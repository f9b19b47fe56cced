import NeuralGraph.Proofs.Integers

/-!
# Exact sums

Over a commutative ring it does not matter in which order a kernel adds: every sum is the sum of its
terms.
-/

namespace NeuralGraph
set_option autoImplicit false

/-- Scalars whose arithmetic is that of a commutative ring. -/
class RingScalar (α : Type) extends CommRing α, Scalar α

instance : RingScalar Int := { (inferInstance : CommRing Int), (inferInstance : Scalar Int) with }

variable {α : Type} [RingScalar α]

namespace Scalar

theorem sumFrom_eq (init : α) (n : Nat) (f : Nat → α) :
    sumFrom init n f = init + ∑ i ∈ Finset.range n, f i := by
  induction n with
  | zero => simp
  | succ n ih => rw [sumFrom_succ, ih, Finset.sum_range_succ, add_assoc]

end Scalar

theorem sum_blocks (n k : Nat) (f : Nat → α) :
    ∑ i ∈ Finset.range (n * k), f i =
      ∑ r ∈ Finset.range n, ∑ t ∈ Finset.range k, f (r * k + t) := by
  induction n with
  | zero => rw [Nat.zero_mul, Finset.sum_range_zero, Finset.sum_range_zero]
  | succ n ih => rw [Nat.add_mul, Nat.one_mul, Finset.sum_range_add, ih, Finset.sum_range_succ]

/-- A sum over consecutive blocks, cut off after `n` terms. -/
theorem sum_cut_blocks (size count n : Nat) (f : Nat → α) :
    ∑ b ∈ Finset.range count, ∑ i ∈ Finset.range (min size (n - size * b)), f (size * b + i) =
      ∑ i ∈ Finset.range (min n (size * count)), f i := by
  induction count with
  | zero => simp
  | succ c ih =>
    rw [Finset.sum_range_succ, ih, Nat.mul_succ]
    rcases Nat.le_total n (size * c) with h | h
    · rw [Nat.sub_eq_zero_of_le h, Nat.min_zero, Finset.sum_range_zero, add_zero, Nat.min_eq_left h,
        Nat.min_eq_left (Nat.le_trans h (Nat.le_add_right _ _))]
    · have cut : min n (size * c + size) = size * c + min size (n - size * c) := by omega
      rw [Nat.min_eq_right h, cut, Finset.sum_range_add]

namespace Scalar

theorem dot_eq (n : Nat) (f g : Nat → α) : dot n f g = ∑ i ∈ Finset.range n, f i * g i := by
  have blocks := sum_cut_blocks blockSize ((n + (blockSize - 1)) / blockSize) n
    fun (i : Nat) => f i * g i
  rw [Nat.min_eq_left (by unfold blockSize; omega)] at blocks
  simp only [dot, sumFrom_eq, zero_add]
  exact blocks

theorem unrolledSum_eq (n : Nat) (f : Nat → α) :
    unrolledSum n f = ∑ i ∈ Finset.range n, f i := by
  have groups : ∑ i ∈ Finset.range (n / 8 * 8), f i =
      ∑ t ∈ Finset.range 8, ∑ r ∈ Finset.range (n / 8), f (8 * r + t) := by
    rw [sum_blocks, Finset.sum_comm]
    simp only [Nat.mul_comm]
  have split : ∑ i ∈ Finset.range n, f i = ∑ i ∈ Finset.range (n / 8 * 8), f i +
      ∑ i ∈ Finset.range (n % 8), f (8 * (n / 8) + i) := by
    rw [Nat.mul_comm 8 (n / 8), ← Finset.sum_range_add]
    congr 2
    omega
  rw [split, groups]
  simp only [unrolledSum, sumFrom_eq, zero_add, Finset.sum_range_succ, Finset.sum_range_zero]
  ring

theorem sumIn_eq (order : SumOrder) (n : Nat) (f : Nat → α) :
    sumIn order n f = ∑ i ∈ Finset.range n, f i := by
  cases order with
  | sequential => rw [sumIn, sumFrom_eq, zero_add]
  | interleaved => rw [sumIn, unrolledSum_eq]

end Scalar
end NeuralGraph
