import NeuralGraph.Proofs.Exact.Sums

/-!
# Fields as scalars

Kernels that divide are read over a field.  Of the rational numbers, operations that have no rational
value are zero.
-/

namespace NeuralGraph
set_option autoImplicit false

/-- Scalars whose arithmetic is that of a field. -/
class FieldScalar (α : Type) extends RingScalar α, Field α

instance : Scalar ℚ where
  lt a b := decide (a < b)
  exp _ := 0
  tanh _ := 0
  pow x y := if y.den = 1 then x ^ y.num else 0
  round x := if x < 0 then -⌊-x + 1 / 2⌋ else ⌊x + 1 / 2⌋
  lowest := 0
  negInfinity := 0
  toNat? x := if x.den = 1 ∧ 0 ≤ x.num then some x.num.toNat else none
  xavier _ _ := 0

instance : FieldScalar ℚ := { (inferInstance : Field ℚ), (inferInstance : Scalar ℚ) with }

end NeuralGraph
