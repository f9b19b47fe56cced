import Mathlib
import NeuralGraph.Engine

/-!
# Integers as scalars

Small programs over the integers can be run inside proofs.  Operations that have no integer value are
zero.
-/

namespace NeuralGraph
set_option autoImplicit false

instance : Scalar Int where
  ofScientific mantissa isNegative exponent :=
    if isNegative then mantissa / 10 ^ exponent else mantissa * 10 ^ exponent
  lt a b := decide (a < b)
  exp _ := 0
  tanh _ := 0
  pow x y := x ^ y.toNat
  round x := x
  lowest := 0
  negInfinity := 0
  toNat? x := if 0 ≤ x then some x.toNat else none
  xavier _ _ := 0

end NeuralGraph
