import NeuralGraph.Scalar
import NeuralGraph.Binary32.Magnitude

/-!
# Binary32 as scalars

Arithmetic rounds once per operation, to nearest.
-/

namespace NeuralGraph.Binary32
set_option autoImplicit false

/-- The uniform distribution on `[-a, a)` with `a = sqrt (3 / fanIn)`, whose variance is
`1 / fanIn`.  The upper 23 bits of the word become the fraction of a number in `[1, 2)`. -/
def xavier (fanIn : Nat) (word : UInt32) : Float32 :=
  let a : Float32 := (3 / Float32.ofNat (max fanIn 1)).sqrt
  let unit : Float32 := Float32.ofBits ((0x3f800000 : UInt32) ||| (word >>> 9)) - 1
  unit * (a - -a) + -a

instance : NeuralGraph.Scalar Float32 where
  zero := 0
  one := 1
  natCast := Float32.ofNat
  intCast := Float32.ofInt
  lt := fun (a b : Float32) => decide (a < b)
  exp := Float32.exp
  tanh := Float32.tanh
  pow := Float32.pow
  round := round
  lowest := Float32.ofBits 0xff7fffff
  negInfinity := Float32.ofBits 0xff800000
  toNat? := toNat?
  xavier := xavier

end NeuralGraph.Binary32
