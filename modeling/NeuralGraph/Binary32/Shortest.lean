import NeuralGraph.Binary32.Magnitude

/-!
# The shortest decimal of a binary32

Among the decimals that round to a given magnitude, `shortest` is the one on the coarsest decimal
grid, hence with the fewest digits; of several on that grid it is the nearest, and an exact tie goes
up.  All comparisons are between natural numbers.
-/

namespace NeuralGraph.Binary32
set_option autoImplicit false

/-- The number `digits * 10 ^ exponent`. -/
structure Decimal where
  digits : Nat
  exponent : Int
  deriving DecidableEq, Repr

/-- The magnitudes that round to one binary32, in quarters of a unit.  The ends belong to it when
the binary32 has an even fraction. -/
structure RoundingInterval where
  low : Nat
  value : Nat
  high : Nat
  closed : Bool

/-- The rounding interval of a finite binary32 other than zero. -/
def roundingInterval (x : Float32) : RoundingInterval where
  low := 4 * units x - (if leastOfBinade x then gap x else 2 * gap x)
  value := 4 * units x
  high := 4 * units x + 2 * gap x
  closed := fraction x % 2 == 0

/-- The point of the grid `10 ^ exponent` in the interval that is nearest to its value, if any
point of the grid is. -/
def RoundingInterval.onGrid? (r : RoundingInterval) (exponent : Int) : Option Nat :=
  let step : Nat := Nat.pow 10 exponent.toNat * (4 * unitsPerOne)
  let scale : Nat := Nat.pow 10 (-exponent).toNat
  let contains : Nat → Bool := fun (d : Nat) =>
    if r.closed then Nat.ble (r.low * scale) (d * step) && Nat.ble (d * step) (r.high * scale)
    else Nat.blt (r.low * scale) (d * step) && Nat.blt (d * step) (r.high * scale)
  let below : Nat := r.value * scale / step
  let nearer : Nat × Nat :=
    if 2 * (r.value * scale - below * step) < step then (below, below + 1) else (below + 1, below)
  if contains nearer.1 then some nearer.1
  else if contains nearer.2 then some nearer.2
  else none

/-- Decimal exponents from above the largest binary32 down to below the smallest. -/
def gridExponents : List Int := (List.range 90).map fun (i : Nat) => 40 - (i : Int)

/-- The shortest decimal that rounds to the magnitude of a finite binary32. -/
def shortest (x : Float32) : Decimal :=
  if units x = 0 then ⟨0, 0⟩
  else
    let r : RoundingInterval := roundingInterval x
    (gridExponents.findSome? fun (e : Int) => (r.onGrid? e).map fun (d : Nat) => ⟨d, e⟩).getD ⟨0, 0⟩

end NeuralGraph.Binary32
