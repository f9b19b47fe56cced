/-!
# The magnitude of a binary32

Every finite binary32 is a whole multiple of the smallest positive one, `2 ^ -149`.  `units` is that
multiple, so exact questions about a binary32 become questions about natural numbers.  Rounding to
an integer and reading an index are answered this way.
-/

namespace NeuralGraph.Binary32
set_option autoImplicit false

/-- Whether the sign bit is set. -/
def isNegative (x : Float32) : Bool := x.toBits.toNat / Nat.pow 2 31 == 1

/-- The biased exponent, from 0 to 255. -/
def exponentField (x : Float32) : Nat := x.toBits.toNat / Nat.pow 2 23 % 256

/-- The 23 bits after the leading one. -/
def fraction (x : Float32) : Nat := x.toBits.toNat % Nat.pow 2 23

/-- How many units make one. -/
def unitsPerOne : Nat := Nat.pow 2 149

/-- The magnitude of a finite binary32 in units of `2 ^ -149`. -/
def units (x : Float32) : Nat :=
  if exponentField x = 0 then fraction x
  else (Nat.pow 2 23 + fraction x) * Nat.pow 2 (exponentField x - 1)

/-- The distance in units from `x` to the next larger magnitude. -/
def gap (x : Float32) : Nat := Nat.pow 2 (exponentField x - 1)

/-- The distance in units from `x` to the next smaller magnitude is half of `gap x` when `x` is the
least of its binade. -/
def leastOfBinade (x : Float32) : Bool := fraction x == 0 && Nat.blt 1 (exponentField x)

/-- The integer nearest to `x`, a half going away from zero; the sign is kept, also that of zero. -/
def round (x : Float32) : Float32 :=
  if x.isFinite && units x < Nat.pow 2 23 * unitsPerOne then
    let nearest : Float32 := Float32.ofNat ((2 * units x + unitsPerOne) / (2 * unitsPerOne))
    if isNegative x then -nearest else nearest
  else x

/-- The natural number equal to `x`, if there is one.  Both zeros are 0. -/
def toNat? (x : Float32) : Option Nat :=
  if x.isFinite && (units x == 0 || !isNegative x) && units x % unitsPerOne == 0 then
    some (units x / unitsPerOne)
  else none

end NeuralGraph.Binary32
