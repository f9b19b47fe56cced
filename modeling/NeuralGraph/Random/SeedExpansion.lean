/-!
# From a seed to a key

A 64-bit seed is stretched to a key of eight words by a congruential generator whose outputs are
permuted: each step advances the state, then folds its upper bits down and rotates them by the
topmost five.
-/

namespace NeuralGraph.Random
set_option autoImplicit false

/-- The 256-bit key of a keystream. -/
abbrev Key := Vector UInt32 8

/-- One congruential step. -/
def advance (state : UInt64) : UInt64 := state * 6364136223846793005 + 11634580027462260723

/-- The word turned right by `count` places. -/
def rotateRight (word count : UInt32) : UInt32 :=
  (word >>> count) ||| (word <<< ((32 - count) % 32))

/-- The output word of a state. -/
def permute (state : UInt64) : UInt32 :=
  rotateRight (((state >>> 18) ^^^ state) >>> 27).toUInt32 (state >>> 59).toUInt32

/-- The state after `n` steps. -/
def advanceBy (n : Nat) (state : UInt64) : UInt64 := Nat.repeat advance n state

/-- The key of a seed: the outputs of the first eight steps. -/
def expandSeed (seed : UInt64) : Key :=
  Vector.ofFn fun (i : Fin 8) => permute (advanceBy (i.val + 1) seed)

end NeuralGraph.Random
