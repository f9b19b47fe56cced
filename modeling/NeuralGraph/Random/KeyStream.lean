import NeuralGraph.Random.SeedExpansion

/-!
# The keystream

The ChaCha permutation with twelve rounds in counter mode: block `n` of a key is a function of the
key and `n` alone, and word `i` of the stream is word `i % 16` of block `i / 16`.
-/

namespace NeuralGraph.Random
set_option autoImplicit false

/-- The sixteen words that the permutation works on. -/
abbrev State := Vector UInt32 16

/-- The word turned left by `count` places, `0 < count < 32`. -/
def rotateLeft (word count : UInt32) : UInt32 := (word <<< count) ||| (word >>> (32 - count))

/-- Mixes the words at four places. -/
def quarterRound (s : State) (a b c d : Fin 16) : State :=
  let s := s.set a (s[a] + s[b])
  let s := s.set d (rotateLeft (s[d] ^^^ s[a]) 16)
  let s := s.set c (s[c] + s[d])
  let s := s.set b (rotateLeft (s[b] ^^^ s[c]) 12)
  let s := s.set a (s[a] + s[b])
  let s := s.set d (rotateLeft (s[d] ^^^ s[a]) 8)
  let s := s.set c (s[c] + s[d])
  s.set b (rotateLeft (s[b] ^^^ s[c]) 7)

/-- Four quarter rounds on the columns, then four on the diagonals. -/
def doubleRound (s : State) : State :=
  let s := quarterRound s 0 4 8 12
  let s := quarterRound s 1 5 9 13
  let s := quarterRound s 2 6 10 14
  let s := quarterRound s 3 7 11 15
  let s := quarterRound s 0 5 10 15
  let s := quarterRound s 1 6 11 12
  let s := quarterRound s 2 7 8 13
  quarterRound s 3 4 9 14

/-- The words before mixing: four constants, the key, the block number, and a zero nonce. -/
def initialState (key : Key) (block : Nat) : State :=
  #v[0x61707865, 0x3320646e, 0x79622d32, 0x6b206574,
    key[0], key[1], key[2], key[3], key[4], key[5], key[6], key[7],
    block.toUInt32, (block >>> 32).toUInt32, 0, 0]

/-- Block `n` of the stream: twelve rounds, then the unmixed words are added back. -/
def block (key : Key) (n : Nat) : State :=
  let start : State := initialState key n
  start.zipWith (· + ·) (Nat.repeat doubleRound 6 start)

/-- Word `i` of the stream. -/
def streamWord (key : Key) (i : Nat) : UInt32 :=
  (block key (i / 16)).get ⟨i % 16, Nat.mod_lt i (by decide)⟩

/-- A reader of the stream of one key: the words before `position` are spent. -/
structure Generator where
  key : Key
  position : Nat
  deriving DecidableEq

namespace Generator

/-- The generator of a seed, at the start of its stream. -/
def ofSeed (seed : UInt64) : Generator := ⟨expandSeed seed, 0⟩

/-- The `i`th word that is still to come. -/
def word (g : Generator) (i : Nat) : UInt32 := streamWord g.key (g.position + i)

/-- The generator after `n` more words. -/
def skip (g : Generator) (n : Nat) : Generator := { g with position := g.position + n }

@[simp] theorem skip_key (g : Generator) (n : Nat) : (g.skip n).key = g.key := rfl

@[simp] theorem skip_position (g : Generator) (n : Nat) :
    (g.skip n).position = g.position + n := rfl

theorem skip_word (g : Generator) (n i : Nat) : (g.skip n).word i = g.word (n + i) := by
  simp [word, Nat.add_assoc]

@[simp] theorem skip_zero (g : Generator) : g.skip 0 = g := rfl

theorem skip_skip (g : Generator) (m n : Nat) : (g.skip m).skip n = g.skip (m + n) := by
  simp [skip, Nat.add_assoc]

end Generator
end NeuralGraph.Random
