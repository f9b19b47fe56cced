import NeuralGraph.Proofs.Binary32

/-!
# The order of binary32

All numbers lie in one row: level by level away from zero, on the side of their sign.  Comparing two
of them is comparing their places, and only the two zeros share one.
-/

namespace NeuralGraph.Binary32
set_option autoImplicit false

open Float.Model (UnpackedFloat)

def sign (x : Float32) : UnpackedFloat.Sign := if isNegative x then .negative else .positive

/-- How many magnitudes are smaller. -/
def level (x : Float32) : Nat := exponentField x * 2 ^ 23 + fraction x

/-- The place in the row of all numbers, with zero at 0. -/
def rank (x : Float32) : Int :=
  match sign x with
  | .negative => -level x
  | .positive => level x

/-! ## Reading the fields -/

theorem exponentField_lt (x : Float32) : exponentField x < 256 := Nat.mod_lt _ (by decide)

theorem fraction_lt (x : Float32) : fraction x < 2 ^ 23 := Nat.mod_lt _ (by decide)

section
variable (x : Float32)

theorem toNat_unpackExponent :
    (@UnpackedFloat.unpackExponent .binary32 x.toBits.toBitVec).toNat =
      exponentField x := by
  simp [UnpackedFloat.unpackExponent, exponentField, Nat.shiftRight_eq_div_pow]

theorem toNat_unpackMantissa :
    (@UnpackedFloat.unpackMantissa .binary32 x.toBits.toBitVec).toNat = fraction x := by
  simp [UnpackedFloat.unpackMantissa, fraction]

theorem ofBitVec_unpackSign :
    UnpackedFloat.Sign.ofBitVec (@UnpackedFloat.unpackSign .binary32 x.toBits.toBitVec) =
      sign x := by
  have small : x.toBits.toNat / 2 ^ 31 < 2 := Nat.div_lt_of_lt_mul x.toBits.toNat_lt
  have bit : (@UnpackedFloat.unpackSign .binary32 x.toBits.toBitVec).toNat =
      x.toBits.toNat / 2 ^ 31 := by
    simp only [UnpackedFloat.unpackSign, BitVec.toNat_cast, BitVec.extractLsb_toNat,
      UInt32.toNat_toBitVec, Nat.shiftRight_eq_div_pow]
    exact Nat.mod_eq_of_lt small
  have positive : @UnpackedFloat.unpackSign .binary32 x.toBits.toBitVec = 0#1 ↔
      x.toBits.toNat / 2 ^ 31 = 0 := by
    rw [← bit, ← BitVec.toNat_inj]
    rfl
  have negative : isNegative x = true ↔ x.toBits.toNat / 2 ^ 31 = 1 := beq_iff_eq
  rw [UnpackedFloat.Sign.ofBitVec, sign]
  simp only [positive, negative]
  split_ifs
  · omega
  · rfl
  · rfl
  · omega

end

/-- What bits stand for, and the level that goes with it. -/
inductive Reads (x : Float32) : UnpackedFloat → Prop where
  | notANumber : Reads x .notANumber
  | infinity (high : level x = 255 * 2 ^ 23) : Reads x (.infinity (sign x))
  | zero (low : level x = 0) : Reads x (.zero (sign x))
  | finite {m : Nat} {e : Int} (positive : 0 < m) (small : m < 2 ^ 24) (least : -149 ≤ e)
      (greatest : e ≤ 104) (normal : 2 ^ 23 ≤ m ∨ e = -149)
      (high : (level x : Int) = (e + 149) * 2 ^ 23 + m) : Reads x (.finite (sign x) m e positive)

theorem reads (x : Float32) : Reads x x.toModel.unpack := by
  have exponent := toNat_unpackExponent x
  have mantissa := toNat_unpackMantissa x
  have top : @UnpackedFloat.unpackExponent .binary32 x.toBits.toBitVec = -1#8 ↔
      exponentField x = 255 := by
    rw [← exponent, ← BitVec.toNat_inj]
    rfl
  have bottom : @UnpackedFloat.unpackExponent .binary32 x.toBits.toBitVec = 0#8 ↔
      exponentField x = 0 := by
    rw [← exponent, ← BitVec.toNat_inj]
    rfl
  have empty : @UnpackedFloat.unpackMantissa .binary32 x.toBits.toBitVec = 0#23 ↔
      fraction x = 0 := by
    rw [← mantissa, ← BitVec.toNat_inj]
    rfl
  have bias : Float.Model.Format.binary32.exponentBias = 127 := rfl
  have read : x.toModel.unpack = UnpackedFloat.unpack .binary32 x.toBits.toBitVec := rfl
  have he := exponentField_lt x
  have hm := fraction_lt x
  rw [read, UnpackedFloat.unpack]
  dsimp only
  rw [ofBitVec_unpackSign x, exponent, bias]
  split_ifs with inf integral sub zero
  · rw [top] at inf
    rw [empty] at integral
    exact .infinity (by rw [level, inf, integral, Nat.add_zero])
  · exact .notANumber
  · rw [bottom] at sub
    rw [empty] at zero
    exact .zero (by rw [level, sub, zero, Nat.zero_mul])
  · rw [bottom] at sub
    rw [empty] at zero
    rw [sub]
    refine .finite _ (by omega) (by omega) (by omega) (.inr (by omega)) ?_
    rw [mantissa, level, sub]
    omega
  · rw [top] at inf
    rw [bottom] at sub
    have whole : (1#1 ++ @UnpackedFloat.unpackMantissa .binary32 x.toBits.toBitVec).toNat =
        2 ^ 23 + fraction x := by
      rw [BitVec.toNat_append, mantissa, ← Nat.shiftLeft_add_eq_or_of_lt hm]
      rfl
    refine .finite _ (by omega) (by omega) (by omega) (.inl (by omega)) ?_
    rw [whole, level]
    omega

/-! ## The order -/

theorem scalar_lt_iff {a b : Float32} : Scalar.lt a b = true ↔ a < b := decide_eq_true_iff

theorem lt_iff_compare {a b : Float32} : Scalar.lt a b = true ↔
    a.toModel.unpack.compare b.toModel.unpack = some .lt := by
  rw [scalar_lt_iff]
  show decide (a.toModel < b.toModel) = true ↔ _
  rw [decide_eq_true_iff]
  show (a.toModel.unpack.compare b.toModel.unpack == some .lt) = true ↔ _
  rw [beq_iff_eq]

@[simp] theorem compare_signs (s t : UnpackedFloat.Sign) :
    compare s t = .lt ↔ s = .negative ∧ t = .positive := by
  cases s <;> cases t <;> simp [compare]

/-- Finite magnitudes are compared by their exponents, then by their mantissas. -/
theorem then_compare_eq_lt_iff {m k : Nat} {e f : Int} (hm : m < 2 ^ 24) (hk : k < 2 ^ 24)
    (he : -149 ≤ e) (hf : -149 ≤ f) (me : 2 ^ 23 ≤ m ∨ e = -149) (kf : 2 ^ 23 ≤ k ∨ f = -149) :
    (compare e f).then (compare m k) = .lt ↔
      (e + 149) * 2 ^ 23 + m < (f + 149) * 2 ^ 23 + k := by
  rw [Ordering.then_eq_lt, compare_lt_iff_lt, compare_lt_iff_lt, compare_eq_iff_eq]
  omega

theorem then_compare_swap (m k : Nat) (e f : Int) :
    ((compare e f).then (compare m k)).swap = (compare f e).then (compare k m) := by
  rw [Ordering.swap_then, ← Std.OrientedOrd.eq_swap, ← Std.OrientedOrd.eq_swap]

/-- Numbers are compared by their places. -/
theorem Reads.compare_iff {a b : Float32} {u v : UnpackedFloat} (ra : Reads a u) (rb : Reads b v)
    (number : u.isNaN = false) (number' : v.isNaN = false) :
    u.compare v = some .lt ↔ rank a < rank b := by
  rw [rank, rank]
  cases ra with
  | notANumber => cases number
  | infinity high =>
    cases rb with
    | notANumber => cases number'
    | infinity high' => cases sign a <;> cases sign b <;> simp [UnpackedFloat.compare, high, high']
    | zero low => cases sign a <;> cases sign b <;> simp [UnpackedFloat.compare, high, low]
    | finite => cases sign a <;> cases sign b <;> simp [UnpackedFloat.compare, high] <;> omega
  | zero low =>
    cases rb with
    | notANumber => cases number'
    | infinity high => cases sign a <;> cases sign b <;> simp [UnpackedFloat.compare, high, low]
    | zero low' => cases sign a <;> cases sign b <;> simp [UnpackedFloat.compare, low, low']
    | finite => cases sign a <;> cases sign b <;> simp [UnpackedFloat.compare, low] <;> omega
  | finite _ small least _ normal high =>
    cases rb with
    | notANumber => cases number'
    | infinity high' => cases sign a <;> cases sign b <;> simp [UnpackedFloat.compare, high'] <;> omega
    | zero low => cases sign a <;> cases sign b <;> simp [UnpackedFloat.compare, low] <;> omega
    | finite _ small' least' _ normal' high' =>
      have forth := then_compare_eq_lt_iff small small' least least' normal normal'
      have back := then_compare_eq_lt_iff small' small least' least normal' normal
      cases sign a <;> cases sign b <;>
        simp [UnpackedFloat.compare, then_compare_swap, forth, back, high, high'] <;> omega

theorem lt_iff_rank {a b : Float32} (ha : a.isNaN = false) (hb : b.isNaN = false) :
    Scalar.lt a b = true ↔ rank a < rank b :=
  lt_iff_compare.trans ((reads a).compare_iff (reads b) ha hb)

/-- The larger of two numbers, the first one if they are equal. -/
def upper (a b : Float32) : Float32 := if Scalar.lt a b then b else a

theorem upper_assoc {a b c : Float32} (ha : a.isNaN = false) (hb : b.isNaN = false)
    (hc : c.isNaN = false) : upper (upper a b) c = upper a (upper b c) := by
  have ab := lt_iff_rank ha hb
  have bc := lt_iff_rank hb hc
  have ac := lt_iff_rank ha hc
  by_cases first : Scalar.lt a b = true
  · by_cases second : Scalar.lt b c = true
    · have both : Scalar.lt a c = true := ac.mpr ((ab.mp first).trans (bc.mp second))
      simp only [upper, first, second, both, if_true]
    · simp only [upper, first, second, Bool.false_eq_true, if_true, if_false]
  · by_cases second : Scalar.lt b c = true
    · simp only [upper, first, second, Bool.false_eq_true, if_true, if_false]
    · have neither : ¬Scalar.lt a c = true := by
        rw [ab, not_lt] at first
        rw [bc, not_lt] at second
        rw [ac, not_lt]
        exact second.trans first
      simp only [upper, first, second, neither, Bool.false_eq_true, if_false]

/-! ## The ends of the row -/

theorem toNat_toBits (x : Float32) :
    x.toBits.toNat = (if isNegative x then 2 ^ 31 else 0) + level x := by
  have bound : x.toBits.toNat < 2 ^ 32 := x.toBits.toNat_lt
  have negative : isNegative x = true ↔ x.toBits.toNat / 2 ^ 31 = 1 := beq_iff_eq
  simp only [negative, level, exponentField, fraction, Nat.pow_eq]
  split_ifs <;> omega

theorem eq_of_toBits {a b : Float32} (h : a.toBits = b.toBits) : a = b := by
  obtain ⟨⟨bits, valid⟩⟩ := a
  obtain ⟨⟨bits', valid'⟩⟩ := b
  cases (show bits = bits' from h)
  rfl

/-- Only the zeros share a place. -/
theorem eq_of_rank {a b : Float32} (same : rank a = rank b) (nonzero : rank b ≠ 0) : a = b := by
  apply eq_of_toBits
  apply UInt32.toNat_inj.mp
  rw [toNat_toBits, toNat_toBits]
  revert same nonzero
  rw [rank, rank, sign, sign]
  split_ifs
  all_goals
    dsimp only
    omega

theorem Reads.level_le {x : Float32} {u : UnpackedFloat} (read : Reads x u)
    (number : u.isNaN = false) : level x ≤ 255 * 2 ^ 23 := by
  cases read with
  | notANumber => cases number
  | infinity high => omega
  | zero low => omega
  | finite => omega

theorem isNaN_lowest : (Scalar.lowest : Float32).isNaN = false := rfl

theorem rank_lowest : rank Scalar.lowest = 1 - 255 * 2 ^ 23 := by decide

theorem rank_negInfinity : rank Scalar.negInfinity = -(255 * 2 ^ 23) := by decide

/-- Below the least finite number there is only negative infinity. -/
theorem lt_lowest_iff {x : Float32} (number : x.isNaN = false) :
    Scalar.lt x Scalar.lowest = true ↔ x = Scalar.negInfinity := by
  constructor
  · intro below
    rw [lt_iff_rank number isNaN_lowest, rank_lowest] at below
    have highest := (reads x).level_le number
    refine eq_of_rank ?_ (by rw [rank_negInfinity]; decide)
    rw [rank_negInfinity]
    revert below
    rw [rank]
    split <;> omega
  · rintro rfl
    rfl

/-- The least finite number is only larger than negative infinity. -/
theorem upper_lowest {x : Float32} (number : x.isNaN = false) :
    upper Scalar.lowest x = if x = Scalar.negInfinity then Scalar.lowest else x := by
  rw [upper]
  split_ifs with above infinite infinite
  · subst infinite
    cases above
  · rfl
  · rfl
  · refine (eq_of_rank (le_antisymm ?_ ?_) ?_).symm
    · rwa [lt_iff_rank isNaN_lowest number, not_lt] at above
    · rwa [← lt_lowest_iff number, lt_iff_rank number isNaN_lowest, not_lt] at infinite
    · rw [rank_lowest]
      decide

end NeuralGraph.Binary32
