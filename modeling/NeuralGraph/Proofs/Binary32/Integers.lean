import NeuralGraph.Proofs.Binary32.Arithmetic

/-!
# Integers in binary32

Turning an integer into binary32 rounds it once, and one with at most 24 binary digits is kept.
Reading a natural number back and rounding to the nearest integer go through units of `2 ^ -149`, of
which the value of every finite number is a whole multiple.
-/

namespace NeuralGraph.Binary32
set_option autoImplicit false

open Float.Model (UnpackedFloat Format)
open Float.Model.UnpackedFloat

/-! ## Negation -/

theorem rounds_neg {y : ℚ} {r : Float32} (h : Rounds y r) : Rounds (-y) (-r) := by
  cases h with
  | finite finite nearest => exact (canonical_unpack finite).neg.rounds nearest.neg
  | @infinite v nearest large infinite =>
    refine .infinite nearest.neg (by rwa [abs_neg]) ?_
    have opposite : (-r).toModel.unpack =
        unpack .binary32 (pack .binary32 r.toModel.unpack.neg) := rfl
    rw [opposite, infinite]
    have nonzero : v ≠ 0 := by
      rintro rfl
      norm_num at large
    rw [signOf_neg nonzero]
    exact unpack_packedInfinity _

theorem value_neg {x : Float32} (finite : x.isFinite = true) :
    (-x).isFinite = true ∧ value (-x) = -value x := by
  have form := (canonical_unpack finite).neg
  refine Rounds.kept (form.rounds (.of_mem form.mem_grid)) form.mem_grid ?_
  rw [abs_neg]
  exact abs_value_lt finite

/-! ## From integers -/

theorem natCast_mem_grid {n : ℕ} (small : n ≤ 2 ^ 24) : (n : ℚ) ∈ Grid :=
  int_mem_grid (by rw [Nat.abs_cast]; exact_mod_cast small)

theorem rounds_toFloat32 (n : UInt64) : Rounds n.toNat n.toFloat32 := by
  obtain ⟨v, form, nearest⟩ := canonical_normalize (n.toNat : ℤ) 0 .positive
  rw [zpow_zero, mul_one] at nearest
  exact form.rounds nearest

theorem value_one : (Float32.ofBits 0x3F800000).isFinite = true ∧
    value (Float32.ofBits 0x3F800000) = 1 := by
  have read : (Float32.ofBits 0x3F800000).toModel.unpack =
      .finite .positive (2 ^ 23) (-23) (by norm_num) := rfl
  refine ⟨rfl, ?_⟩
  rw [value, read, valueOf, signed]
  norm_num

theorem rounds_ofNat (n : ℕ) : Rounds n (Float32.ofNat n) := by
  by_cases small : n < 2 ^ 23
  · have path : Float32.ofNat n = n.toUInt64.toFloat32 * Float32.ofBits 0x3F800000 := by
      show Float32.ofScientific n false 0 = _
      rw [Float32.ofScientific, dif_pos ⟨small, by norm_num⟩]
      rfl
    have word : n.toUInt64.toNat = n := UInt64.toNat_ofNat_of_lt' (small.trans (by decide))
    have kept := rounds_toFloat32 n.toUInt64
    rw [word] at kept
    have size : |(n : ℚ)| < 2 ^ 128 := by
      rw [Nat.abs_cast]
      exact_mod_cast small.trans (by norm_num)
    obtain ⟨finite, exact_⟩ := kept.kept (natCast_mem_grid (by omega)) size
    have product := rounds_mul finite value_one.1
    rwa [exact_, value_one.2, mul_one, ← path] at product
  · have path : Float32.ofNat n = .ofModel (.ofScientific n 0) := by
      show Float32.ofScientific n false 0 = _
      rw [Float32.ofScientific, dif_neg fun h => small h.1]
      rfl
    have wide : 2 ^ 23 ≤ n <<< 24 * 1 ∨ (-24 + 0 : ℤ) ≤ -149 := by
      rw [Nat.shiftLeft_eq]
      omega
    obtain ⟨v, form, nearest⟩ := canonical_roundWithAccuracy .positive wide (holds_exact _)
    have whole : signed .positive (((n <<< 24 * 1 : ℕ) : ℚ) * 2 ^ (-24 + 0 : ℤ)) = n := by
      rw [signed, Nat.shiftLeft_eq]
      push_cast
      norm_num
      ring
    have model : ofScientific .binary32 n 0 =
        roundWithAccuracy .binary32 .positive (n <<< 24 * 1) (-24 + 0) .exact := by
      have room : ¬(0 : ℤ) < -((2 ^ Format.binary32.exponentBits : ℤ) + n.log2) := by
        have : (0 : ℤ) < 2 ^ Format.binary32.exponentBits := by decide
        omega
      rw [ofScientific, dif_neg (by omega), if_neg (by decide), if_neg room, if_pos le_rfl]
      rfl
    rw [whole] at nearest
    rw [path, Float32.Model.ofScientific, model]
    exact form.rounds nearest

theorem rounds_ofInt (n : ℤ) : Rounds n (Float32.ofInt n) := by
  cases n with
  | ofNat n => exact rounds_ofNat n
  | negSucc n =>
    have opposite := rounds_neg (rounds_ofNat (n + 1))
    have whole : ((Int.negSucc n : ℤ) : ℚ) = -((n + 1 : ℕ) : ℚ) := by
      rw [Int.negSucc_eq]
      push_cast
      rfl
    rw [whole]
    exact opposite

theorem value_ofInt {n : ℤ} (small : |n| ≤ 2 ^ 24) :
    (Float32.ofInt n).isFinite = true ∧ value (Float32.ofInt n) = n := by
  refine (rounds_ofInt n).kept (int_mem_grid small) ?_
  rw [← Int.cast_abs]
  exact_mod_cast small.trans_lt (by norm_num)

/-! ## Units -/

theorem unitsPerOne_cast : (unitsPerOne : ℚ) = 2 ^ 149 := by
  rw [unitsPerOne, Nat.pow_eq, Nat.cast_pow, Nat.cast_ofNat]

theorem Reads.units_eq {x : Float32} {u : UnpackedFloat} (h : Reads x u)
    (finite : u.isFinite = true) : valueOf u = signed (sign x) (units x / 2 ^ 149) := by
  have field := exponentField_lt x
  have last := fraction_lt x
  cases h with
  | notANumber => cases finite
  | infinity _ => cases finite
  | zero low =>
    rw [level] at low
    have zero : units x = 0 := by
      rw [units, if_pos (by omega)]
      omega
    rw [zero, Nat.cast_zero, zero_div]
    show (0 : ℚ) = _
    cases sign x
    · exact neg_zero.symm
    · rfl
  | @finite m e positive small least greatest normal high =>
    rw [level] at high
    rw [valueOf]
    congr 1
    by_cases leading : 2 ^ 23 ≤ m
    · obtain ⟨n, rfl⟩ : ∃ n : ℕ, e = n + -149 := ⟨(e + 149).toNat, by omega⟩
      have exponent : exponentField x = n + 1 := by omega
      have mantissa : 2 ^ 23 + fraction x = m := by omega
      rw [units, if_neg (by omega), exponent, Nat.pow_eq, Nat.pow_eq, mantissa, two_zpow_add,
        zpow_natCast, zpow_neg, Nat.add_sub_cancel, div_eq_mul_inv]
      push_cast
      rw [mul_assoc]
      norm_cast
    · have lowest := normal.resolve_left leading
      have mantissa : units x = m := by
        rw [units, if_pos (by omega)]
        omega
      rw [mantissa, lowest, zpow_neg, div_eq_mul_inv]
      norm_cast

section
variable {x : Float32} (finite : x.isFinite = true)
include finite

theorem value_eq_units : value x = signed (sign x) (units x / 2 ^ 149) :=
  (reads x).units_eq finite

theorem abs_value_eq : |value x| = units x / 2 ^ 149 := by
  rw [value_eq_units finite, abs_signed]
  exact abs_of_nonneg (by positivity)

end

/-- Reading back finds the natural number that a finite number is equal to. -/
theorem toNat?_eq_some_iff {x : Float32} {n : ℕ} :
    toNat? x = some n ↔ x.isFinite = true ∧ value x = n := by
  rw [toNat?]
  by_cases finite : x.isFinite = true
  · have scaled : units x % unitsPerOne = 0 ∧ units x / unitsPerOne = n ↔
        (units x : ℚ) / 2 ^ 149 = n := by
      rw [div_eq_iff (by norm_num), ← unitsPerOne_cast]
      constructor
      · rintro ⟨whole, rfl⟩
        exact_mod_cast (Nat.div_mul_cancel (Nat.dvd_of_mod_eq_zero whole)).symm
      · intro h
        have h : units x = n * unitsPerOne := by exact_mod_cast h
        have one : 0 < unitsPerOne := by decide
        rw [h]
        exact ⟨Nat.mul_mod_left _ _, Nat.mul_div_cancel _ one⟩
    rw [value_eq_units finite, sign]
    by_cases negative : isNegative x = true
    · -- below zero there is no natural number, and negative zero is 0
      rw [if_pos negative, signed]
      constructor
      · intro found
        split at found
        · next checks =>
          simp only [finite, negative, Bool.not_true, Bool.or_false, Bool.true_and,
            Bool.and_eq_true, beq_iff_eq] at checks
          rw [checks.1, Nat.zero_div, Option.some.injEq] at found
          rw [checks.1, ← found]
          exact ⟨finite, by simp⟩
        · cases found
      · rintro ⟨-, h⟩
        have size : (0 : ℚ) ≤ units x / 2 ^ 149 := by positivity
        have none : (units x : ℚ) / 2 ^ 149 = 0 := by linarith [n.cast_nonneg (α := ℚ)]
        have zero : units x = 0 := by
          rw [div_eq_zero_iff] at none
          exact_mod_cast none.resolve_right (by norm_num)
        have first : n = 0 := by
          rw [none, neg_zero] at h
          exact_mod_cast h.symm
        rw [zero, first]
        simp [finite]
    · rw [if_neg negative, signed, ← scaled]
      simp only [finite, Bool.not_eq_true] at negative ⊢
      simp [negative]
  · simp [finite]

/-! ## Rounding to integers -/

theorem half_up {u one : ℕ} (hone : 0 < one) :
    |(u : ℚ) / one - ((2 * u + one) / (2 * one) : ℕ)| ≤ 1 / 2 := by
  have unit : (0 : ℚ) < one := by exact_mod_cast hone
  have double : 0 < 2 * one := by omega
  have low : (((2 * u + one) / (2 * one) : ℕ) : ℚ) * (2 * one) ≤ 2 * u + one := by
    exact_mod_cast Nat.div_mul_le_self (2 * u + one) (2 * one)
  have high : (2 : ℚ) * u + one < (((2 * u + one) / (2 * one) : ℕ) + 1) * (2 * one) := by
    have next := Nat.lt_mul_div_succ (2 * u + one) double
    rw [mul_comm (2 * one)] at next
    exact_mod_cast next
  rw [abs_le, le_sub_iff_add_le, sub_le_iff_le_add, le_div_iff₀ unit, div_le_iff₀ unit]
  constructor <;> linarith

theorem half_up_le {u one : ℕ} (small : u < 2 ^ 23 * one) :
    (2 * u + one) / (2 * one) ≤ 2 ^ 24 := Nat.div_le_of_le_mul (by omega)

/-- The rounded number is an integer that is nowhere farther than a half. -/
theorem round_spec {x : Float32} (finite : x.isFinite = true) :
    (round x).isFinite = true ∧ ∃ k : ℤ, value (round x) = k ∧ |value x - k| ≤ 1 / 2 := by
  rw [round]
  by_cases small : units x < Nat.pow 2 23 * unitsPerOne
  · have one : 0 < unitsPerOne := by decide
    have near := half_up (u := units x) one
    have few := half_up_le small
    obtain ⟨finite', exact_⟩ := (rounds_ofNat _).kept (natCast_mem_grid few) (by
      rw [Nat.abs_cast]
      exact_mod_cast few.trans_lt (by norm_num))
    rw [unitsPerOne_cast] at near
    rw [value_eq_units finite, sign]
    simp only [finite, small, decide_true, Bool.and_self, if_true]
    by_cases negative : isNegative x = true
    · obtain ⟨finite'', opposite⟩ := value_neg finite'
      rw [if_pos negative, if_pos negative]
      refine ⟨finite'', -((2 * units x + unitsPerOne) / (2 * unitsPerOne) : ℕ), ?_, ?_⟩
      · rw [opposite, exact_, Int.cast_neg, Int.cast_natCast]
      · rw [signed, Int.cast_neg, Int.cast_natCast, neg_sub_neg, abs_sub_comm]
        exact near
    · rw [if_neg negative, if_neg negative]
      exact ⟨finite', _, exact_, near⟩
  · -- a number that large has no digits after the point
    simp only [finite, small, decide_false, Bool.and_false, Bool.false_eq_true, if_false]
    obtain ⟨k, whole⟩ := fraction_of_mem_grid 0 (value_mem_grid finite) (by
      rw [abs_value_eq finite, pow_zero, div_one, le_div_iff₀ (by norm_num), ← unitsPerOne_cast]
      rw [Nat.pow_eq] at small
      exact_mod_cast not_lt.mp small)
    rw [pow_zero, div_one] at whole
    exact ⟨trivial, k, whole, by rw [whole, sub_self, abs_zero]; norm_num⟩

end NeuralGraph.Binary32
