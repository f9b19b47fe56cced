import Mathlib

/-!
# The numbers of binary32

Without a bound on their size, the finite numbers are the whole multiples of powers of two with at
most 24 binary digits, none of them below `2 ^ -149`.  An operation rounds to a nearest one of them;
which of two equally near ones it takes is left open here.
-/

namespace NeuralGraph.Binary32
set_option autoImplicit false

/-- The numbers with 24 binary digits, none of them below `2 ^ -149`. -/
def Grid : Set ℚ := {z | ∃ m e : ℤ, |m| < 2 ^ 24 ∧ -149 ≤ e ∧ z = m * 2 ^ e}

/-- No number of the grid is nearer to `y` than `v`. -/
structure Nearest (y v : ℚ) : Prop where
  mem : v ∈ Grid
  near : ∀ z ∈ Grid, |v - y| ≤ |z - y|

variable {y z v : ℚ}

theorem two_zpow_pos (e : ℤ) : (0 : ℚ) < 2 ^ e := zpow_pos (by norm_num) e

theorem two_zpow_add (e f : ℤ) : (2 : ℚ) ^ (e + f) = 2 ^ e * 2 ^ f := zpow_add₀ (by norm_num) e f

/-! ## Members -/

theorem neg_mem_grid (h : z ∈ Grid) : -z ∈ Grid := by
  obtain ⟨m, e, small, least, rfl⟩ := h
  refine ⟨-m, e, by rwa [abs_neg], least, ?_⟩
  push_cast
  ring

/-- One more digit is in the grid if it is that of a power of two. -/
theorem scaled_mem_grid {m e : ℤ} (small : |m| ≤ 2 ^ 24) (least : -149 ≤ e) :
    (m : ℚ) * 2 ^ e ∈ Grid := by
  by_cases within : |m| < 2 ^ 24
  · exact ⟨m, e, within, least, rfl⟩
  · have top : |m| = 2 ^ 24 := by omega
    have half : m = m / 2 * 2 := by
      rcases abs_eq (by norm_num : (0 : ℤ) ≤ 2 ^ 24) |>.mp top with rfl | rfl <;> rfl
    refine ⟨m / 2, e + 1, ?_, by omega, ?_⟩
    · rcases abs_eq (by norm_num : (0 : ℤ) ≤ 2 ^ 24) |>.mp top with rfl | rfl <;> decide
    · have whole : (m : ℚ) = (m / 2 : ℤ) * 2 := by exact_mod_cast half
      rw [two_zpow_add, zpow_one, whole]
      ring

theorem int_mem_grid {n : ℤ} (small : |n| ≤ 2 ^ 24) : (n : ℚ) ∈ Grid := by
  have member := scaled_mem_grid (e := 0) small (by norm_num)
  rwa [zpow_zero, mul_one] at member

theorem zero_mem_grid : (0 : ℚ) ∈ Grid := by
  simpa using int_mem_grid (n := 0) (by norm_num)

/-- The numbers of the grid that are not small have few digits after the point. -/
theorem fraction_of_mem_grid (n : ℕ) (h : v ∈ Grid) (large : 2 ^ 23 / 2 ^ n ≤ |v|) :
    ∃ k : ℤ, v = k / 2 ^ n := by
  obtain ⟨m, e, small, -, rfl⟩ := h
  have exponent : -(n : ℤ) ≤ e := by
    by_contra low
    have digits : |(m : ℚ)| < 2 ^ 24 := by exact_mod_cast small
    have last : (2 : ℚ) ^ e ≤ 2 ^ (-1 + -(n : ℤ)) := zpow_le_zpow_right₀ (by norm_num) (by omega)
    rw [abs_mul, abs_of_pos (two_zpow_pos e)] at large
    have bound : |(m : ℚ)| * 2 ^ e < 2 ^ 23 / 2 ^ n := by
      calc |(m : ℚ)| * 2 ^ e ≤ |(m : ℚ)| * 2 ^ (-1 + -(n : ℤ)) :=
            mul_le_mul_of_nonneg_left last (abs_nonneg _)
        _ < 2 ^ 24 * 2 ^ (-1 + -(n : ℤ)) := mul_lt_mul_of_pos_right digits (two_zpow_pos _)
        _ = 2 ^ 23 / 2 ^ n := by
            rw [two_zpow_add, zpow_neg, zpow_neg, zpow_natCast, zpow_one]
            ring
    linarith
  obtain ⟨j, rfl⟩ : ∃ j : ℕ, e = j + -n := ⟨(e + n).toNat, by omega⟩
  refine ⟨m * 2 ^ j, ?_⟩
  rw [two_zpow_add, zpow_natCast, zpow_neg, zpow_natCast]
  push_cast
  ring

/-! ## Leading digits -/

/-- An integer of more than 24 digits lies between two powers of two, the upper one 24 digits wide. -/
theorem exists_leading_digits {k : ℤ} (many : 2 ^ 24 ≤ |k|) :
    ∃ n : ℕ, (2 : ℚ) ^ 23 * 2 ^ n ≤ |(k : ℚ)| ∧ |(k : ℚ)| < 2 ^ 24 * 2 ^ n := by
  rw [Int.abs_eq_natAbs] at many
  have digits : 24 ≤ k.natAbs.log2 := (Nat.le_log2 (by omega)).mpr (by omega)
  obtain ⟨n, last⟩ : ∃ n, k.natAbs.log2 = 23 + n := ⟨k.natAbs.log2 - 23, by omega⟩
  have low := Nat.log2_self_le (n := k.natAbs) (by omega)
  have high := Nat.lt_log2_self (n := k.natAbs)
  rw [last, pow_add] at low
  rw [last, add_right_comm, pow_add] at high
  refine ⟨n, ?_⟩
  rw [← Int.cast_abs, ← Nat.cast_natAbs]
  exact_mod_cast And.intro low high

theorem exists_near_int (small : |y| < 2 ^ 24) : ∃ j : ℤ, |y - j| ≤ 1 / 2 ∧ |j| ≤ 2 ^ 24 := by
  obtain ⟨j, halfway⟩ : ∃ j : ℤ, |y - j| ≤ 1 / 2 := ⟨_, abs_sub_round y⟩
  have bound : |(j : ℚ)| < 2 ^ 24 + 1 := by
    rw [abs_lt] at small ⊢
    rw [abs_le] at halfway
    constructor <;> linarith
  have bound' : |j| < 2 ^ 24 + 1 := by exact_mod_cast bound
  exact ⟨j, halfway, by omega⟩

/-! ## Nearest numbers -/

theorem le_of_near (near : |v - y| ≤ |z - y|) (below : y ≤ z) : v ≤ z := by
  by_contra above
  rw [abs_of_nonneg (by linarith), abs_of_nonneg (by linarith)] at near
  linarith

theorem ge_of_near (near : |v - y| ≤ |z - y|) (above : z ≤ y) : z ≤ v := by
  by_contra below
  rw [abs_of_nonpos (by linarith), abs_of_nonpos (by linarith)] at near
  linarith

namespace Nearest

theorem of_mem (h : y ∈ Grid) : Nearest y y := ⟨h, fun z _ => by simp⟩

theorem eq_of_mem (h : Nearest y v) (member : y ∈ Grid) : v = y := by
  have closest := h.near y member
  rw [sub_self, abs_zero] at closest
  exact sub_eq_zero.mp (abs_eq_zero.mp (le_antisymm closest (abs_nonneg _)))

theorem neg (h : Nearest y v) : Nearest (-y) (-v) := by
  refine ⟨neg_mem_grid h.mem, fun z hz => ?_⟩
  calc |-v - -y| = |v - y| := by rw [← abs_neg]; ring_nf
    _ ≤ |-z - y| := h.near _ (neg_mem_grid hz)
    _ = |z - -y| := by rw [← abs_neg]; ring_nf

theorem le_of_le (h : Nearest y v) (hz : z ∈ Grid) (below : y ≤ z) : v ≤ z :=
  le_of_near (h.near z hz) below

theorem ge_of_ge (h : Nearest y v) (hz : z ∈ Grid) (above : z ≤ y) : z ≤ v :=
  ge_of_near (h.near z hz) above

theorem abs_bound (h : Nearest y v) (hz : z ∈ Grid) (bound : |y| ≤ z) : |v| ≤ z := by
  obtain ⟨low, high⟩ := abs_le.mp bound
  exact abs_le.mpr ⟨h.ge_of_ge (neg_mem_grid hz) low, h.le_of_le hz high⟩

/-- Rounding at most doubles the distance from a number of the grid. -/
theorem abs_sub_le_double (h : Nearest y v) (hz : z ∈ Grid) : |v - z| ≤ 2 * |y - z| := by
  have nearer := h.near z hz
  have apart := abs_sub_le v y z
  rw [abs_sub_comm z y] at nearer
  linarith

/-- Rounding a whole multiple of the least positive number changes it by no more than half of its
24th digit. -/
theorem relative {k : ℤ} (h : Nearest y v) (whole : y = k * 2 ^ (-149 : ℤ)) :
    |v - y| ≤ |y| * 2 ^ (-24 : ℤ) := by
  by_cases few : |k| < 2 ^ 24
  · rw [h.eq_of_mem ⟨k, -149, few, le_rfl, whole⟩, sub_self, abs_zero]
    exact mul_nonneg (abs_nonneg y) (two_zpow_pos _).le
  · obtain ⟨n, low, high⟩ := exists_leading_digits (not_lt.mp few)
    -- the multiple of `2 ^ (n - 149)` next to `y`
    have unit : (0 : ℚ) < 2 ^ n := by positivity
    have size : |(k : ℚ) / 2 ^ n| < 2 ^ 24 := by
      rw [abs_div, abs_of_pos unit, div_lt_iff₀ unit]
      exact high
    obtain ⟨j, halfway, digits⟩ := exists_near_int size
    have member : (j : ℚ) * 2 ^ ((n : ℤ) - 149) ∈ Grid := scaled_mem_grid digits (by omega)
    have scale : (2 : ℚ) ^ ((n : ℤ) - 149) = 2 ^ n * 2 ^ (-149 : ℤ) := by
      rw [sub_eq_add_neg, two_zpow_add, zpow_natCast]
    have value : y = (k : ℚ) / 2 ^ n * 2 ^ ((n : ℤ) - 149) := by
      rw [whole, scale, ← mul_assoc, div_mul_cancel₀ _ unit.ne']
    have least := two_zpow_pos (-149)
    calc |v - y| ≤ |(j : ℚ) * 2 ^ ((n : ℤ) - 149) - y| :=
          h.near _ member
      _ = |(k : ℚ) / 2 ^ n - j| * (2 ^ n * 2 ^ (-149 : ℤ)) := by
          rw [value, ← sub_mul, abs_mul, abs_sub_comm, scale, abs_of_pos (mul_pos unit least)]
      _ ≤ 1 / 2 * (2 ^ n * 2 ^ (-149 : ℤ)) :=
          mul_le_mul_of_nonneg_right halfway (mul_pos unit least).le
      _ = 2 ^ 23 * 2 ^ n * 2 ^ (-149 : ℤ) * 2 ^ (-24 : ℤ) := by ring
      _ ≤ |(k : ℚ)| * 2 ^ (-149 : ℤ) * 2 ^ (-24 : ℤ) :=
          mul_le_mul_of_nonneg_right (mul_le_mul_of_nonneg_right low least.le) (two_zpow_pos _).le
      _ = |y| * 2 ^ (-24 : ℤ) := by rw [whole, abs_mul, abs_of_pos least]

end Nearest

/-- What is nearest on a scale of 24 digits is nearest in the whole grid: finer numbers are smaller
than the scale begins. -/
theorem nearest_scaled {r : ℕ} {t : ℤ} (least : -149 ≤ t) (wide : 2 ^ 23 ≤ y ∨ t = -149)
    (small : y < 2 ^ 24) (near : ∀ k : ℤ, |(r : ℚ) - y| ≤ |k - y|) :
    Nearest (y * 2 ^ t) (r * 2 ^ t) := by
  have scale : (0 : ℚ) < 2 ^ t := two_zpow_pos t
  have onScale : ∀ k : ℤ, |(r : ℚ) * 2 ^ t - y * 2 ^ t| ≤ |k * 2 ^ t - y * 2 ^ t| := fun k => by
    rw [← sub_mul, ← sub_mul, abs_mul, abs_mul]
    exact mul_le_mul_of_nonneg_right (near k) (abs_nonneg _)
  constructor
  · have top := near (2 ^ 24)
    rw [Int.cast_pow, Int.cast_ofNat] at top
    have bound := le_of_near top small.le
    have digits : |(r : ℤ)| ≤ 2 ^ 24 := by
      rw [Nat.abs_cast]
      exact_mod_cast bound
    simpa using scaled_mem_grid digits least
  · rintro z ⟨m, e, digits, lowest, rfl⟩
    by_cases fine : t ≤ e
    · obtain ⟨n, rfl⟩ : ∃ n : ℕ, e = n + t := ⟨(e - t).toNat, by omega⟩
      have member := onScale (m * 2 ^ n)
      rw [two_zpow_add, zpow_natCast, ← mul_assoc]
      exact_mod_cast member
    · -- a finer number lies below the scale, `2 ^ 23` steps of which do not reach beyond `y`
      have begins : (2 : ℚ) ^ 23 ≤ y := wide.resolve_right (by omega)
      have last : (2 : ℚ) ^ e ≤ 2 ^ (t - 1) := zpow_le_zpow_right₀ (by norm_num) (by omega)
      have digits : (m : ℚ) ≤ 2 ^ 24 := by exact_mod_cast (le_abs_self m).trans digits.le
      have below : (m : ℚ) * 2 ^ e ≤ 2 ^ 23 * 2 ^ t := by
        calc (m : ℚ) * 2 ^ e ≤ 2 ^ 24 * 2 ^ e := mul_le_mul_of_nonneg_right digits (two_zpow_pos e).le
          _ ≤ 2 ^ 24 * 2 ^ (t - 1) := mul_le_mul_of_nonneg_left last (by norm_num)
          _ = 2 ^ 23 * 2 ^ t := by rw [sub_eq_add_neg, two_zpow_add]; ring
      have reaches : (2 : ℚ) ^ 23 * 2 ^ t ≤ y * 2 ^ t := mul_le_mul_of_nonneg_right begins scale.le
      have nearer := onScale (2 ^ 23)
      rw [Int.cast_pow, Int.cast_ofNat] at nearer
      refine nearer.trans ?_
      rw [abs_of_nonpos (by linarith), abs_of_nonpos (by linarith)]
      linarith

end NeuralGraph.Binary32
