import NeuralGraph.Proofs.Binary32.Integers
import NeuralGraph.Quantization

/-!
# Stored integers through binary32

An element that is stored for a number is an integer from -128 to 127, or not a number.  Turning it
into its number and that number into an element again rounds at every operation.  Where the number is
finite and the distance from the offset has at most 22 binary digits, these errors stay below one half
and the same integer comes back; with more digits they grow with the distance, and a number too large
for a float comes back as an end of the range.
-/

namespace NeuralGraph.Binary32
set_option autoImplicit false

open Float.Model (UnpackedFloat Format)
open Float.Model.UnpackedFloat

/-! ## Infinities and what is not a number -/

theorem isNaN_iff {x : Float32} : x.isNaN = true ↔ x.toModel.unpack = .notANumber := by
  show x.toModel.unpack.isNaN = true ↔ _
  cases x.toModel.unpack <;> simp [UnpackedFloat.isNaN]

theorem isInf_iff {x : Float32} : x.isInf = true ↔ ∃ s, x.toModel.unpack = .infinity s := by
  show x.toModel.unpack.isInf = true ↔ _
  cases x.toModel.unpack <;> simp [UnpackedFloat.isInf]

/-- Packing keeps everything that is not a finite number. -/
theorem unpack_pack_of_not_finite {u : UnpackedFloat} (h : u.isFinite = false) :
    unpack .binary32 (pack .binary32 u) = u := by
  cases u with
  | infinity s => exact unpack_packedInfinity s
  | notANumber => rfl
  | zero s => cases h
  | finite s m e positive => cases h

section
variable {a b c : Float32}

theorem unpack_add (a b : Float32) : (a + b).toModel.unpack = unpack .binary32
    (pack .binary32 (UnpackedFloat.add .binary32 a.toModel.unpack b.toModel.unpack)) := rfl

theorem unpack_sub (a b : Float32) : (a - b).toModel.unpack = unpack .binary32
    (pack .binary32 (UnpackedFloat.sub .binary32 a.toModel.unpack b.toModel.unpack)) := rfl

theorem unpack_mul (a b : Float32) : (a * b).toModel.unpack = unpack .binary32
    (pack .binary32 (UnpackedFloat.mul .binary32 a.toModel.unpack b.toModel.unpack)) := rfl

theorem unpack_div (a b : Float32) : (a / b).toModel.unpack = unpack .binary32
    (pack .binary32 (UnpackedFloat.div .binary32 a.toModel.unpack b.toModel.unpack)) := rfl

theorem isNaN_of_unpack {u : UnpackedFloat}
    (read : a.toModel.unpack = unpack .binary32 (pack .binary32 u)) (none : u = .notANumber) :
    a.isNaN = true := by
  rw [isNaN_iff, read, none]
  exact unpack_pack_of_not_finite rfl

theorem isNaN_add (ha : a.isNaN = true) (b : Float32) : (a + b).isNaN = true := by
  apply isNaN_of_unpack (unpack_add a b)
  rw [isNaN_iff.mp ha]
  cases b.toModel.unpack <;> rfl

theorem isNaN_sub (ha : a.isNaN = true) (b : Float32) : (a - b).isNaN = true := by
  apply isNaN_of_unpack (unpack_sub a b)
  rw [isNaN_iff.mp ha]
  cases b.toModel.unpack <;> rfl

theorem isNaN_mul (a : Float32) (hb : b.isNaN = true) : (a * b).isNaN = true := by
  apply isNaN_of_unpack (unpack_mul a b)
  rw [isNaN_iff.mp hb]
  cases a.toModel.unpack <;> rfl

theorem isNaN_div (ha : a.isNaN = true) (b : Float32) : (a / b).isNaN = true := by
  apply isNaN_of_unpack (unpack_div a b)
  rw [isNaN_iff.mp ha]
  cases b.toModel.unpack <;> rfl

theorem round_of_not_finite (h : a.isFinite = false) : round a = a := by
  rw [round]
  simp only [h, Bool.false_and, Bool.false_eq_true, if_false]

theorem not_finite_of_isNaN (ha : a.isNaN = true) : a.isFinite = false := by
  show a.toModel.unpack.isFinite = false
  rw [isNaN_iff.mp ha]
  rfl

theorem unpack_infinity_of_not_finite (finite : a.isFinite = false)
    (number : a.toModel.unpack ≠ .notANumber) : ∃ s, a.toModel.unpack = .infinity s := by
  have finite : a.toModel.unpack.isFinite = false := finite
  generalize a.toModel.unpack = u at number finite
  cases u with
  | infinity s => exact ⟨s, rfl⟩
  | notANumber => exact absurd rfl number
  | zero s => cases finite
  | finite s m e positive => cases finite

theorem isNaN_round (ha : a.isNaN = true) : (round a).isNaN = true := by
  rw [round_of_not_finite (not_finite_of_isNaN ha)]
  exact ha

theorem isNaN_clamp (ha : a.isNaN = true) (lo hi : Float32) :
    (Scalar.clamp lo hi a).isNaN = true := by
  have below : ¬Scalar.lt a lo = true := by
    rw [lt_iff_compare, isNaN_iff.mp ha]
    cases lo.toModel.unpack <;> simp [UnpackedFloat.compare]
  have above : ¬Scalar.lt hi a = true := by
    rw [lt_iff_compare, isNaN_iff.mp ha]
    cases hi.toModel.unpack <;> simp [UnpackedFloat.compare]
  rw [Scalar.clamp, if_neg below, if_neg above]
  exact ha

theorem isNaN_requantized {o lo hi : Float32} (ha : a.isNaN = true) :
    (Scalar.clamp lo hi (round (a + o))).isNaN = true :=
  isNaN_clamp (isNaN_round (isNaN_add ha o)) lo hi

theorem isNaN_mul_div_infinity (ha : a.isInf = true) (hc : c.isInf = true) (b : Float32) :
    (a * b / c).isNaN = true := by
  obtain ⟨s, read⟩ := isInf_iff.mp ha
  obtain ⟨r, divisor⟩ := isInf_iff.mp hc
  have product : (∃ t, (a * b).toModel.unpack = .infinity t) ∨
      (a * b).toModel.unpack = .notANumber := by
    rw [unpack_mul, read]
    cases b.toModel.unpack with
    | infinity t => exact .inl ⟨s * t, unpack_pack_of_not_finite rfl⟩
    | finite t m e positive => exact .inl ⟨s * t, unpack_pack_of_not_finite rfl⟩
    | zero t => exact .inr (unpack_pack_of_not_finite rfl)
    | notANumber => exact .inr (unpack_pack_of_not_finite rfl)
  apply isNaN_of_unpack (unpack_div (a * b) c)
  rcases product with ⟨t, product⟩ | product
  · rw [product, divisor]
    rfl
  · rw [product]
    rfl

theorem unpack_eq_zero (finite : a.isFinite = true) (zero : value a = 0) :
    ∃ s, a.toModel.unpack = .zero s := by
  have form := canonical_unpack finite
  rw [zero] at form
  generalize a.toModel.unpack = u at form
  generalize none : (0 : ℚ) = v at form
  cases form with
  | zero s => exact ⟨s, rfl⟩
  | @finite s m e positive _ _ _ =>
    have size : (0 : ℚ) < m * 2 ^ e := mul_pos (by exact_mod_cast positive) (two_zpow_pos e)
    cases s <;> simp only [signed] at none <;> linarith

theorem isNaN_mul_div_zero (ha : a.isFinite = true) (zero : value a = 0) (hc : c.isFinite = true)
    (zero' : value c = 0) (b : Float32) : (a * b / c).isNaN = true := by
  obtain ⟨s, read⟩ := unpack_eq_zero ha zero
  obtain ⟨r, divisor⟩ := unpack_eq_zero hc zero'
  have product : (∃ t, (a * b).toModel.unpack = .zero t) ∨
      (a * b).toModel.unpack = .notANumber := by
    rw [unpack_mul, read]
    cases b.toModel.unpack with
    | zero t => exact .inl ⟨s * t, unpack_packedZero _⟩
    | finite t m e positive => exact .inl ⟨s * t, unpack_packedZero _⟩
    | infinity t => exact .inr (unpack_pack_of_not_finite rfl)
    | notANumber => exact .inr (unpack_pack_of_not_finite rfl)
  apply isNaN_of_unpack (unpack_div (a * b) c)
  rcases product with ⟨t, product⟩ | product
  · rw [product, divisor]
    rfl
  · rw [product]
    rfl

theorem unpack_infinity_div {s : Sign} (read : a.toModel.unpack = .infinity s)
    (hc : c.isFinite = true) (nonzero : value c ≠ 0) :
    (a / c).toModel.unpack = .infinity (s / signOf (value c)) := by
  have form := canonical_unpack hc
  rw [unpack_div, read]
  generalize c.toModel.unpack = u, value c = v at form nonzero
  cases form with
  | zero t => exact absurd rfl nonzero
  | @finite t m e positive _ _ _ =>
    have size : (0 : ℚ) < m * 2 ^ e := mul_pos (by exact_mod_cast positive) (two_zpow_pos e)
    rw [signOf_signed t size]
    exact unpack_pack_of_not_finite rfl

theorem unpack_infinity_add {s : Sign} (read : a.toModel.unpack = .infinity s)
    (hb : b.isFinite = true) : (a + b).toModel.unpack = .infinity s := by
  have form := canonical_unpack hb
  rw [unpack_add, read]
  generalize b.toModel.unpack = u, value b = v at form
  cases form <;> exact unpack_pack_of_not_finite rfl

theorem not_finite_of_infinity {s : Sign} (read : a.toModel.unpack = .infinity s) :
    a.isFinite = false := by
  show a.toModel.unpack.isFinite = false
  rw [read]
  rfl

/-- Equal scales are both infinite, or finite with one value. -/
theorem infinite_or_finite_of_beq (same : (a == b) = true) :
    (a.isInf = true ∧ b.isInf = true) ∨
      (a.isFinite = true ∧ b.isFinite = true ∧ value a = value b) := by
  rw [beq_iff, compare_eq_iff] at same
  obtain ⟨number, same | ⟨⟨s, ha⟩, t, hb⟩⟩ := same
  · cases finite : a.isFinite with
    | true =>
      have finite' : b.toModel.unpack.isFinite = true := same ▸ finite
      exact .inr ⟨rfl, finite', congrArg valueOf same⟩
    | false =>
      left
      rw [isInf_iff, isInf_iff, ← same, and_self]
      exact unpack_infinity_of_not_finite finite number
  · right
    refine ⟨?_, ?_, ?_⟩
    · show a.toModel.unpack.isFinite = true
      rw [ha]
      rfl
    · show b.toModel.unpack.isFinite = true
      rw [hb]
      rfl
    · rw [value, value, ha, hb]
      rfl

end

/-! ## Elements that are stored -/

/-- The least and the greatest stored integer. -/
def least : Float32 := ((-128 : Int) : Float32)

def greatest : Float32 := ((127 : Int) : Float32)

theorem value_least : least.isFinite = true ∧ value least = -128 := by
  have bound := value_ofInt (n := -128) (by norm_num)
  rwa [Int.cast_neg, Int.cast_ofNat] at bound

theorem value_greatest : greatest.isFinite = true ∧ value greatest = 127 := by
  have bound := value_ofInt (n := 127) (by norm_num)
  rwa [Int.cast_ofNat] at bound

theorem value_clamp {z : Float32} {k : ℤ} (finite : z.isFinite = true) (whole : value z = k) :
    (Scalar.clamp least greatest z).isFinite = true ∧
      value (Scalar.clamp least greatest z) = (max (-128) (min 127 k) : ℤ) := by
  have below := lt_iff_value finite value_least.1
  have above := lt_iff_value value_greatest.1 finite
  rw [whole, value_least.2] at below
  rw [whole, value_greatest.2] at above
  have below : Scalar.lt z least = true ↔ k < -128 := by
    rw [below]
    exact_mod_cast Iff.rfl
  have above : Scalar.lt greatest z = true ↔ 127 < k := by
    rw [above]
    exact_mod_cast Iff.rfl
  rw [Scalar.clamp]
  split_ifs with low high
  · rw [below] at low
    have bound : max (-128) (min 127 k) = -128 := by omega
    rw [bound, Int.cast_neg, Int.cast_ofNat]
    exact value_least
  · rw [above] at high
    have bound : max (-128) (min 127 k) = 127 := by omega
    rw [bound, Int.cast_ofNat]
    exact value_greatest
  · rw [below] at low
    rw [above] at high
    have bound : max (-128) (min 127 k) = k := by omega
    rw [bound]
    exact ⟨finite, whole⟩

/-- The last stored integer on one side. -/
def extreme : Sign → Float32
  | .negative => least
  | .positive => greatest

theorem clamp_infinity {z : Float32} {s : Sign} (h : z.toModel.unpack = .infinity s) :
    Scalar.clamp least greatest z = extreme s := by
  have low := canonical_unpack value_least.1
  have high := canonical_unpack value_greatest.1
  have below : Scalar.lt z least = true ↔ s = .negative := by
    rw [lt_iff_compare, h]
    generalize least.toModel.unpack = u, value least = v at low
    cases low <;> cases s <;> simp [UnpackedFloat.compare]
  have above : Scalar.lt greatest z = true ↔ s = .positive := by
    rw [lt_iff_compare, h]
    generalize greatest.toModel.unpack = u, value greatest = v at high
    cases high with
    | zero t => cases s <;> simp [UnpackedFloat.compare]
    | finite t => cases s <;> cases t <;> simp [UnpackedFloat.compare]
  rw [Scalar.clamp]
  cases s with
  | negative => rw [if_pos (below.mpr rfl), extreme]
  | positive =>
    have notBelow : ¬Scalar.lt z least = true := fun low => Sign.noConfusion (below.mp low)
    rw [if_neg notBelow, if_pos (above.mpr rfl), extreme]

/-- What can be stored as a quantized element. -/
def Storable (q : Float32) : Prop :=
  q.isNaN = true ∨ q.isFinite = true ∧ ∃ k : ℤ, value q = k ∧ -128 ≤ k ∧ k ≤ 127

theorem storable_least : Storable least :=
  .inr ⟨value_least.1, -128, by rw [value_least.2]; norm_num, le_rfl, by norm_num⟩

theorem storable_greatest : Storable greatest :=
  .inr ⟨value_greatest.1, 127, by rw [value_greatest.2]; norm_num, by norm_num, le_rfl⟩

theorem storable_clamp_round (x : Float32) : Storable (Scalar.clamp least greatest (round x)) := by
  cases finite : x.isFinite with
  | true =>
    obtain ⟨finite', k, whole, -⟩ := round_spec finite
    obtain ⟨finite'', bounded⟩ := value_clamp finite' whole
    exact .inr ⟨finite'', _, bounded, by omega, by omega⟩
  | false =>
    rw [round_of_not_finite finite]
    by_cases number : x.isNaN = true
    · exact .inl (isNaN_clamp number _ _)
    · obtain ⟨s, read⟩ := unpack_infinity_of_not_finite finite (mt isNaN_iff.mpr number)
      rw [clamp_infinity read]
      cases s
      · exact storable_least
      · exact storable_greatest

/-! ## There and back -/

/-- A quotient that is as near to an integer as one product and its rounding allow is rounded to
within a quarter of it. -/
theorem Nearest.quarter {n : ℤ} {x v : ℚ} (h : Nearest x v) (small : |n| < 2 ^ 22)
    (close : |x - n| ≤ |(n : ℚ)| * 2 ^ (-24 : ℤ)) : |v - n| ≤ 1 / 4 := by
  have member : (n : ℚ) ∈ Grid := int_mem_grid (by omega)
  have few : |(n : ℚ)| < 2 ^ 22 := by exact_mod_cast small
  have twice : |v - n| ≤ |(n : ℚ)| * 2 ^ (-23 : ℤ) := by
    have double := h.abs_sub_le_double member
    norm_num at close ⊢
    linarith
  by_cases half : |n| ≤ 2 ^ 21
  · have bound : |(n : ℚ)| ≤ 2 ^ 21 := by exact_mod_cast half
    norm_num at twice bound ⊢
    linarith
  · -- beyond `2 ^ 21` only quarters are left
    have large : (2 : ℚ) ^ 21 + 1 ≤ |(n : ℚ)| := by exact_mod_cast (by omega : 2 ^ 21 + 1 ≤ |n|)
    have below : |v - n| < 1 / 2 := by
      norm_num at twice few ⊢
      linarith
    have size : 2 ^ 23 / 2 ^ 2 ≤ |v| := by
      have apart := abs_sub_abs_le_abs_sub (n : ℚ) v
      rw [abs_sub_comm] at apart
      norm_num at large ⊢
      linarith
    obtain ⟨k, rfl⟩ := fraction_of_mem_grid 2 h.mem size
    have quarters : |k - 4 * n| < 2 := by
      have scaled : |(k : ℚ) - 4 * n| < 2 := by
        rw [show (k : ℚ) - 4 * n = 4 * (k / 2 ^ 2 - n) by ring, abs_mul]
        norm_num at below ⊢
        linarith
      exact_mod_cast scaled
    have one : |(k : ℚ) - 4 * n| ≤ 1 := by exact_mod_cast (by omega : |k - 4 * n| ≤ 1)
    rw [show (k : ℚ) / 2 ^ 2 - n = (k - 4 * n) / 4 by ring, abs_div]
    norm_num
    linarith

/-- A distance from the offset with at most 22 digits is exact. -/
theorem value_distance {q : Float32} {k o : ℤ} (hq : q.isFinite = true) (hk : value q = k)
    (least : -128 ≤ k) (greatest : k ≤ 127) (near : |k - o| < 2 ^ 22) :
    (q - Float32.ofInt o).isFinite = true ∧ value (q - Float32.ofInt o) = (k - o : ℤ) := by
  obtain ⟨finite, exact_⟩ := value_ofInt (n := o) (by rw [abs_lt] at near; rw [abs_le]; omega)
  have difference := rounds_sub hq finite
  rw [hk, exact_, ← Int.cast_sub] at difference
  refine difference.kept (int_mem_grid (by omega)) ?_
  exact_mod_cast near.trans (by norm_num)

theorem exists_units {s : Float32} (hs : s.isFinite = true) (n : ℤ) :
    ∃ k : ℤ, value s * n = k * 2 ^ (-149 : ℤ) := by
  have scale : (1 : ℚ) / 2 ^ 149 = 2 ^ (-149 : ℤ) := by norm_num
  refine ⟨(sign s).apply (units s) * n, ?_⟩
  rw [value_eq_units hs, ← scale]
  cases sign s
  · simp only [signed, Sign.apply]
    push_cast
    ring
  · simp only [signed, Sign.apply]
    push_cast
    ring

/-- Dividing a rounded product by the scale again is off by half of the last digit of the other
factor, before the quotient is rounded. -/
theorem quotient_near {s s' d : Float32} {n : ℤ} (hs : s.isFinite = true) (hs' : s'.isFinite = true)
    (same : value s' = value s) (nonzero : value s ≠ 0) (hd : d.isFinite = true) (hn : value d = n)
    (bound : |n| ≤ 2 ^ 40) (finite : (s * d).isFinite = true) :
    (s * d / s').isFinite = true ∧ ∃ x : ℚ, Nearest x (value (s * d / s')) ∧
      |x - n| ≤ |(n : ℚ)| * 2 ^ (-24 : ℤ) := by
  have product := (rounds_mul hs hd).nearest finite
  rw [hn] at product
  obtain ⟨k, whole⟩ := exists_units hs n
  have off := product.relative whole
  have size := abs_pos.mpr nonzero
  have close : |value (s * d) / value s - n| ≤ |(n : ℚ)| * 2 ^ (-24 : ℤ) := by
    have scaled : value (s * d) / value s - n = (value (s * d) - value s * n) / value s := by
      field_simp
    rw [scaled, abs_div, div_le_iff₀ size]
    rw [abs_mul] at off
    linarith
  have quotient := rounds_div finite hs' (same ▸ nonzero)
  rw [same] at quotient
  have member : ((1 : ℤ) : ℚ) * 2 ^ (41 : ℤ) ∈ Grid := scaled_mem_grid (by norm_num) (by norm_num)
  obtain ⟨hy, nearest⟩ := quotient.within member (by
    have few : |(n : ℚ)| ≤ 2 ^ 40 := by exact_mod_cast bound
    have reach := abs_sub_abs_le_abs_sub (value (s * d) / value s) n
    norm_num at close few ⊢
    linarith) (by norm_num)
  exact ⟨hy, _, nearest, close⟩

/-- Quarters beside an integer in range are in the grid, so no sum is rounded across them. -/
theorem sum_quarter {y f : Float32} {k o : ℤ} (hy : y.isFinite = true) (hf : f.isFinite = true)
    (offset : value f = o) (low : -128 ≤ k) (high : k ≤ 127)
    (around : |value y + o - k| ≤ 1 / 4) :
    (y + f).isFinite = true ∧ |value (y + f) - k| ≤ 1 / 4 := by
  have sum := rounds_add hy hf
  rw [offset] at sum
  have corner : ∀ j : ℤ, |j| ≤ 2 ^ 24 → (j : ℚ) / 4 ∈ Grid := fun j hj => by
    have member := scaled_mem_grid (e := -2) hj (by norm_num)
    rwa [show (2 : ℚ) ^ (-2 : ℤ) = 1 / 4 by norm_num, mul_one_div] at member
  have lowCast : (-128 : ℚ) ≤ k := by exact_mod_cast low
  have highCast : (k : ℚ) ≤ 127 := by exact_mod_cast high
  rw [abs_le] at around
  obtain ⟨hw, nearest⟩ := sum.within (z := (129 : ℤ)) (int_mem_grid (by norm_num))
    (by rw [abs_le]; push_cast; constructor <;> linarith) (by norm_num)
  have above := nearest.ge_of_ge (corner (4 * k - 1) (by rw [abs_le]; omega))
    (by push_cast; linarith)
  have below := nearest.le_of_le (corner (4 * k + 1) (by rw [abs_le]; omega))
    (by push_cast; linarith)
  push_cast at above below
  refine ⟨hw, ?_⟩
  rw [abs_le]
  constructor <;> linarith

section
variable {s s' q : Float32} {k o : ℤ} (hs : s.isFinite = true) (hs' : s'.isFinite = true)
  (same : value s' = value s) (nonzero : value s ≠ 0) (hq : q.isFinite = true) (hk : value q = k)
  (low : -128 ≤ k) (high : k ≤ 127)
include hs hs' same nonzero hq hk low high

/-- The same integer comes back. -/
theorem requantized (near : |k - o| < 2 ^ 22)
    (finite : (s * (q - Float32.ofInt o)).isFinite = true) :
    (Scalar.clamp least greatest
      (round (s * (q - Float32.ofInt o) / s' + Float32.ofInt o)) == q) = true := by
  obtain ⟨hd, distance⟩ := value_distance hq hk low high near
  obtain ⟨ho, offset⟩ := value_ofInt (n := o) (by rw [abs_lt] at near; rw [abs_le]; omega)
  generalize q - Float32.ofInt o = d at hd distance finite ⊢
  obtain ⟨hy, x, nearest, close⟩ :=
    quotient_near hs hs' same nonzero hd distance (by omega) finite
  have quarter := nearest.quarter near close
  generalize s * d / s' = y at hy quarter ⊢
  have around : |value y + o - k| ≤ 1 / 4 := by
    rw [show value y + o - k = value y - (k - o : ℤ) by push_cast; ring]
    exact quarter
  obtain ⟨hw, beside⟩ := sum_quarter hy ho offset low high around
  generalize y + Float32.ofInt o = w at hw beside ⊢
  -- rounding finds the integer, which is in range
  obtain ⟨hr, j, whole, half⟩ := round_spec hw
  have same : j = k := by
    rw [abs_le] at half beside
    have upper : (j : ℚ) < k + 1 := by linarith
    have lower : (k : ℚ) < j + 1 := by linarith
    have upper : j < k + 1 := by exact_mod_cast upper
    have lower : k < j + 1 := by exact_mod_cast lower
    omega
  obtain ⟨hc, clamped⟩ := value_clamp hr whole
  refine (beq_iff_value hc hq).mpr ?_
  have bound : max (-128) (min 127 j) = k := by omega
  rw [clamped, bound, hk]

end

/-! ## Distances with more digits -/

/-- What is nearest to an integer is an integer. -/
theorem Nearest.whole {n : ℤ} {v : ℚ} (h : Nearest n v) :
    ∃ j : ℤ, v = j ∧ |(j : ℚ) - n| ≤ |(n : ℚ)| * 2 ^ (-24 : ℤ) := by
  have integral : ∃ j : ℤ, v = j := by
    by_cases few : |n| ≤ 2 ^ 24
    · exact ⟨n, h.eq_of_mem (int_mem_grid few)⟩
    · have many : (2 : ℚ) ^ 24 ≤ |(n : ℚ)| := by exact_mod_cast (not_le.mp few).le
      have large : 2 ^ 24 ≤ |v| := by
        have member := int_mem_grid (n := 2 ^ 24) (by norm_num)
        push_cast at member
        rcases le_abs.mp many with above | below
        · exact le_abs.mpr (.inl (h.ge_of_ge member above))
        · exact le_abs.mpr (.inr (h.neg.ge_of_ge member below))
      obtain ⟨j, rfl⟩ := fraction_of_mem_grid 0 h.mem (by norm_num at large ⊢; linarith)
      exact ⟨j, by rw [pow_zero, div_one]⟩
  obtain ⟨j, rfl⟩ := integral
  refine ⟨j, rfl, h.relative (k := n * 2 ^ 149) ?_⟩
  have unit : (2 : ℚ) ^ 149 * 2 ^ (-149 : ℤ) = 1 := by norm_num
  rw [Int.cast_mul, Int.cast_pow, Int.cast_ofNat, mul_assoc, unit, mul_one]

/-- The offset and the distance from it are integers, each rounded once. -/
theorem distance_spec {q : Float32} {k o : ℤ} (hq : q.isFinite = true) (hk : value q = k)
    (low : -128 ≤ k) (high : k ≤ 127) (bound : |o| ≤ 2 ^ 31) :
    ∃ j n : ℤ, (Float32.ofInt o).isFinite = true ∧ value (Float32.ofInt o) = j ∧
      Nearest o j ∧ |j| ≤ 2 ^ 31 ∧ (q - Float32.ofInt o).isFinite = true ∧
      value (q - Float32.ofInt o) = n ∧ Nearest (k - j : ℤ) n ∧ |n| ≤ 2 ^ 32 := by
  have power : ∀ e : ℤ, 0 ≤ e → (2 : ℚ) ^ e ∈ Grid := fun e he => by
    have member := scaled_mem_grid (m := 1) (e := e) (by norm_num) (by omega)
    rwa [Int.cast_one, one_mul] at member
  have size : |(o : ℚ)| ≤ 2 ^ (31 : ℤ) := by exact_mod_cast bound
  obtain ⟨ho, offset⟩ := (rounds_ofInt o).within (power 31 (by norm_num)) size (by norm_num)
  have most := offset.abs_bound (power 31 (by norm_num)) size
  obtain ⟨j, whole, -⟩ := offset.whole
  rw [whole] at most offset
  have most : |j| ≤ 2 ^ 31 := by exact_mod_cast most
  have difference := rounds_sub hq ho
  rw [hk, whole, ← Int.cast_sub] at difference
  have size' : |((k - j : ℤ) : ℚ)| ≤ 2 ^ (32 : ℤ) := by
    have few : |k - j| ≤ 2 ^ 32 := by
      rw [abs_le] at most ⊢
      omega
    exact_mod_cast few
  obtain ⟨hd, distance⟩ := difference.within (power 32 (by norm_num)) size' (by norm_num)
  have most' := distance.abs_bound (power 32 (by norm_num)) size'
  obtain ⟨n, whole', -⟩ := distance.whole
  rw [whole'] at most' distance
  exact ⟨j, n, ho, whole, offset, most, hd, whole', distance, by exact_mod_cast most'⟩

/-- The rounded offset is off by no more than the distance of a stored integer from it allows. -/
theorem offset_drift {k o j : ℤ} (low : -128 ≤ k) (high : k ≤ 127) (hj : Nearest o j) :
    |(j : ℚ) - o| ≤ |((k - o : ℤ) : ℚ)| * 2 ^ (-23 : ℤ) := by
  by_cases small : |o| ≤ 2 ^ 24
  · rw [hj.eq_of_mem (int_mem_grid small), sub_self, abs_zero]
    exact mul_nonneg (abs_nonneg _) (two_zpow_pos _).le
  · obtain ⟨j', same, off⟩ := hj.whole
    rw [← same] at off
    have apart := abs_sub_abs_le_abs_sub o k
    have few : |k| ≤ 128 := by rw [abs_le]; omega
    rw [abs_sub_comm] at apart
    have dominated : |o| ≤ 2 * |k - o| := by omega
    have dominated : |(o : ℚ)| ≤ 2 * |((k - o : ℤ) : ℚ)| := by exact_mod_cast dominated
    norm_num at off dominated ⊢
    linarith

/-- The errors of the rounded offset, of the rounded distance and of the quotient, taken together. -/
theorem quotient_drift {k o j n : ℤ} {y : ℚ}
    (shifted : |(j : ℚ) - o| ≤ |((k - o : ℤ) : ℚ)| * 2 ^ (-23 : ℤ)) (hn : Nearest (k - j : ℤ) n)
    (drift : |y - n| ≤ |(n : ℚ)| * 2 ^ (-23 : ℤ)) :
    |y + j - k| ≤ |((k - o : ℤ) : ℚ)| * 2 ^ (-22 : ℤ) := by
  obtain ⟨n', same, off⟩ := hn.whole
  rw [← same] at off
  have gap : |((k - j : ℤ) : ℚ)| ≤ |((k - o : ℤ) : ℚ)| + |(j : ℚ) - o| := by
    rw [show ((k - j : ℤ) : ℚ) = (k - o : ℤ) - ((j : ℚ) - o) by push_cast; ring]
    exact abs_sub _ _
  have size := abs_sub_abs_le_abs_sub (n : ℚ) (k - j : ℤ)
  have around : |y + j - k| ≤ |(n : ℚ)| * 2 ^ (-23 : ℤ) +
      |((k - j : ℤ) : ℚ)| * 2 ^ (-24 : ℤ) := by
    calc |y + j - k| = |(y - n) + (n - (k - j : ℤ))| := by push_cast; ring_nf
      _ ≤ |y - n| + |(n : ℚ) - (k - j : ℤ)| := abs_add_le _ _
      _ ≤ _ := add_le_add drift off
  have positive : 0 ≤ |(k : ℚ) - o| := abs_nonneg _
  norm_num at shifted off gap size around ⊢
  linarith

/-- Adding the offset finds something no farther than the integer. -/
theorem sum_drift {y f : Float32} {k o j : ℤ} (hy : y.isFinite = true) (hf : f.isFinite = true)
    (offset : value f = j) (low : -128 ≤ k) (high : k ≤ 127) (bound : |o| ≤ 2 ^ 31)
    (around : |value y + j - k| ≤ |((k - o : ℤ) : ℚ)| * 2 ^ (-22 : ℤ)) :
    (y + f).isFinite = true ∧ |value (y + f) - k| ≤ |((k - o : ℤ) : ℚ)| / 2 ^ 21 := by
  have sum := rounds_add hy hf
  rw [offset] at sum
  have least' : (-128 : ℚ) ≤ k := by exact_mod_cast low
  have greatest' : (k : ℚ) ≤ 127 := by exact_mod_cast high
  have reach : |((k - o : ℤ) : ℚ)| ≤ 2 ^ 32 := by
    have reach : |k - o| ≤ 2 ^ 32 := by
      rw [abs_le] at bound ⊢
      omega
    exact_mod_cast reach
  obtain ⟨hw, nearest⟩ := sum.within (z := (2 ^ 12 : ℤ)) (int_mem_grid (by norm_num)) (by
    rw [abs_le] at around ⊢
    norm_num at around reach ⊢
    constructor <;> linarith) (by norm_num)
  refine ⟨hw, ?_⟩
  have double := nearest.abs_sub_le_double (int_mem_grid (n := k) (by rw [abs_le]; omega))
  norm_num at around ⊢
  linarith

/-- Clamping moves nothing away from an integer in range. -/
theorem abs_clamp_sub_le {k : ℤ} (low : -128 ≤ k) (high : k ≤ 127) (r : ℤ) :
    |max (-128) (min 127 r) - k| ≤ |r - k| := by
  rcases abs_cases (r - k) with ⟨size, sign⟩ | ⟨size, sign⟩
  · rw [size, abs_le]
    omega
  · rw [size, abs_le]
    omega

section
variable {s s' q : Float32} {k o : ℤ} (hs : s.isFinite = true) (hs' : s'.isFinite = true)
  (same : value s' = value s) (nonzero : value s ≠ 0) (hq : q.isFinite = true) (hk : value q = k)
  (low : -128 ≤ k) (high : k ≤ 127) (bound : |o| ≤ 2 ^ 31)
include hs hs' same nonzero hq hk low high bound

/-- The integer that comes back is off by no more than a few of the last digits of the distance. -/
theorem requantized_near (finite : (s * (q - Float32.ofInt o)).isFinite = true) :
    (Scalar.clamp least greatest
        (round (s * (q - Float32.ofInt o) / s' + Float32.ofInt o))).isFinite = true ∧
      ∃ r : ℤ, value (Scalar.clamp least greatest
          (round (s * (q - Float32.ofInt o) / s' + Float32.ofInt o))) = r ∧
        |(r : ℚ) - k| ≤ 1 / 2 + |((k - o : ℤ) : ℚ)| / 2 ^ 21 := by
  obtain ⟨j, n, ho, offset, hj, few, hd, distance, hn, few'⟩ := distance_spec hq hk low high bound
  generalize q - Float32.ofInt o = d at hd distance finite ⊢
  obtain ⟨hy, x, nearest, close⟩ :=
    quotient_near hs hs' same nonzero hd distance (few'.trans (by norm_num)) finite
  generalize s * d / s' = y at hy nearest ⊢
  have drift : |value y - n| ≤ |(n : ℚ)| * 2 ^ (-23 : ℤ) := by
    have double := nearest.abs_sub_le_double (distance ▸ value_mem_grid hd)
    norm_num at close ⊢
    linarith
  have around := quotient_drift (offset_drift low high hj) hn drift
  obtain ⟨hw, back⟩ := sum_drift hy ho offset low high bound around
  obtain ⟨hr, r, whole, half⟩ := round_spec hw
  obtain ⟨hc, clamped⟩ := value_clamp hr whole
  refine ⟨hc, _, clamped, ?_⟩
  have apart := abs_sub_le (r : ℚ) (value (y + Float32.ofInt o)) k
  rw [abs_sub_comm (r : ℚ) (value _)] at apart
  calc |((max (-128) (min 127 r) : ℤ) : ℚ) - k| ≤ |(r : ℚ) - k| := by
        exact_mod_cast abs_clamp_sub_le low high r
    _ ≤ 1 / 2 + |((k - o : ℤ) : ℚ)| / 2 ^ 21 := apart.trans (add_le_add half back)

/-- A number too large for a float is stored as the last integer on its side of the offset. -/
theorem saturated (overflow : (s * (q - Float32.ofInt o)).isFinite = false) :
    Scalar.clamp least greatest (round (s * (q - Float32.ofInt o) / s' + Float32.ofInt o)) =
      if o < k then greatest else least := by
  obtain ⟨j, n, ho, -, hj, -, hd, distance, hn, -⟩ := distance_spec hq hk low high bound
  generalize q - Float32.ofInt o = d at hd distance overflow ⊢
  have member : (k : ℚ) ∈ Grid := hk ▸ value_mem_grid hq
  have product := rounds_mul hs hd
  rw [distance] at product
  cases product with
  | finite finite _ => rw [finite] at overflow; cases overflow
  | @infinite v nearest large infinite =>
    have quotient := unpack_infinity_div infinite hs' (same ▸ nonzero)
    -- the distance and its product with the scale have kept their signs
    have apart : (n : ℚ) ≠ 0 := by
      intro zero
      rw [zero, mul_zero] at nearest
      rw [nearest.eq_of_mem zero_mem_grid] at large
      norm_num at large
    have cancel : signOf v / signOf (value s) = signOf n := by
      have large' : v ≠ 0 := by
        rintro rfl
        norm_num at large
      rw [nearest.signOf_eq large', signOf_mul nonzero apart]
      cases signOf (value s) <;> cases signOf n <;> rfl
    rw [same, cancel] at quotient
    have sum := unpack_infinity_add quotient ho
    rw [round_of_not_finite (not_finite_of_infinity sum), clamp_infinity sum]
    by_cases above : o < k
    · have below : (j : ℚ) ≤ k := hj.le_of_le member (by exact_mod_cast above.le)
      have forward : 0 ≤ (n : ℚ) := hn.ge_of_ge zero_mem_grid (by push_cast; linarith)
      rw [if_pos above, signOf, if_neg forward.not_gt, extreme]
    · have below : (k : ℚ) ≤ j := hj.ge_of_ge member (by exact_mod_cast not_lt.mp above)
      have backward : (n : ℚ) ≤ 0 := hn.le_of_le zero_mem_grid (by push_cast; linarith)
      rw [if_neg above, signOf, if_pos (lt_of_le_of_ne backward apart), extreme]

end

end NeuralGraph.Binary32
